import Mathlib.Data.List.Sort
import Mathlib.Order.Basic
import ClassFile.IntervalTree

namespace ClassFile

/-!
# What a query of an interval tree finds

Elementary segments follow each other along the line, so a point of the line
lies in exactly one of them, and the way down to it passes every node that keeps
an interval around the point.  No interval is kept at two nodes of one way, since
it is passed on only from nodes that do not keep it.  Together a query finds
every interval that contains the point once, in whatever order.
-/

namespace Segment

variable {ε τ : Type} [LinearOrder ε]

/-- The point belongs to the segment. -/
def Holds (p : ε) : Segment ε → Prop
  | point q => p = q
  | gap low high => low < p ∧ p < high

/-- One segment ends where another one starts, or before. -/
def Precedes : Segment ε → Segment ε → Prop
  | point a, point b => a < b
  | point a, gap low _ => a ≤ low
  | gap _ high, point b => high ≤ b
  | gap _ high, gap low _ => high ≤ low

/-- The gaps of a run are not empty. -/
def Proper : Segment ε → Prop
  | point _ => True
  | gap low high => low < high

theorem after_of_precedes {p : ε} {earlier later : Segment ε} (holds : earlier.Holds p)
    (precedes : earlier.Precedes later) : later.after p = true := by
  cases earlier <;> cases later <;> simp only [Holds, Precedes, after] at holds precedes ⊢ <;>
    grind

theorem not_after_of_holds {p : ε} {segment : Segment ε} (holds : segment.Holds p) :
    segment.after p = false := by
  cases segment <;> simp only [Holds, after] at holds ⊢ <;> grind

theorem not_after_of_precedes {p : ε} {earlier later : Segment ε} (proper : earlier.Proper)
    (holds : later.Holds p) (precedes : earlier.Precedes later) : earlier.after p = false := by
  cases earlier <;> cases later <;> simp only [Holds, Precedes, Proper, after] at * <;> grind

/-- No point of the segment lies below `q`. -/
def NotBelow (q : ε) : Segment ε → Prop
  | point p => q ≤ p
  | gap low _ => q ≤ low

/-! ## The segments between endpoints -/

theorem notBelow_of_mem_between {first : ε} {rest : List ε}
    (increasing : (first :: rest).Pairwise (· < ·)) {segment : Segment ε}
    (member : segment ∈ between (first :: rest)) : segment.NotBelow first := by
  induction rest generalizing first with
  | nil =>
    obtain rfl := List.mem_singleton.1 member
    exact le_refl first
  | cons second rest ih =>
    obtain ⟨below, increasing⟩ := List.pairwise_cons.1 increasing
    have step : first ≤ second := (below second List.mem_cons_self).le
    rw [between, List.mem_cons, List.mem_cons] at member
    rcases member with rfl | rfl | member
    · exact le_refl first
    · exact le_refl first
    · have later := ih increasing member
      cases segment with
      | point p => exact step.trans later
      | gap low high => exact step.trans later

theorem pairwise_between {endpoints : List ε} (increasing : endpoints.Pairwise (· < ·)) :
    (between endpoints).Pairwise Precedes := by
  fun_induction between endpoints with
  | case1 => exact List.Pairwise.nil
  | case2 p => exact List.pairwise_singleton _ _
  | case3 p q rest ih =>
    obtain ⟨below, increasing⟩ := List.pairwise_cons.1 increasing
    have step : p < q := below q List.mem_cons_self
    have afterGap : ∀ segment ∈ between (q :: rest), (gap p q).Precedes segment := by
      intro segment member
      have later := notBelow_of_mem_between increasing member
      cases segment <;> exact later
    have afterPoint : ∀ segment ∈ between (q :: rest), (point p).Precedes segment := by
      intro segment member
      have later := notBelow_of_mem_between increasing member
      cases segment with
      | point a => exact step.trans_le later
      | gap low high => exact step.le.trans later
    refine List.pairwise_cons.2 ⟨?_, List.pairwise_cons.2 ⟨afterGap, ih increasing⟩⟩
    intro segment member
    rcases List.mem_cons.1 member with rfl | member
    · exact le_refl p
    · exact afterPoint segment member

theorem proper_of_mem_between {endpoints : List ε} (increasing : endpoints.Pairwise (· < ·))
    {segment : Segment ε} (member : segment ∈ between endpoints) : segment.Proper := by
  fun_induction between endpoints with
  | case1 => cases member
  | case2 p =>
    obtain rfl := List.mem_singleton.1 member
    trivial
  | case3 p q rest ih =>
    obtain ⟨below, increasing⟩ := List.pairwise_cons.1 increasing
    rw [List.mem_cons, List.mem_cons] at member
    rcases member with rfl | rfl | member
    · trivial
    · exact below q List.mem_cons_self
    · exact ih increasing member

/-- No endpoint lies inside a gap. -/
theorem endpoint_outside_gap {endpoints : List ε} (increasing : endpoints.Pairwise (· < ·))
    {low high e : ε} (member : gap low high ∈ between endpoints) (endpoint : e ∈ endpoints) :
    e ≤ low ∨ high ≤ e := by
  fun_induction between endpoints with
  | case1 => cases member
  | case2 p => cases List.mem_singleton.1 member
  | case3 p q rest ih =>
    obtain ⟨below, later⟩ := List.pairwise_cons.1 increasing
    rw [List.mem_cons, List.mem_cons] at member
    rcases member with member | member | member
    · cases member
    · cases member
      rcases List.mem_cons.1 endpoint with rfl | endpoint
      · exact Or.inl (le_refl e)
      · rcases List.mem_cons.1 endpoint with rfl | endpoint
        · exact Or.inr (le_refl e)
        · exact Or.inr ((List.pairwise_cons.1 later).1 e endpoint).le
    · rcases List.mem_cons.1 endpoint with rfl | endpoint
      · have start : q ≤ low := notBelow_of_mem_between later member
        exact Or.inl ((below q List.mem_cons_self).le.trans start)
      · exact ih later member endpoint

/-- A point between the first and the last endpoint lies in some segment. -/
theorem exists_holds_between {first p e : ε} {rest : List ε} (endpoint : e ∈ first :: rest)
    (start : first ≤ p) (stop : p ≤ e) : ∃ segment ∈ between (first :: rest), segment.Holds p := by
  induction rest generalizing first with
  | nil =>
    obtain rfl := List.mem_singleton.1 endpoint
    exact ⟨point e, List.mem_singleton_self _, stop.antisymm start⟩
  | cons second rest ih =>
    rcases start.eq_or_lt with rfl | above
    · exact ⟨point first, List.mem_cons_self, rfl⟩
    · rcases lt_or_ge p second with inside | outside
      · exact ⟨gap first second, List.mem_cons_of_mem _ List.mem_cons_self, above, inside⟩
      · rcases List.mem_cons.1 endpoint with rfl | endpoint
        · exact absurd stop (not_le_of_gt above)
        · obtain ⟨segment, member, holds⟩ := ih endpoint outside
          exact ⟨segment, List.mem_cons_of_mem _ (List.mem_cons_of_mem _ member), holds⟩

/-- A point that a segment does not lie below has an endpoint above it. -/
theorem exists_le_of_not_before {endpoints : List ε} {segment : Segment ε} {p : ε}
    (member : segment ∈ between endpoints) (notBefore : segment.before p = false) :
    ∃ e ∈ endpoints, p ≤ e := by
  fun_induction between endpoints with
  | case1 => cases member
  | case2 q =>
    obtain rfl := List.mem_singleton.1 member
    simp only [before, Bool.not_eq_false', decide_eq_true_eq] at notBefore
    exact ⟨q, List.mem_cons_self, notBefore⟩
  | case3 a b rest ih =>
    rw [List.mem_cons, List.mem_cons] at member
    rcases member with rfl | rfl | member
    · simp only [before, Bool.not_eq_false', decide_eq_true_eq] at notBefore
      exact ⟨a, List.mem_cons_self, notBefore⟩
    · simp only [before, decide_eq_false_iff_not, not_le] at notBefore
      exact ⟨b, List.mem_cons_of_mem _ List.mem_cons_self, notBefore.le⟩
    · obtain ⟨e, endpoint, above⟩ := ih member
      exact ⟨e, List.mem_cons_of_mem _ endpoint, above⟩

end Segment

namespace IntervalTree

variable {ε τ : Type}

open Segment

/-- The last segment of a run, as a tree states it. -/
def lastOf (head : Segment ε) (tail : List (Segment ε)) : Segment ε :=
  tail.getLast?.getD head

theorem lastOf_mem (head : Segment ε) (tail : List (Segment ε)) :
    lastOf head tail ∈ head :: tail := by
  rw [lastOf]
  cases found : tail.getLast? with
  | none => exact List.mem_cons_self
  | some last => exact List.mem_cons_of_mem _ (List.mem_of_getLast? found)

variable [LinearOrder ε]

/-! ## Placing intervals at a run -/

/-- No endpoint of the intervals lies inside a gap of the run. -/
def Fits (run : List (Segment ε)) (intervals : List (Interval ε τ)) : Prop :=
  ∀ low high, gap low high ∈ run → ∀ interval ∈ intervals,
    (interval.start ≤ low ∨ high ≤ interval.start) ∧ (interval.stop ≤ low ∨ high ≤ interval.stop)

theorem Fits.subset {run part : List (Segment ε)} {intervals : List (Interval ε τ)}
    {keep : Interval ε τ → Bool} (fits : Fits run intervals) (inside : part ⊆ run) :
    Fits part (intervals.filter keep) := fun low high gap interval member =>
  fits low high (inside gap) interval (List.mem_filter.1 member).1

theorem eq_or_precedes_lastOf {head segment : Segment ε} {tail : List (Segment ε)}
    (ordered : (head :: tail).Pairwise Precedes) (member : segment ∈ head :: tail) :
    segment = lastOf head tail ∨ segment.Precedes (lastOf head tail) := by
  rw [lastOf]
  induction tail generalizing head with
  | nil => exact Or.inl (List.mem_singleton.1 member)
  | cons next tail ih =>
    obtain ⟨below, later⟩ := List.pairwise_cons.1 ordered
    have same : (next :: tail).getLast?.getD head = tail.getLast?.getD next := by
      rw [List.getLast?_cons, Option.getD_some]
    rw [same]
    rcases List.mem_cons.1 member with rfl | member
    · exact Or.inr (below _ (lastOf_mem next tail))
    · exact ih later member

theorem eq_or_precedes_of_mem {head segment : Segment ε} {tail : List (Segment ε)}
    (ordered : (head :: tail).Pairwise Precedes) (member : segment ∈ head :: tail) :
    segment = head ∨ head.Precedes segment := by
  rcases List.mem_cons.1 member with same | later
  · exact Or.inl same
  · exact Or.inr ((List.pairwise_cons.1 ordered).1 segment later)

theorem lt_of_before {p q : ε} {segment last : Segment ε}
    (ordered : segment = last ∨ segment.Precedes last) (holds : segment.Holds p)
    (proper : last.Proper) (before : last.before q = true) : p < q := by
  rcases ordered with rfl | precedes
  · cases segment <;> simp only [Holds, Segment.before] at holds before <;> grind
  · cases segment <;> cases last <;>
      simp only [Holds, Precedes, Segment.before, Proper] at * <;> grind

theorem lt_of_after {p q : ε} {first segment : Segment ε}
    (ordered : segment = first ∨ first.Precedes segment) (holds : segment.Holds p)
    (proper : first.Proper) (after : first.after q = true) : q < p := by
  rcases ordered with rfl | precedes
  · cases segment <;> simp only [Holds, Segment.after] at holds after <;> grind
  · cases segment <;> cases first <;>
      simp only [Holds, Precedes, Segment.after, Proper] at * <;> grind

theorem start_le_of_within {p : ε} {first segment : Segment ε} {interval : Interval ε τ}
    (ordered : segment = first ∨ first.Precedes segment) (holds : segment.Holds p)
    (proper : first.Proper) (within : first.within interval = true) : interval.start ≤ p := by
  rcases ordered with rfl | precedes
  · cases segment <;> simp only [Holds, Segment.within] at holds within <;> grind
  · cases segment <;> cases first <;>
      simp only [Holds, Precedes, Segment.within, Proper] at * <;> grind

theorem le_stop_of_within {p : ε} {segment last : Segment ε} {interval : Interval ε τ}
    (ordered : segment = last ∨ segment.Precedes last) (holds : segment.Holds p)
    (proper : last.Proper) (within : last.within interval = true) : p ≤ interval.stop := by
  rcases ordered with rfl | precedes
  · cases segment <;> simp only [Holds, Segment.within] at holds within <;> grind
  · cases segment <;> cases last <;>
      simp only [Holds, Precedes, Segment.within, Proper] at * <;> grind

/-- A segment around a point of an interval lies within the interval, since the
endpoints of the interval are not inside it. -/
theorem within_of_contains {p : ε} {segment : Segment ε} {interval : Interval ε τ}
    (fits : Fits [segment] [interval]) (holds : segment.Holds p) (contains : interval.Contains p) :
    segment.within interval = true := by
  obtain ⟨start, stop⟩ := contains
  cases segment with
  | point q =>
    obtain rfl : p = q := holds
    simp only [within, start, stop, decide_true, Bool.and_self]
  | gap low high =>
    obtain ⟨above, below⟩ := holds
    have outside := fits low high List.mem_cons_self interval List.mem_cons_self
    have atStart : interval.start ≤ low := by
      rcases outside.1 with left | right
      · exact left
      · exact absurd (right.trans start) (not_le_of_gt below)
    have atStop : high ≤ interval.stop := by
      rcases outside.2 with left | right
      · exact absurd (stop.trans left) (not_le_of_gt above)
      · exact right
    simp only [within, atStart, atStop, decide_true, Bool.and_self]

/-- A run of segments that follow each other, and a point in one of them. -/
structure Around (p : ε) (head : Segment ε) (tail : List (Segment ε)) : Prop where
  ordered : (head :: tail).Pairwise Precedes
  proper : ∀ segment ∈ head :: tail, segment.Proper
  inside : ∃ segment ∈ head :: tail, segment.Holds p

namespace Around

variable {p : ε} {head : Segment ε} {tail : List (Segment ε)} {interval : Interval ε τ}

theorem not_contains_of_apart (around : Around p head tail)
    (apart : placement head (lastOf head tail) interval = .apart) : ¬ interval.Contains p := by
  obtain ⟨segment, member, holds⟩ := around.inside
  rintro ⟨start, stop⟩
  rw [placement] at apart
  split at apart
  · next outside =>
    rcases Bool.or_eq_true_iff.1 outside with before | after
    · have below := lt_of_before (eq_or_precedes_lastOf around.ordered member) holds
        (around.proper _ (lastOf_mem head tail)) before
      exact not_le_of_gt below start
    · have above := lt_of_after (eq_or_precedes_of_mem around.ordered member) holds
        (around.proper _ List.mem_cons_self) after
      exact not_le_of_gt above stop
  · split at apart <;> cases apart

theorem contains_of_covers (around : Around p head tail)
    (covers : placement head (lastOf head tail) interval = .covers) : interval.Contains p := by
  obtain ⟨segment, member, holds⟩ := around.inside
  rw [placement] at covers
  split at covers
  · cases covers
  · split at covers
    · next within =>
      obtain ⟨first, last⟩ := Bool.and_eq_true_iff.1 within
      exact ⟨start_le_of_within (eq_or_precedes_of_mem around.ordered member) holds
          (around.proper _ List.mem_cons_self) first,
        le_stop_of_within (eq_or_precedes_lastOf around.ordered member) holds
          (around.proper _ (lastOf_mem head tail)) last⟩
    · cases covers

/-- A single segment splits no interval around one of its points. -/
theorem not_contains_of_splits (around : Around p head []) (fits : Fits [head] [interval])
    (splits : placement head head interval = .splits) : ¬ interval.Contains p := by
  obtain ⟨segment, member, holds⟩ := around.inside
  obtain rfl := List.mem_singleton.1 member
  intro contains
  have within := within_of_contains fits holds contains
  rw [placement] at splits
  split at splits
  · cases splits
  · rw [within, Bool.and_self, if_pos rfl] at splits
    cases splits

end Around

/-- The intervals around a point are those that cover the run and, of those that
split it, the ones around the point. -/
theorem filter_contains_perm {p : ε} {head : Segment ε} {tail : List (Segment ε)}
    (around : Around p head tail) (intervals : List (Interval ε τ)) :
    (intervals.filter (fun interval => placement head (lastOf head tail) interval = .covers) ++
      (intervals.filter fun interval => placement head (lastOf head tail) interval = .splits).filter
        fun interval => interval.Contains p).Perm
      (intervals.filter fun interval => interval.Contains p) := by
  induction intervals with
  | nil => exact List.Perm.refl _
  | cons interval intervals ih =>
    cases place : placement head (lastOf head tail) interval with
    | apart =>
      have outside := around.not_contains_of_apart place
      simpa [List.filter_cons, place, outside] using ih
    | covers =>
      have inside := around.contains_of_covers place
      simpa [List.filter_cons, place, inside] using ih
    | splits =>
      by_cases inside : interval.Contains p
      · simpa [List.filter_cons, place, inside] using
          List.perm_middle.trans (List.Perm.cons interval ih)
      · simpa [List.filter_cons, place, inside] using ih

/-! ## Descending to a point -/

theorem build_nil (head : Segment ε) (intervals : List (Interval ε τ)) :
    build head [] intervals =
      leaf head (intervals.filter fun interval => placement head head interval = .covers) := by
  rw [build]
  split
  · next parts =>
    simp only [List.length_nil, List.splitAt_eq, Prod.mk.injEq] at parts
    cases parts.2
  · rfl

/-- A run of several segments is halved. -/
theorem build_cons (head next : Segment ε) (rest : List (Segment ε))
    (intervals : List (Interval ε τ)) :
    ∃ front h₂ back, head :: next :: rest = (head :: front) ++ (h₂ :: back) ∧
      build head (next :: rest) intervals =
        let last := lastOf head (next :: rest)
        let passed := intervals.filter fun interval => placement head last interval = .splits
        node head last (intervals.filter fun interval => placement head last interval = .covers)
          (build head front passed) (build h₂ back passed) := by
  rw [build]
  split
  · next h₁ front h₂ back parts =>
    have joined : (h₁ :: front) ++ (h₂ :: back) = head :: next :: rest := by
      have halves := parts
      rw [List.splitAt_eq, Prod.mk.injEq] at halves
      rw [← halves.1, ← halves.2, List.take_append_drop]
    obtain ⟨rfl, -⟩ := List.cons.inj joined
    exact ⟨front, h₂, back, joined.symm, rfl⟩
  · next notSplit =>
    -- Both halves have segments, so the run is always split.
    exfalso
    have middle : 0 < ((next :: rest).length + 2) / 2 := by
      simp only [List.length_cons]
      omega
    have inside : ((next :: rest).length + 2) / 2 < (head :: next :: rest).length := by
      simp only [List.length_cons]
      omega
    have left : (head :: next :: rest).take (((next :: rest).length + 2) / 2) ≠ [] := by
      rw [Ne, List.take_eq_nil_iff, not_or]
      exact ⟨middle.ne', List.cons_ne_nil _ _⟩
    have right : (head :: next :: rest).drop (((next :: rest).length + 2) / 2) ≠ [] := by
      rw [Ne, List.drop_eq_nil_iff]
      exact not_le_of_gt inside
    obtain ⟨h₁, front, took⟩ := List.exists_cons_of_ne_nil left
    obtain ⟨h₂, back, dropped⟩ := List.exists_cons_of_ne_nil right
    refine notSplit h₁ front h₂ back ?_
    rw [List.splitAt_eq, took, dropped]

theorem first_build (head : Segment ε) (tail : List (Segment ε))
    (intervals : List (Interval ε τ)) : (build head tail intervals).first = head := by
  cases tail with
  | nil => rw [build_nil]; rfl
  | cons next rest =>
    obtain ⟨front, h₂, back, -, built⟩ := build_cons head next rest intervals
    rw [built]; rfl

theorem last_build (head : Segment ε) (tail : List (Segment ε))
    (intervals : List (Interval ε τ)) :
    (build head tail intervals).last = lastOf head tail := by
  cases tail with
  | nil => rw [build_nil]; rfl
  | cons next rest =>
    obtain ⟨front, h₂, back, -, built⟩ := build_cons head next rest intervals
    rw [built]; rfl

/-- The tests on the way down lead to the half around the point. -/
theorem Around.half {p : ε} {head h₂ : Segment ε} {tail front back : List (Segment ε)}
    (around : Around p head tail) (joined : head :: tail = (head :: front) ++ (h₂ :: back)) :
    if h₂.after p then Around p head front else Around p h₂ back := by
  obtain ⟨ordered, proper, segment, member, holds⟩ := around
  rw [joined] at ordered proper member
  obtain ⟨left, right, across⟩ := List.pairwise_append.1 ordered
  rcases List.mem_append.1 member with inLeft | inRight
  · rw [if_pos (after_of_precedes holds (across segment inLeft h₂ List.mem_cons_self))]
    exact ⟨left, fun s inside => proper s (List.mem_append_left _ inside), segment, inLeft, holds⟩
  · have notAfter : h₂.after p = false := by
      rcases eq_or_precedes_of_mem right inRight with rfl | precedes
      · exact not_after_of_holds holds
      · have proper₂ := proper h₂ (List.mem_append_right _ List.mem_cons_self)
        exact not_after_of_precedes proper₂ holds precedes
    rw [notAfter, if_neg Bool.false_ne_true]
    exact ⟨right, fun s inside => proper s (List.mem_append_right _ inside), segment, inRight,
      holds⟩

theorem descend_build_perm {p : ε} {head : Segment ε} {tail : List (Segment ε)}
    {intervals : List (Interval ε τ)} (around : Around p head tail)
    (fits : Fits (head :: tail) intervals) :
    ((build head tail intervals).descend p).Perm
      (intervals.filter fun interval => interval.Contains p) := by
  induction length : tail.length using Nat.strong_induction_on
    generalizing head tail intervals with
  | _ n ih =>
    cases tail with
    | nil =>
      rw [build_nil, descend]
      refine List.Perm.of_eq (List.filter_congr fun interval member => ?_)
      have fitsOne : Fits [head] [interval] := fun low high gap other same =>
        List.mem_singleton.1 same ▸ fits low high gap interval member
      have apart : placement head head interval = .apart → ¬interval.Contains p :=
        around.not_contains_of_apart
      have covers : placement head head interval = .covers → interval.Contains p :=
        around.contains_of_covers
      have splits := around.not_contains_of_splits fitsOne
      rw [decide_eq_decide]
      cases place : placement head head interval with
      | apart => exact iff_of_false Placement.noConfusion (apart place)
      | covers => exact iff_of_true rfl (covers place)
      | splits => exact iff_of_false Placement.noConfusion (splits place)
    | cons next rest =>
      obtain ⟨front, h₂, back, joined, built⟩ := build_cons head next rest intervals
      have lengths := congrArg List.length joined
      simp only [List.length_append, List.length_cons] at lengths length
      have half := around.half joined
      rw [built, descend, first_build]
      refine List.Perm.trans (List.Perm.append_left _ ?_) (filter_contains_perm around intervals)
      split
      · next after =>
        rw [if_pos after] at half
        refine ih front.length (by omega) half (fits.subset ?_) rfl
        exact joined ▸ List.subset_append_left (head :: front) (h₂ :: back)
      · next notAfter =>
        rw [if_neg notAfter] at half
        refine ih back.length (by omega) half (fits.subset ?_) rfl
        exact joined ▸ List.subset_append_right (head :: front) (h₂ :: back)

/-! ## The tree over a list of intervals -/

theorem eraseRepsBy_loop {α : Type} (same : α → α → Bool) (a : α) (rest kept : List α) :
    List.eraseRepsBy.loop same a rest kept =
      kept.reverse ++ List.eraseRepsBy.loop same a rest [] := by
  induction rest generalizing a kept with
  | nil => simp [List.eraseRepsBy.loop]
  | cons b rest ih =>
    rw [List.eraseRepsBy.loop, List.eraseRepsBy.loop]
    cases same a b with
    | true => exact ih a kept
    | false =>
      dsimp only
      rw [ih b (a :: kept), ih b [a]]
      simp

theorem eraseReps_cons_cons (a b : ε) (rest : List ε) :
    (a :: b :: rest).eraseReps =
      if a = b then (a :: rest).eraseReps else a :: (b :: rest).eraseReps := by
  simp only [List.eraseReps, List.eraseRepsBy]
  rw [List.eraseRepsBy.loop]
  by_cases same : a = b
  · rw [if_pos same, beq_iff_eq.2 same]
  · rw [if_neg same, beq_eq_false_iff_ne.2 same]
    exact eraseRepsBy_loop _ b rest [a]

/-- Leaving out repetitions of a list in order keeps its elements and makes it
strictly increasing. -/
theorem eraseReps_of_pairwise (a : ε) {rest : List ε} (sorted : (a :: rest).Pairwise (· ≤ ·)) :
    (a :: rest).eraseReps.Pairwise (· < ·) ∧
      ∀ e, e ∈ (a :: rest).eraseReps ↔ e ∈ a :: rest := by
  induction rest generalizing a with
  | nil => exact ⟨List.pairwise_singleton _ _, fun e => Iff.rfl⟩
  | cons b rest ih =>
    obtain ⟨below, later⟩ := List.pairwise_cons.1 sorted
    rw [eraseReps_cons_cons]
    by_cases same : a = b
    · subst same
      rw [if_pos rfl]
      obtain ⟨increasing, members⟩ := ih a later
      refine ⟨increasing, fun e => ?_⟩
      rw [members, List.mem_cons, List.mem_cons, List.mem_cons, or_self_left]
    · rw [if_neg same]
      obtain ⟨increasing, members⟩ := ih b later
      have step : a < b := lt_of_le_of_ne (below b List.mem_cons_self) same
      have above : ∀ e ∈ (b :: rest).eraseReps, a < e := by
        intro e member
        rcases List.mem_cons.1 ((members e).1 member) with rfl | inside
        · exact step
        · exact step.trans_le ((List.pairwise_cons.1 later).1 e inside)
      refine ⟨List.pairwise_cons.2 ⟨above, increasing⟩, fun e => ?_⟩
      rw [List.mem_cons, List.mem_cons, members]

/-- The endpoints of some intervals in increasing order. -/
def endpointsOf (intervals : List (Interval ε τ)) : List ε :=
  ((intervals.flatMap fun interval => [interval.start, interval.stop]).mergeSort
    (· ≤ ·)).eraseReps

theorem endpointsOf_spec (intervals : List (Interval ε τ)) :
    (endpointsOf intervals).Pairwise (· < ·) ∧
      ∀ e, e ∈ endpointsOf intervals ↔
        ∃ interval ∈ intervals, e = interval.start ∨ e = interval.stop := by
  have sorted := List.pairwise_mergeSort' (· ≤ ·)
    (intervals.flatMap fun interval => [interval.start, interval.stop])
  have members : ∀ e, e ∈ ((intervals.flatMap fun interval =>
      [interval.start, interval.stop]).mergeSort (· ≤ ·)) ↔
      ∃ interval ∈ intervals, e = interval.start ∨ e = interval.stop := by
    intro e
    rw [List.mem_mergeSort, List.mem_flatMap]
    simp only [List.mem_cons, List.not_mem_nil, or_false]
  rw [endpointsOf]
  cases ends : (intervals.flatMap fun interval =>
      [interval.start, interval.stop]).mergeSort (· ≤ ·) with
  | nil =>
    rw [ends] at members
    exact ⟨List.Pairwise.nil, members⟩
  | cons a rest =>
    rw [ends] at sorted members
    obtain ⟨increasing, kept⟩ := eraseReps_of_pairwise a sorted
    exact ⟨increasing, fun e => (kept e).trans (members e)⟩

theorem ofList?_eq (intervals : List (Interval ε τ)) :
    ofList? intervals =
      match Segment.between (endpointsOf intervals) with
      | [] => none
      | head :: tail => some (build head tail intervals) :=
  rfl

/-- There is a tree unless there is nothing to put in it. -/
theorem ofList?_eq_none {intervals : List (Interval ε τ)} (none : ofList? intervals = none) :
    intervals = [] := by
  obtain ⟨-, members⟩ := endpointsOf_spec intervals
  rw [ofList?_eq] at none
  cases ends : endpointsOf intervals with
  | nil =>
    rw [ends] at members
    refine List.eq_nil_iff_forall_not_mem.2 fun interval member => ?_
    exact List.not_mem_nil ((members interval.start).2 ⟨interval, member, Or.inl rfl⟩)
  | cons a rest =>
    rw [ends] at none
    cases rest <;> cases none

/-- The run between the endpoints of some intervals surrounds every point from
the first endpoint to some other one. -/
theorem around_of_le {first p e : ε} {rest : List ε} {head : Segment ε} {tail : List (Segment ε)}
    (increasing : (first :: rest).Pairwise (· < ·)) (run : between (first :: rest) = head :: tail)
    (endpoint : e ∈ first :: rest) (start : first ≤ p) (stop : p ≤ e) : Around p head tail where
  ordered := run ▸ pairwise_between increasing
  proper _ member := proper_of_mem_between increasing (run ▸ member)
  inside := run ▸ exists_holds_between endpoint start stop

/-- A query finds every interval around the point exactly once. -/
theorem query_perm {intervals : List (Interval ε τ)} {tree : IntervalTree ε τ}
    (made : ofList? intervals = some tree) (p : ε) :
    (tree.query p).Perm (intervals.filter fun interval => interval.Contains p) := by
  obtain ⟨increasing, members⟩ := endpointsOf_spec intervals
  rw [ofList?_eq] at made
  cases ends : endpointsOf intervals with
  | nil =>
    rw [ends] at made
    cases made
  | cons first rest =>
    rw [ends] at made increasing members
    obtain ⟨tail, run⟩ : ∃ tail, between (first :: rest) = point first :: tail := by
      cases rest with
      | nil => exact ⟨[], rfl⟩
      | cons second rest => exact ⟨_, rfl⟩
    rw [run] at made
    obtain rfl := Option.some.inj made
    have fits : Fits (point first :: tail) intervals := by
      intro low high gap interval member
      rw [← run] at gap
      have start := (members interval.start).2 ⟨interval, member, Or.inl rfl⟩
      have stop := (members interval.stop).2 ⟨interval, member, Or.inr rfl⟩
      exact ⟨endpoint_outside_gap increasing gap start, endpoint_outside_gap increasing gap stop⟩
    rw [query, first_build, last_build]
    by_cases outside : (point first).after p || (lastOf (point first) tail).before p
    · rw [if_pos outside]
      refine List.Perm.of_eq (Eq.symm (List.filter_eq_nil_iff.2 ?_))
      intro interval member contains
      obtain ⟨start, stop⟩ := of_decide_eq_true contains
      have lower := (members interval.start).2 ⟨interval, member, Or.inl rfl⟩
      have upper := (members interval.stop).2 ⟨interval, member, Or.inr rfl⟩
      have atStart : first ≤ p := by
        rcases List.mem_cons.1 lower with same | later
        · exact same ▸ start
        · exact ((List.pairwise_cons.1 increasing).1 _ later).le.trans start
      have around := around_of_le increasing run upper atStart stop
      obtain ⟨segment, inside, holds⟩ := around.inside
      rcases Bool.or_eq_true_iff.1 outside with after | before
      · have above := lt_of_after (eq_or_precedes_of_mem around.ordered inside) holds trivial after
        exact lt_irrefl p above
      · have below := lt_of_before (eq_or_precedes_lastOf around.ordered inside) holds
          (around.proper _ (lastOf_mem _ _)) before
        exact lt_irrefl p below
    · rw [if_neg outside]
      rw [Bool.or_eq_true_iff, not_or, Bool.not_eq_true, Bool.not_eq_true] at outside
      have atStart : first ≤ p := by simpa [Segment.after] using outside.1
      have last : lastOf (point first) tail ∈ between (first :: rest) := run ▸ lastOf_mem _ _
      obtain ⟨e, endpoint, atStop⟩ := exists_le_of_not_before last outside.2
      exact descend_build_perm (around_of_le increasing run endpoint atStart atStop) fits

/-- Whatever intervals there are, repeated, reversed or of one point, a query finds those around
the point, each as often as it is listed. -/
theorem contained_found_once (intervals : List (Interval ε τ)) (p : ε) :
    ((ofList? intervals).elim [] fun tree => tree.query p).Perm
      (intervals.filter fun interval => interval.start ≤ p ∧ p ≤ interval.stop) := by
  cases made : ofList? intervals with
  | none =>
    rw [ofList?_eq_none made]
    exact List.Perm.refl _
  | some tree => exact query_perm made p

end IntervalTree
end ClassFile
