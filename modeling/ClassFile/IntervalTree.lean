namespace ClassFile

/-!
# Which intervals contain a point

The endpoints of a list of closed intervals cut the line into elementary
segments: every endpoint by itself and every open gap between neighbours.  An
`IntervalTree` halves the run of segments down to single ones and keeps an
interval at the highest nodes that it covers, so that a point meets each of the
intervals around it at one node on its way from the root.
-/

/-- A closed interval that something is known by.  It is empty when `stop` is
below `start`. -/
structure Interval (ε τ : Type) where
  start : ε
  stop : ε
  item : τ
deriving DecidableEq, Repr

namespace Interval

variable {ε τ : Type} [LE ε] [DecidableLE ε]

def Contains (interval : Interval ε τ) (point : ε) : Prop :=
  interval.start ≤ point ∧ point ≤ interval.stop

instance (interval : Interval ε τ) (point : ε) : Decidable (interval.Contains point) :=
  inferInstanceAs (Decidable (_ ∧ _))

end Interval

inductive Segment (ε : Type)
  | point (p : ε)
  | gap (low high : ε)
deriving DecidableEq, Repr

namespace Segment

variable {ε τ : Type} [LE ε] [DecidableLE ε]

/-- The segment lies inside the closed interval. -/
def within (interval : Interval ε τ) : Segment ε → Bool
  | point p => interval.start ≤ p && p ≤ interval.stop
  | gap low high => interval.start ≤ low && high ≤ interval.stop

/-- The segment lies wholly below `p`. -/
def before (p : ε) : Segment ε → Bool
  | point q => !decide (p ≤ q)
  | gap _ high => high ≤ p

/-- The segment lies wholly above `p`. -/
def after (p : ε) : Segment ε → Bool
  | point q => !decide (q ≤ p)
  | gap low _ => p ≤ low

/-- The segments between increasing endpoints. -/
def between {ε : Type} : List ε → List (Segment ε)
  | [] => []
  | [p] => [point p]
  | p :: q :: rest => point p :: gap p q :: between (q :: rest)

end Segment

/-- A run of segments, known by its first and its last one, with the intervals
kept at it in the order they were given. -/
inductive IntervalTree (ε τ : Type)
  | leaf (segment : Segment ε) (kept : List (Interval ε τ))
  | node (first last : Segment ε) (kept : List (Interval ε τ)) (left right : IntervalTree ε τ)
deriving Repr

namespace IntervalTree

variable {ε τ : Type}

def first : IntervalTree ε τ → Segment ε
  | leaf segment _ => segment
  | node first _ _ _ _ => first

def last : IntervalTree ε τ → Segment ε
  | leaf segment _ => segment
  | node _ last _ _ _ => last

variable [LE ε] [DecidableLE ε]

/-- How an interval relates to the run from `first` to `last`. -/
inductive Placement
  | apart | covers | splits
deriving DecidableEq, Repr

def placement (first last : Segment ε) (interval : Interval ε τ) : Placement :=
  if last.before interval.start || first.after interval.stop then .apart
  else if first.within interval && last.within interval then .covers
  else .splits

/-- Build the tree over a run of segments that begins with `head`. -/
def build (head : Segment ε) (tail : List (Segment ε)) (intervals : List (Interval ε τ)) :
    IntervalTree ε τ :=
  let last := tail.getLast?.getD head
  let kept := intervals.filter fun interval => placement head last interval = .covers
  let passed := intervals.filter fun interval => placement head last interval = .splits
  match _parts : (head :: tail).splitAt ((tail.length + 2) / 2) with
  | (h₁ :: t₁, h₂ :: t₂) => node head last kept (build h₁ t₁ passed) (build h₂ t₂ passed)
  | _ => leaf head kept
termination_by tail.length
decreasing_by
  all_goals
    have left := congrArg (fun pair => pair.1.length) _parts
    have right := congrArg (fun pair => pair.2.length) _parts
    simp only [List.splitAt_eq, List.length_take, List.length_drop, List.length_cons] at left right
    omega

/-- The intervals on the way from a node to the leaf of a point. -/
def descend (p : ε) : IntervalTree ε τ → List (Interval ε τ)
  | leaf _ kept => kept
  | node _ _ kept left right =>
    kept ++ if right.first.after p then left.descend p else right.descend p

/-- The tree over a list of intervals, which is missing when there are none. -/
def ofList? [DecidableEq ε] (intervals : List (Interval ε τ)) : Option (IntervalTree ε τ) :=
  let endpoints := intervals.flatMap fun interval => [interval.start, interval.stop]
  match Segment.between ((endpoints.mergeSort (· ≤ ·)).eraseReps) with
  | [] => none
  | head :: tail => some (build head tail intervals)

/-- The intervals that contain a point, those of larger runs first. -/
def query (tree : IntervalTree ε τ) (p : ε) : List (Interval ε τ) :=
  if tree.first.after p || tree.last.before p then [] else tree.descend p

end IntervalTree
end ClassFile
