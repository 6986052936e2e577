import ClassFile.Hierarchy.Standard
import ClassFile.Proofs.Bytes.Sequences
import ClassFile.Proofs.Frame.Known
import ClassFile.Proofs.Frame.Naming
import ClassFile.Proofs.Pool.Entries

namespace ClassFile

/-!
# Stack maps read back

The entries of a stack map are read back as the frames that they were made of.
What an entry costs follows from how its frame differs from the one before it, and
of all bytes that read as this frame there, those that are written are the fewest.
-/

section

variable {κ υ : Type}

/-- Bytes that a type takes. -/
def VerificationType.size : VerificationType κ υ → Nat
  | object _ | uninitialized _ => 3
  | _ => 1

def VerificationType.totalSize : List (VerificationType κ υ) → Nat
  | [] => 0
  | type :: types => type.size + totalSize types

theorem VerificationType.totalSize_append (types others : List (VerificationType κ υ)) :
    totalSize (types ++ others) = totalSize types + totalSize others := by
  induction types with
  | nil => exact (Nat.zero_add _).symm
  | cons type types ih =>
    rw [List.cons_append, totalSize, ih, totalSize, Nat.add_assoc]

end

namespace DecodedFrame

variable {pool : Pool} {start : Nat} {bytes : Bytes}

/-! ## Types -/

theorem reads_type {type : VerificationType String Nat} (legible : type.Legible pool)
    (encoded : (type.withClasses pool.classIndex).encode = .ok bytes) :
    Reads (readType pool) start bytes type ∧ bytes.length = type.size := by
  cases type with
  | object name =>
    rcases legible with ⟨index, known⟩
    rcases bind_eq_ok.mp encoded with ⟨front, isIndex, last⟩
    cases last
    rw [Pool.classIndex, known, Option.getD_some] at isIndex
    constructor
    · apply Reads.bind (Reads.u1 7)
      refine (Constant.reads_index isIndex).bind_pure ?_
      exact (Reads.lift (Pool.className_of_classOf known)).bind_nil (.pure _)
    · rw [List.length_cons, Constant.length_index isIndex]
      rfl
  | uninitialized site =>
    cases encoded
    constructor
    · apply Reads.bind (Reads.u1 8)
      exact Reads.map _ (Reads.word legible)
    · rw [List.length_cons, BigEndian.length_encode]
      rfl
  | _ =>
    cases encoded
    exact ⟨(Reads.u1 _).bind_pure (.pure _), rfl⟩

theorem length_flatten {pieces : List Bytes} {types : List (VerificationType String Nat)}
    (each : List.Forall₂ (fun piece type => piece.length = type.size) pieces types) :
    pieces.flatten.length = VerificationType.totalSize types := by
  induction each with
  | nil => rfl
  | cons here _ ih =>
    rw [List.flatten_cons, List.length_append, here, ih, VerificationType.totalSize]

theorem reads_types {types : List (VerificationType String Nat)}
    (legible : ∀ type ∈ types, type.Legible pool)
    (encoded : Encoding.each VerificationType.encode
      (types.map (·.withClasses pool.classIndex)) = .ok bytes) :
    Reads (Reader.many types.length (readType pool)) start bytes types ∧
      bytes.length = VerificationType.totalSize types := by
  rcases Encoding.each_eq_ok.mp encoded with ⟨pieces, each, rfl⟩
  rw [List.forall₂_map_left_iff] at each
  have both : List.Forall₂ (fun piece type => (∀ start, Reads (readType pool) start piece type) ∧
      piece.length = type.size) pieces types := by
    clear encoded
    induction each with
    | nil => exact .nil
    | cons here _ ih =>
      rw [List.forall_mem_cons] at legible
      exact .cons ⟨fun _ => (reads_type legible.1 here).1, (@reads_type _ 0 _ _ legible.1 here).2⟩
        (ih legible.2)
  constructor
  · exact Reads.many (both.imp fun _ _ known => known.1)
  · exact length_flatten (both.imp fun _ _ known => known.2)

theorem reads_sequence {types : List (VerificationType String Nat)}
    (legible : ∀ type ∈ types, type.Legible pool)
    (encoded : Encoding.sequence VerificationType.encode
      (types.map (·.withClasses pool.classIndex)) = .ok bytes) :
    Reads (Reader.word 2 >>= fun count => Reader.many count (readType pool)) start bytes types ∧
      bytes.length = 2 + VerificationType.totalSize types := by
  rcases Encoding.sequence_eq_ok.mp encoded with ⟨small, back, each, rfl⟩
  rw [List.length_map] at small ⊢
  constructor
  · exact (Reads.word small).bind (reads_types legible each).1
  · rw [List.length_append, BigEndian.length_encode, (@reads_types _ 0 _ _ legible each).2]

theorem takes_type (pool : Pool) :
    Takes (readType pool) fun bytes type => bytes.length = type.size := by
  refine Takes.u1.bind ?_
  rintro _ tag rfl
  split
  case h_8 =>
    refine (Takes.word 2).bind ?_
    rintro _ index ⟨rfl, -⟩
    have looked : Takes (liftM (pool.className index) : Reader String) fun bytes _ => bytes = [] :=
      Takes.lift fun _ _ => rfl
    refine looked.bind ?_
    rintro _ name rfl
    exact Takes.pure rfl
  case h_9 =>
    refine (Takes.word 2).map ?_
    rintro _ site ⟨rfl, -⟩
    rfl
  case h_10 => exact Takes.fail
  all_goals exact Takes.pure rfl

theorem takes_types (pool : Pool) (count : Nat) :
    Takes (Reader.many count (readType pool)) fun bytes types =>
      bytes.length = VerificationType.totalSize types ∧ types.length = count := by
  refine ((takes_type pool).many count).mono ?_
  rintro _ types ⟨pieces, each, rfl, counted⟩
  exact ⟨length_flatten each, counted⟩

/-! ## Entries -/

/-- The bytes that an entry takes which turns the locals of one frame into another
frame at a distance. -/
inductive EntryCost (locals : List (VerificationType String Nat)) : Nat → DecodedFrame → Nat → Prop
  | same {delta : Nat} (small : delta < 64) : EntryCost locals delta ⟨locals, []⟩ 1
  | sameOne {delta : Nat} (operand : VerificationType String Nat) (small : delta < 64) :
    EntryCost locals delta ⟨locals, [operand]⟩ (1 + operand.size)
  | sameOneFar {delta : Nat} (operand : VerificationType String Nat) :
    EntryCost locals delta ⟨locals, [operand]⟩ (3 + operand.size)
  | chop {delta count : Nat} (few : count < 4) (enough : count ≤ locals.length) :
    EntryCost locals delta ⟨locals.take (locals.length - count), []⟩ 3
  | append {delta : Nat} {more : List (VerificationType String Nat)} (few : more.length < 4) :
    EntryCost locals delta ⟨locals ++ more, []⟩ (3 + VerificationType.totalSize more)
  | full {delta : Nat} (frame : DecodedFrame) :
    EntryCost locals delta frame
      (7 + VerificationType.totalSize frame.locals + VerificationType.totalSize frame.operands)

theorem takes_entry (pool : Pool) (locals : List (VerificationType String Nat)) :
    Takes (readEntry pool locals) fun bytes answer =>
      EntryCost locals answer.1 answer.2 bytes.length := by
  have costs : ∀ {delta : Nat} {frame : DecodedFrame} {cost length : Nat},
      EntryCost locals delta frame cost → length = cost → EntryCost locals delta frame length :=
    fun known same => same ▸ known
  refine Takes.u1.bind ?_
  rintro _ type rfl
  refine Takes.ite (fun small => Takes.pure (.same small)) fun _ => ?_
  refine Takes.ite (fun small => ?_) fun _ => Takes.ite (fun _ => Takes.fail) fun _ => ?_
  · refine (takes_type pool).bind ?_
    intro back operand size_eq
    refine Takes.pure (costs (.sameOne operand (by omega)) ?_)
    simp only [List.length_append, List.length_singleton, List.length_nil, size_eq]
    omega
  refine (Takes.word 2).bind ?_
  rintro _ delta ⟨rfl, -⟩
  refine Takes.ite (fun _ => ?_) fun _ => Takes.ite (fun _ => ?_) fun _ => Takes.ite
    (fun _ => ?_) fun _ => ?_
  · refine (takes_type pool).bind ?_
    intro back operand size_eq
    refine Takes.pure (costs (.sameOneFar operand) ?_)
    simp only [List.length_append, List.length_singleton, List.length_nil, BigEndian.length_encode,
      size_eq]
    omega
  · refine Takes.ite (fun _ => Takes.fail) fun _ => ?_
    exact Takes.pure (.chop (by omega) (by omega))
  · refine (takes_types pool _).bind ?_
    rintro back more ⟨size_eq, counted⟩
    refine Takes.pure (costs (.append (by omega)) ?_)
    simp only [List.length_append, List.length_singleton, List.length_nil, BigEndian.length_encode,
      size_eq]
    omega
  · refine (Takes.word 2).bind ?_
    rintro _ count ⟨rfl, -⟩
    refine (takes_types pool _).bind ?_
    rintro front types ⟨size_eq, -⟩
    refine (Takes.word 2).bind ?_
    rintro _ count' ⟨rfl, -⟩
    refine (takes_types pool _).bind ?_
    rintro back operands ⟨size_eq', -⟩
    refine Takes.pure (costs (.full ⟨types, operands⟩) ?_)
    simp only [List.length_append, List.length_singleton, List.length_nil, BigEndian.length_encode,
      size_eq, size_eq']
    omega

namespace EntryCost

variable {locals now : List (VerificationType String Nat)} {delta cost : Nat}

theorem of_none (known : EntryCost locals delta ⟨now, []⟩ cost) :
    (now = locals ∧ delta < 64) ∨
      (∃ count < 4, count ≤ locals.length ∧ now = locals.take (locals.length - count) ∧ cost = 3) ∨
      (∃ more, more.length < 4 ∧ now = locals ++ more ∧
        cost = 3 + VerificationType.totalSize more) ∨
      cost = 7 + VerificationType.totalSize now := by
  cases known with
  | same small => exact .inl ⟨rfl, small⟩
  | chop few enough => exact .inr (.inl ⟨_, few, enough, rfl, rfl⟩)
  | append few => exact .inr (.inr (.inl ⟨_, few, rfl, rfl⟩))
  | full => exact .inr (.inr (.inr rfl))

theorem pos {frame : DecodedFrame} (known : EntryCost locals delta frame cost) : 1 ≤ cost := by
  cases known <;> omega

theorem of_one {operand : VerificationType String Nat}
    (known : EntryCost locals delta ⟨now, [operand]⟩ cost) :
    now = locals ∧ (delta < 64 ∧ cost = 1 + operand.size ∨ cost = 3 + operand.size) ∨
      cost = 7 + VerificationType.totalSize now + operand.size := by
  cases known with
  | sameOne operand small => exact .inl ⟨rfl, .inl ⟨small, rfl⟩⟩
  | sameOneFar operand => exact .inl ⟨rfl, .inr rfl⟩
  | full => exact .inr rfl

theorem of_many {operands : List (VerificationType String Nat)} (many : 2 ≤ operands.length)
    (known : EntryCost locals delta ⟨now, operands⟩ cost) :
    cost = 7 + VerificationType.totalSize now + VerificationType.totalSize operands := by
  cases known with
  | full => rfl
  | _ => exact absurd many (by simp)

end EntryCost

/-! ## Writing an entry -/

variable {delta : Nat} {locals : List (VerificationType String Nat)}

theorem toNat_ofNat_of_lt {code : Nat} (small : code < 256) : (UInt8.ofNat code).toNat = code :=
  UInt8.toNat_ofNat_of_lt' small

/-- What is read after the kind and the delta of an entry. -/
def readFar (pool : Pool) (locals : List (VerificationType String Nat)) (kind delta : Nat) :
    Reader (Nat × DecodedFrame) := do
  if kind = 247 then return (delta, ⟨locals, [← readType pool]⟩)
  else if kind < 251 then
    if locals.length < 251 - kind then Reader.fail .chopUnderflow
    else return (delta, ⟨locals.take (locals.length - (251 - kind)), []⟩)
  else if kind < 255 then
    let more ← Reader.many (kind - 251) (readType pool)
    return (delta, ⟨locals ++ more, []⟩)
  else
    let locals ← Reader.many (← Reader.word 2) (readType pool)
    let operands ← Reader.many (← Reader.word 2) (readType pool)
    return (delta, ⟨locals, operands⟩)

theorem reads_far {kind : Nat} {answer : Nat × DecodedFrame} (isKind : 247 ≤ kind ∧ kind < 256)
    (small : delta < 65536)
    (rest : Reads (readFar pool locals kind delta) (start + 3) bytes answer) :
    Reads (readEntry pool locals) start (.ofNat kind :: StackMapEntry.encodeDelta delta ++ bytes)
      answer := by
  rw [List.cons_append]
  apply Reads.bind (Reads.u1 (.ofNat kind))
  simp only [toNat_ofNat_of_lt isKind.2]
  rw [if_neg (by omega), if_neg (by omega), if_neg (by omega)]
  refine Reads.bind (Reads.word small) ?_
  rw [BigEndian.length_encode]
  exact rest

theorem reads_same (small : delta < 65536)
    (encoded : (StackMapEntry.same delta).encode = .ok bytes) :
    Reads (readEntry pool locals) start bytes (delta, ⟨locals, []⟩) ∧
      bytes.length = if delta < 64 then 1 else 3 := by
  cases encoded
  split
  · next near =>
    refine ⟨(Reads.u1 (.ofNat delta)).bind_pure ?_, rfl⟩
    simp only [toNat_ofNat_of_lt (Nat.lt_trans near (by decide)), if_pos near]
    exact .pure _
  · have far := @reads_far pool start [] delta locals 251 (delta, ⟨locals, []⟩) (by decide) small
    rw [List.append_nil] at far
    refine ⟨far ?_, by rw [List.length_cons, StackMapEntry.encodeDelta, BigEndian.length_encode]⟩
    have none : Reads (Reader.many 0 (readType pool)) (start + 3) [] [] := Reads.many .nil
    apply none.bind_nil
    rw [List.append_nil]
    exact .pure _

theorem reads_sameOne (small : delta < 65536) {operand : VerificationType String Nat}
    (legible : operand.Legible pool)
    (encoded : (StackMapEntry.sameOne delta (operand.withClasses pool.classIndex)).encode = .ok bytes) :
    Reads (readEntry pool locals) start bytes (delta, ⟨locals, [operand]⟩) ∧
      bytes.length = (if delta < 64 then 1 else 3) + operand.size := by
  rcases bind_eq_ok.mp encoded with ⟨type, isType, last⟩
  cases last
  split
  · next near =>
    rcases @reads_type pool (start + 1) type operand legible isType with ⟨reads, length_eq⟩
    constructor
    · apply Reads.bind (Reads.u1 (.ofNat (64 + delta)))
      simp only [toNat_ofNat_of_lt (show 64 + delta < 256 by omega)]
      rw [if_neg (by omega), if_pos (by omega), Nat.add_sub_cancel_left]
      exact reads.bind_pure (.pure _)
    · rw [List.length_append, List.length_singleton, length_eq]
  · rcases @reads_type pool (start + 3) type operand legible isType with ⟨reads, length_eq⟩
    constructor
    · exact @reads_far _ _ _ _ _ 247 _ (by decide) small (reads.bind_pure (.pure _))
    · rw [List.length_append, List.length_cons, StackMapEntry.encodeDelta, BigEndian.length_encode,
        length_eq]

theorem reads_chop (small : delta < 65536) {count : Nat} (enough : count ≤ locals.length)
    (encoded : (StackMapEntry.chop delta count).encode = .ok bytes) :
    Reads (readEntry pool locals) start bytes (delta, ⟨locals.take (locals.length - count), []⟩) ∧
      bytes.length = 3 := by
  rw [StackMapEntry.encode] at encoded
  split at encoded
  · next few =>
    cases encoded
    have far := @reads_far pool start [] delta locals (251 - count)
      (delta, ⟨locals.take (locals.length - count), []⟩) (by omega) small
    rw [List.append_nil] at far
    refine ⟨far ?_, by rw [List.length_cons, StackMapEntry.encodeDelta, BigEndian.length_encode]⟩
    have back : 251 - (251 - count) = count := by omega
    rw [readFar, if_neg (by omega), if_pos (by omega), back, if_neg (by omega)]
    exact .pure _
  · cases encoded

theorem reads_append (small : delta < 65536) {more : List (VerificationType String Nat)}
    (legible : ∀ type ∈ more, type.Legible pool)
    (encoded : (StackMapEntry.append delta (more.map (·.withClasses pool.classIndex))).encode =
      .ok bytes) :
    Reads (readEntry pool locals) start bytes (delta, ⟨locals ++ more, []⟩) ∧
      bytes.length = 3 + VerificationType.totalSize more := by
  rw [StackMapEntry.encode, List.length_map] at encoded
  split at encoded
  · next few =>
    rcases bind_eq_ok.mp encoded with ⟨back, each, last⟩
    cases last
    rcases @reads_types pool (start + 3) back more legible each with ⟨reads, length_eq⟩
    constructor
    · refine reads_far (by omega) small ?_
      rw [readFar, if_neg (by omega), if_neg (by omega), if_pos (by omega), Nat.add_sub_cancel_left]
      exact reads.bind_pure (.pure _)
    · rw [List.length_append, List.length_cons, StackMapEntry.encodeDelta, BigEndian.length_encode,
        length_eq]
  · cases encoded

theorem reads_full (small : delta < 65536) {types operands : List (VerificationType String Nat)}
    (legible : ∀ type ∈ types, type.Legible pool)
    (legible' : ∀ type ∈ operands, type.Legible pool)
    (encoded : (StackMapEntry.full delta (types.map (·.withClasses pool.classIndex))
      (operands.map (·.withClasses pool.classIndex))).encode = .ok bytes) :
    Reads (readEntry pool locals) start bytes (delta, ⟨types, operands⟩) ∧
      bytes.length = 7 + VerificationType.totalSize types + VerificationType.totalSize operands := by
  rcases bind_eq_ok.mp encoded with ⟨front, isFront, onward⟩
  rcases bind_eq_ok.mp onward with ⟨back, isBack, last⟩
  cases last
  rcases @reads_sequence pool (start + 3) front types legible isFront with ⟨reads, length_eq⟩
  rcases @reads_sequence pool (start + 3 + front.length) back operands legible' isBack with
    ⟨reads', length_eq'⟩
  constructor
  · rw [List.append_assoc]
    refine @reads_far _ _ _ _ _ 255 _ (by decide) small ?_
    rw [readFar, if_neg (by decide), if_neg (by decide), if_neg (by decide), ← bind_assoc]
    refine reads.bind ?_
    rw [← bind_assoc]
    exact reads'.bind_pure (.pure _)
  · rw [List.length_append, List.length_append, List.length_cons, StackMapEntry.encodeDelta,
      BigEndian.length_encode, length_eq, length_eq']
    omega

/-! ## The entry of a frame -/

/-- A frame by name as it is read. -/
def ofFrame (frame : Frame String Nat) : DecodedFrame :=
  ⟨frame.entries, frame.operands⟩

section

variable {now : List (VerificationType String Nat)}

/-- The bytes written for the locals `now` without operands after the locals of
another frame. -/
theorem none_spec (first : pool.constants.start = 1)
    (legible : ∀ type ∈ now, type.Legible pool) (small : delta < 65536)
    (encoded : StackMapEntry.encode
      (if now.map (·.withClasses pool.classIndex) = locals.map (·.withClasses pool.classIndex) then
          .same delta
        else if now.length < locals.length ∧ locals.length < now.length + 4 ∧
            (now.map (·.withClasses pool.classIndex)).isPrefixOf
              (locals.map (·.withClasses pool.classIndex)) then
          .chop delta (locals.length - now.length)
        else if locals.length < now.length ∧ now.length < locals.length + 4 ∧
            (locals.map (·.withClasses pool.classIndex)).isPrefixOf
              (now.map (·.withClasses pool.classIndex)) then
          .append delta ((now.map (·.withClasses pool.classIndex)).drop locals.length)
        else .full delta (now.map (·.withClasses pool.classIndex)) []) = .ok bytes) :
    Reads (readEntry pool locals) start bytes (delta, ⟨now, []⟩) ∧
      ∀ cost, EntryCost locals delta ⟨now, []⟩ cost → bytes.length ≤ cost := by
  simp only [VerificationType.map_withClasses_eq_iff first legible,
    VerificationType.isPrefixOf_map_withClasses_left first legible,
    VerificationType.isPrefixOf_map_withClasses_right first legible] at encoded
  split at encoded
  · next same =>
    subst same
    rcases reads_same small encoded with ⟨reads, length_eq⟩
    refine ⟨reads, fun cost known => ?_⟩
    rcases known.of_none with ⟨-, near⟩ | ⟨_, -, -, -, cost_eq⟩ | ⟨_, -, -, cost_eq⟩ | cost_eq
    · rw [length_eq, if_pos near]
      exact known.pos
    all_goals
      rw [length_eq]
      split <;> omega
  next different =>
  split at encoded
  · next shorter =>
    rcases shorter with ⟨less, -, starts⟩
    rcases @reads_chop _ start _ _ _ small _ (Nat.sub_le _ _) encoded with ⟨reads, length_eq⟩
    rw [Nat.sub_sub_self (Nat.le_of_lt less), ← List.prefix_iff_eq_take.mp starts] at reads
    refine ⟨reads, fun cost known => ?_⟩
    rcases known.of_none with ⟨same, -⟩ | ⟨_, -, -, -, cost_eq⟩ | ⟨_, -, -, cost_eq⟩ | cost_eq
    · exact absurd same different
    all_goals omega
  next noChop =>
  split at encoded
  · next longer =>
    rcases longer with ⟨less, -, more, rfl⟩
    rw [← List.map_drop, List.drop_left] at encoded
    rcases @reads_append _ start _ _ locals small _
      (fun type member => legible type (List.mem_append_right _ member)) encoded with
      ⟨reads, length_eq⟩
    refine ⟨reads, fun cost known => ?_⟩
    rcases known.of_none with ⟨same, -⟩ | ⟨_, -, -, same, -⟩ | ⟨_, -, same, cost_eq⟩ | cost_eq
    · exact absurd same different
    · rw [same, List.length_take] at less
      omega
    · exact Nat.le_of_eq (by rw [cost_eq, length_eq, List.append_cancel_left same])
    · rw [VerificationType.totalSize_append] at cost_eq
      omega
  next noAppend =>
  rcases @reads_full _ start _ _ locals small now [] legible
    (fun _ member => absurd member List.not_mem_nil) encoded with ⟨reads, length_eq⟩
  refine ⟨reads, fun cost known => ?_⟩
  rcases known.of_none with
    ⟨same, -⟩ | ⟨count, few, enough, rfl, -⟩ | ⟨more, few, rfl, -⟩ | cost_eq
  · exact absurd same different
  · -- Chopping none would leave the locals the same.
    have some_ : count ≠ 0 := by
      rintro rfl
      exact different (List.take_of_length_le (by omega))
    refine absurd ⟨?_, ?_, List.take_prefix _ _⟩ noChop
    all_goals
      rw [List.length_take]
      omega
  · have some_ : more.length ≠ 0 := by
      intro none
      rw [List.length_eq_zero_iff.mp none, List.append_nil] at different
      exact different rfl
    refine absurd ⟨?_, ?_, List.prefix_append _ _⟩ noAppend
    all_goals
      rw [List.length_append]
      omega
  · rw [cost_eq, length_eq]
    exact Nat.le_refl _

theorem one_spec (first : pool.constants.start = 1) {operand : VerificationType String Nat}
    (legible : ∀ type ∈ now, type.Legible pool) (legible' : operand.Legible pool)
    (small : delta < 65536)
    (encoded : StackMapEntry.encode
      (if now.map (·.withClasses pool.classIndex) = locals.map (·.withClasses pool.classIndex) then
          .sameOne delta (operand.withClasses pool.classIndex)
        else .full delta (now.map (·.withClasses pool.classIndex))
          [operand.withClasses pool.classIndex]) = .ok bytes) :
    Reads (readEntry pool locals) start bytes (delta, ⟨now, [operand]⟩) ∧
      ∀ cost, EntryCost locals delta ⟨now, [operand]⟩ cost → bytes.length ≤ cost := by
  simp only [VerificationType.map_withClasses_eq_iff first legible] at encoded
  split at encoded
  · next same =>
    subst same
    rcases reads_sameOne small legible' encoded with ⟨reads, length_eq⟩
    refine ⟨reads, fun cost known => ?_⟩
    rw [length_eq]
    rcases known.of_one with ⟨-, ⟨near, cost_eq⟩ | cost_eq⟩ | cost_eq
    · exact Nat.le_of_eq (by rw [cost_eq, if_pos near])
    all_goals split <;> omega
  next different =>
  rcases @reads_full _ start _ _ locals small now [operand] legible
    (List.forall_mem_singleton.mpr legible') encoded with ⟨reads, length_eq⟩
  refine ⟨reads, fun cost known => ?_⟩
  rcases known.of_one with ⟨same, -⟩ | cost_eq
  · exact absurd same different
  · rw [cost_eq, length_eq]
    exact Nat.le_refl _

end

/-- What is written for a frame after another one reads as that frame, and no bytes
that do are fewer. -/
theorem entryAfter_spec (first : pool.constants.start = 1) {frame previous : Frame String Nat}
    (legible : frame.Legible pool) (small : delta < 65536)
    (encoded : ((frame.withClasses pool.classIndex).entryAfter
      (previous.withClasses pool.classIndex) delta).encode = .ok bytes) :
    Reads (readEntry pool previous.entries) start bytes (delta, ofFrame frame) ∧
      ∀ cost, EntryCost previous.entries delta (ofFrame frame) cost → bytes.length ≤ cost := by
  have legibleLocals : ∀ type ∈ frame.entries, type.Legible pool := fun type member =>
    legible type (.inl (Frame.mem_locals_of_mem_entries member))
  have legibleStack : ∀ type ∈ frame.stack, type.Legible pool := fun type member =>
    legible type (.inr member)
  rw [ofFrame, Frame.operands]
  rw [Frame.entryAfter, Frame.fullEntry, Frame.operands_withClasses, Frame.entries_withClasses,
    Frame.entries_withClasses, Frame.withClasses, Frame.operands] at encoded
  simp only [List.length_map] at encoded
  rcases stack : frame.stack with _ | ⟨operand, _ | ⟨second, rest⟩⟩
  · rw [stack] at encoded
    exact none_spec first legibleLocals small encoded
  · rw [stack] at encoded legibleStack
    exact one_spec first legibleLocals (legibleStack operand List.mem_cons_self) small encoded
  · rw [stack] at encoded legibleStack
    have legibleOperands : ∀ type ∈ (operand :: second :: rest).reverse, type.Legible pool :=
      fun type member => legibleStack type (List.mem_reverse.mp member)
    rcases reads_full small legibleLocals legibleOperands encoded with ⟨reads, length_eq⟩
    refine ⟨reads, fun cost known => ?_⟩
    exact Nat.le_of_eq (by rw [known.of_many (by simp), length_eq])

/-- Entry by entry: whatever bytes read as a frame at its place, after the frame
before it, are no fewer than those of its entry. -/
def EachShortest (pool : Pool) : Option Nat → List (VerificationType String Nat) →
    List StackMapEntry → List (Nat × DecodedFrame) → Prop
  | previous?, locals, entry :: entries, (offset, frame) :: frames =>
    (∀ written, entry.encode = .ok written → ∀ delta others,
      (readEntry pool locals).runOn others = .ok (delta, frame) →
      offsetAfter previous? delta = offset → written.length ≤ others.length) ∧
      EachShortest pool (some offset) frame.locals entries frames
  | _, _, [], [] => True
  | _, _, _, _ => False

end DecodedFrame

namespace StackMap

open DecodedFrame

variable {pool : Pool}

theorem offsetAfter_inj {previous? : Option Nat} {delta other : Nat}
    (same : offsetAfter previous? delta = offsetAfter previous? other) : delta = other := by
  cases previous? with
  | none => exact same
  | some previous =>
    simp only [offsetAfter] at same
    omega

/-- The delta of a frame at an offset. -/
def deltaAfter (previous? : Option Nat) (offset : Nat) : Nat :=
  match previous? with
  | none => offset
  | some previous => offset - previous - 1

theorem offsetAfter_deltaAfter {previous? : Option Nat} {offset : Nat}
    (ahead : ∀ earlier ∈ previous?, earlier < offset) :
    offsetAfter previous? (deltaAfter previous? offset) = offset := by
  cases previous? with
  | none => rfl
  | some earlier =>
    have behind := ahead earlier rfl
    simp only [offsetAfter, deltaAfter]
    omega

theorem entriesAfter_cons {made : Array StackMapEntry} {previous? : Option Nat}
    {previous frame : WrittenFrame} {offset : Nat} {rest : List (Nat × WrittenFrame)} :
    entriesAfter made previous? previous ((offset, frame) :: rest) =
      if deltaAfter previous? offset < 65536 then
        entriesAfter (made.push (frame.entryAfter previous (deltaAfter previous? offset)))
          (some offset) frame rest
      else .error (.codeOverflow offset) := by
  cases previous? <;> rfl

/-- Frames by name are as a whole what is written for them. -/
abbrev coded (pool : Pool) (frames : List (Nat × Frame String Nat)) : List (Nat × WrittenFrame) :=
  frames.map fun placed => (placed.1, placed.2.withClasses pool.classIndex)

/-- Frames as they are read. -/
abbrev decoded (frames : List (Nat × Frame String Nat)) : List (Nat × DecodedFrame) :=
  frames.map fun placed => (placed.1, ofFrame placed.2)

theorem entriesAfter_spec (first : pool.constants.start = 1)
    {frames : List (Nat × Frame String Nat)} (legible : ∀ placed ∈ frames, placed.2.Legible pool)
    {previous? : Option Nat} {previous : Frame String Nat}
    (ahead : ∀ offset ∈ previous?, ∀ placed ∈ frames, offset < placed.1)
    (increasing : frames.Pairwise fun placed later => placed.1 < later.1)
    {made entries : Array StackMapEntry}
    (run : entriesAfter made previous? (previous.withClasses pool.classIndex) (coded pool frames) =
      .ok entries) :
    ∃ added, entries.toList = made.toList ++ added ∧ added.length = frames.length ∧
      EachShortest pool previous? previous.entries added (decoded frames) ∧
      ∀ bytes, Encoding.each StackMapEntry.encode added = .ok bytes → ∀ start already,
        Reads (readOnto pool already previous? previous.entries frames.length) start bytes
          (already ++ (decoded frames).toArray) := by
  induction frames generalizing previous? previous made with
  | nil =>
    cases run
    refine ⟨[], (List.append_nil _).symm, rfl, trivial, ?_⟩
    rintro _ ⟨⟩ start already
    rw [decoded, List.map_nil, Array.append_empty]
    exact .pure already
  | cons placed frames ih =>
    rcases placed with ⟨offset, frame⟩
    rw [List.forall_mem_cons] at legible
    rw [List.pairwise_cons] at increasing
    rw [coded, List.map_cons, entriesAfter_cons] at run
    have place := offsetAfter_deltaAfter fun earlier known =>
      ahead earlier known (offset, frame) List.mem_cons_self
    split at run
    · next small =>
      have onward : ∀ earlier ∈ some offset, ∀ placed ∈ frames, earlier < placed.1 := by
        rintro _ ⟨⟩
        exact increasing.1
      rcases ih legible.2 onward increasing.2 run with ⟨added, whole, counted, shortest, reads⟩
      let entry := (frame.withClasses pool.classIndex).entryAfter
        (previous.withClasses pool.classIndex) (deltaAfter previous? offset)
      refine ⟨entry :: added, ?_, by rw [List.length_cons, List.length_cons, counted],
        ⟨?_, shortest⟩, ?_⟩
      · rw [whole, Array.toList_push, List.append_assoc, List.singleton_append]
      · intro written encoded delta' others read place'
        cases offsetAfter_inj (place.trans place'.symm)
        rcases (takes_entry pool _).runOn read with ⟨taken, rest, rfl, known⟩
        have fewest := (@entryAfter_spec _ 0 _ _ first _ _ legible.1 small encoded).2 _ known
        rw [List.length_append]
        omega
      · intro bytes encoded start already
        rcases Encoding.each_cons_eq_ok.mp encoded with ⟨front, back, isFront, isBack, rfl⟩
        refine ((entryAfter_spec first legible.1 small isFront).1).bind ?_
        dsimp only
        rw [place, decoded, List.map_cons, ← List.push_append_toArray]
        exact reads back isBack _ _
    · cases run

/-! ## The table -/

/-- The frame that the first one is compared with. -/
theorem compared_entryFrame (pool : Pool) (offsets : Array Nat) (method : MethodContext) :
    compared pool offsets method.entryFrame = .ok (method.entryFrame.withClasses pool.classIndex) := by
  have each : List.Forall₂ (fun type written => VerificationType.mapM
      (fun name => (return (pool.classOf? name).getD 0 : Except Fault PoolIndex))
      (siteOffset offsets) type = .ok written)
      method.entryFrame.locals
      (method.entryFrame.locals.map (·.withClasses pool.classIndex)) := by
    rw [List.forall₂_map_right_iff, List.forall₂_same]
    intro type member
    have settled := MethodContext.ne_uninitialized_of_mem member
    cases type with
    | uninitialized site => exact absurd rfl (settled site)
    | _ => rfl
  rw [compared, Frame.mapM, mapM_eq_ok.mpr each]
  rfl

/-- What was written for a frame stands at its offset. -/
def PlacedWritten (offsets : Array Nat) (pool : Pool) (frame : Nat × BlockFrame)
    (written : Nat × WrittenFrame) : Prop :=
  written.1 = frame.1 ∧ FrameWritten offsets pool frame.2 written.2

theorem framesWritten {offsets : Array Nat} {frames : List (Nat × BlockFrame)}
    {placed : List (Nat × WrittenFrame)}
    (each : List.Forall₂ (PlacedWritten offsets pool) frames placed) :
    ∃ named : List (Nat × Frame String Nat),
      (frames.mapM fun (offset, frame) => return (offset, ← sited offsets frame)) = .ok named ∧
        (∀ frame ∈ named, frame.2.Legible pool) ∧ placed = coded pool named := by
  induction each with
  | nil => exact ⟨[], rfl, fun _ member => absurd member List.not_mem_nil, rfl⟩
  | @cons frame written frames placed here _ ih =>
    rcases frame with ⟨offset, frame⟩
    rcases written with ⟨_, written⟩
    rcases here with ⟨rfl, first, isFirst, legible, rfl⟩
    rcases ih with ⟨rest, areRest, legible', rfl⟩
    refine ⟨(_, first) :: rest, ?_, List.forall_mem_cons.mpr ⟨legible, legible'⟩, rfl⟩
    dsimp only at isFirst
    rw [List.mapM_cons, areRest]
    dsimp only
    rw [isFirst]
    rfl

theorem offsets_of_sited {offsets : Array Nat} {frames : List (Nat × BlockFrame)}
    {named : List (Nat × Frame String Nat)}
    (run : (frames.mapM fun (offset, frame) => return (offset, ← sited offsets frame)) = .ok named) :
    frames.map Prod.fst = named.map Prod.fst := by
  rw [mapM_eq_ok] at run
  rw [← List.forall₂_eq_eq_eq, List.forall₂_map_left_iff, List.forall₂_map_right_iff]
  refine run.imp fun frame placed here => ?_
  rcases bind_eq_ok.mp here with ⟨_, -, last⟩
  cases last
  rfl

/-- The frames of a stack map are written one by one. -/
theorem placedWritten_of_run {offsets : Array Nat} {frames : List (Nat × BlockFrame)}
    {placed : List (Nat × WrittenFrame)} {before after : Assembler.State}
    (run : (frames.mapM fun ((offset, frame) : Nat × BlockFrame) =>
      (return (offset, ← written offsets frame) : Assembler (Nat × WrittenFrame))).run before =
        (.ok placed, after)) :
    Pool.Extends before.pool after.pool ∧
      List.Forall₂ (PlacedWritten offsets after.pool) frames placed := by
  refine @run_mapM_eq_ok _ _ _ _ _ _ (fun now later => Pool.Extends now.pool later.pool)
    (fun now => PlacedWritten offsets now.pool) (fun _ => .refl _) .trans
    (fun _ _ _ _ grown here => ⟨here.1, here.2.grow grown⟩) _ ?_ _ _ run
  rintro ⟨offset, frame⟩ now written later run
  rcases run_bind_eq_ok.mp run with ⟨result, _, isWritten, last⟩
  rcases run_pure_eq_ok.mp last with ⟨rfl, rfl⟩
  rcases frameWritten_of_run isWritten with ⟨grown, here⟩
  exact ⟨grown, rfl, here⟩

/-- A stack map that has been made and encoded reads back as its frames, each at its
offset with its locals by value and its operands, where classes stand by name and
sites by offset.  No entry could be shorter. -/
theorem readTable_encodeTable {method : MethodContext} {offsets : Array Nat}
    {frames : List (Nat × BlockFrame)} (increasing : (frames.map Prod.fst).Pairwise (· < ·))
    {before after : Assembler.State} (first : before.pool.constants.start = 1)
    {entries : List StackMapEntry}
    (made : (ofFrames method offsets frames).run before = (.ok entries, after)) {bytes : Bytes}
    (encoded : StackMapEntry.encodeTable entries = .ok bytes) :
    ∃ named : List (Nat × Frame String Nat),
      (frames.mapM fun (offset, frame) => return (offset, ← sited offsets frame)) = .ok named ∧
        (readTable after.pool method.entryFrame.entries).runOn bytes = .ok (decoded named) ∧
        EachShortest after.pool none method.entryFrame.entries entries (decoded named) := by
  rcases run_bind_eq_ok.mp made with ⟨placed, between, isPlaced, onward⟩
  have grown := placedWritten_of_run isPlaced
  rcases framesWritten grown.2 with ⟨named, isNamed, legible, rfl⟩
  rw [run_get_bind] at onward
  rcases run_bind_eq_ok.mp onward with ⟨entry, _, compares, onward'⟩
  rcases run_lift_eq_ok.mp compares with ⟨isEntry, rfl⟩
  rw [compared_entryFrame] at isEntry
  cases isEntry
  rcases run_bind_eq_ok.mp onward' with ⟨array, _, differs, last⟩
  rcases run_lift_eq_ok.mp differs with ⟨isMade, rfl⟩
  rcases run_pure_eq_ok.mp last with ⟨rfl, rfl⟩
  have increasing : named.Pairwise fun placed later => placed.1 < later.1 := by
    rw [← List.pairwise_map, ← offsets_of_sited isNamed]
    exact increasing
  rcases entriesAfter_spec (grown.1.start_eq.trans first) legible (by rintro _ ⟨⟩) increasing
    isMade with ⟨added, whole, counted, shortest, reads⟩
  rw [List.nil_append] at whole
  rw [whole] at encoded ⊢
  refine ⟨named, isNamed, ?_, shortest⟩
  rcases Encoding.sequence_eq_ok.mp encoded with ⟨small, back, each, rfl⟩
  rw [counted] at small ⊢
  apply Reads.runOn
  apply Reads.bind (Reads.word small)
  have frames := (reads back each (0 + (BigEndian.encode 2 named.length).length) #[]).map
    Array.toList
  rw [Array.empty_append, List.toList_toArray, map_eq_pure_bind] at frames
  exact frames

/-- A static method of one integer, and the frames of a handler and of what follows
it, where the integer is gone. -/
def caughtMethod : MethodContext :=
  ⟨"demo/Point", "run", ⟨[.base .int], none⟩, true⟩

def caughtFrames : List (Nat × BlockFrame) :=
  [(8, ⟨[.integer], [.object "java/lang/Exception"]⟩), (9, ⟨[.top], []⟩)]

def caughtPool : Pool :=
  (Pool.empty.append (.utf8 "java/lang/Exception")).append (.cls 1)

theorem caught_made (hierarchy : Hierarchy) :
    (ofFrames caughtMethod #[0, 8, 9] caughtFrames).run ⟨.empty, hierarchy⟩ =
      (.ok [.sameOne 8 (.object 2), .chop 0 1], ⟨caughtPool, hierarchy⟩) := by
  have added : (Pool.addClass "java/lang/Exception").run .empty = (2, caughtPool) := by
    rw [Pool.addClass, StateT.run_bind, Pool.addUtf8,
      Pool.run_intern_of_none ((Pool.slots_eq _ _).trans rfl)]
    exact Pool.run_intern_of_none ((Pool.slots_eq _ _).trans rfl)
  have first : (written #[0, 8, 9] ⟨[.integer], [.object "java/lang/Exception"]⟩).run
      ⟨.empty, hierarchy⟩ = (.ok ⟨[.integer], [.object 2]⟩, ⟨caughtPool, hierarchy⟩) := by
    refine run_bind_eq_ok.mpr ⟨[.integer], _, rfl, run_bind_eq_ok.mpr ⟨[.object 2], _, ?_, rfl⟩⟩
    refine run_bind_eq_ok.mpr ⟨.object 2, ⟨caughtPool, hierarchy⟩, ?_, rfl⟩
    refine run_bind_eq_ok.mpr ⟨2, _, ?_, rfl⟩
    rw [run_symbol, added]
  refine run_bind_eq_ok.mpr
    ⟨[(8, ⟨[.integer], [.object 2]⟩), (9, ⟨[.top], []⟩)], ⟨caughtPool, hierarchy⟩, ?_, rfl⟩
  refine run_bind_eq_ok.mpr ⟨(8, ⟨[.integer], [.object 2]⟩), ⟨caughtPool, hierarchy⟩, ?_, rfl⟩
  exact run_bind_eq_ok.mpr ⟨_, _, first, rfl⟩

/-- The operand is read back with its class, and the integer as left out. -/
theorem readTable_encodeTable_caught :
    (readTable caughtPool caughtMethod.entryFrame.entries).runOn [0, 2, 72, 7, 0, 2, 250, 0, 0] =
      .ok [(8, ⟨[.integer], [.object "java/lang/Exception"]⟩), (9, ⟨[], []⟩)] := by
  rcases readTable_encodeTable (by decide : (caughtFrames.map Prod.fst).Pairwise (· < ·)) rfl
    (caught_made (.ofGraph .standard [])) rfl with ⟨named, isNamed, reads, -⟩
  cases isNamed
  exact reads

end StackMap
end ClassFile
