import ClassFile.Proofs.Code.Instructions
import ClassFile.Proofs.Graph.Branches

namespace ClassFile
namespace Branch

/-!
# Reading branches back

A branch with relative targets is read back with the targets that these lead to.
A switch needs the padding of the offset that it stands at, and a table at least
one target, without which it could not be read.
-/

variable {start : Nat} {bytes : Bytes}

/-- A target at a distance from the branch. -/
def Leads (start : Nat) (distance : Int) (target : Nat) : Prop :=
  (target : Int) = start + distance

/-- A branch that can be read at an offset. -/
def IsReadable {σ ω ν : Type} (start : Nat) : Branch σ ω ν → Prop
  | tableSwitch padding _ _ targets => padding = paddingAt start ∧ targets ≠ []
  | lookupSwitch padding _ pairs => padding = paddingAt start ∧ pairs.length < 2147483648
  | fallThrough _ | stop => False
  | _ => True

theorem IsReadable.width_pos {σ ω ν : Type} {branch : Branch σ ω ν}
    (readable : branch.IsReadable start) : 0 < branch.width := by
  cases branch with
  | ret slot =>
    rw [width]
    split <;> decide
  | fallThrough | stop => cases readable
  | _ =>
    rw [width]
    omega

theorem Renamed.isReadable {σ ω ν σ' ω' ν' : Type} {short : σ → σ' → Prop} {wide : ω → ω' → Prop}
    {next : ν → ν' → Prop} {branch : Branch σ ω ν} {renamed : Branch σ' ω' ν'}
    (same : Renamed short wide next branch renamed) (readable : branch.IsReadable start) :
    renamed.IsReadable start := by
  cases same with
  | tableSwitch padding low default_ taken =>
    refine ⟨readable.1, ?_⟩
    rw [← List.length_pos_iff, ← taken.length_eq]
    exact List.length_pos_iff.2 readable.2
  | lookupSwitch padding default_ taken => exact ⟨readable.1, taken.length_eq ▸ readable.2⟩
  | fallThrough | stop => cases readable
  | _ => trivial

/-! ## Widths -/

theorem length_s4 (value : Int32) : (Encoding.s4 value).length = 4 :=
  BigEndian.length_encode 4 _

theorem encodeOpcode_ret {σ ω ν : Type} (slot : UInt16) :
    (ret slot : Branch σ ω ν).encodeOpcode =
      if slot.toNat ≤ 0xFF then [0xA9] else [Instruction.wideModifier, 0xA9] :=
  rfl

/-- A branch is as wide as its encoding is long. -/
theorem length_encode {branch : Branch Int16 Int32 Unit} (written : branch.encode = .ok bytes) :
    bytes.length = branch.width := by
  rcases bind_eq_ok.1 written with ⟨operands, found, same⟩
  cases pure_eq_ok.1 same
  cases branch with
  | ret slot =>
    cases found
    rw [encodeOpcode_ret, width]
    split <;> rfl
  | tableSwitch padding otherwise low targets =>
    rcases bind_eq_ok.1 found with ⟨high, -, same⟩
    cases pure_eq_ok.1 same
    simp [encodeOpcode, opcode?, width, length_s4]
    omega
  | lookupSwitch padding otherwise pairs =>
    cases found
    simp [encodeOpcode, opcode?, width, length_s4]
    omega
  | returns kind =>
    cases found
    cases kind <;> rfl
  | _ =>
    cases found
    rfl

/-! ## Targets -/

theorem reads_target {distance : Int} {target : Nat} (leads : Leads start distance target)
    (place : Nat) : Reads (Operation.target start distance) place [] target := by
  rw [Operation.target, ← leads, if_pos (Int.natCast_nonneg target)]
  exact .pure _

theorem reads_shortTarget {distance : Int16} {target : Nat}
    (leads : Leads start distance.toInt target) (place : Nat) :
    Reads (Operation.shortTarget start) place (Encoding.s2 distance) target :=
  (Reads.s2 distance).bind_pure (reads_target leads _)

theorem reads_wideTarget {distance : Int32} {target : Nat}
    (leads : Leads start distance.toInt target) (place : Nat) :
    Reads (Operation.wideTarget start) place (Encoding.s4 distance) target :=
  (Reads.s4 distance).bind_pure (reads_target leads _)

theorem reads_padding (start place : Nat) :
    Reads (Operation.readPadding start) place (List.replicate (paddingAt start) 0)
      (paddingAt start) := by
  have taken : Reads (Reader.take (paddingAt start)) place (List.replicate (paddingAt start) 0) _ :=
    Reads.take_eq List.length_replicate
  have read := taken.map List.length
  rwa [List.length_replicate] at read

theorem lastKey_eq {low high : Int32} {count : Nat} (last : lastKey low count = .ok high) : high.toInt = low.toInt + count - 1 := by
  rw [lastKey] at last
  split at last
  · next bounds =>
    rw [← Except.ok.inj last, Int32.toInt_ofInt_of_le]
    · have least := low.le_toInt
      omega
    · omega
  · cases last

/-! ## Opcodes -/

open Operation

theorem reads_alone {opcode : UInt8} {branch : Branch Nat Nat Unit}
    (unlisted : isListed opcode = false) (known : ofOpcode? opcode = some branch) :
    Reads Operation.read start [opcode] (.branch branch) := by
  apply reads_unlisted unlisted
  rw [readBranch, known]
  exact .pure _

/-- The opcode is that of a branch with a target in 16 bits. -/
def IsShort (opcode : UInt8) (jump : Nat → Branch Nat Nat Unit) : Prop :=
  isListed opcode = false ∧ ofOpcode? opcode = none ∧ ofShortOpcode? opcode = some jump

theorem reads_short {opcode : UInt8} {jump : Nat → Branch Nat Nat Unit} {distance : Int16}
    {target : Nat} (short : IsShort opcode jump) (leads : Leads start distance.toInt target) :
    Reads Operation.read start (opcode :: Encoding.s2 distance) (.branch (jump target)) := by
  rcases short with ⟨unlisted, long, known⟩
  apply reads_unlisted unlisted
  rw [readBranch, long, known]
  exact (reads_shortTarget leads _).bind_pure (.pure _)

/-- The opcode is that of a branch with a target in 32 bits. -/
def IsWide (opcode : UInt8) (jump : Nat → Branch Nat Nat Unit) : Prop :=
  isListed opcode = false ∧ ofOpcode? opcode = none ∧ ofShortOpcode? opcode = none ∧
    ofWideOpcode? opcode = some jump

theorem reads_wide {opcode : UInt8} {jump : Nat → Branch Nat Nat Unit} {distance : Int32}
    {target : Nat} (wide : IsWide opcode jump) (leads : Leads start distance.toInt target) :
    Reads Operation.read start (opcode :: Encoding.s4 distance) (.branch (jump target)) := by
  rcases wide with ⟨unlisted, long, narrow, known⟩
  apply reads_unlisted unlisted
  rw [readBranch, long, narrow, known]
  exact (reads_wideTarget leads _).bind_pure (.pure _)

theorem short_conditional (condition : Condition) :
    IsShort condition.opcode fun target => .conditional condition target () := by
  cases condition with
  | zero comparison | ints comparison =>
    cases comparison <;> exact ⟨branch_unlisted _ (by decide), rfl, rfl⟩
  | references equality | null equality =>
    cases equality <;> exact ⟨branch_unlisted _ (by decide), rfl, rfl⟩

theorem reads_return (kind : Option ValueKind) (opcode : UInt8)
    (known : (returns kind : Branch Int16 Int32 Unit).opcode? = some opcode) :
    Reads Operation.read start [opcode] (.branch (.returns kind)) := by
  rcases kind with _ | kind
  · cases known
    exact reads_alone (branch_unlisted _ (by decide)) rfl
  · cases known
    cases kind <;> exact reads_alone (branch_unlisted _ (by decide)) rfl

theorem reads_ret (slot : UInt16) :
    Reads Operation.read start
      (if slot.toNat ≤ 0xFF then [0xA9, slot.toUInt8]
        else Instruction.wideModifier :: 0xA9 :: Encoding.u2 slot) (.branch (.ret slot)) := by
  split
  · next small =>
    exact reads_own (by decide) ((reads_byteSlot small).bind_pure (.pure _))
  · apply reads_own (by decide)
    change Reads (readModified start) (start + 1) ([0xA9] ++ Encoding.u2 slot) _
    apply (Reads.u1 0xA9).bind
    exact (reads_wordSlot slot).bind_pure (.pure _)

/-! ## Switches -/

theorem reads_targets {distances : List Int32} {targets : List Nat}
    (leads : List.Forall₂ (fun distance target => Leads start distance.toInt target) distances
      targets) (place : Nat) :
    Reads (Reader.many targets.length (wideTarget start)) place (distances.flatMap Encoding.s4)
      targets := by
  rw [List.flatMap_def]
  apply Reads.many
  rw [List.forall₂_map_left_iff]
  exact leads.imp fun _ _ here => reads_wideTarget here

theorem reads_tableSwitch {otherwise low high : Int32} {default_ : Nat} {distances : List Int32}
    {targets : List Nat} (leads : Leads start otherwise.toInt default_)
    (each : List.Forall₂ (fun distance target => Leads start distance.toInt target) distances
      targets)
    (last : lastKey low distances.length = .ok high) (some_ : distances ≠ []) :
    Reads Operation.read start
      (0xAA :: (List.replicate (paddingAt start) 0 ++ Encoding.s4 otherwise ++ Encoding.s4 low ++
        Encoding.s4 high ++ distances.flatMap Encoding.s4))
      (.branch (.tableSwitch (paddingAt start) default_ low targets)) := by
  have key := lastKey_eq last
  have positive := List.length_pos_iff.2 some_
  have count : (high.toInt - low.toInt + 1).toNat = targets.length := by
    rw [← each.length_eq]
    omega
  have ordered : ¬high < low := by
    rw [Int32.lt_iff_toInt_lt]
    omega
  apply reads_own (by decide)
  change Reads (readTableSwitch start) _ _ _
  simp only [List.append_assoc]
  apply (reads_padding start _).bind
  apply (reads_wideTarget leads _).bind
  apply (Reads.s4 low).bind
  apply (Reads.s4 high).bind
  rw [if_neg ordered, count]
  exact (reads_targets each _).bind_pure (.pure _)

theorem reads_pairs {distances : List (Int32 × Int32)} {pairs : List (Int32 × Nat)}
    (each : List.Forall₂ (fun distance pair => distance.1 = pair.1 ∧
      Leads start distance.2.toInt pair.2) distances pairs) (place : Nat) :
    Reads (Reader.many pairs.length do
        let key ← Reader.s4
        return (key, ← wideTarget start)) place
      (distances.flatMap fun distance => Encoding.s4 distance.1 ++ Encoding.s4 distance.2)
      pairs := by
  rw [List.flatMap_def]
  apply Reads.many
  rw [List.forall₂_map_left_iff]
  refine each.imp ?_
  rintro distance ⟨_, target⟩ ⟨rfl, leads⟩ place
  exact (Reads.s4 distance.1).bind ((reads_wideTarget leads _).bind_pure (.pure _))

theorem reads_lookupSwitch {otherwise : Int32} {default_ : Nat} {distances : List (Int32 × Int32)}
    {pairs : List (Int32 × Nat)} (leads : Leads start otherwise.toInt default_)
    (each : List.Forall₂ (fun distance pair => distance.1 = pair.1 ∧
      Leads start distance.2.toInt pair.2) distances pairs)
    (few : distances.length < 2147483648) :
    Reads Operation.read start
      (0xAB :: (List.replicate (paddingAt start) 0 ++ Encoding.s4 otherwise ++
        BigEndian.encode 4 distances.length ++
        distances.flatMap fun pair => Encoding.s4 pair.1 ++ Encoding.s4 pair.2))
      (.branch (.lookupSwitch (paddingAt start) default_ pairs)) := by
  have count : BigEndian.encode 4 distances.length =
      Encoding.s4 (Int32.ofNat distances.length) := by
    have fits : distances.length < UInt32.size := Nat.lt_trans few (by decide)
    rw [Encoding.s4, Encoding.u4, Int32.toUInt32_ofNat', UInt32.toNat_ofNat_of_lt' fits]
  have back : (Int32.ofNat distances.length).toInt.toNat = pairs.length := by
    rw [← each.length_eq, Int32.toInt_ofNat_of_lt few, Int.toNat_natCast]
  apply reads_own (by decide)
  change Reads (readLookupSwitch start) _ _ _
  simp only [List.append_assoc]
  apply (reads_padding start _).bind
  apply (reads_wideTarget leads _).bind
  rw [count]
  apply (Reads.s4 _).bind
  rw [back]
  exact (reads_pairs each _).bind_pure (.pure _)

/-- A branch is read back with the targets that it leads to. -/
theorem reads_encode {branch : Branch Int16 Int32 Unit} {absolute : Branch Nat Nat Unit}
    (written : branch.encode = .ok bytes) (readable : branch.IsReadable start)
    (renamed : Renamed (fun distance target => Leads start distance.toInt target)
      (fun distance target => Leads start distance.toInt target) (fun _ _ => True) branch
      absolute) : Reads Operation.read start bytes (.branch absolute) := by
  rcases bind_eq_ok.1 written with ⟨operands, found, same⟩
  cases pure_eq_ok.1 same
  cases renamed with
  | conditional condition leads =>
    cases found
    exact reads_short (short_conditional condition) leads
  | goto leads =>
    cases found
    have short : IsShort 0xA7 .goto := ⟨branch_unlisted _ (by decide), rfl, rfl⟩
    exact reads_short short leads
  | jsr leads =>
    cases found
    have short : IsShort 0xA8 (.jsr · ()) := ⟨branch_unlisted _ (by decide), rfl, rfl⟩
    exact reads_short short leads
  | gotoWide leads =>
    cases found
    have wide : IsWide 0xC8 .gotoWide := ⟨branch_unlisted _ (by decide), rfl, rfl, rfl⟩
    exact reads_wide wide leads
  | jsrWide leads =>
    cases found
    have wide : IsWide 0xC9 (.jsrWide · ()) := ⟨branch_unlisted _ (by decide), rfl, rfl, rfl⟩
    exact reads_wide wide leads
  | ret slot =>
    cases found
    have read := @reads_ret start slot
    rw [encodeOpcode_ret]
    split at read
    · next small => rwa [if_pos small, if_pos small]
    · next large => rwa [if_neg large, if_neg large]
  | tableSwitch padding low leads each =>
    rcases bind_eq_ok.1 found with ⟨high, last, same⟩
    cases pure_eq_ok.1 same
    rcases readable with ⟨rfl, some_⟩
    exact reads_tableSwitch leads each last some_
  | lookupSwitch padding leads each =>
    cases found
    rcases readable with ⟨rfl, few⟩
    exact reads_lookupSwitch leads each few
  | returns kind =>
    cases found
    rcases kind with _ | kind
    · exact reads_return none _ rfl
    · exact reads_return (some kind) _ rfl
  | throws =>
    cases found
    exact reads_alone (branch_unlisted _ (by decide)) rfl
  | fallThrough | stop => cases readable

end Branch
end ClassFile
