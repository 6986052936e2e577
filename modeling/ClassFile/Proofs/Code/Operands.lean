import ClassFile.Proofs.Bytes.Takes
import ClassFile.Proofs.Code.BranchReading

namespace ClassFile

/-!
# The bytes of decoded operations

Decoding cuts code into the bytes of one operation after the other, until nothing is
left.  Every operation takes at least its opcode.  A switch also says in its operands
how many targets follow, and as many are read.
-/

namespace Takes

variable {α : Type} {reader : Reader α} {holds : Bytes → α → Prop}

theorem anything (takes : Takes reader holds) : Takes reader fun _ _ => True :=
  takes.mono fun _ _ _ => trivial

theorem of_run (takes : Takes reader holds) {cursor after : Cursor} {value : α}
    (run : reader.run cursor = .ok (value, after)) :
    ∃ bytes, cursor.rest = bytes ++ after.rest ∧
      after.position = cursor.position + bytes.length ∧ after.size = cursor.size ∧
      holds bytes value :=
  takes cursor value after run

/-- Values that are each read from the encoding of something are read from the encodings
in a row. -/
theorem many_encoded {δ : Type} {encode : δ → Bytes} {leads : δ → α → Prop}
    (takes : Takes reader fun bytes value => ∃ source, bytes = encode source ∧ leads source value)
    (count : Nat) : Takes (Reader.many count reader) fun bytes values =>
      ∃ sources, bytes = sources.flatMap encode ∧ List.Forall₂ leads sources values ∧
        values.length = count := by
  refine (takes.many count).mono ?_
  rintro _ values ⟨pieces, each, rfl, counted⟩
  suffices ∃ sources, pieces.flatten = sources.flatMap encode ∧ List.Forall₂ leads sources values by
    rcases this with ⟨sources, whole, found⟩
    exact ⟨sources, whole, found, counted⟩
  clear counted
  induction each with
  | nil => exact ⟨[], rfl, .nil⟩
  | cons here _ ih =>
    rcases here with ⟨source, rfl, here⟩
    rcases ih with ⟨sources, whole, others⟩
    refine ⟨source :: sources, ?_, .cons here others⟩
    rw [List.flatten_cons, List.flatMap_cons, whole]

end Takes

namespace Operation

/-- A branch that stands in code takes bytes there. -/
def Solid (operation : Operation) : Prop :=
  ∀ branch, operation = .branch branch → 0 < branch.width

/-- The operation is a switch. -/
def IsSwitch : Operation → Prop
  | branch (.tableSwitch ..) | branch (.lookupSwitch ..) => True
  | _ => False

/-- The bytes of an operation at an offset, from the opcode on.  The operands of a switch
start at a multiple of four.  Those of a table are its first and its last key, and those of
a search the number of pairs, where a negative one counts as none. -/
inductive ReadFrom (start : Nat) : Bytes → Operation → Prop
  | plain {bytes : Bytes} {operation : Operation} (some_ : bytes ≠ []) (solid : operation.Solid)
      (plain : ¬ operation.IsSwitch) : ReadFrom start bytes operation
  | table {padding : Bytes} {otherwise low high : Int32} {distances : List Int32} {default_ : Nat}
      {targets : List Nat} (aligned : padding.length = Branch.paddingAt start)
      (ordered : low.toInt ≤ high.toInt)
      (counted : (targets.length : Int) = high.toInt - low.toInt + 1)
      (leads : Branch.Leads start otherwise.toInt default_)
      (each : List.Forall₂ (fun distance target => Branch.Leads start distance.toInt target)
        distances targets) :
      ReadFrom start
        (0xAA :: (padding ++ (Encoding.s4 otherwise ++ (Encoding.s4 low ++ (Encoding.s4 high ++
          distances.flatMap Encoding.s4)))))
        (.branch (.tableSwitch padding.length default_ low targets))
  | search {padding : Bytes} {otherwise count : Int32} {distances : List (Int32 × Int32)}
      {default_ : Nat} {pairs : List (Int32 × Nat)}
      (aligned : padding.length = Branch.paddingAt start)
      (counted : pairs.length = count.toInt.toNat)
      (leads : Branch.Leads start otherwise.toInt default_)
      (each : List.Forall₂ (fun distance pair => distance.1 = pair.1 ∧
        Branch.Leads start distance.2.toInt pair.2) distances pairs) :
      ReadFrom start
        (0xAB :: (padding ++ (Encoding.s4 otherwise ++ (Encoding.s4 count ++
          distances.flatMap fun distance => Encoding.s4 distance.1 ++ Encoding.s4 distance.2))))
        (.branch (.lookupSwitch padding.length default_ pairs))

theorem solid_branch {found : Branch Nat Nat Unit} (some_ : 0 < found.width) :
    Solid (.branch found) := by
  rintro _ ⟨⟩
  exact some_

namespace ReadFrom

variable {start : Nat} {bytes : Bytes} {operation : Operation}

theorem ne_nil (read : ReadFrom start bytes operation) : bytes ≠ [] := by
  cases read with
  | plain some_ => exact some_
  | table | search => exact List.cons_ne_nil _ _

theorem solid (read : ReadFrom start bytes operation) : operation.Solid := by
  cases read with
  | plain _ solid => exact solid
  | table | search =>
    apply solid_branch
    rw [Branch.width]
    omega

end ReadFrom

/-! ## What readers take -/

variable {start : Nat} {opcode : UInt8}

theorem takes_target (start : Nat) (distance : Int) : Takes (target start distance)
    fun bytes found => bytes = [] ∧ Branch.Leads start distance found := by
  refine Takes.ite (fun inside => .pure ⟨rfl, ?_⟩) fun _ => .fail
  exact Int.toNat_of_nonneg inside

theorem takes_shortTarget (start : Nat) : Takes (shortTarget start) fun _ _ => True := by
  have word : Takes Reader.s2 fun _ _ => True := Takes.u2.map fun _ _ _ => trivial
  exact word.bind fun _ distance _ => (takes_target start distance.toInt).anything

theorem takes_wideTarget (start : Nat) : Takes (wideTarget start) fun bytes found =>
    ∃ distance, bytes = Encoding.s4 distance ∧ Branch.Leads start distance.toInt found := by
  refine Takes.s4.bind fun _ distance isDistance => (takes_target start distance.toInt).mono ?_
  rintro _ found ⟨rfl, leads⟩
  exact ⟨distance, by rw [isDistance, List.append_nil], leads⟩

theorem takes_readSlot (width : Nat) : Takes (readSlot width) fun _ _ => True :=
  (Takes.word width).map fun _ _ _ => trivial

theorem takes_index : Takes Constant.readIndex fun _ _ => True :=
  (Takes.word 2).anything

theorem takes_s1 : Takes Reader.s1 fun _ _ => True :=
  Takes.u1.map fun _ _ _ => trivial

theorem takes_s2 : Takes Reader.s2 fun _ _ => True :=
  Takes.u2.map fun _ _ _ => trivial

theorem takes_readPadding (start : Nat) : Takes (readPadding start) fun bytes padding =>
    padding = bytes.length ∧ bytes.length = Branch.paddingAt start := by
  refine (Takes.take _).map ?_
  rintro bytes _ ⟨rfl, counted⟩
  exact ⟨rfl, counted⟩

/-! ## Switches -/

theorem takes_readTableSwitch (start : Nat) : Takes (readTableSwitch start)
    fun bytes operation => ReadFrom start (0xAA :: bytes) operation := by
  apply (takes_readPadding start).bind
  rintro padding _ ⟨rfl, aligned⟩
  apply (takes_wideTarget start).bind
  rintro _ default_ ⟨otherwise, rfl, leads⟩
  apply Takes.s4.bind
  rintro _ low rfl
  apply Takes.s4.bind
  rintro _ high rfl
  dsimp only
  split
  · exact nofun
  · next ordered =>
    rw [Int32.lt_iff_toInt_lt, Int.not_lt] at ordered
    apply ((takes_wideTarget start).many_encoded _).bind
    rintro _ targets ⟨distances, rfl, each, counted⟩
    refine .pure ?_
    rw [List.append_nil]
    refine .table aligned ordered ?_ leads each
    rw [counted]
    omega

theorem takes_pair (start : Nat) : Takes (do
      let key ← Reader.s4
      return (key, ← wideTarget start)) fun bytes pair =>
    ∃ distance : Int32 × Int32, bytes = Encoding.s4 distance.1 ++ Encoding.s4 distance.2 ∧
      distance.1 = pair.1 ∧ Branch.Leads start distance.2.toInt pair.2 := by
  apply Takes.s4.bind
  rintro _ key rfl
  apply (takes_wideTarget start).bind
  rintro _ target ⟨distance, rfl, leads⟩
  refine .pure ⟨(key, distance), ?_, rfl, leads⟩
  rw [List.append_nil]

theorem takes_readLookupSwitch (start : Nat) : Takes (readLookupSwitch start)
    fun bytes operation => ReadFrom start (0xAB :: bytes) operation := by
  apply (takes_readPadding start).bind
  rintro padding _ ⟨rfl, aligned⟩
  apply (takes_wideTarget start).bind
  rintro _ default_ ⟨otherwise, rfl, leads⟩
  apply Takes.s4.bind
  rintro _ count rfl
  apply ((takes_pair start).many_encoded _).bind
  rintro _ pairs ⟨distances, rfl, each, counted⟩
  refine .pure ?_
  rw [List.append_nil]
  exact .search aligned counted leads each

/-! ## Operations -/

/-- The reader gives operations other than switches. -/
def GivesPlain (reader : Reader Operation) : Prop :=
  Takes reader fun _ operation => operation.Solid ∧ ¬ operation.IsSwitch

theorem gives_instruction (found : Instruction) : GivesPlain (pure (.instruction found)) :=
  .pure ⟨nofun, not_false⟩

theorem gives_ret (slot : UInt16) : GivesPlain (pure (.branch (.ret slot))) := by
  refine .pure ⟨solid_branch ?_, not_false⟩
  rw [Branch.width]
  split <;> decide

theorem gives_readWideIncrement : GivesPlain readWideIncrement :=
  (takes_readSlot 2).bind fun _ _ _ => takes_s2.bind fun _ _ _ => gives_instruction _

theorem gives_readModified (start : Nat) : GivesPlain (readModified start) := by
  refine Takes.u1.bind fun _ opcode _ => ?_
  split
  · exact (takes_readSlot 2).bind fun _ _ _ => gives_instruction _
  · refine Takes.ite (fun _ => gives_readWideIncrement) fun _ => Takes.ite (fun _ => ?_) fun _ => .fail
    exact (takes_readSlot 2).bind fun _ slot _ => gives_ret slot

/-- After the opcode of an operation that is no switch. -/
theorem GivesPlain.after {reader : Reader Operation} (gives : GivesPlain reader) :
    Takes reader fun bytes operation => ReadFrom start (opcode :: bytes) operation :=
  gives.mono fun _ _ plain => .plain (List.cons_ne_nil _ _) plain.1 plain.2

theorem takes_readOwn (start : Nat) (opcode : UInt8) : Takes (readOwn start opcode)
    fun bytes operation => ReadFrom start (opcode :: bytes) operation := by
  unfold readOwn
  split
  · exact GivesPlain.after (takes_s1.bind fun _ _ _ => gives_instruction _)
  · exact GivesPlain.after (takes_s2.bind fun _ _ _ => gives_instruction _)
  · exact GivesPlain.after ((Takes.word 1).bind fun _ _ _ => gives_instruction _)
  · exact GivesPlain.after ((takes_readSlot 1).bind fun _ _ _ =>
      takes_s1.bind fun _ _ _ => gives_instruction _)
  · exact GivesPlain.after ((takes_readSlot 1).bind fun _ slot _ => gives_ret slot)
  · exact takes_readTableSwitch start
  · exact takes_readLookupSwitch start
  · exact GivesPlain.after (takes_index.bind fun _ _ _ =>
      (Takes.take 2).bind fun _ _ _ => gives_instruction _)
  · exact GivesPlain.after (takes_index.bind fun _ _ _ =>
      (Takes.take 2).bind fun _ _ _ => gives_instruction _)
  · refine GivesPlain.after (Takes.u1.bind fun _ code _ => ?_)
    split
    · exact gives_instruction _
    · exact .fail
  · exact GivesPlain.after (gives_readModified start)
  · exact GivesPlain.after (takes_index.bind fun _ _ _ =>
      Takes.u1.bind fun _ _ _ => gives_instruction _)
  · exact .fail

theorem gives_ofOpcode {found : Branch Nat Nat Unit} (known : Branch.ofOpcode? opcode = some found) :
    GivesPlain (pure (.branch found)) := by
  have member := List.mem_of_find?_eq_some known
  rw [List.mem_cons, List.mem_cons] at member
  rcases member with rfl | rfl | isReturn
  · exact .pure ⟨solid_branch Nat.one_pos, not_false⟩
  · exact .pure ⟨solid_branch Nat.one_pos, not_false⟩
  · rcases List.mem_map.1 isReturn with ⟨kind, -, rfl⟩
    exact .pure ⟨solid_branch Nat.one_pos, not_false⟩

theorem gives_ofShortOpcode {jump : Nat → Branch Nat Nat Unit}
    (known : Branch.ofShortOpcode? opcode = some jump) (target : Nat) :
    GivesPlain (pure (.branch (jump target))) := by
  rw [Branch.ofShortOpcode?] at known
  split at known
  · cases known
    exact .pure ⟨solid_branch (Nat.succ_pos 2), not_false⟩
  · split at known
    · cases known
      exact .pure ⟨solid_branch (Nat.succ_pos 2), not_false⟩
    · rcases Option.map_eq_some_iff.1 known with ⟨condition, -, rfl⟩
      exact .pure ⟨solid_branch (Nat.succ_pos 2), not_false⟩

theorem gives_ofWideOpcode {jump : Nat → Branch Nat Nat Unit}
    (known : Branch.ofWideOpcode? opcode = some jump) (target : Nat) :
    GivesPlain (pure (.branch (jump target))) := by
  rw [Branch.ofWideOpcode?] at known
  split at known
  · cases known
    exact .pure ⟨solid_branch (Nat.succ_pos 4), not_false⟩
  · split at known
    · cases known
      exact .pure ⟨solid_branch (Nat.succ_pos 4), not_false⟩
    · cases known

theorem takes_readBranch (start : Nat) (opcode : UInt8) : Takes (readBranch start opcode)
    fun bytes operation => ReadFrom start (opcode :: bytes) operation := by
  unfold readBranch
  split
  · next known => exact GivesPlain.after (gives_ofOpcode known)
  · next known =>
    exact GivesPlain.after ((takes_shortTarget start).bind fun _ target _ =>
      gives_ofShortOpcode known target)
  · next known =>
    exact GivesPlain.after ((takes_wideTarget start).bind fun _ target _ =>
      gives_ofWideOpcode known target)
  · exact takes_readOwn start opcode

/-- What is read at a position is the operation of some bytes there. -/
theorem takes_read {cursor after : Cursor} {operation : Operation}
    (run : read.run cursor = .ok (operation, after)) :
    ∃ bytes, cursor.rest = bytes ++ after.rest ∧
      after.position = cursor.position + bytes.length ∧ after.size = cursor.size ∧
      ReadFrom cursor.position bytes operation := by
  rw [read, StateT.run_bind] at run
  rcases bind_eq_ok.1 run with ⟨⟨start, there⟩, isStart, onward⟩
  cases isStart
  refine Takes.of_run ?_ onward
  apply Takes.u1.bind
  rintro _ opcode rfl
  split
  · exact GivesPlain.after (gives_instruction _)
  · split
    · exact GivesPlain.after ((takes_readSlot 1).bind fun _ _ _ => gives_instruction _)
    · exact GivesPlain.after (takes_index.bind fun _ _ _ => gives_instruction _)
    · exact takes_readBranch cursor.position opcode

/-! ## Code -/

/-- Code cut into the bytes of one operation after the other. -/
inductive Cut : Nat → Bytes → List (Nat × Operation) → Prop
  | nil (start : Nat) : Cut start [] []
  | cons {start : Nat} {piece rest : Bytes} {operation : Operation}
      {operations : List (Nat × Operation)} (here : ReadFrom start piece operation)
      (after : Cut (start + piece.length) rest operations) :
      Cut start (piece ++ rest) ((start, operation) :: operations)

/-- Decoding takes one operation off the front after the other, until nothing is left. -/
theorem readOnto_induction {motive : Nat → Bytes → List (Nat × Operation) → Prop}
    (done : ∀ start, motive start [] [])
    (step : ∀ {cursor middle : Cursor} {operation : Operation} {operations},
      read.run cursor = .ok (operation, middle) → motive middle.position middle.rest operations →
        motive cursor.position cursor.rest ((cursor.position, operation) :: operations))
    {already result : Array (Nat × Operation)} {fuel : Nat} {cursor after : Cursor}
    (enough : cursor.rest.length ≤ fuel)
    (run : (readOnto already fuel).run cursor = .ok (result, after)) :
    ∃ added, result.toList = already.toList ++ added ∧
      motive cursor.position cursor.rest added := by
  induction fuel generalizing already cursor with
  | zero =>
    cases run
    rw [List.eq_nil_of_length_eq_zero (Nat.le_zero.1 enough)]
    exact ⟨[], (List.append_nil _).symm, done _⟩
  | succ fuel ih =>
    have length := cursor.length_rest
    unfold readOnto at run
    rw [StateT.run_bind, StateT.run_get, pure_bind] at run
    split at run
    · next ended =>
      have past : cursor.size ≤ cursor.position := of_decide_eq_true ended
      have empty : cursor.rest = [] := by
        apply List.eq_nil_of_length_eq_zero
        omega
      cases run
      rw [empty]
      exact ⟨[], (List.append_nil _).symm, done _⟩
    · change (do
        let next ← read.run cursor
        (readOnto (already.push (cursor.position, next.1)) fuel).run next.2) = _ at run
      rcases bind_eq_ok.1 run with ⟨⟨operation, middle⟩, here, onward⟩
      rcases takes_read here with ⟨bytes, whole, -, -, read⟩
      have positive := List.length_pos_iff.2 read.ne_nil
      have lengths := congrArg List.length whole
      rw [List.length_append] at lengths
      have fewer : middle.rest.length ≤ fuel := by omega
      rcases ih fewer onward with ⟨added, isResult, others⟩
      refine ⟨(cursor.position, operation) :: added, ?_, step here others⟩
      rw [isResult, Array.toList_push, List.append_assoc, List.singleton_append]

/-- What holds of no code, and of code whose first operation is read if it holds of what
follows, holds of decoded code. -/
theorem decode_induction {motive : Nat → Bytes → List (Nat × Operation) → Prop}
    (done : ∀ start, motive start [] [])
    (step : ∀ {cursor middle : Cursor} {operation : Operation} {operations},
      read.run cursor = .ok (operation, middle) → motive middle.position middle.rest operations →
        motive cursor.position cursor.rest ((cursor.position, operation) :: operations))
    {code : Bytes} {operations : List (Nat × Operation)}
    (run : decode code = .ok operations) : motive 0 code operations := by
  rcases map_eq_ok.1 run with ⟨result, decoded, rfl⟩
  rcases map_eq_ok.1 decoded with ⟨⟨_, after⟩, ran, rfl⟩
  have enough : (Cursor.ofBytes code).rest.length ≤ code.length := Nat.le_refl _
  rcases readOnto_induction done step enough ran with ⟨added, isResult, held⟩
  rw [isResult]
  exact held

/-- Decoded operations account for all of the code. -/
theorem cut_decode {code : Bytes} {operations : List (Nat × Operation)}
    (run : decode code = .ok operations) : Cut 0 code operations := by
  refine decode_induction .nil (fun here cut => ?_) run
  rcases takes_read here with ⟨bytes, whole, moved, -, read⟩
  rw [moved] at cut
  rw [whole]
  exact .cons read cut

namespace Cut

variable {start : Nat} {code : Bytes} {operations : List (Nat × Operation)}

theorem readFrom (cut : Cut start code operations) :
    ∀ entry ∈ operations, ∃ bytes, ReadFrom entry.1 bytes entry.2 := by
  induction cut with
  | nil => exact List.forall_mem_nil _
  | cons here _ ih => exact List.forall_mem_cons.2 ⟨⟨_, here⟩, ih⟩

end Cut
end Operation
end ClassFile
