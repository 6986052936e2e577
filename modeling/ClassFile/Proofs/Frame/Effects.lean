import ClassFile.Frame.Transfer
import ClassFile.Proofs.Success

namespace ClassFile

/-!
# What instructions do to frames, effect by effect

Once the constants that an instruction names are looked up, there are few things that it
can do to a frame.  Most instructions take operands and give a result whatever the types
of the operands are.  The others copy a type, look at one, or put an object in the place
of what a constructor was called on.  `CodeContext.step_eq_ok` says that a step has just
one of these effects, so what all effects keep, every instruction keeps.
-/

/-- What an instruction does to a frame. -/
inductive Effect
  | exchange (taken : Nat) (given : Option BlockType)
  | load (slot : Nat)
  | store (slot : Nat)
  /-- Change the value of a local variable, but not its type. -/
  | touch (slot : Nat)
  /-- Take an element out of an array of references. -/
  | element
  | rearrange (op : Shuffle)
  /-- Call a constructor and leave a result. -/
  | construct (arguments : Nat) (result : Option BlockType)

/-- What an effect puts on the stack whatever it finds there. -/
def Effect.given? : Effect → Option BlockType
  | exchange _ given => given
  | construct _ result => result
  | _ => none

namespace Frame

/-- Put operands on the stack, if there are any. -/
def give (frame : BlockFrame) (given : Option BlockType) : BlockFrame :=
  { frame with stack := given.toList ++ frame.stack }

/-- Put an object in the place of what its constructor was called on. -/
def initialized (frame : BlockFrame) (receiver : BlockType) : Option String → BlockFrame
  | some cls => frame.replace receiver (.object cls)
  | none => frame

end Frame

/-- An effect turns a frame into another one. -/
inductive Effect.Turns (context : CodeContext) : Effect → BlockFrame → BlockFrame → Prop
  | exchange {taken : Nat} {given : Option BlockType} {frame : BlockFrame}
      (enough : taken ≤ frame.stack.length) :
      Turns context (.exchange taken given) frame
        (Frame.give ⟨frame.locals, frame.stack.drop taken⟩ given)
  | load {slot : Nat} {type : BlockType} {frame : BlockFrame}
      (found : frame.locals[slot]? = some type) : Turns context (.load slot) frame (frame.push type)
  | store {slot : Nat} {type : BlockType} {locals rest : List BlockType} {after : BlockFrame}
      (stored : Frame.storeLocal ⟨locals, rest⟩ slot type = .ok after) :
      Turns context (.store slot) ⟨locals, type :: rest⟩ after
  | touch {slot : Nat} {type : BlockType} {frame : BlockFrame}
      (found : frame.locals[slot]? = some type) : Turns context (.touch slot) frame frame
  | element {index array : BlockType} {locals rest : List BlockType} :
      Turns context .element ⟨locals, index :: array :: rest⟩
        ⟨locals, CodeContext.elementType array :: rest⟩
  | rearrange {op : Shuffle} {stack : List BlockType} {frame : BlockFrame}
      (run : op.rearrange? frame.stack = some stack) :
      Turns context (.rearrange op) frame ⟨frame.locals, stack⟩
  | construct {arguments : Nat} {result : Option BlockType} {receiver : BlockType}
      {rest : List BlockType} {cls? : Option String} {frame : BlockFrame}
      (operands : frame.stack.drop arguments = receiver :: rest)
      (made : context.initializedClass receiver = .ok cls?) :
      Turns context (.construct arguments result) frame
        (Frame.give (Frame.initialized ⟨frame.locals, rest⟩ receiver cls?) result)

namespace CodeContext

/-- The effect of a call, once the method is looked up. -/
def callEffect (mode : InvokeMode) (name : String) (descriptor : MethodDescriptor) : Effect :=
  let arguments := descriptor.parameters.length
  let result := descriptor.result.map VerificationType.ofFieldType
  if mode = .static then .exchange arguments result
  else if mode = .special ∧ name = MethodContext.constructor then .construct arguments result
  else .exchange (arguments + 1) result

/-- The effect of an instruction of a block. -/
def effect (context : CodeContext) (block : Nat) (instruction : Instruction) :
    Except Fault Effect :=
  match instruction with
  | .nop => .ok (.exchange 0 none)
  | .pushNull => .ok (.exchange 0 (some .null))
  | .pushInt _ | .pushByte _ | .pushShort _ => .ok (.exchange 0 (some .integer))
  | .pushLong _ => .ok (.exchange 0 (some .long))
  | .pushFloat _ => .ok (.exchange 0 (some .float))
  | .pushDouble _ => .ok (.exchange 0 (some .double))
  | .loadConstant index | .loadWideConstant index =>
    return .exchange 0 (some (← context.constantType index))
  | .load .int _ => .ok (.exchange 0 (some .integer))
  | .load .long _ => .ok (.exchange 0 (some .long))
  | .load .float _ => .ok (.exchange 0 (some .float))
  | .load .double _ => .ok (.exchange 0 (some .double))
  | .load .reference slot => .ok (.load slot.toNat)
  | .store _ slot => .ok (.store slot.toNat)
  | .arrayLoad .reference => .ok .element
  | .arrayLoad .long => .ok (.exchange 2 (some .long))
  | .arrayLoad .float => .ok (.exchange 2 (some .float))
  | .arrayLoad .double => .ok (.exchange 2 (some .double))
  | .arrayLoad _ => .ok (.exchange 2 (some .integer))
  | .arrayStore _ => .ok (.exchange 3 none)
  | .shuffle op => .ok (.rearrange op)
  | .arithmetic _ kind => .ok (.exchange 2 (some kind.type))
  | .negate kind => .ok (.exchange 1 (some kind.type))
  | .shift _ kind | .bitwise _ kind => .ok (.exchange 2 (some kind.type))
  | .increment slot _ => .ok (.touch slot.toNat)
  | .convert conversion => .ok (.exchange 1 (some conversion.target.type))
  | .compareLongs | .compareFloats _ | .compareDoubles _ => .ok (.exchange 2 (some .integer))
  | .accessField .getStatic field => return .exchange 0 (some (← context.fieldType field))
  | .accessField .putStatic _ => .ok (.exchange 1 none)
  | .accessField .getField field => return .exchange 1 (some (← context.fieldType field))
  | .accessField .putField _ => .ok (.exchange 2 none)
  | .invoke mode method => do
    let member ← context.pool.member method
    return callEffect mode member.name (← MethodDescriptor.parse member.descriptor)
  | .invokeDynamic callSite => do
    let signature ← context.pool.dynamicSignature callSite
    return callEffect .static signature.name (← MethodDescriptor.parse signature.descriptor)
  | .withClass .new _ => .ok (.exchange 0 (some (.uninitialized block)))
  | .withClass .newArray cls => do
    let element ← FieldType.ofInternalName (← context.pool.className cls)
    return .exchange 1 (some (.ofFieldType (.array element)))
  | .withClass .checkCast cls => return .exchange 1 (some (.object (← context.pool.className cls)))
  | .withClass .instanceOf _ | .arrayLength => .ok (.exchange 1 (some .integer))
  | .newArray element => .ok (.exchange 1 (some (.ofFieldType (.array (.base element)))))
  | .monitorEnter | .monitorExit => .ok (.exchange 1 none)
  | .newMultiArray cls dimensions =>
    return .exchange dimensions.toNat (some (.object (← context.pool.className cls)))

end CodeContext

/-! ## The parts of a step -/

section

variable {context : CodeContext} {frame after middle : BlockFrame} {type : BlockType} {count : Nat}
  {site : UnderflowSite}

theorem Frame.drop_eq_ok :
    frame.drop count site = .ok after ↔
      count ≤ frame.stack.length ∧ after = ⟨frame.locals, frame.stack.drop count⟩ := by
  rw [Frame.drop]
  split
  · next enough =>
    exact ⟨fun run => ⟨enough, (Except.ok.inj run).symm⟩, fun same => congrArg Except.ok same.2.symm⟩
  · next few => exact ⟨fun run => (by cases run), fun same => absurd same.1 few⟩

theorem Frame.pop_eq_ok :
    frame.pop site = .ok (type, after) ↔ frame = ⟨after.locals, type :: after.stack⟩ := by
  rcases frame with ⟨locals, _ | ⟨first, rest⟩⟩
  · exact ⟨fun run => (by cases run), fun same => (by cases same)⟩
  · constructor
    · intro run
      cases run
      rfl
    · intro same
      cases same
      rfl

/-- The receiver of a call is below its arguments. -/
theorem Frame.drop_pop_eq_ok (site : UnderflowSite) {popped : BlockFrame} :
    (∃ middle, frame.drop count site = .ok middle ∧ middle.pop site = .ok (type, popped)) ↔
      ∃ rest, frame.stack.drop count = type :: rest ∧ popped = ⟨frame.locals, rest⟩ := by
  simp only [drop_eq_ok, pop_eq_ok]
  constructor
  · rintro ⟨_, ⟨enough, rfl⟩, same⟩
    obtain ⟨locals, operands⟩ := Frame.mk.inj same
    exact ⟨popped.stack, operands, by rw [locals]⟩
  · rintro ⟨rest, operands, rfl⟩
    refine ⟨_, ⟨Nat.le_of_not_lt fun few => ?_, rfl⟩, by rw [operands]⟩
    rw [List.drop_eq_nil_of_le (Nat.le_of_lt few)] at operands
    cases operands

theorem Frame.local_eq_ok_iff {slot : Nat} :
    frame.local_ slot = .ok type ↔ frame.locals[slot]? = some type := by
  rw [Frame.local_]
  cases frame.locals[slot]? with
  | some found => exact ⟨fun run => congrArg some (Except.ok.inj run), fun same =>
      congrArg Except.ok (Option.some.inj same)⟩
  | none => exact ⟨fun run => (by cases run), fun same => (by cases same)⟩

theorem CodeContext.pushResult_eq (frame : BlockFrame) (result : Option FieldType) :
    pushResult frame result = frame.give (result.map VerificationType.ofFieldType) := by
  cases result <;> rfl

namespace Effect

theorem turns_exchange {taken : Nat} {given : Option BlockType} :
    Turns context (.exchange taken given) frame after ↔ taken ≤ frame.stack.length ∧
      after = Frame.give ⟨frame.locals, frame.stack.drop taken⟩ given := by
  constructor
  · rintro ⟨enough⟩
    exact ⟨enough, rfl⟩
  · rintro ⟨enough, rfl⟩
    exact .exchange enough

theorem turns_give {given : Option BlockType} :
    Turns context (.exchange 0 given) frame after ↔ frame.give given = after := by
  rw [turns_exchange]
  exact ⟨fun same => same.2.symm, fun same => ⟨Nat.zero_le _, same.symm⟩⟩

theorem turns_drop :
    Turns context (.exchange count none) frame after ↔ frame.drop count site = .ok after := by
  rw [turns_exchange, Frame.drop_eq_ok]
  rfl

theorem turns_dropGive {given : Option BlockType} :
    Turns context (.exchange count given) frame after ↔
      (do return (← frame.drop count site).give given) = Except.ok after := by
  rw [turns_exchange, bind_eq_ok]
  constructor
  · rintro ⟨enough, rfl⟩
    exact ⟨_, Frame.drop_eq_ok.2 ⟨enough, rfl⟩, rfl⟩
  · rintro ⟨middle, dropped, same⟩
    obtain ⟨enough, rfl⟩ := Frame.drop_eq_ok.1 dropped
    exact ⟨enough, (pure_eq_ok.1 same).symm⟩

theorem turns_takeReceiver {given : Option BlockType} :
    Turns context (.exchange (count + 1) given) frame after ↔
      ∃ receiver rest, frame.stack.drop count = receiver :: rest ∧
        Frame.give ⟨frame.locals, rest⟩ given = after := by
  have later : ∀ {receiver rest}, frame.stack.drop count = receiver :: rest →
      frame.stack.drop (count + 1) = rest := by
    intro receiver rest operands
    rw [← List.drop_drop, operands]
    rfl
  rw [turns_exchange]
  constructor
  · rintro ⟨enough, rfl⟩
    rcases operands : frame.stack.drop count with _ | ⟨receiver, rest⟩
    · exact absurd (List.drop_eq_nil_iff.1 operands) (Nat.not_le_of_lt enough)
    · exact ⟨receiver, rest, rfl, by rw [later operands]⟩
  · rintro ⟨receiver, rest, operands, rfl⟩
    refine ⟨Nat.lt_of_not_le fun few => ?_, by rw [later operands]⟩
    rw [List.drop_eq_nil_of_le few] at operands
    cases operands

theorem turns_store {slot : Nat} :
    Turns context (.store slot) frame after ↔
      (do
        let (type, middle) ← frame.pop site
        middle.storeLocal slot type) = Except.ok after := by
  rw [bind_eq_ok]
  constructor
  · intro turns
    cases turns with
    | @store _ type locals rest _ stored => exact ⟨(type, ⟨locals, rest⟩), rfl, stored⟩
  · rintro ⟨⟨type, middle⟩, popped, stored⟩
    obtain rfl := Frame.pop_eq_ok.1 popped
    exact .store stored

theorem turns_element :
    Turns context .element frame after ↔
      (do
        let (array, middle) ← (← frame.drop 1 site).pop site
        return middle.push (CodeContext.elementType array)) = Except.ok after := by
  rw [bind_eq_ok]
  constructor
  · intro turns
    cases turns with
    | @element index array locals rest => exact ⟨⟨locals, array :: rest⟩, rfl, rfl⟩
  · rintro ⟨front, dropped, run⟩
    obtain ⟨⟨array, middle⟩, popped, same⟩ := bind_eq_ok.1 run
    obtain rfl := pure_eq_ok.1 same
    obtain ⟨enough, rfl⟩ := Frame.drop_eq_ok.1 dropped
    rcases frame with ⟨locals, _ | ⟨index, stack⟩⟩
    · cases enough
    · obtain ⟨rfl, rfl⟩ := Frame.mk.inj (Frame.pop_eq_ok.1 popped)
      exact .element

theorem turns_rearrange {op : Shuffle} :
    Turns context (.rearrange op) frame after ↔
      (match op.rearrange? frame.stack with
        | some stack => .ok { frame with stack }
        | none => Except.error (Fault.stackUnderflow site)) = Except.ok after := by
  constructor
  · intro turns
    cases turns with
    | rearrange run => rw [run]
  · intro run
    split at run
    · next stack rearranged =>
      obtain rfl := Except.ok.inj run
      exact .rearrange rearranged
    · cases run

theorem turns_load {slot : Nat} :
    Turns context (.load slot) frame after ↔
      (do return frame.push (← frame.local_ slot)) = Except.ok after := by
  rw [bind_eq_ok]
  constructor
  · intro turns
    cases turns with
    | load found => exact ⟨_, Frame.local_eq_ok_iff.2 found, rfl⟩
  · rintro ⟨type, found, same⟩
    obtain rfl := pure_eq_ok.1 same
    exact .load (Frame.local_eq_ok_iff.1 found)

theorem turns_touch {slot : Nat} :
    Turns context (.touch slot) frame after ↔
      (do
        let _ ← frame.local_ slot
        return frame) = Except.ok after := by
  rw [bind_eq_ok]
  constructor
  · intro turns
    cases turns with
    | touch found => exact ⟨_, Frame.local_eq_ok_iff.2 found, rfl⟩
  · rintro ⟨type, found, same⟩
    obtain rfl := pure_eq_ok.1 same
    exact .touch (Frame.local_eq_ok_iff.1 found)

theorem turns_call {mode : InvokeMode} {name : String} {descriptor : MethodDescriptor} :
    Turns context (CodeContext.callEffect mode name descriptor) frame after ↔
      (do
        let middle ← frame.drop descriptor.parameters.length site
        let middle ← context.callReceiver mode name site middle
        return CodeContext.pushResult middle descriptor.result) = Except.ok after := by
  simp only [CodeContext.pushResult_eq]
  unfold CodeContext.callEffect CodeContext.callReceiver
  dsimp only
  by_cases static : mode = .static
  · rw [if_pos static]
    simp only [if_pos static]
    exact turns_dropGive
  rw [if_neg static]
  simp only [if_neg static]
  by_cases constructed : mode = .special ∧ name = MethodContext.constructor
  · rw [if_pos constructed]
    simp only [if_pos constructed, bind_eq_ok]
    constructor
    · intro turns
      cases turns with
      | @construct _ _ receiver rest cls? _ operands made =>
        obtain ⟨middle, dropped, popped⟩ := (Frame.drop_pop_eq_ok site).2 ⟨rest, operands, rfl⟩
        refine ⟨middle, dropped, _, ⟨_, popped, cls?, made, ?_⟩, rfl⟩
        cases cls? <;> rfl
    · rintro ⟨middle, dropped, _, ⟨⟨receiver, popped⟩, isPopped, cls?, made, same⟩, same'⟩
      obtain ⟨rest, operands, rfl⟩ := (Frame.drop_pop_eq_ok site).1 ⟨middle, dropped, isPopped⟩
      obtain rfl := pure_eq_ok.1 same'
      cases cls? with
      | some cls => exact pure_eq_ok.1 same ▸ .construct operands made
      | none => exact pure_eq_ok.1 same ▸ .construct operands made
  · rw [if_neg constructed, turns_takeReceiver]
    simp only [if_neg constructed, bind_eq_ok]
    constructor
    · rintro ⟨receiver, rest, operands, rfl⟩
      obtain ⟨middle, dropped, popped⟩ := (Frame.drop_pop_eq_ok site).2 ⟨rest, operands, rfl⟩
      exact ⟨middle, dropped, _, ⟨_, popped, rfl⟩, rfl⟩
    · rintro ⟨middle, dropped, _, ⟨⟨receiver, popped⟩, isPopped, same⟩, same'⟩
      obtain ⟨rest, operands, rfl⟩ := (Frame.drop_pop_eq_ok site).1 ⟨middle, dropped, isPopped⟩
      obtain rfl := pure_eq_ok.1 same
      exact ⟨receiver, rest, operands, pure_eq_ok.1 same'⟩

/-- What comes out of a frame is what an effect that is looked up makes of it. -/
def Acts (context : CodeContext) (frame : BlockFrame) (effect : Except Fault Effect)
    (result : Except Fault BlockFrame) : Prop :=
  ∀ after, result = .ok after ↔ ∃ known, effect = .ok known ∧ known.Turns context frame after

theorem Acts.ok {effect : Effect} {result : Except Fault BlockFrame}
    (turns : ∀ after, effect.Turns context frame after ↔ result = .ok after) :
    Acts context frame (.ok effect) result := by
  intro after
  rw [← turns]
  exact ⟨fun here => ⟨effect, rfl, here⟩, fun ⟨other, same, here⟩ => Except.ok.inj same ▸ here⟩

theorem Acts.bind {α : Type} {lookup : Except Fault α} {effect : α → Except Fault Effect}
    {result : α → Except Fault BlockFrame}
    (each : ∀ value, Acts context frame (effect value) (result value)) :
    Acts context frame (lookup >>= effect) (lookup >>= result) := by
  cases lookup with
  | ok value => exact each value
  | error fault => exact fun after => ⟨fun run => (by cases run), fun ⟨_, run, _⟩ => (by cases run)⟩

/-- It makes no difference for the result whether operands are taken before a constant
is looked up. -/
theorem Acts.late {α : Type} {lookup : Except Fault α} {effect : α → Except Fault Effect}
    {result : BlockFrame → α → Except Fault BlockFrame}
    (each : ∀ value, Acts context frame (effect value)
      (frame.drop count site >>= fun middle => result middle value)) :
    Acts context frame (lookup >>= effect)
      (frame.drop count site >>= fun middle => lookup >>= result middle) := by
  intro after
  rw [← Acts.bind each after]
  cases lookup with
  | ok value => rfl
  | error fault => cases frame.drop count site <;>
      exact ⟨fun run => (by cases run), fun run => (by cases run)⟩

end Effect

open Effect in
/-- A step has just the effect of its instruction. -/
theorem CodeContext.step_eq_ok (block : Nat) (instruction : Instruction) :
    Acts context frame (context.effect block instruction)
      (context.step block frame instruction) := by
  have gives : ∀ given, Acts context frame (.ok (.exchange 0 given)) (.ok (frame.give given)) :=
    fun given => .ok fun after => turns_give.trans (by rw [Except.ok.injEq])
  have takes : ∀ count site, Acts context frame (.ok (.exchange count none))
      (frame.drop count site) := fun _ _ => .ok fun _ => turns_drop
  have makes : ∀ count type site, Acts context frame (.ok (.exchange count (some type)))
      (do return (← frame.drop count site).push type) := fun _ _ _ => .ok fun _ => turns_dropGive
  cases instruction with
  | nop | pushNull | pushInt | pushByte | pushShort | pushLong | pushFloat | pushDouble =>
    exact gives _
  | loadConstant index | loadWideConstant index => exact .bind fun type => gives (some type)
  | load kind slot =>
    cases kind with
    | reference => exact .ok fun _ => turns_load
    | int | long | float | double => exact gives _
  | store kind slot => exact .ok fun _ => turns_store
  | arrayLoad kind =>
    cases kind with
    | reference => exact .ok fun _ => turns_element
    | int | long | float | double | byte | char | short => exact makes 2 _ _
  | arrayStore => exact takes 3 _
  | shuffle op => exact .ok fun _ => turns_rearrange
  | arithmetic | shift | bitwise | compareLongs | compareFloats | compareDoubles =>
    exact makes 2 _ _
  | negate | convert | newArray | arrayLength => exact makes 1 _ _
  | increment slot amount => exact .ok fun _ => turns_touch
  | accessField access field =>
    cases access with
    | getStatic => exact .bind fun type => gives (some type)
    | putStatic => exact takes 1 _
    | getField => exact .late fun type => makes 1 type _
    | putField => exact takes 2 _
  | invoke mode method => exact .bind fun member => .bind fun descriptor => .ok fun _ => turns_call
  | invokeDynamic callSite =>
    exact .bind fun signature => .bind fun descriptor => .ok fun _ => turns_call
  | withClass op cls =>
    cases op with
    | new => exact gives _
    | newArray => exact .late fun name => .late fun element => makes 1 _ _
    | checkCast => exact .late fun name => makes 1 (.object name) _
    | instanceOf => exact makes 1 _ _
  | monitorEnter | monitorExit => exact takes 1 _
  | newMultiArray cls dimensions => exact .late fun name => makes _ (.object name) _

end

/-! ## What instructions give -/

namespace CodeContext

/-- A type that an instruction of a block puts on the stack whatever it finds there. -/
inductive Gives (context : CodeContext) (block : Nat) (instruction : Instruction) : BlockType → Prop
  | plain {type : BlockType} (noObject : ∀ name, type ≠ .object name)
      (noSite : ∀ site, type ≠ .uninitialized site) : Gives context block instruction type
  | site {cls : PoolIndex} (isNew : instruction = .withClass .new cls) :
      Gives context block instruction (.uninitialized block)
  | constant {index : PoolIndex} {type : BlockType} (found : context.constantType index = .ok type) :
      Gives context block instruction type
  | field {index : PoolIndex} {type : BlockType} (found : context.fieldType index = .ok type) :
      Gives context block instruction type
  | result {index : PoolIndex} {member : Pool.Member} {descriptor : MethodDescriptor} {type : FieldType}
      (found : context.pool.member index = .ok member)
      (parsed : MethodDescriptor.parse member.descriptor = .ok descriptor)
      (isResult : descriptor.result = some type) :
      Gives context block instruction (.ofFieldType type)
  | dynamicResult {index : PoolIndex} {signature : Pool.Signature} {descriptor : MethodDescriptor}
      {type : FieldType} (found : context.pool.dynamicSignature index = .ok signature)
      (parsed : MethodDescriptor.parse signature.descriptor = .ok descriptor)
      (isResult : descriptor.result = some type) :
      Gives context block instruction (.ofFieldType type)
  | object {index : PoolIndex} {name : String} (found : context.pool.className index = .ok name) :
      Gives context block instruction (.object name)
  | arrayOf {index : PoolIndex} {name : String} {element : FieldType}
      (found : context.pool.className index = .ok name)
      (read : FieldType.ofInternalName name = .ok element) :
      Gives context block instruction (.ofFieldType (.array element))
  | arrayOfBase (element : BaseType) :
      Gives context block instruction (.ofFieldType (.array (.base element)))

theorem given_callEffect {mode : InvokeMode} {name : String} {descriptor : MethodDescriptor}
    {type : BlockType} (given : (callEffect mode name descriptor).given? = some type) :
    ∃ result, descriptor.result = some result ∧ VerificationType.ofFieldType result = type := by
  refine Option.map_eq_some_iff.1 ?_
  rw [← given]
  unfold callEffect
  dsimp only
  split
  · rfl
  · split <;> rfl

/-- What an effect puts on the stack comes from the instruction and the pool. -/
theorem gives_of_effect {context : CodeContext} {block : Nat} {instruction : Instruction}
    {effect : Effect} {type : BlockType} (run : context.effect block instruction = .ok effect)
    (given : effect.given? = some type) : context.Gives block instruction type := by
  cases instruction with
  | withClass op cls =>
    cases op with
    | new =>
      cases run
      cases given
      exact .site rfl
    | newArray =>
      obtain ⟨name, found, run⟩ := bind_eq_ok.1 run
      obtain ⟨element, read, same⟩ := bind_eq_ok.1 run
      obtain rfl := pure_eq_ok.1 same
      cases given
      exact .arrayOf found read
    | checkCast =>
      obtain ⟨name, found, same⟩ := bind_eq_ok.1 run
      obtain rfl := pure_eq_ok.1 same
      cases given
      exact .object found
    | instanceOf =>
      cases run
      cases given
      exact .plain nofun nofun
  | loadConstant index | loadWideConstant index =>
    obtain ⟨type, found, same⟩ := bind_eq_ok.1 run
    obtain rfl := pure_eq_ok.1 same
    cases given
    exact .constant found
  | accessField access field =>
    cases access with
    | getStatic | getField =>
      obtain ⟨type, found, same⟩ := bind_eq_ok.1 run
      obtain rfl := pure_eq_ok.1 same
      cases given
      exact .field found
    | putStatic | putField =>
      cases run
      cases given
  | invoke mode method =>
    obtain ⟨member, found, run⟩ := bind_eq_ok.1 run
    obtain ⟨descriptor, parsed, same⟩ := bind_eq_ok.1 run
    obtain rfl := pure_eq_ok.1 same
    obtain ⟨result, isResult, rfl⟩ := given_callEffect given
    exact .result found parsed isResult
  | invokeDynamic callSite =>
    obtain ⟨signature, found, run⟩ := bind_eq_ok.1 run
    obtain ⟨descriptor, parsed, same⟩ := bind_eq_ok.1 run
    obtain rfl := pure_eq_ok.1 same
    obtain ⟨result, isResult, rfl⟩ := given_callEffect given
    exact .dynamicResult found parsed isResult
  | newMultiArray cls dimensions =>
    obtain ⟨name, found, same⟩ := bind_eq_ok.1 run
    obtain rfl := pure_eq_ok.1 same
    cases given
    exact .object found
  | newArray element =>
    cases run
    cases given
    exact .arrayOfBase element
  | load kind slot => cases kind <;> cases run <;> cases given <;> exact .plain nofun nofun
  | arrayLoad kind => cases kind <;> cases run <;> cases given <;> exact .plain nofun nofun
  | arithmetic op kind | negate kind | shift direction kind | bitwise op kind =>
    cases kind <;> cases run <;> cases given <;> exact .plain nofun nofun
  | convert conversion => cases conversion <;> cases run <;> cases given <;> exact .plain nofun nofun
  | _ =>
    cases run
    cases given <;> exact .plain nofun nofun

end CodeContext

/-! ## Elements and receivers -/

/-- Only arrays of references have elements that are loaded as references. -/
theorem VerificationType.arrayElement?_eq_some {type element : BlockType}
    (found : type.arrayElement? = some element) :
    ∃ name inner, type = .object name ∧ FieldType.ofInternalName name = .ok (.array inner) ∧
      inner.isReference = true ∧ element = .ofFieldType inner := by
  unfold arrayElement? at found
  split at found
  · next name =>
    obtain ⟨array, read, found⟩ := Option.bind_eq_some_iff.1 found
    obtain ⟨inner, isInner, found⟩ := Option.bind_eq_some_iff.1 found
    split at found
    · next reference =>
      obtain rfl := Option.some.inj found
      refine ⟨name, inner, rfl, ?_, reference, rfl⟩
      cases isRead : FieldType.ofInternalName name with
      | error fault =>
        rw [isRead] at read
        cases read
      | ok other =>
        rw [isRead] at read
        obtain rfl := Option.some.inj read
        cases other with
        | base | object => cases isInner
        | array => rw [Option.some.inj isInner]
    · cases found
  · cases found

/-- A constructor is called on an object of the own class or of one that the pool names. -/
theorem CodeContext.initializedClass_eq_some {context : CodeContext} {type : BlockType}
    {cls : String} (run : context.initializedClass type = .ok (some cls)) :
    cls = context.method.thisClass ∨ ∃ index, context.pool.className index = .ok cls := by
  unfold initializedClass at run
  split at run
  · cases run
    exact .inl rfl
  · obtain ⟨other, found, same⟩ := map_eq_ok.1 run
    obtain rfl := Option.some.inj same
    unfold siteClass at found
    dsimp only at found
    split at found
    · exact .inr ⟨_, found⟩
    · cases found
  · cases run

/-! ## What all types of a frame have in common -/

/-- Rearranging operands makes no new ones. -/
theorem Shuffle.mem_of_mem_rearrange {op : Shuffle} {stack rearranged : List BlockType}
    (run : op.rearrange? stack = some rearranged) :
    ∀ type ∈ rearranged, type ∈ stack := by
  unfold Shuffle.rearrange? at run
  split at run
  all_goals repeat' split at run
  all_goals cases run
  all_goals grind

/-- All types of a frame have a property. -/
def Frame.Each (holds : BlockType → Prop) (frame : BlockFrame) : Prop :=
  ∀ type, type ∈ frame.locals ∨ type ∈ frame.stack → holds type

section

variable {holds : BlockType → Prop} {frame after : BlockFrame}

namespace Frame.Each

/-- Taking operands away. -/
theorem leave (each : frame.Each holds) {stack : List BlockType} (fewer : stack ⊆ frame.stack) :
    Frame.Each holds ⟨frame.locals, stack⟩ :=
  fun type member => each type (member.imp_right fun inside => fewer inside)

theorem push (each : frame.Each holds) {type : BlockType} (here : holds type) :
    (frame.push type).Each holds := by
  intro other member
  rcases member with inside | inside
  · exact each other (.inl inside)
  · rcases List.mem_cons.1 inside with rfl | before
    · exact here
    · exact each other (.inr before)

theorem give (each : frame.Each holds) {given : Option BlockType}
    (here : ∀ type, given = some type → holds type) : (frame.give given).Each holds := by
  cases given with
  | none => exact each
  | some type => exact each.push (here type rfl)

theorem replace (each : frame.Each holds) {new : BlockType} (here : holds new) (old : BlockType) :
    (frame.replace old new).Each holds := by
  have change : ∀ {types : List BlockType}, (∀ type ∈ types, holds type) →
      ∀ type ∈ types.map (fun one => if one = old then new else one), holds type := by
    intro types all type member
    obtain ⟨one, isIn, rfl⟩ := List.mem_map.1 member
    split
    · exact here
    · exact all one isIn
  intro type member
  rcases member with inside | inside
  · exact change (fun one isIn => each one (.inl isIn)) type inside
  · exact change (fun one isIn => each one (.inr isIn)) type inside

theorem set (each : frame.Each holds) {type : BlockType} (here : holds type) (slot : Nat) :
    Frame.Each holds ⟨frame.locals.set slot type, frame.stack⟩ := by
  intro other member
  rcases member with inside | inside
  · rcases List.mem_or_eq_of_mem_set inside with before | rfl
    · exact each other (.inl before)
    · exact here
  · exact each other (.inr inside)

theorem storeLocal (each : frame.Each holds) (top : holds .top) {type : BlockType}
    (here : holds type) {slot : Nat} (run : frame.storeLocal slot type = .ok after) :
    after.Each holds := by
  rw [Frame.storeLocal] at run
  split at run
  · obtain rfl := Except.ok.inj run
    have clobbered : Frame.Each holds
        ⟨if 0 < slot ∧ (frame.locals[slot - 1]?.map VerificationType.width) = some 2 then
            frame.locals.set (slot - 1) .top
          else frame.locals, frame.stack⟩ := by
      split
      · exact each.set top _
      · exact each
    have stored := clobbered.set here slot
    split
    · exact stored.set top _
    · exact stored
  · cases run

end Frame.Each

theorem Frame.length_resize (frame : BlockFrame) (slots : Nat) :
    (frame.resize slots).locals.length = slots := by
  rw [Frame.resize, List.length_append, List.length_take, List.length_replicate]
  omega

/-- More room holds nothing that can be used. -/
theorem Frame.Each.resize (each : frame.Each holds) (top : holds .top) (slots : Nat) :
    (frame.resize slots).Each holds := by
  intro type member
  rcases member with inside | inside
  · rcases List.mem_append.1 inside with before | padding
    · exact each type (.inl (List.mem_of_mem_take before))
    · exact List.eq_of_mem_replicate padding ▸ top
  · exact each type (.inr inside)

theorem Frame.mem_spread {types : List BlockType} {type : BlockType}
    (member : type ∈ Frame.spread types) : type ∈ types ∨ type = .top := by
  fun_induction Frame.spread types with
  | case1 => exact .inl member
  | case2 first rest wide ih =>
    rcases List.mem_cons.1 member with rfl | member
    · exact .inl List.mem_cons_self
    rcases List.mem_cons.1 member with rfl | member
    · exact .inr rfl
    exact (ih member).imp_left (List.mem_cons_of_mem _)
  | case3 first rest narrow ih =>
    rcases List.mem_cons.1 member with rfl | member
    · exact .inl List.mem_cons_self
    exact (ih member).imp_left (List.mem_cons_of_mem _)

/-- The first frame of a method has the types of its receiver and parameters. -/
theorem MethodContext.each_entryFrame {method : MethodContext} (top : holds .top)
    (this : holds .uninitializedThis) (receiver : holds (.object method.thisClass))
    (parameters : ∀ type ∈ method.descriptor.parameters, holds (.ofFieldType type)) :
    method.entryFrame.Each holds := by
  intro type member
  rcases member with inside | inside
  · rcases Frame.mem_spread inside with declared | rfl
    · rcases List.mem_append.1 declared with isReceiver | isParameter
      · unfold MethodContext.receiver at isReceiver
        split at isReceiver
        · cases isReceiver
        · split at isReceiver
          · exact List.mem_singleton.1 isReceiver ▸ this
          · exact List.mem_singleton.1 isReceiver ▸ receiver
      · obtain ⟨field, isField, rfl⟩ := List.mem_map.1 isParameter
        exact parameters field isField
    · exact top
  · cases inside

variable {context : CodeContext}

/-- What an effect leaves has a property if what it finds and what it gives have. -/
theorem Effect.Turns.each {effect : Effect} (turns : effect.Turns context frame after)
    (top : holds .top) (given : ∀ type, effect.given? = some type → holds type)
    (element : ∀ type, holds type → holds (CodeContext.elementType type))
    (initialized : ∀ receiver cls, context.initializedClass receiver = .ok (some cls) →
      holds (.object cls))
    (before : frame.Each holds) : after.Each holds := by
  cases turns with
  | exchange enough => exact (before.leave (List.drop_subset _ _)).give given
  | load found => exact before.push (before _ (.inl (List.mem_of_getElem? found)))
  | store stored =>
    have popped := before.leave (List.subset_cons_self _ _)
    exact popped.storeLocal top (before _ (.inr List.mem_cons_self)) stored
  | touch => exact before
  | @element index array locals rest =>
    have popped : Frame.Each holds ⟨locals, rest⟩ :=
      before.leave (List.subset_cons_of_subset _ (List.subset_cons_self _ _))
    have isArray : array ∈ index :: array :: rest := List.mem_cons_of_mem _ List.mem_cons_self
    exact popped.push (element array (before array (.inr isArray)))
  | @rearrange op stack _ run => exact before.leave (op.mem_of_mem_rearrange run)
  | @construct arguments result receiver rest cls? _ operands made =>
    have fewer : rest ⊆ frame.stack := by
      apply List.Subset.trans _ (List.drop_subset arguments frame.stack)
      rw [operands]
      exact List.subset_cons_self _ _
    have popped := before.leave fewer
    cases cls? with
    | none => exact popped.give given
    | some cls => exact (popped.replace (initialized receiver cls made) receiver).give given

theorem Frame.length_storeLocal {type : BlockType} {slot : Nat}
    (run : frame.storeLocal slot type = .ok after) :
    after.locals.length = frame.locals.length := by
  rw [Frame.storeLocal] at run
  split at run
  · obtain rfl := Except.ok.inj run
    dsimp only
    split_ifs <;> simp only [List.length_set]
  · cases run

theorem Frame.storeLocal_stack {type : BlockType} {slot : Nat}
    (run : frame.storeLocal slot type = .ok after) : after.stack = frame.stack := by
  rw [Frame.storeLocal] at run
  split at run
  · obtain rfl := Except.ok.inj run
    rfl
  · cases run

/-- No effect changes the number of locals. -/
theorem Effect.Turns.length_locals {effect : Effect} (turns : effect.Turns context frame after) :
    after.locals.length = frame.locals.length := by
  cases turns with
  | @store slot type locals rest _ stored =>
    have kept : after.locals.length = locals.length := Frame.length_storeLocal stored
    exact kept
  | @construct _ _ _ _ cls? =>
    cases cls? with
    | none => rfl
    | some cls => exact List.length_map _
  | _ => rfl

theorem Shuffle.length_rearrange_le {op : Shuffle} {stack rearranged : List BlockType}
    (run : op.rearrange? stack = some rearranged) : rearranged.length ≤ stack.length + 2 := by
  unfold Shuffle.rearrange? at run
  split at run
  all_goals repeat' split at run
  all_goals cases run
  all_goals simp only [List.length_cons]; omega

/-- No effect adds more than two operands. -/
theorem Effect.Turns.length_stack_le {effect : Effect} (turns : effect.Turns context frame after) :
    after.stack.length ≤ frame.stack.length + 2 := by
  have given : ∀ (result : Option BlockType) (rest : List BlockType),
      rest.length ≤ frame.stack.length → (result.toList ++ rest).length ≤ frame.stack.length + 2 := by
    intro result rest fewer
    cases result <;> simp <;> omega
  cases turns with
  | exchange enough => exact given _ _ (by simp)
  | load => simp [Frame.push]
  | @store slot type locals rest _ stored =>
    rw [Frame.storeLocal_stack stored]
    exact Nat.le_add_right _ 3
  | touch => exact Nat.le_add_right _ _
  | element => simp
  | rearrange run => exact Shuffle.length_rearrange_le run
  | @construct arguments result receiver rest cls? _ operands made =>
    have fewer : rest.length ≤ frame.stack.length := by
      have lengths := congrArg List.length operands
      simp only [List.length_drop, List.length_cons] at lengths
      omega
    cases cls? with
    | none => exact given _ _ fewer
    | some cls => exact given _ _ (by simpa [Frame.initialized, Frame.replace] using fewer)

theorem CodeContext.length_steps {block : Nat} {instructions : List Instruction}
    (run : instructions.foldlM (context.step block) frame = .ok after) :
    after.locals.length = frame.locals.length := by
  refine @foldlM_preserves _ _ _ (fun here => here.locals.length = frame.locals.length) _ _
    (fun instruction _ before after same stepped => ?_) _ _ rfl run
  obtain ⟨effect, -, turns⟩ := (step_eq_ok block instruction after).1 stepped
  exact turns.length_locals.trans same

namespace CodeContext

theorem each_of_step {block : Nat} {instruction : Instruction}
    (run : context.step block frame instruction = .ok after) (top : holds .top)
    (given : ∀ type, context.Gives block instruction type → holds type)
    (element : ∀ type, holds type → holds (elementType type))
    (initialized : ∀ receiver cls, context.initializedClass receiver = .ok (some cls) →
      holds (.object cls))
    (before : frame.Each holds) : after.Each holds := by
  obtain ⟨effect, isEffect, turns⟩ := (step_eq_ok block instruction after).1 run
  exact turns.each top (fun type here => given type (gives_of_effect isEffect here)) element
    initialized before

/-- A branch only takes operands. -/
theorem suffix_of_stepBranch {branch : Branch Nat Nat Nat}
    (run : stepBranch frame branch = .ok after) :
    after.locals = frame.locals ∧ after.stack <:+ frame.stack := by
  have dropped : ∀ {count site}, frame.drop count site = .ok after →
      after.locals = frame.locals ∧ after.stack <:+ frame.stack := by
    intro count site run
    obtain ⟨-, rfl⟩ := Frame.drop_eq_ok.1 run
    exact ⟨rfl, List.drop_suffix _ _⟩
  unfold stepBranch at run
  split at run
  all_goals first
    | exact dropped run
    | cases run; exact ⟨rfl, List.suffix_refl _⟩
    | cases run

end CodeContext

end

end ClassFile
