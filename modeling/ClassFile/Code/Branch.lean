import ClassFile.Code.Instruction

namespace ClassFile

/-!
# Instructions that end a block

A branch names its targets in three ways: targets encoded in 16 bits, targets
encoded in 32 bits, and the block that control falls into, which the layout
implies.  Each is a type parameter.  They are labels while code is recorded,
blocks in the control flow graph, and relative offsets (with nothing for the
next block) just before a branch is written.
-/

/-- The order is that of the opcodes of every family of conditional branches. -/
inductive Comparison
  | eq | ne | lt | ge | gt | le
deriving DecidableEq, Repr

inductive Equality
  | eq | ne
deriving DecidableEq, Repr

inductive Condition
  /-- An `int` against zero. -/
  | zero (comparison : Comparison)
  | ints (comparison : Comparison)
  | references (equality : Equality)
  /-- A reference against `null`. -/
  | null (equality : Equality)
deriving DecidableEq, Repr

inductive Branch (σ ω ν : Type)
  | conditional (condition : Condition) (target : σ) (next : ν)
  | goto (target : σ)
  | gotoWide (target : ω)
  /-- Call a subroutine that returns to `next`. -/
  | jsr (target : σ) (next : ν)
  | jsrWide (target : ω) (next : ν)
  /-- Return from a subroutine to the address in a local variable. -/
  | ret (slot : UInt16)
  /-- Jump by position, where `targets` starts at the key `low`.  The padding
  aligns the operands to four bytes within the method. -/
  | tableSwitch (padding : Nat) (otherwise : ω) (low : Int32) (targets : List ω)
  | lookupSwitch (padding : Nat) (otherwise : ω) (targets : List (Int32 × ω))
  | returns (kind : Option ValueKind)
  | throws
  /-- Run into the next block without an instruction. -/
  | fallThrough (next : ν)
  /-- The code stops here without an instruction. -/
  | stop
deriving DecidableEq, Repr

namespace Branch

variable {σ ω ν σ' ω' ν' : Type}

/-- Where control continues when the branch is not taken or has returned. -/
def next? : Branch σ ω ν → Option ν
  | conditional _ _ next | jsr _ next | jsrWide _ next | fallThrough next => some next
  | _ => none

/-- The targets of a taken branch, the default of a switch first. -/
def targets {τ : Type} : Branch τ τ ν → List τ
  | conditional _ target _ | goto target | gotoWide target
  | jsr target _ | jsrWide target _ => [target]
  | tableSwitch _ otherwise _ targets => otherwise :: targets
  | lookupSwitch _ otherwise targets => otherwise :: targets.map Prod.snd
  | _ => []

/-- Rename all targets.  A renaming that fails stops at the first target, in the
order of `targets` and then `next?`. -/
def mapM {m : Type → Type} [Monad m] (short : σ → m σ') (wide : ω → m ω') (next : ν → m ν') :
    Branch σ ω ν → m (Branch σ' ω' ν')
  | conditional condition target after =>
    return conditional condition (← short target) (← next after)
  | goto target => return goto (← short target)
  | gotoWide target => return gotoWide (← wide target)
  | jsr target after => return jsr (← short target) (← next after)
  | jsrWide target after => return jsrWide (← wide target) (← next after)
  | ret slot => return ret slot
  | tableSwitch padding otherwise low targets =>
    return tableSwitch padding (← wide otherwise) low (← targets.mapM wide)
  | lookupSwitch padding otherwise targets =>
    return lookupSwitch padding (← wide otherwise)
      (← targets.mapM fun pair => return (pair.1, ← wide pair.2))
  | returns kind => return returns kind
  | throws => return throws
  | fallThrough after => return fallThrough (← next after)
  | stop => return stop

/-- Zero bytes after the opcode of a switch at an offset, so that its operands
start at a multiple of four. -/
def paddingAt (offset : Nat) : Nat :=
  (4 - (offset + 1) % 4) % 4

/-- Set the padding of a switch and leave other branches alone. -/
def withPadding (padding : Nat) : Branch σ ω ν → Branch σ ω ν
  | tableSwitch _ otherwise low targets => tableSwitch padding otherwise low targets
  | lookupSwitch _ otherwise targets => lookupSwitch padding otherwise targets
  | branch => branch

/-- Operand stack slots that the branch takes.  A return counts its value alone,
since the rest of the stack is discarded. -/
def pops : Branch σ ω ν → Nat
  | conditional (.zero _) _ _ | conditional (.null _) _ _ => 1
  | conditional (.ints _) _ _ | conditional (.references _) _ _ => 2
  | tableSwitch .. | lookupSwitch .. => 1
  | returns (some kind) => kind.width
  | throws => 1
  | _ => 0

def isSubroutine : Branch σ ω ν → Bool
  | jsr .. | jsrWide .. | ret _ => true
  | _ => false

/-- Bytes of the encoding, padding included. -/
def width : Branch σ ω ν → Nat
  | conditional .. | goto _ | jsr .. => 3
  | gotoWide _ | jsrWide .. => 5
  | ret slot => if slot.toNat ≤ 0xFF then 2 else 4
  | tableSwitch padding _ _ targets => 1 + padding + 4 * (3 + targets.length)
  | lookupSwitch padding _ targets => 1 + padding + 8 * (1 + targets.length)
  | returns _ | throws => 1
  | fallThrough _ | stop => 0

end Branch
end ClassFile
