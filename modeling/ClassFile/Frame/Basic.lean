import ClassFile.Frame.Type

namespace ClassFile

/-!
# Frames

A frame holds the types of the local variables, one for every slot, and of the
operands, the top of the stack first.  A value of two slots is followed by an
unusable slot among the locals.  Class files list locals by value instead:
`entries` leaves those second slots out, and unusable locals at the end with
them.
-/

structure Frame (κ υ : Type) where
  /-- One type for every slot. -/
  locals : List (VerificationType κ υ)
  /-- The top of the stack first. -/
  stack : List (VerificationType κ υ)
deriving DecidableEq, Repr

/-- A frame at the start of a block, where classes are names and sites blocks. -/
abbrev BlockFrame := Frame String Nat

/-- A frame as it is written. -/
abbrev WrittenFrame := Frame PoolIndex Nat

namespace Frame

variable {κ υ κ' υ' : Type}

/-- The slots of locals that are listed by value. -/
def spread : List (VerificationType κ υ) → List (VerificationType κ υ)
  | [] => []
  | type :: rest => if type.width = 2 then type :: .top :: spread rest else type :: spread rest

/-- The values that slots hold, where a wide one skips the slot after it. -/
def gather : List (VerificationType κ υ) → List (VerificationType κ υ)
  | [] => []
  | [type] => [type]
  | type :: next :: rest =>
    if type.width = 2 then type :: gather rest else type :: gather (next :: rest)

def isTop : VerificationType κ υ → Bool
  | .top => true
  | _ => false

/-- Leave out unusable locals at the end. -/
def trim (types : List (VerificationType κ υ)) : List (VerificationType κ υ) :=
  (types.reverse.dropWhile isTop).reverse

/-- The frame of locals listed by value and of operands, the bottom first. -/
def ofEntries (locals stack : List (VerificationType κ υ)) : Frame κ υ :=
  ⟨spread locals, stack.reverse⟩

/-- The locals by value, as a class file lists them. -/
def entries (frame : Frame κ υ) : List (VerificationType κ υ) :=
  trim (gather frame.locals)

/-- The operands from the bottom up. -/
def operands (frame : Frame κ υ) : List (VerificationType κ υ) :=
  frame.stack.reverse

/-- Slots that the operands take. -/
def height (frame : Frame κ υ) : Nat :=
  Wide.total frame.stack

/-- Cut the locals, or pad them with unusable ones, to a number of slots. -/
def resize (frame : Frame κ υ) (slots : Nat) : Frame κ υ :=
  { frame with
    locals := frame.locals.take slots ++ List.replicate (slots - frame.locals.length) .top }

/-- Rename classes and sites, the locals first and then the operands from the
bottom up. -/
def mapM {m : Type → Type} [Monad m] (cls : κ → m κ') (site : υ → m υ')
    (frame : Frame κ υ) : m (Frame κ' υ') := do
  let locals ← frame.locals.mapM fun type => type.mapM cls site
  let stack ← frame.operands.mapM fun type => type.mapM cls site
  return ⟨locals, stack.reverse⟩

end Frame
end ClassFile
