namespace ClassFile

/-!
# What is computed anew

The limits of a method and its stack map can be taken as they are given or
computed from the code.  Frames fix the limits they are checked against, so
whoever computes frames computes limits too.
-/

inductive ComputeMode
  | nothing | limits | frames
deriving DecidableEq, Repr

namespace ComputeMode

def name : ComputeMode → String
  | nothing => "none"
  | limits => "maxs"
  | frames => "frames"

def all : List ComputeMode := [nothing, limits, frames]

def ofName? (text : String) : Option ComputeMode :=
  all.find? fun mode => mode.name == text

theorem ofName_name (mode : ComputeMode) : ofName? mode.name = some mode := by
  cases mode <;> decide

/-- One bit for the limits and one for the frames. -/
def flags : ComputeMode → UInt8
  | nothing => 0
  | limits => 1
  | frames => 3

def computesLimits (mode : ComputeMode) : Bool :=
  mode != nothing

def computesFrames (mode : ComputeMode) : Bool :=
  mode == frames

end ComputeMode
end ClassFile
