import ClassFile.Code.Mode
import ClassFile.Class.Replay
import ClassFile.Hierarchy.Standard

namespace ClassFile

/-!
# Encoding a class again

A class file is decoded and encoded with what has to be computed anew.  Classes
that frames need to know are the standard ones and those of the directories of a
class path.
-/

structure Settings where
  mode : ComputeMode
  classPath : List Directory

/-- What is wrong with settings. -/
inductive SettingsFault
  | unknownMode (text : String)
  | notDirectory (path : String)
deriving DecidableEq, Repr

namespace SettingsFault

def message : SettingsFault → String
  | unknownMode text =>
    s!"unknown compute mode '{text}' (expected one of " ++
      ", ".intercalate (ComputeMode.all.map ComputeMode.name) ++ ")"
  | notDirectory path => s!"class path entry {path} is not a directory"

end SettingsFault

def ComputeMode.parse (text : String) : Except SettingsFault ComputeMode :=
  match ofName? text with
  | some mode => .ok mode
  | none => .error (.unknownMode text)

namespace Settings

def standard : Settings := ⟨.frames, []⟩

/-- Add what is found at a path to the end of the class path, which must be a
directory. -/
def addDirectory (settings : Settings) (path : String) (found : Option Directory) :
    Except SettingsFault Settings :=
  match found with
  | some directory => .ok { settings with classPath := settings.classPath ++ [directory] }
  | none => .error (.notDirectory path)

def hierarchy (settings : Settings) : Hierarchy :=
  .ofGraph ClassGraph.standard settings.classPath

/-- Decode a class file and encode it again. -/
def reencode (settings : Settings) (bytes : Bytes) : Except Fault Bytes := do
  let image ← ClassImage.parse bytes
  let start := ClassBuilder.ofPool settings.mode settings.hierarchy image.pool
  let (answer, builder) := (image.replay true).run start
  answer
  builder.encode

end Settings
end ClassFile
