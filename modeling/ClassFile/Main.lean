import ClassFile.CommandLine

/-!
# Encoding a class file again from the command line

Directories of the class path are not listed.  A class is read from them when it
turns out to be missing, and then everything is tried again.
-/

namespace ClassFile.Main

def isDirectory (path : String) : IO Bool := do
  try
    IO.FS.withFile (path ++ "/.") .read fun _ => return true
  catch _ => return false

/-- A directory of the class path with the files read from it so far. -/
def directory (path : String) (files : List (String × Bytes)) : Directory :=
  .ofFiles path files

/-- The file of a class in a directory, if there is one. -/
def readClass (path name : String) : IO (List (String × Bytes)) := do
  let file := name ++ ".class"
  try
    return [(file, (← IO.FS.readBinFile (path ++ "/" ++ file)).data.toList)]
  catch _ => return []

/-- Encode again, reading the classes that turn out to be missing.  A class that
was looked for already stays missing. -/
partial def encodeAgain (mode : ComputeMode) (bytes : Bytes) (tried : List String)
    (found : List (String × List (String × Bytes))) : IO (Except Fault Bytes) := do
  let settings : Settings := ⟨mode, found.map fun (path, files) => directory path files⟩
  match settings.reencode bytes with
  | .error (.typeNotPresent name) =>
    if tried.contains name then return .error (.typeNotPresent name)
    let found ← found.mapM fun (path, files) => return (path, files ++ (← readClass path name))
    encodeAgain mode bytes (name :: tried) found
  | answer => return answer

/-- Check that the class path consists of directories. -/
def checkPath (path : String) : IO (Except SettingsFault Unit) := do
  let found := if ← isDirectory path then some (directory path []) else none
  return (Settings.standard.addDirectory path found).map fun _ => ()

def run (line : CommandLine) : IO UInt32 := do
  for path in line.classPath do
    if let .error fault ← checkPath path then
      IO.eprintln ("Error: " ++ fault.message)
      return 1
  let bytes := (← IO.FS.readBinFile line.input).data.toList
  match ← encodeAgain line.mode bytes [] (line.classPath.map fun path => (path, [])) with
  | .ok encoded =>
    IO.FS.writeBinFile line.output ⟨encoded.toArray⟩
    return 0
  | .error fault =>
    IO.eprintln ("Error: " ++ fault.message)
    return 1

end ClassFile.Main

def main (arguments : List String) : IO UInt32 := do
  if arguments.contains "--help" then
    IO.print ClassFile.CommandLine.usage
    return 0
  match ClassFile.CommandLine.parse arguments with
  | .ok line => ClassFile.Main.run line
  | .error misuse =>
    IO.eprintln ("error: " ++ misuse.message ++ "\n\n" ++ ClassFile.CommandLine.usage)
    return 2
