import ClassFile.Settings

namespace ClassFile

/-!
# The command line

The program encodes one class file again.  It is told where to read and where to
write, and may be told what to compute and which directories hold the classes
that frames need to know.
-/

structure CommandLine where
  input : String
  output : String
  mode : ComputeMode
  /-- The directories of the class path in the order they are searched. -/
  classPath : List String
deriving DecidableEq, Repr

namespace CommandLine

/-- Options as they are given, where the last mode counts and no other option
but the class path may be given twice. -/
structure Given where
  input : Option String
  output : Option String
  mode : ComputeMode
  classPath : List String

def usage : String :=
  "Usage: --input <FILE> --output <FILE> [--compute <MODE>] [--class-path <DIR>]...\n\n" ++
  "  --input <FILE>      Class file to read\n" ++
  "  --output <FILE>     Where to write the encoded class\n" ++
  "  --compute <MODE>    What to compute anew: none, maxs or frames [default: frames]\n" ++
  "  --class-path <DIR>  Directory of class files that frames need to know (repeatable)\n"

/-- What is wrong with a command line. -/
inductive Misuse
  | unknownOption (option : String)
  | missingValue (option : String)
  | repeated (option : String)
  | missingOption (option : String)
  | settings (fault : SettingsFault)
deriving DecidableEq, Repr

def Misuse.message : Misuse → String
  | unknownOption option => s!"unexpected argument '{option}'"
  | missingValue option => s!"a value is required for '{option}'"
  | repeated option => s!"the argument '{option}' cannot be used multiple times"
  | missingOption option => s!"the required argument '{option}' was not provided"
  | settings fault => fault.message

/-- Set what may be given once. -/
def once (option value : String) : Option String → Except Misuse (Option String)
  | none => .ok (some value)
  | some _ => .error (.repeated option)

def Given.set (given : Given) (option value : String) : Except Misuse Given := do
  match option with
  | "--input" => return { given with input := ← once option value given.input }
  | "--output" => return { given with output := ← once option value given.output }
  | "--compute" =>
    match ComputeMode.parse value with
    | .ok mode => return { given with mode }
    | .error fault => throw (.settings fault)
  | "--class-path" => return { given with classPath := given.classPath ++ [value] }
  | _ => throw (.unknownOption option)

/-- Take options off the front of the arguments, each with its value after an
equals sign or as the next argument. -/
def Given.addAll (given : Given) : List String → Except Misuse Given
  | [] => .ok given
  | argument :: rest =>
    match argument.toList.span (· != '=') with
    | (option, _ :: value) => do
      (← given.set (String.ofList option) (String.ofList value)).addAll rest
    | (_, []) =>
      match rest with
      | value :: rest => do (← given.set argument value).addAll rest
      | [] => .error (.missingValue argument)

def require (option : String) : Option String → Except Misuse String
  | some value => .ok value
  | none => .error (.missingOption option)

def parse (arguments : List String) : Except Misuse CommandLine := do
  let given ← (Given.mk none none .frames []).addAll arguments
  return {
    input := ← require "--input" given.input
    output := ← require "--output" given.output
    mode := given.mode
    classPath := given.classPath }

end CommandLine
end ClassFile
