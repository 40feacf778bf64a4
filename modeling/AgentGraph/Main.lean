import AgentGraph.CommandLine
/-!
# The program

Runs the command line on the files of the machine. Output goes to standard output, what is told
about a failure to standard error.
-/
namespace AgentGraph

/-- The cause of a failed operation on the machine. -/
def Fault.ofError : IO.Error → Fault
  | .noFileOrDirectory .. => .notFound
  | .alreadyExists .. => .alreadyExists
  | .inappropriateType _ code _ => if code = 21 then .isADirectory else .notADirectory
  | .invalidArgument _ 36 _ => .nameTooLong
  | e => .other (toString e)

/-- Runs an operation on the machine and catches its failure. -/
def attempt {α : Type} (operation : IO α) : IO (Except Fault α) := do
  match ← operation.toBaseIO with
  | .ok a => return .ok a
  | .error e => return .error (Fault.ofError e)

/-- The files of the machine. -/
instance : Disk IO where
  read p := attempt (IO.FS.readFile p.text)
  write p text := attempt (IO.FS.writeFile p.text text)
  rename source target := attempt (IO.FS.rename source.text target.text)
  remove p := attempt (IO.FS.removeFile p.text)
  makeDirectories p := attempt (IO.FS.createDirAll p.text)
  present p := do
    let here ← IO.currentDir
    (here / p.text).pathExists
  names p := attempt do
    let here ← IO.currentDir
    let entries ← (here / p.text).readDir
    return (entries.map (·.fileName)).toList

/-- The variables that the program looks at. -/
def variableNames : List String :=
  ["AGENTSPEC_NAMING", "AGENTSPEC_TARGET_VERSION", "AGENTSPEC_MAX_INPUT_SIZE",
    "AGENTSPEC_MAX_DEPTH"]

def variablesSet : IO (Dict String) :=
  variableNames.filterMapM fun name => return (← IO.getEnv name).map fun value => (name, value)

end AgentGraph

open AgentGraph in
def main (arguments : List String) : IO UInt32 := do
  let outcome ← CommandLine.run (← variablesSet) arguments
  IO.print outcome.output
  if let some message := outcome.message then IO.eprintln message
  return UInt32.ofNat outcome.code
