import TableParsing.CommandLine.Execution

/-!
# The program

Reads the files that a command names, writes the one it makes, and prints its outcome.
-/
namespace TableParsing.CommandLine

def readFault : IO.Error → ReadFault
  | .noFileOrDirectory .. => .notFound
  | e => .other (toString e)

def readFile (path : String) : IO (Except ReadFault Bytes) := do
  match ← (IO.FS.readBinFile path).toBaseIO with
  | .ok bytes => return .ok bytes.toList
  | .error e => return .error (readFault e)

def writeFile (path : String) (bytes : Bytes) : IO (Option ReadFault) := do
  match ← (IO.FS.writeBinFile path ⟨bytes.toArray⟩).toBaseIO with
  | .ok _ => return none
  | .error e => return some (readFault e)

/-- The files a command may read. -/
def inputs : Command → List String
  | .parse file _ _ config => config.toList ++ [file]
  | .checkTable path => path.toList
  | _ => []

/-- Runs the command to learn what it writes, writes that, and runs it again knowing what could not
be written. -/
def perform (command : Command) : IO Outcome := do
  let mut contents := []
  for path in inputs command do
    contents := (path, ← readFile path) :: contents
  let known := contents
  let read (path : String) : Except ReadFault Bytes :=
    ((known.find? (·.1 == path)).map (·.2)).getD (.error .notFound)
  let outcome := command.run ⟨read, fun _ => none⟩
  let mut refusals := []
  for (path, bytes) in outcome.written do
    if let some fault ← writeFile path bytes then
      refusals := (path, fault) :: refusals
  let refused := refusals
  return command.run ⟨read, fun path => (refused.find? (·.1 == path)).map (·.2)⟩

end TableParsing.CommandLine

open TableParsing.CommandLine

def main (args : List String) : IO UInt32 := do
  let outcome ← match command args with
    | .ok command => perform command
    | .error _ => pure (run ⟨fun _ => .error .notFound, fun _ => none⟩ args)
  (← IO.getStdout).putStr outcome.stdout
  for line in outcome.stderr do
    IO.eprintln line
  if outcome.exit == 2 then
    IO.eprintln helpText
  return UInt32.ofNat outcome.exit
