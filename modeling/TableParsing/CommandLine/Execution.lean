import TableParsing.CommandLine.Arguments
import TableParsing.Configuration
import TableParsing.Parser.Parse
import TableParsing.Pyret.Language
import TableParsing.Tree.Sexp
import TableParsing.Tree.ToJson

/-!
# Running a command

What a command prints and writes, as a function of the files it reads.
-/
namespace TableParsing.CommandLine

/-- The file system as a command sees it. -/
structure Files where
  read : String → Except ReadFault Bytes
  /-- Why a path cannot be written, if it cannot. -/
  refusal : String → Option ReadFault

structure Outcome where
  exit : Nat
  stdout : String
  stderr : List String
  written : List (String × Bytes)

namespace Outcome

def success (stdout : String) : Outcome := ⟨0, stdout, [], []⟩

def failure (message : String) : Outcome := ⟨1, "", [s!"error: {message}"], []⟩

end Outcome

def versionLine : String := "pyret-sitter 0.1.0\n"

def helpText : String :=
  "Table-driven Pyret parser\n\n" ++
  "Usage: pyret-sitter [--log <LOG>] <COMMAND>\n\n" ++
  "Commands:\n" ++
  "  parse [--json] [-q|--quiet] [--config <CONFIG>] <FILE>\n" ++
  "  symbols\n" ++
  "  dump-table -o|--output <OUTPUT>\n" ++
  "  check-table [PATH]\n"

def readFailure (path : String) (fault : ReadFault) : Outcome :=
  .failure s!"could not read {path}: {fault.message}"

def loadConfig (files : Files) : Option String → Except Outcome ParseOptions
  | none => .ok {}
  | some path =>
    let result : Except ConfigFault ParseOptions :=
      match files.read path with
      | .error fault => .error (.unreadable fault)
      | .ok bytes =>
        match Utf8.decode? bytes with
        | none => .error (.unreadable .notUtf8)
        | some document => ParseOptions.ofToml document
    match result with
    | .ok options => .ok options
    | .error fault => .error (.failure (fault.message path))

/-- The tree as it is printed, and a headline for each error. -/
def reportTree (file : String) (json quiet : Bool) (tree : SyntaxTree) : Outcome :=
  let shown := if json then tree.toJson.pretty else tree.sexp
  let stdout := if quiet then "" else shown ++ "\n"
  if tree.hasError then
    let count := s!"error [{file}]: {tree.errors.length} syntax error(s)"
    ⟨1, stdout, tree.errors.map (·.headline) ++ [count], []⟩
  else .success stdout

/-- The options are read before the source. -/
def runParse (files : Files) (file : String) (json quiet : Bool) (config : Option String) :
    Outcome :=
  match loadConfig files config with
  | .error outcome => outcome
  | .ok options =>
    match files.read file with
    | .error fault => readFailure file fault
    | .ok bytes => reportTree file json quiet (Parser.parse ⟨Pyret.language, options⟩ bytes.toArray)

/-- The blanks that a text lacks to a width. -/
def padding (width : Nat) (s : String) : String :=
  String.ofList (List.replicate (width - s.length) ' ')

def padRight (width : Nat) (s : String) : String := s ++ padding width s

def padLeft (width : Nat) (s : String) : String := padding width s ++ s

/-- One line on a symbol: id, name, kind, and what is special about it. -/
def symbolLine (l : Language) (id : Nat) (name : String) : String :=
  let s : Symbol := ⟨UInt16.ofNat id⟩
  let kind := if l.isTerminal s then "terminal" else "non-terminal"
  let flags := (if l.isNamed s then ["named"] else []) ++ (if l.isVisible s then [] else ["hidden"])
  padLeft 3 (toString id) ++ "  " ++ padRight 24 name ++ " " ++ padRight 12 kind ++ " " ++
    String.intercalate "," flags ++ "\n"

def symbolList (l : Language) : String :=
  String.join (l.symbolNames.zipIdx.map fun (name, id) => symbolLine l id name)

def runDumpTable (files : Files) (output : String) : Outcome :=
  match Pyret.table.toArtifact with
  | .error e => .failure e.message
  | .ok bytes =>
    match files.refusal output with
    | some fault => .failure s!"could not write {output}: {fault.message}"
    | none => ⟨0, "", [s!"wrote {bytes.length} bytes to {output}"], [(output, bytes)]⟩

def describe (l : Language) : String :=
  s!"language: {l.name}\nversion:  {l.version}\nsymbols:  {l.symbolCount}\n" ++
    s!"fields:   {l.fieldCount}\nstates:   {l.stateCount}\n"

/-- An artifact carries no scanner; the one of the bundled grammar is known by its name. -/
def attachScanner (t : GrammarTable) : Grammar :=
  if t.name = Pyret.table.name then t.withScanner Pyret.scanParen else t.withoutScanner

def checkArtifact (bytes : Bytes) : Except LanguageError Language := do
  Language.load (attachScanner (← GrammarTable.ofArtifact bytes))

def runCheckTable (files : Files) : Option String → Outcome
  | none => .success (describe Pyret.language)
  | some path =>
    match files.read path with
    | .error fault => readFailure path fault
    | .ok bytes =>
      match checkArtifact bytes with
      | .error e => .failure e.message
      | .ok l => .success (describe l)

def Command.run (files : Files) : Command → Outcome
  | parse file json quiet config => runParse files file json quiet config
  | symbols => .success (symbolList Pyret.language)
  | dumpTable output => runDumpTable files output
  | checkTable path => runCheckTable files path

/-- The outcome of the whole program; a misuse is only told by the exit status. -/
def run (files : Files) (args : List String) : Outcome :=
  match command args with
  | .ok command => command.run files
  | .error .help => .success helpText
  | .error .version => .success versionLine
  | .error .usage => ⟨2, "", [], []⟩

end TableParsing.CommandLine
