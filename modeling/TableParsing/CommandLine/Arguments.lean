/-!
# Command line arguments

Options may be long or short, short ones may be joined, and a value may follow its option directly,
behind an equals sign, or as the next argument. No option is given twice, and nothing behind `--` is
an option.
-/
namespace TableParsing.CommandLine

inductive Flag where
  | json
  | quiet
  | config
  | output
  | log
  | help
  | version
deriving DecidableEq

def Flag.takesValue : Flag → Bool
  | config | output | log => true
  | _ => false

/-- Why the arguments name no command to run. -/
inductive Stop where
  | usage
  | help
  | version
deriving DecidableEq

/-- What a command accepts. -/
structure Signature where
  long : List (String × Flag)
  short : List (Char × Flag)
  operands : Nat

/-- What has been given. -/
structure Given where
  flags : List Flag
  values : List (Flag × String)
  operands : List String

namespace Given

def none : Given := ⟨[], [], []⟩

/-- Paths are not empty. -/
def addValue (g : Given) (f : Flag) (v : String) : Except Stop Given :=
  if g.values.any (·.1 == f) || (v.isEmpty && f != .log) then .error .usage
  else .ok { g with values := g.values ++ [(f, v)] }

def addFlag (g : Given) : Flag → Except Stop Given
  | .help => .error .help
  | .version => .error .version
  | f => if g.flags.contains f then .error .usage else .ok { g with flags := f :: g.flags }

def addOperand (g : Given) (limit : Nat) (v : String) : Except Stop Given :=
  if limit ≤ g.operands.length || v.isEmpty then .error .usage
  else .ok { g with operands := g.operands ++ [v] }

def value? (g : Given) (f : Flag) : Option String := (g.values.find? (·.1 == f)).map (·.2)

end Given

/-- A lone hyphen is an ordinary argument. -/
def isOption (arg : String) : Bool := arg.startsWith "-" && arg != "-"

/-- The text before the first equals sign and the text behind it. -/
def splitEquals : List Char → List Char × Option (List Char)
  | [] => ([], none)
  | '=' :: rest => ([], some rest)
  | c :: rest =>
    let (name, attached) := splitEquals rest
    (c :: name, attached)

/-- Joined short options. One that takes a value ends them; it is returned if nothing is joined to
it. -/
def addShort (sig : Signature) (g : Given) : List Char → Except Stop (Given × Option Flag)
  | [] => .ok (g, none)
  | c :: rest =>
    match sig.short.find? (·.1 == c) with
    | none => .error .usage
    | some (_, f) =>
      if f.takesValue then
        match rest with
        | [] => .ok (g, some f)
        | '=' :: v | v => (g.addValue f (String.ofList v)).map (·, none)
      else (g.addFlag f).bind fun g => addShort sig g rest

/-- A long option without its hyphens; one that takes a value is returned if no equals sign
follows. -/
def addLong (sig : Signature) (g : Given) (option : List Char) :
    Except Stop (Given × Option Flag) :=
  let (name, attached) := splitEquals option
  match sig.long.find? (·.1 == String.ofList name), attached with
  | none, _ => .error .usage
  | some (_, f), none => if f.takesValue then .ok (g, some f) else (g.addFlag f).map (·, none)
  | some (_, f), some v =>
    if f.takesValue then (g.addValue f (String.ofList v)).map (·, none) else .error .usage

/-- An argument that begins with a hyphen; an option whose value must be the next argument is
returned. -/
def addOption (sig : Signature) (g : Given) (arg : String) : Except Stop (Given × Option Flag) :=
  match arg.toList with
  | '-' :: '-' :: option => addLong sig g option
  | _ :: options => addShort sig g options
  | [] => .error .usage

/-- The value that the next argument is for an option. -/
def addPending (g : Given) (f : Flag) (arg : String) : Except Stop Given :=
  if isOption arg then .error .usage else g.addValue f arg

def readOperands (limit : Nat) (g : Given) (args : List String) : Except Stop Given :=
  args.foldlM (fun g v => g.addOperand limit v) g

/-- Reads the arguments of a command; the first one is the value of a pending option. -/
def readArguments (sig : Signature) :
    (pending : Option Flag) → Given → List String → Except Stop Given
  | none, g, [] => .ok g
  | some _, _, [] => .error .usage
  | some f, g, arg :: rest => (addPending g f arg).bind fun g => readArguments sig none g rest
  | none, g, arg :: rest =>
    if arg = "--" then readOperands sig.operands g rest
    else if isOption arg then
      (addOption sig g arg).bind fun (g, pending) => readArguments sig pending g rest
    else (g.addOperand sig.operands arg).bind fun g => readArguments sig none g rest

/-- The commands of the program. -/
inductive Command where
  | parse (file : String) (json quiet : Bool) (config : Option String)
  | symbols
  | dumpTable (output : String)
  | checkTable (path : Option String)
deriving DecidableEq

def sharedLong : List (String × Flag) := [("log", .log), ("help", .help)]

def sharedShort : List (Char × Flag) := [('h', .help)]

inductive CommandName where
  | parse
  | symbols
  | dumpTable
  | checkTable
deriving DecidableEq

namespace CommandName

def ofString? : String → Option CommandName
  | "parse" => some parse
  | "symbols" => some symbols
  | "dump-table" => some dumpTable
  | "check-table" => some checkTable
  | _ => none

def accepts : CommandName → Signature
  | parse =>
    ⟨("json", .json) :: ("quiet", .quiet) :: ("config", .config) :: sharedLong,
      ('q', .quiet) :: sharedShort, 1⟩
  | symbols => ⟨sharedLong, sharedShort, 0⟩
  | dumpTable => ⟨("output", .output) :: sharedLong, ('o', .output) :: sharedShort, 0⟩
  | checkTable => ⟨sharedLong, sharedShort, 1⟩

/-- The command that was given, if nothing required is missing. -/
def command? (g : Given) : CommandName → Option Command
  | parse =>
    g.operands.head?.map fun file =>
      .parse file (g.flags.contains .json) (g.flags.contains .quiet) (g.value? .config)
  | symbols => some .symbols
  | dumpTable => (g.value? .output).map .dumpTable
  | checkTable => some (.checkTable g.operands.head?)

end CommandName

/-- Whether help exists on the commands named, each of which but the last holds the next. -/
def hasHelp : List String → Bool
  | [] => true
  | "help" :: rest => hasHelp rest
  | [name] => (CommandName.ofString? name).isSome
  | _ => false

def readCommand (name : CommandName) (args : List String) : Except Stop Command := do
  let given ← readArguments name.accepts none .none args
  match name.command? given with
  | some command => .ok command
  | none => .error .usage

/-- What the program accepts before the name of a command. -/
def programSignature : Signature :=
  ⟨("version", .version) :: sharedLong, ('V', .version) :: sharedShort, 0⟩

/-- Reads the options of the program itself up to the name of a command. -/
def readProgram : (pending : Option Flag) → Given → List String → Except Stop Command
  | _, _, [] => .error .usage
  | some f, g, arg :: rest => (addPending g f arg).bind fun g => readProgram none g rest
  | none, g, arg :: rest =>
    if isOption arg then
      (addOption programSignature g arg).bind fun (g, pending) => readProgram pending g rest
    else if arg = "help" then .error (if hasHelp rest then .help else .usage)
    else
      match CommandName.ofString? arg with
      | some name => readCommand name rest
      | none => .error .usage

def command (args : List String) : Except Stop Command := readProgram none .none args

end TableParsing.CommandLine
