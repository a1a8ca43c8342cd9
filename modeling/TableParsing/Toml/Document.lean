import TableParsing.Toml.Number
import TableParsing.Toml.Table

/-!
# TOML documents

A document is a list of lines: table headers and definitions. Arrays and inline tables nest at most
79 deep, and a dotted key has at most 79 parts.
-/
namespace TableParsing.Toml

def depthLimit : Nat := 79

def isBareKey (c : Char) : Bool :=
  isDigit c || decide ('a' ≤ c ∧ c ≤ 'z') || decide ('A' ≤ c ∧ c ≤ 'Z') || c == '_' || c == '-'

def simpleKey : Reader String
  | '"' :: rest => basicBody [] rest
  | '\'' :: rest => literalBody [] rest
  | cs =>
    let key := cs.takeWhile isBareKey
    if key.isEmpty then none else some (String.ofList key, cs.dropWhile isBareKey)

/-- A dotted key of at most `parts` parts, blanks around each. -/
def keyParts : (parts : Nat) → Reader (List String)
  | 0, _ => none
  | parts + 1, cs =>
    match simpleKey (skipBlanks cs) with
    | none => none
    | some (key, cs) =>
      match skipBlanks cs with
      | '.' :: rest => (keyParts parts rest).map fun (keys, rest) => (key :: keys, rest)
      | cs => some ([key], cs)

def key : Reader (List String × String) := fun cs =>
  (keyParts depthLimit cs).bind fun (keys, rest) =>
    keys.getLast?.map fun last => ((keys.dropLast, last), rest)

/-- The elements of an array up to its bracket, in front of the reversed `read`. -/
def arrayItems (value : Reader Value) : (count : Nat) → (read : List Value) → Reader (List Value)
  | 0, _, _ => none
  | count + 1, read, cs =>
    match skipLines cs.length cs with
    | none => none
    | some (']' :: rest) => some (read.reverse, rest)
    | some cs =>
      match value cs with
      | none => none
      | some (v, rest) =>
        match skipLines rest.length rest with
        | some (',' :: rest) => arrayItems value count (v :: read) rest
        | some (']' :: rest) => some ((v :: read).reverse, rest)
        | _ => none

def definition (value : Reader Value) : Reader ((List String × String) × Value) := fun cs =>
  (key cs).bind fun (k, rest) =>
    match rest with
    | '=' :: rest => (value (skipBlanks rest)).map fun (v, rest) => ((k, v), rest)
    | _ => none

/-- The definitions of an inline table up to its brace, added to `ms`. -/
def inlineMembers (value : Reader Value) : (count : Nat) → Members → Reader Members
  | 0, _, _ => none
  | count + 1, ms, cs =>
    match definition value cs with
    | none => none
    | some (((path, k), v), rest) =>
      match ms.define path k v with
      | none => none
      | some ms =>
        match skipBlanks rest with
        | ',' :: rest => inlineMembers value count ms rest
        | '\x7d' :: rest => some (ms, rest)
        | _ => none

def inlineTable (value : Reader Value) : Reader Value := fun cs =>
  match skipBlanks cs with
  | '\x7d' :: rest => some (.table [], rest)
  | _ => (inlineMembers value cs.length [] cs).map fun (ms, rest) => (.table (toValues ms), rest)

/-- A value with arrays and inline tables at most `depth` deep. -/
def value : (depth : Nat) → Reader Value
  | _, [] => none
  | depth, c :: rest =>
    if c == '"' || c == '\'' then (string (c :: rest)).map fun (s, rest) => (.string s, rest)
    else if c == '[' then
      match depth with
      | 0 => none
      | depth + 1 =>
        (arrayItems (value depth) (rest.length + 1) [] rest).map fun (vs, rest) => (.array vs, rest)
    else if c == '\x7b' then
      match depth with
      | 0 => none
      | depth + 1 => inlineTable (value depth) rest
    else
      match c :: rest with
      | 't' :: 'r' :: 'u' :: 'e' :: rest => some (.boolean true, rest)
      | 'f' :: 'a' :: 'l' :: 's' :: 'e' :: rest => some (.boolean false, rest)
      | cs => number cs

structure Draft where
  members : Members
  header : List String

def line (d : Draft) : List Char → Option (Draft × List Char)
  | '[' :: '[' :: cs => do
    let ((path, k), cs) ← key cs
    let cs ← expect ']' cs
    let cs ← expect ']' cs
    let cs ← lineEnd? cs
    let ms ← d.members.openElement path k
    some (⟨ms, path ++ [k]⟩, cs)
  | '[' :: cs => do
    let ((path, k), cs) ← key cs
    let cs ← expect ']' cs
    let cs ← lineEnd? cs
    let ms ← d.members.openTable path k
    some (⟨ms, path ++ [k]⟩, cs)
  | cs => do
    let (((path, k), v), cs) ← definition (value depthLimit) cs
    let cs ← lineEnd? cs
    let ms ← d.members.defineIn d.header path k v
    some (⟨ms, d.header⟩, cs)

/-- Reads at most `count` lines. -/
def lines : (count : Nat) → Draft → List Char → Option Members
  | 0, _, _ => none
  | count + 1, d, cs =>
    match skipLines cs.length cs with
    | none => none
    | some [] => some d.members
    | some cs => (line d cs).bind fun (d, rest) => lines count d rest

/-- A byte order mark at the start does not count. -/
def skipMark : List Char → List Char
  | '\uFEFF' :: rest => rest
  | cs => cs

def parse? (document : String) : Option (List (String × Value)) :=
  let cs := skipMark document.toList
  (lines (cs.length + 1) ⟨[], []⟩ cs).map toValues

end TableParsing.Toml
