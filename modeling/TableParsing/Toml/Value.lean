/-!
# TOML values

The values of a TOML document and the tables they are gathered in. Floats and dates are kept as
written.
-/
namespace TableParsing.Toml

inductive Value where
  | string (s : String)
  | integer (n : Int)
  | float (text : String)
  | boolean (b : Bool)
  | dateTime (text : String)
  | array (items : List Value)
  | table (members : List (String × Value))
deriving Inhabited

/-- A reader takes a value from the front of the characters, or refuses. -/
abbrev Reader (α : Type) := List Char → Option (α × List Char)

def isBlank (c : Char) : Bool := c == ' ' || c == '\t'

def skipBlanks (cs : List Char) : List Char := cs.dropWhile isBlank

/-- Characters of a comment; also of a quoted string but for its quote and escape. -/
def isPlain (c : Char) : Bool := c == '\t' || (0x20 ≤ c.toNat && c.toNat ≠ 0x7F)

def newline? : List Char → Option (List Char)
  | '\n' :: rest => some rest
  | '\r' :: '\n' :: rest => some rest
  | _ => none

def skipComment : List Char → List Char
  | '#' :: rest => rest.dropWhile isPlain
  | cs => cs

/-- Blanks and a comment up to the end of the line or of the document. -/
def lineEnd? (cs : List Char) : Option (List Char) :=
  match skipComment (skipBlanks cs) with
  | [] => some []
  | cs => newline? cs

/-- Blanks, newlines and comments, at most `lines` newlines. -/
def skipLines : (lines : Nat) → List Char → Option (List Char)
  | 0, cs => some cs
  | lines + 1, cs =>
    let cs := skipBlanks cs
    match cs with
    | '#' :: _ =>
      match newline? (skipComment cs) with
      | some rest => skipLines lines rest
      | none => none
    | '\r' :: _ | '\n' :: _ =>
      match newline? cs with
      | some rest => skipLines lines rest
      | none => none
    | _ => some cs

end TableParsing.Toml
