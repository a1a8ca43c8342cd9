/-!
# Lines and columns

A line includes its terminator: CR LF, or one of LF, CR, vertical tab, form feed, next line, line
separator, paragraph separator. No empty line follows a final terminator.
-/
namespace TableParsing.Lines

def isTerminator (c : Char) : Bool :=
  c == '\n' || c == '\r' || c == '\x0B' || c == '\x0C' || c == '\u0085' || c == '\u2028' ||
    c == '\u2029'

/-- Number of characters of each line, given those already read of the first. -/
def lengthsFrom (read : Nat) : List Char → List Nat
  | [] => if read = 0 then [] else [read]
  | '\r' :: '\n' :: rest => (read + 2) :: lengthsFrom 0 rest
  | c :: rest =>
    if isTerminator c then (read + 1) :: lengthsFrom 0 rest else lengthsFrom (read + 1) rest

def lengths (text : List Char) : List Nat := lengthsFrom 0 text

/-- A place in a text, both numbers from 1. -/
structure Position where
  line : Nat
  column : Nat
deriving DecidableEq

/-- The end of the text belongs to the last line. -/
def positionFrom (line : Nat) : List Nat → Nat → Option Position
  | [], _ => none
  | [_], offset => some ⟨line, offset + 1⟩
  | n :: rest, offset =>
    if offset < n then some ⟨line, offset + 1⟩ else positionFrom (line + 1) rest (offset - n)

/-- Place of the character with this index; an empty text has no places. -/
def position? (text : List Char) (offset : Nat) : Option Position :=
  positionFrom 1 (lengths text) offset

end TableParsing.Lines
