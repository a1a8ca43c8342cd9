import TableParsing.Pyret.Symbol
import TableParsing.Table.Lexis

/-!
# Tokens of Pyret

The automaton of names, numbers, strings, operators and comments, with the blanks and the keywords.
A block comment that is never closed is a line comment as far as its first line goes.
-/
namespace TableParsing.Pyret

/-- What the lexer has read of a token. -/
inductive LexMode where
  | start
  | name
  | integer
  | plus
  | minus
  | star
  | slash
  | less
  | greater
  | equals
  | doubleEquals
  | colon
  | comma
  | rightParen
  | doubleQuoted
  | doubleQuotedEscape
  | stringDone
  | singleQuoted
  | singleQuotedEscape
  | hash
  | lineComment
  /-- A block comment without a newline so far. -/
  | blockFirstLine
  | blockFirstLineBar
  | block
  | blockBar
  | blockDone
  | point
  | fraction
  | exponent
  | exponentSign
  | exponentDigits
deriving DecidableEq, Inhabited

namespace LexMode

def all : List LexMode :=
  [.start, .name, .integer, .plus, .minus, .star, .slash, .less, .greater, .equals, .doubleEquals,
   .colon, .comma, .rightParen, .doubleQuoted, .doubleQuotedEscape, .stringDone, .singleQuoted,
   .singleQuotedEscape, .hash, .lineComment, .blockFirstLine, .blockFirstLineBar, .block, .blockBar,
   .blockDone, .point, .fraction, .exponent, .exponentSign, .exponentDigits]

def id (m : LexMode) : LexStateId := UInt16.ofNat m.ctorIdx

theorem all_id (m : LexMode) : all[m.id.toNat]? = some m := by cases m <;> rfl

end LexMode

/-- A transition on a range of ASCII characters. -/
def range (st : LexState) (lo hi : Char) (next : LexMode) : LexState :=
  st.on lo.toUInt8 hi.toUInt8 next.id

def onChar (st : LexState) (c : Char) (next : LexMode) : LexState := st.onByte c.toUInt8 next.id

def other (st : LexState) (excluded : List Char) (next : LexMode) : LexState :=
  st.allExcept (excluded.map Char.toUInt8) next.id

def digits (st : LexState) (next : LexMode) : LexState := range st '0' '9' next

def accepting (s : PyretSymbol) : LexState := LexState.accepting s

def nameCharacters (st : LexState) : LexState :=
  range (onChar (range (digits (onChar st '-' .name) .name) 'A' 'Z' .name) '_' .name) 'a' 'z' .name

def exponentMark (st : LexState) : LexState := onChar (onChar st 'e' .exponent) 'E' .exponent

/-- Single characters that begin a token. -/
def openers : List (Char × LexMode) :=
  [('+', .plus), ('-', .minus), ('*', .star), ('/', .slash), ('<', .less), ('>', .greater),
   ('=', .equals), (':', .colon), (',', .comma), (')', .rightParen), ('"', .doubleQuoted),
   ('\'', .singleQuoted), ('#', .hash)]

def LexMode.state : LexMode → LexState
  | start =>
    openers.foldl (fun st (c, next) => onChar st c next)
      (digits (onChar (range (range LexState.empty 'a' 'z' name) 'A' 'Z' name) '_' name) integer)
  | name => nameCharacters (accepting .name)
  | integer => exponentMark (onChar (digits (accepting .number) integer) '.' point)
  | plus => digits (accepting .plus) integer
  | minus => digits (accepting .minus) integer
  | star => accepting .star
  | slash => accepting .slash
  | less => accepting .less
  | greater => accepting .greater
  | equals => onChar (accepting .equals) '=' doubleEquals
  | doubleEquals => accepting .doubleEquals
  | colon => accepting .colon
  | comma => accepting .comma
  | rightParen => accepting .rightParen
  | doubleQuoted =>
    other (onChar (onChar LexState.empty '"' stringDone) '\\' doubleQuotedEscape)
      ['\n', '"', '\\'] doubleQuoted
  | doubleQuotedEscape => LexState.empty.on 0 0xFF doubleQuoted.id
  | stringDone => accepting .string
  | singleQuoted =>
    other (onChar (onChar LexState.empty '\'' stringDone) '\\' singleQuotedEscape)
      ['\n', '\'', '\\'] singleQuoted
  | singleQuotedEscape => LexState.empty.on 0 0xFF singleQuoted.id
  | hash => other (onChar (accepting .lineComment) '|' blockFirstLine) ['\n', '|'] lineComment
  | lineComment => other (accepting .lineComment) ['\n'] lineComment
  | blockFirstLine =>
    other (onChar (onChar (accepting .lineComment) '|' blockFirstLineBar) '\n' block) ['\n', '|']
      blockFirstLine
  | blockFirstLineBar =>
    let st := onChar (onChar (accepting .lineComment) '\n' block) '#' blockDone
    other (onChar st '|' blockFirstLineBar) ['\n', '#', '|'] blockFirstLine
  | block => other (onChar LexState.empty '|' blockBar) ['|'] block
  | blockBar => other (onChar (onChar LexState.empty '#' blockDone) '|' blockBar) ['#', '|'] block
  | blockDone => accepting .blockComment
  | point => digits LexState.empty fraction
  | fraction => exponentMark (digits (accepting .number) fraction)
  | exponent =>
    onChar (onChar (digits LexState.empty exponentDigits) '+' exponentSign) '-' exponentSign
  | exponentSign => digits LexState.empty exponentDigits
  | exponentDigits => digits (accepting .number) exponentDigits

def lexStates : Array LexState := (LexMode.all.map LexMode.state).toArray

/-- Tab to carriage return, and the space. -/
def separators : List ByteRange := [⟨9, 13⟩, ByteRange.single 32]

def keywords : List (String × Symbol) :=
  [("and", PyretSymbol.andWord), ("end", PyretSymbol.endWord), ("false", PyretSymbol.falseWord),
   ("fun", PyretSymbol.funWord), ("is", PyretSymbol.isWord), ("is-not", PyretSymbol.isNotWord),
   ("or", PyretSymbol.orWord), ("true", PyretSymbol.trueWord)]

end TableParsing.Pyret
