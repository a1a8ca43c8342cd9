import TableParsing.Text.CodePoint

/-!
# Escaped text

Three spellings of a text on one line of visible characters: for messages, between double quotes,
and in ASCII only.
-/
namespace TableParsing.Escape

def hexDigits (n : Nat) : String := String.ofList (Nat.toDigits 16 n)

def codePoint (c : Char) : String := "\\u\x7b" ++ hexDigits c.toNat ++ "\x7d"

/-- Which characters a spelling escapes beyond those it cannot show. -/
structure Style where
  singleQuote : Bool
  doubleQuote : Bool
  extender : Bool

def char (style : Style) (c : Char) : String :=
  if c == '\x00' then "\\0"
  else if c == '\t' then "\\t"
  else if c == '\r' then "\\r"
  else if c == '\n' then "\\n"
  else if c == '\\' then "\\\\"
  else if c == '"' && style.doubleQuote then "\\\""
  else if c == '\'' && style.singleQuote then "\\'"
  else if style.extender && CodePoint.extendsGrapheme c then codePoint c
  else if CodePoint.isPrintable c then c.toString
  else codePoint c

/-- Both quotes are escaped; a combining mark is, where it has nothing to combine with. -/
def message : List Char → String
  | [] => ""
  | c :: rest => char ⟨true, true, true⟩ c ++ String.join (rest.map (char ⟨true, true, false⟩))

/-- Between double quotes, combining marks escaped. -/
def quoted (s : String) : String :=
  "\"" ++ String.join (s.toList.map (char ⟨false, true, true⟩)) ++ "\""

def asciiChar (c : Char) : String :=
  if c == '\t' then "\\t"
  else if c == '\r' then "\\r"
  else if c == '\n' then "\\n"
  else if c == '\'' || c == '"' || c == '\\' then "\\" ++ c.toString
  else if 0x20 ≤ c.toNat && c.toNat ≤ 0x7E then c.toString
  else codePoint c

/-- Every character outside printable ASCII by its code point. -/
def ascii (s : String) : String := String.join (s.toList.map asciiChar)

end TableParsing.Escape
