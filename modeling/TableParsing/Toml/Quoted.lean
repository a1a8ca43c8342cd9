import TableParsing.Toml.Value

/-!
# TOML strings

Basic strings with escapes and literal strings without, on one line or on several.
-/
namespace TableParsing.Toml

def hexValue? (c : Char) : Option Nat :=
  if '0' ≤ c ∧ c ≤ '9' then some (c.toNat - 48)
  else if 'a' ≤ c ∧ c ≤ 'f' then some (c.toNat - 87)
  else if 'A' ≤ c ∧ c ≤ 'F' then some (c.toNat - 55)
  else none

/-- The number with these digits. -/
def hexNumber? (cs : List Char) : Option Nat :=
  cs.foldl (fun n c => n.bind fun n => (hexValue? c).map (16 * n + ·)) (some 0)

/-- The character with this code point, surrogates excluded. -/
def scalar? (digits : List Char) : Option Char :=
  (hexNumber? digits).bind fun n =>
    if n < 0xD800 ∨ (0xE000 ≤ n ∧ n < 0x110000) then some (Char.ofNat n) else none

def simpleEscape? : Char → Option Char
  | 'b' => some '\x08'
  | 't' => some '\t'
  | 'n' => some '\n'
  | 'f' => some '\x0C'
  | 'r' => some '\r'
  | '"' => some '"'
  | '\\' => some '\\'
  | _ => none

def text (reversed : List Char) : String := String.ofList reversed.reverse

/-- The rest of a basic string on one line, behind the reversed `read`. -/
def basicBody (read : List Char) : Reader String
  | [] => none
  | '"' :: rest => some (text read, rest)
  | '\\' :: 'u' :: a :: b :: c :: d :: rest =>
    (scalar? [a, b, c, d]).bind fun ch => basicBody (ch :: read) rest
  | '\\' :: 'U' :: a :: b :: c :: d :: e :: f :: g :: h :: rest =>
    (scalar? [a, b, c, d, e, f, g, h]).bind fun ch => basicBody (ch :: read) rest
  | '\\' :: e :: rest => (simpleEscape? e).bind fun ch => basicBody (ch :: read) rest
  | c :: rest => if isPlain c && c != '\\' then basicBody (c :: read) rest else none

def literalBody (read : List Char) : Reader String
  | [] => none
  | '\'' :: rest => some (text read, rest)
  | c :: rest => if isPlain c then literalBody (c :: read) rest else none

/-- Whether a backslash before these characters joins the line with the next text. -/
def joinsLines (cs : List Char) : Bool := (newline? (skipBlanks cs)).isSome

/-- The rest of a basic string on several lines; `joining` while blanks and newlines are dropped. Up
to two quotes may stand before the closing three. -/
def longBasicBody (joining : Bool) (read : List Char) : Reader String
  | [] => none
  | '"' :: '"' :: '"' :: '"' :: '"' :: rest => some (text ('"' :: '"' :: read), rest)
  | '"' :: '"' :: '"' :: '"' :: rest => some (text ('"' :: read), rest)
  | '"' :: '"' :: '"' :: rest => some (text read, rest)
  | '\\' :: 'u' :: a :: b :: c :: d :: rest =>
    (scalar? [a, b, c, d]).bind fun ch => longBasicBody false (ch :: read) rest
  | '\\' :: 'U' :: a :: b :: c :: d :: e :: f :: g :: h :: rest =>
    (scalar? [a, b, c, d, e, f, g, h]).bind fun ch => longBasicBody false (ch :: read) rest
  | '\\' :: e :: rest =>
    if joinsLines (e :: rest) then longBasicBody true read (e :: rest)
    else (simpleEscape? e).bind fun ch => longBasicBody false (ch :: read) rest
  | '\r' :: '\n' :: rest => longBasicBody joining (if joining then read else '\n' :: read) rest
  | '\n' :: rest => longBasicBody joining (if joining then read else '\n' :: read) rest
  | c :: rest =>
    if joining && isBlank c then longBasicBody true read rest
    else if isPlain c && c != '\\' then longBasicBody false (c :: read) rest
    else none

def longLiteralBody (read : List Char) : Reader String
  | [] => none
  | '\'' :: '\'' :: '\'' :: '\'' :: '\'' :: rest => some (text ('\'' :: '\'' :: read), rest)
  | '\'' :: '\'' :: '\'' :: '\'' :: rest => some (text ('\'' :: read), rest)
  | '\'' :: '\'' :: '\'' :: rest => some (text read, rest)
  | '\r' :: '\n' :: rest => longLiteralBody ('\n' :: read) rest
  | '\n' :: rest => longLiteralBody ('\n' :: read) rest
  | c :: rest => if isPlain c then longLiteralBody (c :: read) rest else none

/-- A newline right behind the opening quotes does not count. -/
def skipFirstNewline (cs : List Char) : List Char := (newline? cs).getD cs

def string : Reader String
  | '"' :: '"' :: '"' :: rest => longBasicBody false [] (skipFirstNewline rest)
  | '\'' :: '\'' :: '\'' :: rest => longLiteralBody [] (skipFirstNewline rest)
  | '"' :: rest => basicBody [] rest
  | '\'' :: rest => literalBody [] rest
  | _ => none

end TableParsing.Toml
