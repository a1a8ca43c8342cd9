import TableParsing.Text.Escape

/-!
# JSON output

Values and their two written forms: compact, and indented by two spaces. Members are written in the
order given.
-/
namespace TableParsing

inductive Json where
  | null
  | bool (b : Bool)
  | num (n : Nat)
  | str (s : String)
  | arr (items : List Json)
  | obj (members : List (String × Json))
deriving Inhabited

namespace Json

def escapeChar (c : Char) : String :=
  if c == '"' then "\\\""
  else if c == '\\' then "\\\\"
  else if c == '\n' then "\\n"
  else if c == '\r' then "\\r"
  else if c == '\t' then "\\t"
  else if c == '\x08' then "\\b"
  else if c == '\x0C' then "\\f"
  else if c.toNat < 0x10 then "\\u000" ++ Escape.hexDigits c.toNat
  else if c.toNat < 0x20 then "\\u00" ++ Escape.hexDigits c.toNat
  else c.toString

def quote (s : String) : String := "\"" ++ String.join (s.toList.map escapeChar) ++ "\""

mutual

def writeCompact (out : String) : Json → String
  | null => out ++ "null"
  | bool b => out ++ toString b
  | num n => out ++ toString n
  | str s => out ++ quote s
  | arr [] => out ++ "[]"
  | arr (item :: items) => writeItems (writeCompact (out ++ "[") item) items ++ "]"
  | obj [] => out ++ "\x7b\x7d"
  | obj ((key, value) :: members) =>
    writeMembers (writeCompact (out ++ "\x7b" ++ quote key ++ ":") value) members ++ "\x7d"

def writeItems (out : String) : List Json → String
  | [] => out
  | item :: items => writeItems (writeCompact (out ++ ",") item) items

def writeMembers (out : String) : List (String × Json) → String
  | [] => out
  | (key, value) :: members =>
    writeMembers (writeCompact (out ++ "," ++ quote key ++ ":") value) members

end

def compact (j : Json) : String := writeCompact "" j

mutual

/-- `margin` is the line break and indentation of the line the value stands on. -/
def writePretty (margin : String) (out : String) : Json → String
  | null => out ++ "null"
  | bool b => out ++ toString b
  | num n => out ++ toString n
  | str s => out ++ quote s
  | arr [] => out ++ "[]"
  | arr (item :: items) =>
    let inner := margin ++ "  "
    prettyItems inner (writePretty inner (out ++ "[" ++ inner) item) items ++ margin ++ "]"
  | obj [] => out ++ "\x7b\x7d"
  | obj ((key, value) :: members) =>
    let inner := margin ++ "  "
    prettyMembers inner
      (writePretty inner (out ++ "\x7b" ++ inner ++ quote key ++ ": ") value) members ++
        margin ++ "\x7d"

def prettyItems (margin : String) (out : String) : List Json → String
  | [] => out
  | item :: items => prettyItems margin (writePretty margin (out ++ "," ++ margin) item) items

def prettyMembers (margin : String) (out : String) : List (String × Json) → String
  | [] => out
  | (key, value) :: members =>
    prettyMembers margin
      (writePretty margin (out ++ "," ++ margin ++ quote key ++ ": ") value) members

end

def pretty (j : Json) : String := writePretty "\n" "" j

end Json

end TableParsing
