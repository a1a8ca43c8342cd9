import TableParsing.Grammar

/-!
# Parentheses of Pyret

An opening parenthesis applies the expression right before it; after anything else it groups. The
byte before it tells which.
-/
namespace TableParsing.Pyret

def isAlphanumeric (b : UInt8) : Bool :=
  (0x30 ≤ b && b ≤ 0x39) || (0x41 ≤ b && b ≤ 0x5A) || (0x61 ≤ b && b ≤ 0x7A)

/-- Alphanumerics, underscore, hyphen, quotes and closing brackets. -/
def endsExpression (b : UInt8) : Bool :=
  isAlphanumeric b || [0x5F, 0x2D, 0x27, 0x22, 0x60, 0x29, 0x5D, 0x7D].contains b

/-- External token 0 follows an expression, external token 1 does not. -/
def scanParen : ExternalScanner := fun text offset valid =>
  if text[offset]? = some 0x28 then
    let applies := offset != 0 && text[offset - 1]?.any endsExpression
    let index := if applies then 0 else 1
    if valid[index]? = some true then some ⟨index, 1⟩ else none
  else none

end TableParsing.Pyret
