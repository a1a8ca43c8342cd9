import TableParsing.Table.Basic

/-!
# Grammars with an external scanner

Some tokens depend on more than the bytes ahead. A grammar pairs its table with a function that
recognises those.
-/
namespace TableParsing

/-- `index` counts the external tokens of the table, `length` bytes. -/
structure ExternalToken where
  index : Nat
  length : Nat
deriving DecidableEq

/-- Proposes a token at an offset; the flags tell which external tokens the parse state accepts. -/
abbrev ExternalScanner := Text → Nat → List Bool → Option ExternalToken

structure Grammar where
  table : GrammarTable
  scanner : Option ExternalScanner

def GrammarTable.withScanner (t : GrammarTable) (scan : ExternalScanner) : Grammar := ⟨t, some scan⟩

def GrammarTable.withoutScanner (t : GrammarTable) : Grammar := ⟨t, none⟩

end TableParsing
