/-!
# Grammar symbols

The 16-bit ids a table hands out and what it records of each symbol.
-/
namespace TableParsing

abbrev StateId := UInt16

abbrev ProductionId := UInt16

abbrev LexStateId := UInt16

structure Symbol where
  id : UInt16
deriving DecidableEq, Inhabited

namespace Symbol

/-- The end of the input is the first symbol of every table. -/
def endOfInput : Symbol := ⟨0⟩

/-- Symbol of the nodes that recovery makes; no table declares it. -/
def error : Symbol := ⟨0xFFFF⟩

def index (s : Symbol) : Nat := s.id.toNat

end Symbol

structure FieldId where
  id : UInt16
deriving DecidableEq, Inhabited

def FieldId.index (f : FieldId) : Nat := f.id.toNat

inductive SymbolKind where
  | terminal
  | nonTerminal
deriving DecidableEq, Inhabited

structure SymbolMetadata where
  name : String
  kind : SymbolKind
  visible : Bool
  named : Bool
  /-- Extras may stand between any two tokens. -/
  extra : Bool
deriving DecidableEq, Inhabited

namespace SymbolMetadata

def isTerminal (m : SymbolMetadata) : Bool := m.kind == .terminal

/-- Invisible non-terminals leave only their children in the tree. -/
def isHiddenRule (m : SymbolMetadata) : Bool := m.kind == .nonTerminal && !m.visible

end SymbolMetadata

end TableParsing
