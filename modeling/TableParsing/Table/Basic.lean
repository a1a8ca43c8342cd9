import TableParsing.Table.Lexis
import TableParsing.Table.Production
import TableParsing.Table.Row
import TableParsing.Text.Utf8

/-!
# Grammar tables

The compiled form of a grammar: symbols, productions, the parse automaton and the lexer automaton.
A table is plain data; `TableParsing.Grammar` adds the external scanner.
-/
namespace TableParsing

/-- Every parse starts in this state. -/
def startState : StateId := 0

structure GrammarTable where
  name : String
  /-- Version of the table format. -/
  version : UInt32
  symbols : Array SymbolMetadata
  fields : Array String
  productions : Array Production
  states : Array ParseState
  lexStates : Array LexState
  /-- Bytes skipped between tokens. -/
  separators : List ByteRange
  /-- The token whose lexemes may be keywords. -/
  wordToken : Option Symbol
  keywords : List (String × Symbol)
  /-- Terminals of the external scanner, in the order of its indices. -/
  externalTokens : List Symbol
deriving DecidableEq, Inhabited

namespace GrammarTable

def metadata? (t : GrammarTable) (s : Symbol) : Option SymbolMetadata := t.symbols[s.index]?

def isTerminal (t : GrammarTable) (s : Symbol) : Bool := (t.metadata? s).any (·.isTerminal)

def isNonTerminal (t : GrammarTable) (s : Symbol) : Bool :=
  (t.metadata? s).any (·.kind == .nonTerminal)

def isNamed (t : GrammarTable) (s : Symbol) : Bool := (t.metadata? s).any (·.named)

def isExtra (t : GrammarTable) (s : Symbol) : Bool := (t.metadata? s).any (·.extra)

def isHiddenRule (t : GrammarTable) (s : Symbol) : Bool := (t.metadata? s).any (·.isHiddenRule)

def isExternal (t : GrammarTable) (s : Symbol) : Bool := t.externalTokens.contains s

def isSeparator (t : GrammarTable) (b : UInt8) : Bool := t.separators.any (·.contains b)

/-- The first keyword spelt by these bytes. -/
def keyword? (t : GrammarTable) (word : Bytes) : Option Symbol :=
  (t.keywords.find? fun entry => Utf8.encode entry.1 == word).map (·.2)

def state? (t : GrammarTable) (id : StateId) : Option ParseState := t.states[id.toNat]?

def action? (t : GrammarTable) (id : StateId) (s : Symbol) : Option Action :=
  (t.state? id).bind (·.action? s)

def goto? (t : GrammarTable) (id : StateId) (s : Symbol) : Option StateId :=
  (t.state? id).bind (·.goto? s)

def production? (t : GrammarTable) (id : ProductionId) : Option Production :=
  t.productions[id.toNat]?

def lexState? (t : GrammarTable) (id : LexStateId) : Option LexState := t.lexStates[id.toNat]?

end GrammarTable

end TableParsing
