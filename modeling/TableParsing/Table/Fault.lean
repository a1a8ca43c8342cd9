import TableParsing.Table.Symbol

/-!
# Faults of a table

The ways in which a grammar table can be inconsistent, and their wording.
-/
namespace TableParsing

inductive TableFault where
  | noSymbols
  | endNotTerminal
  | tooManySymbols (count : Nat)
  | unnamedSymbol (id : Nat)
  | terminalAfterNonTerminal (name : String) (id : Nat)
  | extraNonTerminal (name : String)
  | tooManyFields (count : Nat)
  | unnamedField (id : Nat)
  | terminalLhs (production : Nat) (lhs : Symbol)
  | fieldOfMissingChild (production : Nat) (child childCount : UInt16)
  | unknownField (production : Nat) (field : FieldId)
  | noStates
  | conflictingActions (state : Nat) (symbol : Symbol)
  | unsortedActions (state : Nat)
  | actionOnNonTerminal (state : Nat) (symbol : Symbol)
  | shiftsEnd (state : Nat)
  | shiftToMissingState (state : Nat) (next : StateId)
  | missingProduction (state : Nat) (production : ProductionId)
  | unsortedGotos (state : Nat)
  | gotoOnTerminal (state : Nat) (symbol : Symbol)
  | gotoMissingState (state : Nat) (next : StateId)
  | neverAccepts
  | noLexStates
  | startAccepts
  | acceptsNoToken (state : Nat) (symbol : Symbol)
  | emptyRange (state : Nat) (lo hi : UInt8)
  | missingLexState (state : Nat) (next : LexStateId)
  | emptySeparator
  | wordNotTerminal (word : Symbol)
  | keywordsWithoutWord
  | keywordNotToken (text : String)
  | externalNotTerminal (symbol : Symbol)
  | noScanner
deriving DecidableEq

namespace TableFault

def message : TableFault → String
  | noSymbols => "table has no symbols"
  | endNotTerminal => "symbol 0 must be the end-of-input terminal"
  | tooManySymbols count => s!"{count} symbols exceed the symbol id space"
  | unnamedSymbol id => s!"symbol {id} has an empty name"
  | terminalAfterNonTerminal name id => s!"terminal '{name}' ({id}) follows a non-terminal"
  | extraNonTerminal name => s!"non-terminal '{name}' cannot be an extra"
  | tooManyFields count => s!"{count} fields exceed the field id space"
  | unnamedField id => s!"field {id} has an empty name"
  | terminalLhs production lhs =>
    s!"production {production} has lhs {lhs.id} which is not a non-terminal"
  | fieldOfMissingChild production child childCount =>
    s!"production {production} assigns a field to child {child} of {childCount}"
  | unknownField production field => s!"production {production} uses unknown field {field.id}"
  | noStates => "table has no parse states"
  | conflictingActions state symbol =>
    s!"state {state} has conflicting actions for symbol {symbol.id}"
  | unsortedActions state => s!"state {state} action row is not sorted"
  | actionOnNonTerminal state symbol =>
    s!"state {state} has an action for non-terminal {symbol.id}"
  | shiftsEnd state => s!"state {state} shifts end of input"
  | shiftToMissingState state next => s!"state {state} shifts to missing state {next}"
  | missingProduction state production =>
    s!"state {state} reduces by missing production {production}"
  | unsortedGotos state => s!"state {state} goto row is not sorted or has duplicates"
  | gotoOnTerminal state symbol => s!"state {state} has a goto for terminal {symbol.id}"
  | gotoMissingState state next => s!"state {state} goes to missing state {next}"
  | neverAccepts => "no state accepts the input"
  | noLexStates => "table has no lexer states"
  | startAccepts => "lexer start state must not accept"
  | acceptsNoToken state symbol =>
    s!"lexer state {state} accepts {symbol.id} which is not a token"
  | emptyRange state lo hi => s!"lexer state {state} has an empty byte range {lo}..={hi}"
  | missingLexState state next => s!"lexer state {state} moves to missing state {next}"
  | emptySeparator => "empty separator byte range"
  | wordNotTerminal word => s!"word token {word.id} is not a terminal"
  | keywordsWithoutWord => "keywords declared without a word token"
  | keywordNotToken text => s!"keyword '{text}' does not map to a token"
  | externalNotTerminal symbol => s!"external token {symbol.id} is not a terminal"
  | noScanner => "table declares external tokens but has no external scanner"

end TableFault

end TableParsing
