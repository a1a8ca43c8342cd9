import TableParsing.Grammar
import TableParsing.Table.Fault

/-!
# Consistency of a grammar

The parser follows every index a table hands out, so each is checked once before. `Grammar.fault?`
is the first fault in the order symbols, productions, states, lexer, keywords, external tokens.
-/
namespace TableParsing

/-- The first result of `f` on the elements with their indices. -/
def firstFault {α : Type} (f : Nat → α → Option TableFault) (start : Nat) :
    List α → Option TableFault
  | [] => none
  | a :: rest => (f start a).or (firstFault f (start + 1) rest)

/-- The first result of `f` on neighbouring elements. -/
def firstPairFault {α : Type} (f : α → α → Option TableFault) : List α → Option TableFault
  | a :: b :: rest => (f a b).or (firstPairFault f (b :: rest))
  | _ => none

/-- A fault if the condition holds. -/
def faultIf (condition : Bool) (fault : TableFault) : Option TableFault :=
  if condition then some fault else none

theorem faultIf_eq_none_iff {c : Bool} {fault : TableFault} :
    faultIf c fault = none ↔ c = false := by
  cases c <;> simp [faultIf]

namespace GrammarTable

/-- `afterNonTerminal` tells whether a non-terminal stands before. -/
def symbolFault (afterNonTerminal : Bool) (id : Nat) : List SymbolMetadata → Option TableFault
  | [] => none
  | m :: rest =>
    (faultIf m.name.isEmpty (.unnamedSymbol id))
      |>.or (faultIf (m.isTerminal && afterNonTerminal) (.terminalAfterNonTerminal m.name id))
      |>.or (faultIf (m.extra && !m.isTerminal) (.extraNonTerminal m.name))
      |>.or (symbolFault (afterNonTerminal || !m.isTerminal) (id + 1) rest)

def fieldNameFault (id : Nat) (name : String) : Option TableFault :=
  faultIf name.isEmpty (.unnamedField id)

def symbolsFault (t : GrammarTable) : Option TableFault :=
  match t.symbols[0]? with
  | none => some .noSymbols
  | some first =>
    (faultIf (!first.isTerminal || first.extra) .endNotTerminal)
      |>.or (faultIf (Symbol.error.index ≤ t.symbols.size) (.tooManySymbols t.symbols.size))
      |>.or (symbolFault false 0 t.symbols.toList)
      |>.or (faultIf (0xFFFF < t.fields.size) (.tooManyFields t.fields.size))
      |>.or (firstFault fieldNameFault 0 t.fields.toList)

def productionFieldFault (t : GrammarTable) (id : Nat) (p : Production) (_ : Nat)
    (entry : UInt16 × FieldId) : Option TableFault :=
  (faultIf (p.childCount ≤ entry.1) (.fieldOfMissingChild id entry.1 p.childCount))
    |>.or (faultIf (t.fields.size ≤ entry.2.index) (.unknownField id entry.2))

def productionFault (t : GrammarTable) (id : Nat) (p : Production) : Option TableFault :=
  (faultIf (!t.isNonTerminal p.lhs) (.terminalLhs id p.lhs))
    |>.or (firstFault (t.productionFieldFault id p) 0 p.fields)

def actionOrderFault (id : Nat) (a b : Symbol × Action) : Option TableFault :=
  (faultIf (a.1 == b.1) (.conflictingActions id a.1))
    |>.or (faultIf (b.1.id < a.1.id) (.unsortedActions id))

def targetFault (t : GrammarTable) (id : Nat) (s : Symbol) : Action → Option TableFault
  | .shift next =>
    (faultIf (s == Symbol.endOfInput) (.shiftsEnd id))
      |>.or (faultIf (t.states.size ≤ next.toNat) (.shiftToMissingState id next))
  | .reduce p => faultIf (t.productions.size ≤ p.toNat) (.missingProduction id p)
  | .accept => none

def actionFault (t : GrammarTable) (id : Nat) (_ : Nat) (entry : Symbol × Action) :
    Option TableFault :=
  (faultIf (!t.isTerminal entry.1) (.actionOnNonTerminal id entry.1))
    |>.or (t.targetFault id entry.1 entry.2)

def gotoOrderFault (id : Nat) (a b : Symbol × StateId) : Option TableFault :=
  faultIf (b.1.id ≤ a.1.id) (.unsortedGotos id)

def gotoFault (t : GrammarTable) (id : Nat) (_ : Nat) (entry : Symbol × StateId) :
    Option TableFault :=
  (faultIf (!t.isNonTerminal entry.1) (.gotoOnTerminal id entry.1))
    |>.or (faultIf (t.states.size ≤ entry.2.toNat) (.gotoMissingState id entry.2))

def stateFault (t : GrammarTable) (id : Nat) (st : ParseState) : Option TableFault :=
  (firstPairFault (actionOrderFault id) st.actions.toList)
    |>.or (firstFault (t.actionFault id) 0 st.actions.toList)
    |>.or (firstPairFault (gotoOrderFault id) st.gotos.toList)
    |>.or (firstFault (t.gotoFault id) 0 st.gotos.toList)

def accepts (t : GrammarTable) : Bool := t.states.any fun st => st.actions.any (·.2 == .accept)

def statesFault (t : GrammarTable) : Option TableFault :=
  (faultIf t.states.isEmpty .noStates)
    |>.or (firstFault t.stateFault 0 t.states.toList)
    |>.or (faultIf (!t.accepts) .neverAccepts)

def isToken (t : GrammarTable) (s : Symbol) : Bool := s != Symbol.endOfInput && t.isTerminal s

def transitionFault (t : GrammarTable) (id : Nat) (_ : Nat) (entry : ByteRange × LexStateId) :
    Option TableFault :=
  (faultIf (entry.1.hi < entry.1.lo) (.emptyRange id entry.1.lo entry.1.hi))
    |>.or (faultIf (t.lexStates.size ≤ entry.2.toNat) (.missingLexState id entry.2))

def lexStateFault (t : GrammarTable) (id : Nat) (st : LexState) : Option TableFault :=
  (st.accept.bind fun s => faultIf (!t.isToken s) (.acceptsNoToken id s))
    |>.or (firstFault (t.transitionFault id) 0 st.transitions)

def separatorFault (_ : Nat) (r : ByteRange) : Option TableFault :=
  faultIf (r.hi < r.lo) .emptySeparator

def lexerFault (t : GrammarTable) : Option TableFault :=
  match t.lexStates[0]? with
  | none => some .noLexStates
  | some start =>
    (faultIf start.accept.isSome .startAccepts)
      |>.or (firstFault t.lexStateFault 0 t.lexStates.toList)
      |>.or (firstFault separatorFault 0 t.separators)

def keywordFault (t : GrammarTable) (_ : Nat) (entry : String × Symbol) : Option TableFault :=
  faultIf (entry.1.isEmpty || !t.isToken entry.2) (.keywordNotToken entry.1)

def wordFault (t : GrammarTable) : Option TableFault :=
  match t.wordToken with
  | some word => faultIf (!t.isTerminal word) (.wordNotTerminal word)
  | none => faultIf (!t.keywords.isEmpty) .keywordsWithoutWord

def keywordsFault (t : GrammarTable) : Option TableFault :=
  t.wordFault.or (firstFault t.keywordFault 0 t.keywords)

def externalFault (t : GrammarTable) (_ : Nat) (s : Symbol) : Option TableFault :=
  faultIf (!t.isToken s) (.externalNotTerminal s)

/-- The faults of the table alone; external tokens without a scanner are the grammar's. -/
def fault? (t : GrammarTable) : Option TableFault :=
  t.symbolsFault
    |>.or (firstFault t.productionFault 0 t.productions.toList)
    |>.or t.statesFault
    |>.or t.lexerFault
    |>.or t.keywordsFault
    |>.or (firstFault t.externalFault 0 t.externalTokens)

end GrammarTable

def Grammar.fault? (g : Grammar) : Option TableFault :=
  g.table.fault?.or (faultIf (!g.table.externalTokens.isEmpty && g.scanner.isNone) .noScanner)

end TableParsing
