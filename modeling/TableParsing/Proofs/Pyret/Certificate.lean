import TableParsing.Proofs.Pyret.Grammar
import TableParsing.Proofs.Validation
import TableParsing.Pyret.Language

/-!
# The certificate of the Pyret table

What stands below each state, what each phrase begins with and what may follow it. With it the
automaton recognizes exactly the programs, and no lookahead triggers more than nine reductions.
-/
namespace TableParsing.Pyret

open PyretSymbol

/-- The terminals with which a phrase may begin. -/
def firstOf : PyretSymbol → List PyretSymbol
  | sourceFile | block | statements | stmt => funWord :: expressionStart
  | letExpr | nameBinding | parameters | idExpr => [name]
  | funExpr => [funWord]
  | args | appArgs => [parenNoSpace]
  | checkTest | binopExpr | expr | appExpr | commaBinops | operands => expressionStart
  | checkOp => checkOperators
  | binop => operators
  | primExpr => [number, string, trueWord, falseWord]
  | numExpr => [number]
  | stringExpr => [string]
  | boolExpr => [trueWord, falseWord]
  | parenExpr => [parenSpace]
  | s => [s]

/-- The terminals that may follow a phrase. A name that is bound stands before an equals sign, but
in a list of parameters (states 25 and 33) before a comma or parenthesis. -/
def afterPhrase (q : StateId) : PyretSymbol → List PyretSymbol
  | sourceFile => [endOfInput]
  | block => afterBlock
  | statements | stmt | letExpr | funExpr | checkTest => afterStatement
  | nameBinding => if q = 25 ∨ q = 33 then afterItem else [equals]
  | args => [colon]
  | parameters | operands => afterItem
  | checkOp | binop => expressionStart
  | binopExpr => afterOperation
  | commaBinops => [rightParen]
  | _ => afterExpression

/-- For states 0 to 22: the start, and after a single symbol. -/
def phraseSpellings : List (List PyretSymbol) :=
  [[], [sourceFile], [block], [statements], [stmt], [letExpr], [funExpr], [checkTest],
   [nameBinding], [binopExpr], [expr], [idExpr], [primExpr], [parenExpr], [appExpr], [numExpr],
   [stringExpr], [boolExpr], [name], [number], [string], [trueWord], [falseWord]]

/-- For states 23 to 38: function definitions, and after a statement. -/
def functionSpellings : List (List PyretSymbol) :=
  [[funWord],
   [name, funWord],
   [parenNoSpace, name, funWord],
   [rightParen, parenNoSpace],
   [name],
   [args, name, funWord],
   [parameters, parenNoSpace],
   [nameBinding],
   [colon, args, name, funWord],
   [rightParen, parameters, parenNoSpace],
   [comma, parameters],
   [endWord, colon, args, name, funWord],
   [block, colon, args, name, funWord],
   [nameBinding, comma, parameters],
   [endWord, block, colon, args, name, funWord],
   [stmt, statements]]

/-- For states 39 to 47: the value of a binding, check tests, and chains of operands. -/
def statementSpellings : List (List PyretSymbol) :=
  [[equals, nameBinding],
   [name],
   [binopExpr, equals, nameBinding],
   [isWord],
   [isNotWord],
   [checkOp, binopExpr],
   [binopExpr, checkOp, binopExpr],
   [binop, binopExpr],
   [expr, binop, binopExpr]]

/-- For states 48 to 56: after an operator. -/
def operatorSpellings : List (List PyretSymbol) := operators.map fun s => [s]

/-- For states 57 to 68: parenthesised chains and argument lists. -/
def applicationSpellings : List (List PyretSymbol) :=
  [[parenSpace],
   [binopExpr, parenSpace],
   [rightParen, binopExpr, parenSpace],
   [parenNoSpace],
   [rightParen, parenNoSpace],
   [commaBinops, parenNoSpace],
   [operands],
   [binopExpr],
   [rightParen, commaBinops, parenNoSpace],
   [comma, operands],
   [binopExpr, comma, operands],
   [appArgs, expr]]

def spellings : List (List PyretSymbol) :=
  phraseSpellings ++ functionSpellings ++ statementSpellings ++ operatorSpellings ++
    applicationSpellings

/-- Applies a function on the symbols of Pyret to symbols as the table numbers them. -/
def onSymbol (f : PyretSymbol → List PyretSymbol) (s : Symbol) : List Symbol :=
  (ofSymbol? s).elim [] fun s => word (f s)

def certificate : Certificate :=
  { rules := rules
    start := sourceFile
    first := onSymbol firstOf
    after := fun q => onSymbol (afterPhrase q)
    spelling := fun q => word ((spellings[q.toNat]?).getD []) }

theorem certificate_fits : certificate.check table = true := by decide

theorem table_fault : table.fault? = none := language.table_fault

/-- The automaton recognizes exactly the programs. -/
theorem recognizes_iff (w : List Symbol) :
    table.Recognizes [startState] w ↔ Phrase .sourceFile w := by
  rw [Certificate.recognizes_iff_yields certificate_fits table_fault]
  exact derives_sourceFile_iff

/-! ## The length of a chain -/

/-- Every rule but the one of the empty program has a lighter left-hand side than its last symbol. -/
def weight : PyretSymbol → Nat
  | sourceFile => 0
  | block => 1
  | statements => 2
  | stmt | commaBinops => 3
  | letExpr | funExpr | checkTest | operands => 4
  | binopExpr => 5
  | expr => 6
  | idExpr | primExpr | parenExpr | appExpr | parameters => 7
  | numExpr | stringExpr | boolExpr | nameBinding | args | checkOp | binop | appArgs => 8
  | _ => 9

def symbolWeight (s : Symbol) : Nat := (ofSymbol? s).elim 0 weight

/-- The weight of the newest symbol below a state; the empty program is reduced on the start state. -/
def rank (q : StateId) : Nat := ((certificate.spelling q).head?).elim 1 symbolWeight

theorem symbolWeight_le (s : Symbol) : symbolWeight s ≤ 9 := by
  unfold symbolWeight
  cases ofSymbol? s with
  | none => exact Nat.zero_le 9
  | some s => cases s <;> decide

theorem rank_le (q : StateId) : rank q ≤ 9 := by
  unfold rank
  cases (certificate.spelling q).head? with
  | none => decide
  | some s => exact symbolWeight_le s

/-- Whether reductions are by rules lighter than the rank. -/
def lightens (q : StateId) (_ : Symbol) : Action → Bool
  | .reduce id => (table.production? id).all fun p => decide (symbolWeight p.lhs < rank q)
  | _ => true

theorem reductions_lighten : table.allActions lightens = true := by decide

theorem gotos_weigh : table.allGotos (fun _ s next => decide (rank next ≤ symbolWeight s)) = true := by
  decide +kernel

/-- No lookahead triggers more than nine reductions. -/
theorem chain_le {s : Symbol} {k : Nat} {path last : List StateId}
    (h : table.Chain s k path last) : k ≤ 9 := by
  cases path with
  | nil =>
    cases h with
    | nil => exact Nat.zero_le 9
    | cons hr _ => cases hr.action
  | cons top path =>
    refine Nat.le_trans (h.le_rank rank ?_) (rank_le top)
    intro q s id p below next ha hp hg
    have hact := GrammarTable.allActions_spec reductions_lighten ha
    simp only [lightens, hp, Option.all_some, decide_eq_true_eq] at hact
    have hgoto := of_decide_eq_true (GrammarTable.allGotos_spec gotos_weigh hg)
    omega

theorem chainsWithin {limit : Nat} (h : 9 ≤ limit) : table.ChainsWithin limit :=
  fun hc => Nat.le_trans (chain_le hc) h

/-- Only the end is accepted, and not on the start state. -/
theorem accept_only_end {q : StateId} {s : Symbol} (h : table.action? q s = some .accept) :
    q ≠ startState ∧ s = Symbol.endOfInput := by
  have hf := (Certificate.fits_of_check certificate_fits).action h
  simp only [Certificate.actionFits, Bool.and_eq_true, beq_iff_eq] at hf
  refine ⟨?_, hf.1⟩
  rintro rfl
  exact absurd hf.2 (by decide)

end TableParsing.Pyret
