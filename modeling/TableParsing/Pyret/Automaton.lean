import TableParsing.Pyret.Symbol
import TableParsing.Table.Row

/-!
# The parse automaton of Pyret

The rows of the 69 states, from the sets of tokens that may follow each kind of phrase and the
actions shared by all states in which a phrase may begin.
-/
namespace TableParsing.Pyret

open PyretSymbol

def expressionStart : List PyretSymbol :=
  [name, number, string, trueWord, falseWord, parenSpace]

def afterBlock : List PyretSymbol := [endOfInput, endWord]

def afterStatement : List PyretSymbol :=
  [endOfInput, name, number, string, trueWord, falseWord, funWord, endWord, parenSpace]

def afterOperation : List PyretSymbol :=
  [endOfInput, name, number, string, comma, rightParen, plus, minus, star, slash, less, greater,
   doubleEquals, andWord, orWord, isWord, isNotWord, trueWord, falseWord, funWord, endWord,
   parenSpace]

def afterExpression : List PyretSymbol :=
  [endOfInput, name, number, string, comma, rightParen, plus, minus, star, slash, less, greater,
   doubleEquals, andWord, orWord, isWord, isNotWord, trueWord, falseWord, funWord, endWord,
   parenNoSpace, parenSpace]

def afterItem : List PyretSymbol := [comma, rightParen]

abbrev Targets := List (PyretSymbol × StateId)

/-- A state by its reductions, shifts and gotos. -/
def state (reductions : List (List PyretSymbol × ProductionId)) (shifts gotos : Targets) :
    ParseState :=
  let st := reductions.foldl (fun st (lookaheads, p) => st.reduce (lookaheads.map symbol) p)
    ParseState.empty
  let st := shifts.foldl (fun st (s, next) => st.shift s next) st
  gotos.foldl (fun st (s, next) => st.goto s next) st

/-- A state at the end of a production. -/
def reducing (lookaheads : List PyretSymbol) (p : ProductionId) : ParseState :=
  state [(lookaheads, p)] [] []

/-- Where an expression may begin; `onName` is the state after a name. -/
def expressionShifts (onName : StateId) : Targets :=
  [(name, onName), (number, 19), (string, 20), (trueWord, 21), (falseWord, 22), (parenSpace, 57)]

def expressionGotos : Targets :=
  [(idExpr, 11), (primExpr, 12), (parenExpr, 13), (appExpr, 14), (numExpr, 15), (stringExpr, 16),
   (boolExpr, 17)]

def statementShifts : Targets := expressionShifts 18 ++ [(funWord, 23)]

def statementGotos : Targets :=
  expressionGotos ++
    [(letExpr, 5), (funExpr, 6), (checkTest, 7), (nameBinding, 8), (binopExpr, 9), (expr, 10)]

def operatorShifts : Targets :=
  [(plus, 48), (minus, 49), (star, 50), (slash, 51), (less, 52), (greater, 53),
   (doubleEquals, 54), (andWord, 55), (orWord, 56)]

def operatorGotos : Targets := [(binop, 46)]

/-- A state in which a chain of operands begins; `whole` is the state after it. -/
def operationStart (whole : StateId) : ParseState :=
  state [] (expressionShifts 40) (expressionGotos ++ [(binopExpr, whole), (expr, 10)])

/-- A state after an operand, which an argument list may follow. -/
def afterOperand (p : ProductionId) : ParseState :=
  state [(afterOperation, p)] [(parenNoSpace, 60)] [(appArgs, 68)]

/-- A state after a chain of operands that another operator may extend. -/
def chained (reductions : List (List PyretSymbol × ProductionId)) (shifts gotos : Targets) :
    ParseState :=
  state reductions (shifts ++ operatorShifts) (gotos ++ operatorGotos)

/-- States 0 to 10: the program, its statements, and the first operand of one. -/
def programStates : List ParseState :=
  [state [([endOfInput], 1)] statementShifts
     (statementGotos ++ [(sourceFile, 1), (block, 2), (statements, 3), (stmt, 4)]),
   ParseState.empty.accept endOfInput,
   reducing [endOfInput] 0,
   state [(afterBlock, 2)] statementShifts (statementGotos ++ [(stmt, 38)]),
   reducing afterStatement 4,
   reducing afterStatement 5,
   reducing afterStatement 6,
   reducing afterStatement 7,
   state [] [(equals, 39)] [],
   chained [(afterStatement, 8)] [(isWord, 42), (isNotWord, 43)] [(checkOp, 44)],
   afterOperand 21]

/-- States 11 to 22: after an operand. -/
def operandStates : List ParseState :=
  [reducing afterExpression 31,
   reducing afterExpression 32,
   reducing afterExpression 33,
   reducing afterExpression 34,
   reducing afterExpression 36,
   reducing afterExpression 37,
   reducing afterExpression 38,
   state [(afterExpression, 35), ([equals], 10)] [] [],
   reducing afterExpression 39,
   reducing afterExpression 40,
   reducing afterExpression 41,
   reducing afterExpression 42]

/-- States 23 to 38: function definitions, and after a statement. -/
def functionStates : List ParseState :=
  [state [] [(name, 24)] [],
   state [] [(parenNoSpace, 25)] [(args, 28)],
   state [] [(rightParen, 26), (name, 27)] [(parameters, 29), (nameBinding, 30)],
   reducing [colon] 13,
   reducing afterItem 10,
   state [] [(colon, 31)] [],
   state [] [(rightParen, 32), (comma, 33)] [],
   reducing afterItem 16,
   state [] ((endWord, 34) :: statementShifts)
     (statementGotos ++ [(block, 35), (statements, 3), (stmt, 4)]),
   reducing [colon] 14,
   state [] [(name, 27)] [(nameBinding, 36)],
   reducing afterStatement 12,
   state [] [(endWord, 37)] [],
   reducing afterItem 15,
   reducing afterStatement 11,
   reducing afterStatement 3]

/-- States 39 to 47: the value of a binding, check tests, and chains of operands. -/
def statementStates : List ParseState :=
  [operationStart 41,
   reducing afterExpression 35,
   chained [(afterStatement, 9)] [] [],
   reducing expressionStart 18,
   reducing expressionStart 19,
   operationStart 45,
   chained [(afterStatement, 17)] [] [],
   state [] (expressionShifts 40) (expressionGotos ++ [(expr, 47)]),
   afterOperand 20]

/-- States 48 to 56: after an operator. -/
def operatorStates : List ParseState :=
  [reducing expressionStart 22,
   reducing expressionStart 23,
   reducing expressionStart 24,
   reducing expressionStart 25,
   reducing expressionStart 26,
   reducing expressionStart 27,
   reducing expressionStart 28,
   reducing expressionStart 29,
   reducing expressionStart 30]

/-- States 57 to 59: a parenthesised chain. -/
def groupStates : List ParseState :=
  [operationStart 58,
   chained [] [(rightParen, 59)] [],
   reducing afterExpression 43]

/-- States 60 to 68: argument lists. -/
def applicationStates : List ParseState :=
  [state [] ((rightParen, 61) :: expressionShifts 40)
     (expressionGotos ++ [(commaBinops, 62), (operands, 63), (binopExpr, 64), (expr, 10)]),
   reducing afterExpression 45,
   state [] [(rightParen, 65)] [],
   state [([rightParen], 47)] [(comma, 66)] [],
   chained [(afterItem, 49)] [] [],
   reducing afterExpression 46,
   operationStart 67,
   chained [(afterItem, 48)] [] [],
   reducing afterExpression 44]

def states : Array ParseState :=
  (programStates ++ operandStates ++ functionStates ++ statementStates ++ operatorStates ++
    groupStates ++ applicationStates).toArray

end TableParsing.Pyret
