import TableParsing.Pyret.Symbol
import TableParsing.Table.Production

/-!
# Productions of Pyret

The fields and rules of the bundled grammar. The automaton refers to rules by their index.
-/
namespace TableParsing.Pyret

inductive Field where
  | args
  | binding
  | body
  | function
  | left
  | name
  | op
  | right
  | value
deriving DecidableEq, Inhabited

namespace Field

def id (f : Field) : FieldId := ⟨UInt16.ofNat f.ctorIdx⟩

def names : Array String :=
  #["args", "binding", "body", "function", "left", "name", "op", "right", "value"]

end Field

/-- A production with the fields of some children. -/
def production (lhs : PyretSymbol) (childCount : UInt16) (fields : List (UInt16 × Field)) :
    Production :=
  fields.foldl (fun p (child, field) => p.withField child field.id)
    (Production.ofArity lhs childCount)

/-- Productions 0 to 8: programs, blocks and statements. -/
def blockProductions : List Production :=
  [production .sourceFile 1 [],
   production .sourceFile 0 [],
   production .block 1 [],
   production .statements 2 [],
   production .statements 1 [],
   production .stmt 1 [],
   production .stmt 1 [],
   production .stmt 1 [],
   production .stmt 1 []]

/-- Productions 9 to 16: bindings and functions. -/
def definitionProductions : List Production :=
  [production .letExpr 3 [(0, .binding), (2, .value)],
   production .nameBinding 1 [],
   production .funExpr 6 [(1, .name), (2, .args), (4, .body)],
   production .funExpr 5 [(1, .name), (2, .args)],
   production .args 2 [],
   production .args 3 [],
   production .parameters 3 [],
   production .parameters 1 []]

/-- Productions 17 to 30: check tests, chains of operands and operators. -/
def chainProductions : List Production :=
  [production .checkTest 3 [(0, .left), (1, .op), (2, .right)],
   production .checkOp 1 [],
   production .checkOp 1 [],
   production .binopExpr 3 [],
   production .binopExpr 1 [],
   production .binop 1 [],
   production .binop 1 [],
   production .binop 1 [],
   production .binop 1 [],
   production .binop 1 [],
   production .binop 1 [],
   production .binop 1 [],
   production .binop 1 [],
   production .binop 1 []]

/-- Productions 31 to 43: the kinds of operand. -/
def operandProductions : List Production :=
  [production .expr 1 [],
   production .expr 1 [],
   production .expr 1 [],
   production .expr 1 [],
   production .idExpr 1 [],
   production .primExpr 1 [],
   production .primExpr 1 [],
   production .primExpr 1 [],
   production .numExpr 1 [],
   production .stringExpr 1 [],
   production .boolExpr 1 [],
   production .boolExpr 1 [],
   production .parenExpr 3 []]

/-- Productions 44 to 49: applications and their arguments. -/
def applicationProductions : List Production :=
  [production .appExpr 2 [(0, .function), (1, .args)],
   production .appArgs 2 [],
   production .appArgs 3 [],
   production .commaBinops 1 [],
   production .operands 3 [],
   production .operands 1 []]

def productions : Array Production :=
  (blockProductions ++ definitionProductions ++ chainProductions ++ operandProductions ++
    applicationProductions).toArray

end TableParsing.Pyret
