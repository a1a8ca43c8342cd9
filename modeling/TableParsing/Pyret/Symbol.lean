import TableParsing.Table.Symbol

/-!
# Symbols of Pyret

The terminals and non-terminals of the bundled grammar, in the order of their ids.
-/
namespace TableParsing

inductive PyretSymbol where
  | endOfInput
  | name
  | number
  | string
  | equals
  | colon
  | comma
  | rightParen
  | plus
  | minus
  | star
  | slash
  | less
  | greater
  | doubleEquals
  | andWord
  | orWord
  | isWord
  | isNotWord
  | trueWord
  | falseWord
  | funWord
  | endWord
  | lineComment
  | blockComment
  | parenNoSpace
  | parenSpace
  | sourceFile
  | block
  | statements
  | stmt
  | letExpr
  | nameBinding
  | funExpr
  | args
  | parameters
  | checkTest
  | checkOp
  | binopExpr
  | binop
  | expr
  | idExpr
  | primExpr
  | numExpr
  | stringExpr
  | boolExpr
  | parenExpr
  | appExpr
  | appArgs
  | commaBinops
  | operands
deriving DecidableEq, Inhabited

namespace PyretSymbol

def all : List PyretSymbol :=
  [.endOfInput, .name, .number, .string, .equals, .colon, .comma, .rightParen, .plus, .minus,
   .star, .slash, .less, .greater, .doubleEquals, .andWord, .orWord, .isWord, .isNotWord,
   .trueWord, .falseWord, .funWord, .endWord, .lineComment, .blockComment, .parenNoSpace,
   .parenSpace, .sourceFile, .block, .statements, .stmt, .letExpr, .nameBinding, .funExpr,
   .args, .parameters, .checkTest, .checkOp, .binopExpr, .binop, .expr, .idExpr, .primExpr,
   .numExpr, .stringExpr, .boolExpr, .parenExpr, .appExpr, .appArgs, .commaBinops, .operands]

def index (s : PyretSymbol) : Nat := s.ctorIdx

def symbol (s : PyretSymbol) : Symbol := ⟨UInt16.ofNat s.index⟩

instance : Coe PyretSymbol Symbol := ⟨symbol⟩

def ofSymbol? (s : Symbol) : Option PyretSymbol := all[s.index]?

/-- A name that no two symbols share, unlike the one in the table. -/
def identifier : PyretSymbol → String
  | endOfInput => "End"
  | name => "Name"
  | number => "Number"
  | string => "String"
  | equals => "Eq"
  | colon => "Colon"
  | comma => "Comma"
  | rightParen => "RParen"
  | plus => "Plus"
  | minus => "Minus"
  | star => "Star"
  | slash => "Slash"
  | less => "Lt"
  | greater => "Gt"
  | doubleEquals => "EqEq"
  | andWord => "And"
  | orWord => "Or"
  | isWord => "Is"
  | isNotWord => "IsNot"
  | trueWord => "True"
  | falseWord => "False"
  | funWord => "Fun"
  | endWord => "KwEnd"
  | lineComment => "LineComment"
  | blockComment => "BlockComment"
  | parenNoSpace => "ParenNoSpace"
  | parenSpace => "ParenSpace"
  | sourceFile => "SourceFile"
  | block => "Block"
  | statements => "BlockRepeat1"
  | stmt => "Stmt"
  | letExpr => "LetExpr"
  | nameBinding => "NameBinding"
  | funExpr => "FunExpr"
  | args => "Args"
  | parameters => "ArgsRepeat1"
  | checkTest => "CheckTest"
  | checkOp => "CheckOp"
  | binopExpr => "BinopExpr"
  | binop => "Binop"
  | expr => "Expr"
  | idExpr => "IdExpr"
  | primExpr => "PrimExpr"
  | numExpr => "NumExpr"
  | stringExpr => "StringExpr"
  | boolExpr => "BoolExpr"
  | parenExpr => "ParenExpr"
  | appExpr => "AppExpr"
  | appArgs => "AppArgs"
  | commaBinops => "CommaBinops"
  | operands => "CommaBinopsRepeat1"

/-- A terminal known only by its spelling. -/
def spelling (name : String) : SymbolMetadata := ⟨name, .terminal, true, false, false⟩

def namedToken (name : String) : SymbolMetadata := ⟨name, .terminal, true, true, false⟩

def comment (name : String) : SymbolMetadata := ⟨name, .terminal, true, true, true⟩

def rule (name : String) : SymbolMetadata := ⟨name, .nonTerminal, true, true, false⟩

def hiddenRule (name : String) : SymbolMetadata := ⟨name, .nonTerminal, false, false, false⟩

def metadata : PyretSymbol → SymbolMetadata
  | endOfInput => ⟨"end", .terminal, false, false, false⟩
  | name => namedToken "name"
  | number => namedToken "number"
  | string => namedToken "string"
  | equals => spelling "="
  | colon => spelling ":"
  | comma => spelling ","
  | rightParen => spelling ")"
  | plus => spelling "+"
  | minus => spelling "-"
  | star => spelling "*"
  | slash => spelling "/"
  | less => spelling "<"
  | greater => spelling ">"
  | doubleEquals => spelling "=="
  | andWord => spelling "and"
  | orWord => spelling "or"
  | isWord => spelling "is"
  | isNotWord => spelling "is-not"
  | trueWord => spelling "true"
  | falseWord => spelling "false"
  | funWord => spelling "fun"
  | endWord => spelling "end"
  | lineComment => comment "line_comment"
  | blockComment => comment "block_comment"
  | parenNoSpace => spelling "("
  | parenSpace => spelling "("
  | sourceFile => rule "source_file"
  | block => rule "block"
  | statements => hiddenRule "_block_repeat1"
  | stmt => hiddenRule "_stmt"
  | letExpr => rule "let_expr"
  | nameBinding => rule "name_binding"
  | funExpr => rule "fun_expr"
  | args => rule "args"
  | parameters => hiddenRule "_args_repeat1"
  | checkTest => rule "check_test"
  | checkOp => rule "check_op"
  | binopExpr => hiddenRule "_binop_expr"
  | binop => rule "binop"
  | expr => hiddenRule "_expr"
  | idExpr => rule "id_expr"
  | primExpr => rule "prim_expr"
  | numExpr => rule "num_expr"
  | stringExpr => rule "string_expr"
  | boolExpr => rule "bool_expr"
  | parenExpr => rule "paren_expr"
  | appExpr => rule "app_expr"
  | appArgs => rule "app_args"
  | commaBinops => rule "comma_binops"
  | operands => hiddenRule "_comma_binops_repeat1"

theorem index_lt (s : PyretSymbol) : s.index < 51 := by cases s <;> decide

theorem all_index (s : PyretSymbol) : all[s.index]? = some s := by cases s <;> rfl

theorem ofSymbol?_symbol (s : PyretSymbol) : ofSymbol? s = some s := by cases s <;> rfl

end PyretSymbol

end TableParsing
