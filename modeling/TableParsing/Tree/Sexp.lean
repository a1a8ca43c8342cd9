import TableParsing.Tree.SyntaxTree

/-!
# S-expressions

A tree as nested parentheses. Errors, supplied tokens and visible named nodes are written with their
field and kind; of any other node only the descendants are.
-/
namespace TableParsing

namespace Language

/-- Whether a node has parentheses of its own. -/
def isWritten (l : Language) (n : Node) : Bool :=
  n.isError || n.missing || (n.named && l.isVisible n.symbol)

/-- A supplied token that is not named is shown quoted. -/
def sexpHead (l : Language) (n : Node) : String :=
  if n.missing then
    if n.named then "(MISSING " ++ l.kind n
    else "(MISSING \"" ++ Escape.ascii (l.kind n) ++ "\""
  else "(" ++ l.kind n

def sexpLabel : Option String → String
  | some field => field ++ ": "
  | none => ""

mutual

/-- Appends the node to `out`; a blank separates it from what is there. -/
def writeSexp (l : Language) (out : String) (field : Option String) : Node → String
  | n@⟨_, _, children, _, _, _, _⟩ =>
    if l.isWritten n then
      let out := if out.isEmpty then out else out ++ " "
      l.writeSexps (out ++ sexpLabel field ++ l.sexpHead n) children ++ ")"
    else l.writeSexps out children

def writeSexps (l : Language) (out : String) : List Node → String
  | [] => out
  | n :: rest => l.writeSexps (l.writeSexp out (l.fieldOf? n) n) rest

end

end Language

/-- The root is written without a field. -/
def SyntaxTree.sexp (t : SyntaxTree) : String := t.language.writeSexp "" none t.root

end TableParsing
