import TableParsing.Language
import TableParsing.SyntaxError
import TableParsing.Tree.Walk

/-!
# Syntax trees

The outcome of a parse: the root node together with the text, the language and the errors, in the
order in which they were met.
-/
namespace TableParsing

namespace Language

def kind (l : Language) (n : Node) : String := (l.symbolName? n.symbol).getD "UNKNOWN"

def fieldOf? (l : Language) (n : Node) : Option String := n.field.bind l.fieldName?

end Language

structure SyntaxTree where
  root : Node
  text : Text
  language : Language
  errors : List SyntaxError

namespace SyntaxTree

def hasError (t : SyntaxTree) : Bool := !t.errors.isEmpty || t.root.hasError

def walk (t : SyntaxTree) : List Node := t.root.walk

/-- The first child in the field of that name. -/
def childByFieldName? (t : SyntaxTree) (n : Node) (name : String) : Option Node :=
  (t.language.fieldForName? name).bind n.childInField?

def nodeBytes (t : SyntaxTree) (n : Node) : Bytes := n.bytes t.text

def nodeText (t : SyntaxTree) (n : Node) : Except Utf8.Fault String := Utf8.decode (t.nodeBytes n)

end SyntaxTree

end TableParsing
