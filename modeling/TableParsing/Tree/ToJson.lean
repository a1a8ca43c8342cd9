import TableParsing.Json
import TableParsing.Tree.SyntaxTree

/-!
# Trees as JSON

Objects list their members in alphabetical order. Of a node the field, the flags and the children
are listed only where there are any.
-/
namespace TableParsing

def Span.toJson (s : Span) : Json := .obj [("end", .num s.stop), ("start", .num s.start)]

def SyntaxError.toJson (e : SyntaxError) : Json :=
  .obj [("kind", .str e.kind.tag), ("message", .str e.message), ("span", e.span.toJson)]

namespace Language

mutual

def nodeJson (l : Language) : Node → Json
  | n@⟨_, span, children, _, named, extra, missing⟩ =>
    .obj <|
      (if children.isEmpty then [] else [("children", .arr (l.nodeJsons children))]) ++
      [("end", .num span.stop)] ++
      (if extra then [("extra", .bool true)] else []) ++
      ((l.fieldOf? n).map fun field => ("field", Json.str field)).toList ++
      [("kind", .str (l.kind n))] ++
      (if missing then [("missing", .bool true)] else []) ++
      [("named", .bool named), ("start", .num span.start)]

def nodeJsons (l : Language) : List Node → List Json
  | [] => []
  | n :: rest => l.nodeJson n :: l.nodeJsons rest

end

end Language

def SyntaxTree.toJson (t : SyntaxTree) : Json :=
  .obj [("errors", .arr (t.errors.map (·.toJson))), ("has_error", .bool t.hasError),
    ("language", .str t.language.name), ("root", t.language.nodeJson t.root)]

end TableParsing
