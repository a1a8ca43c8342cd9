import TableParsing.Tree.Node

/-!
# Children of a reduced node

Fields are given to the children they are declared for, counted without extras, and a hidden rule is
replaced by its own children.
-/
namespace TableParsing

namespace Node

/-- A child of a hidden rule takes the rule's field unless it has one or is an extra. -/
def inherit (field : Option FieldId) (n : Node) : Node :=
  if field.isSome && n.field.isNone && !n.extra then { n with field := field } else n

def withField (field : Option FieldId) (n : Node) : Node :=
  if field.isSome then { n with field := field } else n

section

variable {β : Type} {f : Node → β}

/-- A node that inherits a field is the same in all but its field. -/
theorem inherit_congr (hf : ∀ n field, f { n with field := field } = f n) (field : Option FieldId)
    (n : Node) : f (n.inherit field) = f n := by
  unfold inherit
  split
  · exact hf n field
  · rfl

theorem withField_congr (hf : ∀ n field, f { n with field := field } = f n) (field : Option FieldId)
    (n : Node) : f (n.withField field) = f n := by
  unfold withField
  split
  · exact hf n field
  · rfl

end

end Node

namespace GrammarTable

variable (t : GrammarTable)

/-- What stands for a popped node in its parent. -/
def spliced (field : Option FieldId) (n : Node) : List Node :=
  if !n.isError && t.isHiddenRule n.symbol then n.children.map (Node.inherit field)
  else [n.withField field]

/-- The children made from popped nodes, the first real one being child `index`. -/
def collectChildren (p : Production) (index : Nat) : List Node → List Node
  | [] => []
  | n :: rest =>
    if n.extra then n :: collectChildren p index rest
    else t.spliced (p.fieldFor index) n ++ collectChildren p (index + 1) rest

end GrammarTable

end TableParsing
