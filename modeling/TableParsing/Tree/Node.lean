import TableParsing.Lexer.Lexeme

/-!
# Tree nodes

Nodes of a concrete syntax tree with their children, and the questions a reader of a tree asks of
one node.
-/
namespace TableParsing

structure Node where
  symbol : Symbol
  span : Span
  children : List Node
  /-- The part this node plays in its parent. -/
  field : Option FieldId
  named : Bool
  extra : Bool
  /-- Set for a token that recovery supplied. -/
  missing : Bool

namespace Node

def branch (s : Symbol) (span : Span) (named : Bool) (children : List Node) : Node :=
  ⟨s, span, children, none, named, false, false⟩

def leaf (s : Symbol) (span : Span) (named : Bool) : Node := branch s span named []

/-- Error nodes are extras, so the automaton passes over them. -/
def error (span : Span) (children : List Node) : Node :=
  ⟨Symbol.error, span, children, none, true, true, false⟩

def supplied (s : Symbol) (offset : Nat) (named : Bool) : Node :=
  { leaf s (Span.empty offset) named with missing := true }

instance : Inhabited Node := ⟨error (Span.empty 0) []⟩

def isError (n : Node) : Bool := n.symbol == Symbol.error

def namedChildren (n : Node) : List Node := n.children.filter (·.named)

def childrenInField (n : Node) (f : FieldId) : List Node :=
  n.children.filter (·.field == some f)

def childInField? (n : Node) (f : FieldId) : Option Node :=
  n.children.find? (·.field == some f)

/-- The node reached by following child indices. -/
def descendant? (n : Node) : List Nat → Option Node
  | [] => some n
  | i :: path => n.children[i]?.bind (·.descendant? path)

mutual

/-- The node or a descendant is an error or was supplied. -/
def hasError : Node → Bool
  | ⟨s, _, children, _, _, _, missing⟩ => s == Symbol.error || missing || anyHasError children

def anyHasError : List Node → Bool
  | [] => false
  | n :: rest => n.hasError || anyHasError rest

end

mutual

/-- Number of nodes. -/
def size : Node → Nat
  | ⟨_, _, children, _, _, _, _⟩ => sizes children + 1

def sizes : List Node → Nat
  | [] => 0
  | n :: rest => n.size + sizes rest

end

mutual

/-- Number of nodes on the longest way down. -/
def height : Node → Nat
  | ⟨_, _, children, _, _, _, _⟩ => heights children + 1

def heights : List Node → Nat
  | [] => 0
  | n :: rest => max n.height (heights rest)

end

/-- The bytes of the node, as far as the text has them. -/
def bytes (n : Node) (text : Text) : Bytes := text.slice n.span

mutual

def beq : Node → Node → Bool
  | ⟨s, span, children, field, named, extra, missing⟩,
    ⟨s', span', children', field', named', extra', missing'⟩ =>
    s == s' && span == span' && field == field' && named == named' && extra == extra' &&
      missing == missing' && beqAll children children'

def beqAll : List Node → List Node → Bool
  | [], [] => true
  | n :: rest, n' :: rest' => n.beq n' && beqAll rest rest'
  | _, _ => false

end

mutual

theorem beq_eq_true (a b : Node) : a.beq b = true ↔ a = b := by
  cases a with
  | mk s span children field named extra missing =>
    cases b with
    | mk s' span' children' field' named' extra' missing' =>
      simp only [beq, Bool.and_eq_true, beq_iff_eq, beqAll_eq_true, Node.mk.injEq]
      constructor
      · rintro ⟨⟨⟨⟨⟨⟨h1, h2⟩, h3⟩, h4⟩, h5⟩, h6⟩, h7⟩
        exact ⟨h1, h2, h7, h3, h4, h5, h6⟩
      · rintro ⟨h1, h2, h7, h3, h4, h5, h6⟩
        exact ⟨⟨⟨⟨⟨⟨h1, h2⟩, h3⟩, h4⟩, h5⟩, h6⟩, h7⟩

theorem beqAll_eq_true (as bs : List Node) : beqAll as bs = true ↔ as = bs := by
  cases as with
  | nil => cases bs <;> simp [beqAll]
  | cons a as =>
    cases bs with
    | nil => simp [beqAll]
    | cons b bs =>
      simp only [beqAll, Bool.and_eq_true, List.cons.injEq]
      rw [beq_eq_true a b, beqAll_eq_true as bs]

end

instance : DecidableEq Node := fun a b => decidable_of_iff _ (beq_eq_true a b)

theorem size_eq (n : Node) : n.size = sizes n.children + 1 := by
  cases n; rfl

theorem sizes_append (as bs : List Node) : sizes (as ++ bs) = sizes as + sizes bs := by
  induction as with
  | nil => simp [sizes]
  | cons a as ih => simp only [List.cons_append, sizes, ih]; omega

theorem hasError_eq (n : Node) :
    n.hasError = (n.isError || n.missing || anyHasError n.children) := by
  cases n; rfl

theorem size_le_sizes {n : Node} {ns : List Node} (h : n ∈ ns) : n.size ≤ sizes ns := by
  induction ns with
  | nil => cases h
  | cons a as ih =>
    rcases List.mem_cons.mp h with rfl | h
    · simp only [sizes]; omega
    · have := ih h; simp only [sizes]; omega

theorem size_lt_of_mem_children {m n : Node} (h : m ∈ n.children) : m.size < n.size := by
  have := size_le_sizes h
  rw [size_eq n]; omega

/-- Induction over trees: what holds of a node whenever it holds of the children. -/
@[elab_as_elim]
theorem induction_children {P : Node → Prop} (parent : ∀ n : Node, (∀ c ∈ n.children, P c) → P n)
    (n : Node) : P n :=
  parent n fun c _ => induction_children parent c
termination_by n.size
decreasing_by exact size_lt_of_mem_children ‹_›

end Node

end TableParsing
