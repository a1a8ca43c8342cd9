import TableParsing.Tree.Node

/-!
# Walking a tree

Pre-order traversal one node at a time from a stack, at once with a list of pending nodes, and by
recursion with depths; and the way down to the node around a byte range.
-/
namespace TableParsing

/-- A walk under way: the nodes to come, the next one last. The node that is taken leaves its children
in reverse. -/
structure Walk where
  stack : Array Node

namespace Walk

def start (n : Node) : Walk := ⟨#[n]⟩

def next? (w : Walk) : Option (Node × Walk) :=
  w.stack.back?.map fun n => (n, ⟨w.stack.pop ++ n.children.reverse⟩)

end Walk

namespace Node

def walkPending : List Node → List Node
  | [] => []
  | n :: pending => n :: walkPending (n.children ++ pending)
termination_by pending => sizes pending
decreasing_by
  rw [sizes_append]
  simp only [sizes, size_eq]
  omega

/-- The node and its descendants, parents before children. -/
def walk (n : Node) : List Node := walkPending [n]

mutual

/-- The node and its descendants with their depths, parents before children. -/
def preorder (depth : Nat) : Node → List (Nat × Node)
  | n@⟨_, _, children, _, _, _, _⟩ => (depth, n) :: preorders (depth + 1) children

def preorders (depth : Nat) : List Node → List (Nat × Node)
  | [] => []
  | n :: rest => n.preorder depth ++ preorders depth rest

end

/-- The node reaches from `start` or before to `stop` or after, and beyond `start`. -/
def reachesAround (n : Node) (start stop : Nat) : Bool :=
  decide (n.span.start ≤ start) && decide (stop ≤ n.span.stop) && decide (start < n.span.stop)

/-- Descends into the first child that reaches around the range, as long as there is one. -/
def descendantForByteRange (n : Node) (start stop : Nat) : Node :=
  match _h : n.children.find? (·.reachesAround start stop) with
  | some child => child.descendantForByteRange start stop
  | none => n
termination_by n.size
decreasing_by exact size_lt_of_mem_children (List.mem_of_find?_eq_some _h)

theorem length_walkPending (pending : List Node) :
    (walkPending pending).length = sizes pending := by
  fun_induction walkPending pending with
  | case1 => rfl
  | case2 n pending ih =>
    simp only [List.length_cons, ih, sizes_append, sizes, size_eq n]; omega

theorem walkPending_append (as bs : List Node) :
    walkPending (as ++ bs) = walkPending as ++ walkPending bs := by
  fun_induction walkPending as with
  | case1 => rfl
  | case2 n pending ih =>
    rw [List.cons_append, walkPending, ← List.append_assoc, ih, List.cons_append]

theorem walk_eq (n : Node) : n.walk = n :: walkPending n.children := by
  rw [walk, walkPending, List.append_nil]

end Node

end TableParsing
