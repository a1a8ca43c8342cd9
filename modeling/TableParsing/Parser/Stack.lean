import TableParsing.Tree.Node

/-!
# The parse stack

Nodes with the states the automaton is in after them, newest first. An extra bears the state of the
entry below it, so the newest entry always tells the state.
-/
namespace TableParsing

structure Entry where
  state : StateId
  node : Node

abbrev Stack := List Entry

/-- From the start of the first node to the end of the last; empty at `offset` if there is none. -/
def coveringSpan (offset : Nat) (nodes : List Node) : Span :=
  match nodes.head?, nodes.getLast? with
  | some first, some last => ⟨first.span.start, last.span.stop⟩
  | _, _ => Span.empty offset

namespace Stack

def topState : Stack → StateId
  | [] => startState
  | e :: _ => e.state

def shift (s : Stack) (state : StateId) (n : Node) : Stack := ⟨state, n⟩ :: s

def pushExtra (s : Stack) (n : Node) : Stack := ⟨topState s, { n with extra := true }⟩ :: s

/-- Pushes extras, the first one first. -/
def pushExtras (s : Stack) (extras : List Node) : Stack := extras.foldl pushExtra s

/-- End of the newest node. -/
def endOffset : Stack → Nat
  | [] => 0
  | e :: _ => e.node.span.stop

/-- All nodes, oldest first. -/
def nodes (s : Stack) : List Node := (s.map (·.node)).reverse

/-- The extras above the newest real entry, oldest first, and what is below them. -/
def popExtras (s : Stack) : List Node × Stack :=
  (nodes (s.takeWhile (·.node.extra)), s.dropWhile (·.node.extra))

/-- Pops `count` real entries and the extras between them, in front of the nodes popped before. -/
def popChildren : (count : Nat) → Stack → (popped : List Node) → List Node × Stack
  | 0, s, popped => (popped, s)
  | _ + 1, [], popped => (popped, [])
  | count + 1, e :: s, popped =>
    popChildren (if e.node.extra then count + 1 else count) s (e.node :: popped)

/-- The states of the real entries, newest first, down to the start state. -/
def path : Stack → List StateId
  | [] => [startState]
  | e :: s => if e.node.extra then path s else e.state :: path s

/-- Removes as few of the newest entries as leave a path with property `p`, at least one. Returns
the removed entries, oldest first and in front of those removed before, and the rest. -/
def splitWhere (p : List StateId → Bool) (removed : List Entry) : Stack →
    Option (List Entry × Stack)
  | [] => none
  | e :: s => if p (path s) then some (e :: removed, s) else splitWhere p (e :: removed) s

/-- The `count` oldest entries. -/
def oldest (s : Stack) (count : Nat) : Stack := s.drop (s.length - count)

/-- The path of the `count` oldest entries. -/
def pathBelow (s : Stack) (count : Nat) : List StateId := path (s.oldest count)

/-- Removes all but the `count` oldest entries. Returns the removed nodes, oldest first, the span
that they cover, and the rest. -/
def splitOff (s : Stack) (count : Nat) : List Node × Span × Stack :=
  let removed := nodes (s.take (s.length - count))
  let rest := s.oldest count
  (removed, coveringSpan (endOffset rest) removed, rest)

@[simp] theorem topState_shift (s : Stack) (state : StateId) (n : Node) :
    (s.shift state n).topState = state := rfl

@[simp] theorem topState_pushExtra (s : Stack) (n : Node) :
    (s.pushExtra n).topState = s.topState := rfl

theorem path_shift (s : Stack) (state : StateId) {n : Node} (h : n.extra = false) :
    (s.shift state n).path = state :: s.path := by
  simp [shift, path, h]

@[simp] theorem path_pushExtra (s : Stack) (n : Node) : (s.pushExtra n).path = s.path := by
  simp [pushExtra, path]

@[simp] theorem path_pushExtras (s : Stack) (extras : List Node) :
    (s.pushExtras extras).path = s.path := by
  induction extras generalizing s with
  | nil => rfl
  | cons n rest ih => exact (ih (s.pushExtra n)).trans (path_pushExtra s n)

@[simp] theorem nodes_shift (s : Stack) (state : StateId) (n : Node) :
    (s.shift state n).nodes = s.nodes ++ [n] := by
  simp [shift, nodes]

@[simp] theorem nodes_pushExtra (s : Stack) (n : Node) :
    (s.pushExtra n).nodes = s.nodes ++ [{ n with extra := true }] := by
  simp [pushExtra, nodes]

theorem path_popExtras (s : Stack) : path s.popExtras.2 = s.path := by
  induction s with
  | nil => rfl
  | cons e s ih =>
    cases h : e.node.extra with
    | true => simpa [popExtras, h, path] using ih
    | false => simp [popExtras, h]

/-- Popping extras loses no node. -/
theorem nodes_popExtras (s : Stack) : nodes s.popExtras.2 ++ s.popExtras.1 = s.nodes := by
  simp only [popExtras, nodes, ← List.reverse_append, ← List.map_append,
    List.takeWhile_append_dropWhile]

/-- Popping children loses no node. -/
theorem nodes_popChildren (count : Nat) (s : Stack) (popped : List Node) :
    nodes (popChildren count s popped).2 ++ (popChildren count s popped).1 =
      s.nodes ++ popped := by
  induction s generalizing count popped with
  | nil => cases count <;> rfl
  | cons e s ih =>
    cases count with
    | zero => rfl
    | succ count =>
      rw [popChildren, ih]
      simp [nodes]

end Stack

end TableParsing
