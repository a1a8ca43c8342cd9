import TableParsing.Table.Basic

/-!
# Simulated reductions

The automaton on bare states. A path lists the states of a stack from the newest to the start state;
a symbol is viable on it if the reductions it triggers end in a shift or in acceptance.
-/
namespace TableParsing.GrammarTable

variable (t : GrammarTable)

/-- The path after a reduction; one state stays below the children. -/
def reducePath (p : Production) (path : List StateId) : Option (List StateId) :=
  match path.drop p.childCount.toNat with
  | [] => none
  | below :: rest => (t.goto? below p.lhs).map fun next => next :: below :: rest

/-- A round of a simulation that has `count` reductions behind it. The count is a word: it goes one
up before it is compared with the limit, and beyond the greatest word it begins at 0 again. -/
def simulateBody (s : Symbol) (limit : Nat) :
    UInt64 × List StateId → (UInt64 × List StateId) ⊕ Option (Action × List StateId) :=
  fun (count, path) =>
    match path with
    | [] => .inr none
    | top :: rest =>
      match t.action? top s with
      | none => .inr none
      | some (.reduce id) =>
        if limit < (count + 1).toNat then .inr none
        else
          match (t.production? id).bind (t.reducePath · (top :: rest)) with
          | none => .inr none
          | some path => .inl (count + 1, path)
      | some action => .inr (some (action, top :: rest))

/-- The action that ends the reductions triggered by `s`, and the path it is taken on. The rounds
above come to this as long as their count stays in its word, which it does under every limit but the
greatest word. -/
def simulate (s : Symbol) (limit : Nat) (path : List StateId) : Option (Action × List StateId) :=
  match path with
  | [] => none
  | top :: _ =>
    match t.action? top s with
    | none => none
    | some (.reduce id) =>
      match limit with
      | 0 => none
      | limit + 1 =>
        match (t.production? id).bind (t.reducePath · path) with
        | none => none
        | some path => simulate s limit path
    | some action => some (action, path)

def isViable (s : Symbol) (limit : Nat) (path : List StateId) : Bool :=
  (t.simulate s limit path).isSome

end TableParsing.GrammarTable
