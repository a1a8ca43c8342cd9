import TableParsing.Table.Symbol

/-!
# Rows of the parse automaton

A row is an array of symbol–entry pairs, kept sorted by symbol and searched by halving. A row built
by insertion is sorted, and entries of one symbol stand in the order of insertion.
-/
namespace TableParsing

abbrev Row (α : Type) := Array (Symbol × α)

namespace Row

variable {α : Type}

/-- Puts an entry behind all entries whose symbol is not greater. -/
def insertInto (entry : Symbol × α) : List (Symbol × α) → List (Symbol × α)
  | [] => [entry]
  | other :: rest =>
    if other.1.id ≤ entry.1.id then other :: insertInto entry rest else entry :: other :: rest

/-- On a row in order this comes to appending the entry and sorting the row, entries of one symbol
kept in their order. -/
def insert (row : Row α) (s : Symbol) (a : α) : Row α := (insertInto (s, a) row.toList).toArray

/-- Narrows the `size` entries from `base` to one, keeping the upper half unless its first symbol is
greater than `s`. -/
def seek (row : Row α) (s : Symbol) : (steps base size : Nat) → Nat
  | 0, base, _ => base
  | steps + 1, base, size =>
    if size ≤ 1 then base
    else
      let middle := base + size / 2
      let base := match row[middle]? with
        | some entry => if s.id < entry.1.id then base else middle
        | none => base
      seek row s steps base (size - size / 2)

def find? (row : Row α) (s : Symbol) : Option α :=
  match row[seek row s row.size 0 row.size]? with
  | some entry => if entry.1 = s then some entry.2 else none
  | none => none

def keys (row : Row α) : List Symbol := row.toList.map (·.1)

/-- The entry of the first pair for `s`. -/
def lookup (s : Symbol) : List (Symbol × α) → Option α
  | [] => none
  | entry :: rest => if entry.1 = s then some entry.2 else lookup s rest

theorem mem_insertInto {x entry : Symbol × α} {row : List (Symbol × α)} :
    x ∈ insertInto entry row ↔ x = entry ∨ x ∈ row := by
  induction row with
  | nil => simp [insertInto]
  | cons other rest ih =>
    rw [insertInto]
    split
    · simp only [List.mem_cons, ih]
      constructor
      · rintro (h | h | h)
        · exact Or.inr (Or.inl h)
        · exact Or.inl h
        · exact Or.inr (Or.inr h)
      · rintro (h | h | h)
        · exact Or.inr (Or.inl h)
        · exact Or.inl h
        · exact Or.inr (Or.inr h)
    · exact List.mem_cons

@[simp] theorem length_insertInto (entry : Symbol × α) (row : List (Symbol × α)) :
    (insertInto entry row).length = row.length + 1 := by
  induction row with
  | nil => rfl
  | cons other rest ih =>
    rw [insertInto]
    split
    · simp [ih]
    · rfl

end Row

inductive Action where
  | shift (next : StateId)
  | reduce (production : ProductionId)
  | accept
deriving DecidableEq, Inhabited

/-- What the automaton does in one state: on a terminal, and after a reduction to a non-terminal. -/
structure ParseState where
  actions : Row Action
  gotos : Row StateId
deriving DecidableEq, Inhabited

namespace ParseState

def empty : ParseState := ⟨#[], #[]⟩

def onAction (st : ParseState) (s : Symbol) (a : Action) : ParseState :=
  { st with actions := st.actions.insert s a }

def shift (st : ParseState) (s : Symbol) (next : StateId) : ParseState :=
  st.onAction s (.shift next)

def reduce (st : ParseState) (lookaheads : List Symbol) (p : ProductionId) : ParseState :=
  lookaheads.foldl (fun st s => st.onAction s (.reduce p)) st

def accept (st : ParseState) (s : Symbol) : ParseState := st.onAction s .accept

def goto (st : ParseState) (s : Symbol) (next : StateId) : ParseState :=
  { st with gotos := st.gotos.insert s next }

def action? (st : ParseState) (s : Symbol) : Option Action := st.actions.find? s

def goto? (st : ParseState) (s : Symbol) : Option StateId := st.gotos.find? s

/-- The symbols with an action, in the order of the row. -/
def validTerminals (st : ParseState) : List Symbol := st.actions.keys

end ParseState

end TableParsing
