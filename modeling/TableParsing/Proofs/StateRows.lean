import TableParsing.Proofs.Loading
import TableParsing.Proofs.Reachable

/-!
# Rows of a state

A state is built call by call, and each call inserts its entries into the rows. Whatever the calls
are, a row ends with their entries in order, and if no symbol repeats, halving finds what a search
from the front would find. Rows that come with a table were not built here; for those the checks of
loading vouch.
-/
namespace TableParsing.ParseState

/-- A call that builds a state. -/
inductive Call where
  | shift (s : Symbol) (next : StateId)
  | reduce (lookaheads : List Symbol) (p : ProductionId)
  | accept (s : Symbol)
  | goto (s : Symbol) (next : StateId)

namespace Call

def apply (st : ParseState) : Call → ParseState
  | shift s next => st.shift s next
  | reduce lookaheads p => st.reduce lookaheads p
  | accept s => st.accept s
  | goto s next => st.goto s next

/-- The actions that a call adds, in its order. -/
def actions : Call → List (Symbol × Action)
  | shift s next => [(s, .shift next)]
  | reduce lookaheads p => lookaheads.map fun s => (s, .reduce p)
  | accept s => [(s, .accept)]
  | goto _ _ => []

/-- The entries for non-terminals that a call adds. -/
def gotos : Call → List (Symbol × StateId)
  | goto s next => [(s, next)]
  | _ => []

end Call

/-- The state that calls build, the first call first. -/
def ofCalls (calls : List Call) : ParseState := calls.foldl Call.apply empty

/-- Both rows hold what was added to them. -/
structure Collects (st : ParseState) (actions : List (Symbol × Action))
    (gotos : List (Symbol × StateId)) : Prop where
  actions : st.actions.Collects actions
  gotos : st.gotos.Collects gotos

variable {st : ParseState} {actions : List (Symbol × Action)} {gotos : List (Symbol × StateId)}

theorem Collects.onAction (h : st.Collects actions gotos) (s : Symbol) (a : Action) :
    (st.onAction s a).Collects (actions ++ [(s, a)]) gotos :=
  ⟨h.actions.insert s a, h.gotos⟩

theorem Collects.goto (h : st.Collects actions gotos) (s : Symbol) (next : StateId) :
    (st.goto s next).Collects actions (gotos ++ [(s, next)]) :=
  ⟨h.actions, h.gotos.insert s next⟩

theorem Collects.reduce (h : st.Collects actions gotos) (lookaheads : List Symbol)
    (p : ProductionId) :
    (st.reduce lookaheads p).Collects (actions ++ lookaheads.map fun s => (s, .reduce p))
      gotos := by
  induction lookaheads generalizing st actions with
  | nil =>
    rw [List.map_nil, List.append_nil]
    exact h
  | cons s rest ih =>
    rw [List.map_cons, List.append_cons]
    exact ih (h.onAction s (.reduce p))

theorem Collects.apply (h : st.Collects actions gotos) (call : Call) :
    (call.apply st).Collects (actions ++ call.actions) (gotos ++ call.gotos) := by
  cases call with
  | shift s next =>
    have h' : (st.shift s next).Collects _ _ := h.onAction s (.shift next)
    simpa [Call.apply, Call.actions, Call.gotos] using h'
  | reduce lookaheads p =>
    simpa [Call.apply, Call.actions, Call.gotos] using h.reduce lookaheads p
  | accept s =>
    have h' : (st.accept s).Collects _ _ := h.onAction s .accept
    simpa [Call.apply, Call.actions, Call.gotos] using h'
  | goto s next => simpa [Call.apply, Call.actions, Call.gotos] using Collects.goto h s next

theorem Collects.foldl (h : st.Collects actions gotos) (calls : List Call) :
    (calls.foldl Call.apply st).Collects (actions ++ calls.flatMap Call.actions)
      (gotos ++ calls.flatMap Call.gotos) := by
  induction calls generalizing st actions gotos with
  | nil => simpa using h
  | cons call rest ih =>
    rw [List.flatMap_cons, List.flatMap_cons, ← List.append_assoc, ← List.append_assoc]
    exact ih (h.apply call)

theorem collects_ofCalls (calls : List Call) :
    (ofCalls calls).Collects (calls.flatMap Call.actions) (calls.flatMap Call.gotos) := by
  have h : empty.Collects [] [] := ⟨Row.collects_empty, Row.collects_empty⟩
  exact h.foldl calls

/-- Every row that calls build holds their entries in the order of the symbols, those of one symbol
in the order of the calls. If its symbols are distinct, as they are in every row of a loaded table,
each lookup gives what a search from the front gives. No table with a repeated symbol is loaded. -/
theorem lookups_exact :
    (∀ calls : List Call, let st := ofCalls calls
      st.actions.Collects (calls.flatMap Call.actions) ∧
      st.gotos.Collects (calls.flatMap Call.gotos) ∧
      (st.actions.keys.Nodup → ∀ s, st.action? s = Row.lookup s st.actions.toList) ∧
      (st.gotos.keys.Nodup → ∀ s, st.goto? s = Row.lookup s st.gotos.toList)) ∧
    (∀ g l, Language.load g = .ok l → ∀ st ∈ g.table.states, ∀ s,
      st.action? s = Row.lookup s st.actions.toList ∧
      st.goto? s = Row.lookup s st.gotos.toList) ∧
    ∀ g : Grammar, ∀ st ∈ g.table.states, ¬(st.actions.keys.Nodup ∧ st.gotos.keys.Nodup) →
      ¬∃ l, Language.load g = .ok l := by
  have hfits {g : Grammar} (h : ∃ l, Language.load g = .ok l) :
      ∀ st ∈ g.table.states, g.table.StateFits st :=
    (Language.wellFormed_of_load h).table.automaton.states
  refine ⟨fun calls => ?_, fun g l h st hst s => ?_, fun g st hst hrep h => ?_⟩
  · have hc := collects_ofCalls calls
    exact ⟨hc.actions, hc.gotos, fun hd => (hc.actions.sorted hd).find?_eq_lookup,
      fun hd => (hc.gotos.sorted hd).find?_eq_lookup⟩
  · have hfit := hfits ⟨l, h⟩ st hst
    exact ⟨hfit.actionsSorted.find?_eq_lookup s, hfit.gotosSorted.find?_eq_lookup s⟩
  · have hfit := hfits h st hst
    exact hrep ⟨hfit.actionsSorted.nodup_keys, hfit.gotosSorted.nodup_keys⟩

/-- The start of the one-word language with a second action on the word. -/
def ambiguousStart : ParseState :=
  ofCalls [.shift Word.word 2, .goto Word.program 1, .reduce [Word.word] 0]

/-- A state of six entries, the start of the one-word language, and that start with an action too
many. -/
theorem lookups_exact_word :
    (let st := ofCalls
      [.shift ⟨5⟩ 3, .reduce [⟨2⟩, ⟨9⟩] 1, .accept ⟨0⟩, .goto ⟨12⟩ 4, .goto ⟨10⟩ 2]
    st.actions.keys = [⟨0⟩, ⟨2⟩, ⟨5⟩, ⟨9⟩] ∧ st.gotos.keys = [⟨10⟩, ⟨12⟩] ∧
      st.action? ⟨9⟩ = some (.reduce 1) ∧ st.action? ⟨7⟩ = none ∧ st.goto? ⟨10⟩ = some 2) ∧
    (∃ st ∈ Word.table.states, st.action? Word.word = some (.shift 2)) ∧
    ambiguousStart.actions.toList = [(Word.word, .shift 2), (Word.word, .reduce 0)] ∧
    ¬∃ l, Language.load (GrammarTable.withoutScanner
      { Word.table with states := Word.table.states.set! 0 ambiguousStart }) = .ok l := by
  refine ⟨?_, ?_, by decide, lookups_exact.2.2 _ ambiguousStart ?_ (by decide)⟩
  · intro st
    obtain ⟨_, _, hactions, hgotos⟩ := lookups_exact.1
      [.shift ⟨5⟩ 3, .reduce [⟨2⟩, ⟨9⟩] 1, .accept ⟨0⟩, .goto ⟨12⟩ 4, .goto ⟨10⟩ 2]
    have ha := hactions (by decide)
    have hg := hgotos (by decide)
    exact ⟨by decide, by decide, (ha ⟨9⟩).trans (by decide), (ha ⟨7⟩).trans (by decide),
      (hg ⟨10⟩).trans (by decide)⟩
  · have hst : (ParseState.empty.shift Word.word 2).goto Word.program 1 ∈ Word.table.states :=
      Array.mem_of_getElem? (show Word.table.states[0]? = _ from rfl)
    have hload := Language.load_grammar Word.language
    exact ⟨_, hst, (lookups_exact.2.1 _ _ hload _ hst Word.word).1.trans (by decide)⟩
  · exact Array.mem_of_getElem?
      (show (Word.table.states.set! 0 ambiguousStart)[0]? = some ambiguousStart from rfl)

end TableParsing.ParseState
