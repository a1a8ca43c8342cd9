import TableParsing.Table.Basic
import Std.Data.HashSet

/-!
# Longest match

Runs of the lexer automaton over a text. The longest accepted run wins; a run that accepts nothing
leaves its positions and states behind as dead ends, at which later runs stop early.
-/
namespace TableParsing

/-- Positions and lexer states from which no accepting state is reached. -/
abbrev DeadEnds := Std.HashSet (Nat × LexStateId)

/-- An accepted symbol and the end of its lexeme. -/
structure Match where
  symbol : Symbol
  stop : Nat
deriving DecidableEq

/-- How far one run of the automaton came. -/
structure LexRun where
  best : Option Match
  visited : List (Nat × LexStateId)

/-- The match that ends in this lexer state at `pos`, if any. -/
def GrammarTable.matchAt (t : GrammarTable) (start pos : Nat) (state : LexStateId) : Option Match :=
  if start < pos then ((t.lexState? state).bind (·.accept)).map fun s => ⟨s, pos⟩ else none

/-- The state after the byte at `pos`. -/
def GrammarTable.lexStep (t : GrammarTable) (text : Text) (pos : Nat) (state : LexStateId) :
    Option LexStateId :=
  text[pos]?.bind fun b => (t.lexState? state).bind (·.next? b)

def GrammarTable.runLexer (t : GrammarTable) (text : Text) (dead : DeadEnds) (start pos : Nat)
    (state : LexStateId) (run : LexRun) : LexRun :=
  if dead.contains (pos, state) then run
  else
    let run := ⟨(t.matchAt start pos state).or run.best, (pos, state) :: run.visited⟩
    match _h : t.lexStep text pos state with
    | none => run
    | some next => t.runLexer text dead start (pos + 1) next run
termination_by text.size - pos
decreasing_by
  have hp : pos < text.size := by
    simp only [GrammarTable.lexStep, Option.bind_eq_some_iff] at _h
    obtain ⟨b, hb, _⟩ := _h
    exact (Array.getElem?_eq_some_iff.mp hb).1
  omega

/-- The longest match at `start` and the dead ends known afterwards. -/
def GrammarTable.longestMatch (t : GrammarTable) (text : Text) (start : Nat) (dead : DeadEnds) :
    Option Match × DeadEnds :=
  let run := t.runLexer text dead start start 0 ⟨none, []⟩
  match run.best with
  | some m => (some m, dead)
  | none => (none, dead.insertMany run.visited)

namespace GrammarTable

variable {t : GrammarTable} {text : Text} {dead : DeadEnds}

theorem matchAt_stop {start pos : Nat} {state : LexStateId} {m : Match}
    (h : t.matchAt start pos state = some m) : start < m.stop ∧ m.stop = pos := by
  unfold matchAt at h
  split at h
  · simp only [Option.map_eq_some_iff] at h
    obtain ⟨s, _, rfl⟩ := h
    exact ⟨by assumption, rfl⟩
  · cases h

theorem lexStep_lt {pos : Nat} {state next : LexStateId}
    (h : t.lexStep text pos state = some next) : pos < text.size := by
  simp only [lexStep, Option.bind_eq_some_iff] at h
  obtain ⟨b, hb, _⟩ := h
  exact (Array.getElem?_eq_some_iff.mp hb).1

theorem runLexer_best {start pos : Nat} {state : LexStateId} {run : LexRun} {m : Match}
    (hpos : pos ≤ text.size) (hrun : ∀ b, run.best = some b → start < b.stop ∧ b.stop ≤ text.size)
    (h : (t.runLexer text dead start pos state run).best = some m) :
    start < m.stop ∧ m.stop ≤ text.size := by
  fun_induction runLexer t text dead start pos state run with
  | case1 pos state run hdead => exact hrun m h
  | case2 pos state run hdead run' hstep =>
    simp only [run', Option.or_eq_some_iff] at h
    rcases h with h | ⟨_, h⟩
    · have := matchAt_stop h; omega
    · exact hrun m h
  | case3 pos state run hdead run' next hstep ih =>
    refine ih (lexStep_lt hstep) (fun b hb => ?_) h
    simp only [run', Option.or_eq_some_iff] at hb
    rcases hb with hb | ⟨_, hb⟩
    · have := matchAt_stop hb; omega
    · exact hrun b hb

theorem longestMatch_stop {start : Nat} {m : Match} (hstart : start ≤ text.size)
    (h : (t.longestMatch text start dead).1 = some m) : start < m.stop ∧ m.stop ≤ text.size := by
  unfold longestMatch at h
  dsimp only at h
  split at h
  · rename_i b hb
    cases h
    exact runLexer_best hstart (fun b hb => by cases hb) hb
  · cases h

end GrammarTable

end TableParsing
