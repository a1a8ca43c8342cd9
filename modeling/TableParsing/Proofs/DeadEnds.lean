import TableParsing.Proofs.AcceptedWords
import TableParsing.Proofs.Consistency
import TableParsing.Pyret.Language

/-!
# Dead ends

Searches for tokens that share their dead ends. A run that accepts nothing has passed only positions
and states from which nothing is accepted, since the start state itself never accepts. So a search
finds the same whichever searches of the text went before it.
-/
namespace TableParsing

namespace GrammarTable

variable {t : GrammarTable} {text : Text} {dead : DeadEnds} {start pos : Nat} {state : LexStateId}
  {run : LexRun}

/-- The dead ends known after searches of the text, at any positions and in any order. -/
inductive Searched (t : GrammarTable) (text : Text) : DeadEnds → Prop
  | empty : Searched t text {}
  | search {dead : DeadEnds} (start : Nat) : Searched t text dead →
      Searched t text (t.longestMatch text start dead).2

/-- A run that accepts nothing from here on stands where nothing is accepted, unless it has just
begun and an empty word would be. -/
theorem barren_of_best (hdead : t.AllBarren text dead)
    (hpos : start < pos ∨ start = pos ∧ t.accepts? state [] = none)
    (hbest : (t.runLexer text dead start pos state run).best = none) :
    t.Barren text pos state := by
  intro stop hp hle
  rcases runLexer_best_cases hdead start state run (Nat.le_trans hp hle) with
    ⟨m, hm, _⟩ | ⟨_, hnone⟩
  · rw [hbest] at hm
    cases hm
  · rcases Nat.eq_or_lt_of_le hp with rfl | hlt
    · rcases hpos with hlt | ⟨_, hempty⟩
      · exact hnone pos hlt hp hle
      · rw [Text.slice_self, hempty]
    · exact hnone stop (by omega) hp hle

theorem barren_of_visited (hdead : t.AllBarren text dead)
    (hpos : start < pos ∨ start = pos ∧ t.accepts? state [] = none)
    (hbest : (t.runLexer text dead start pos state run).best = none) {q : Nat}
    {last : LexStateId} (hq : (q, last) ∈ (t.runLexer text dead start pos state run).visited) :
    (q, last) ∈ run.visited ∨ t.Barren text q last := by
  have hhere {pos : Nat} {state : LexStateId} {seen : List (Nat × LexStateId)}
      (hbarren : t.Barren text pos state) (hq : (q, last) ∈ (pos, state) :: seen) :
      (q, last) ∈ seen ∨ t.Barren text q last := by
    rcases List.mem_cons.mp hq with heq | hq
    · cases heq
      exact .inr hbarren
    · exact .inl hq
  have hbarren := barren_of_best hdead hpos hbest
  fun_induction runLexer t text dead start pos state run with
  | case1 => exact .inl hq
  | case2 pos state run _ run' hstep => exact hhere hbarren hq
  | case3 pos state run _ run' next hstep ih =>
    have hstart : start < pos + 1 := by omega
    have hnext := barren_of_best hdead (.inl hstart) hbest
    rcases ih (.inl hstart) hbest hq hnext with hq | hq
    · exact hhere hbarren hq
    · exact .inr hq

/-- A search that fails adds only dead ends where nothing is accepted. -/
theorem AllBarren.search (hstart : t.accepts? 0 [] = none) (hdead : t.AllBarren text dead)
    (start : Nat) : t.AllBarren text (t.longestMatch text start dead).2 := by
  unfold longestMatch
  dsimp only
  split
  · exact hdead
  · rename_i hbest
    intro q state hq
    rw [Std.HashSet.contains_insertMany_list, Bool.or_eq_true, List.contains_iff_mem] at hq
    rcases hq with hq | hq
    · exact hdead q state hq
    · exact (barren_of_visited hdead (.inr ⟨rfl, hstart⟩) hbest hq).resolve_left List.not_mem_nil

theorem Searched.allBarren (hstart : t.accepts? 0 [] = none) (h : t.Searched text dead) :
    t.AllBarren text dead := by
  induction h with
  | empty => exact t.allBarren_empty text
  | search start _ ih => exact ih.search hstart start

end GrammarTable

namespace Language

/-- What a search finds does not depend on the searches before it: the longest word accepted at its
position, or nothing if there is no such word. -/
theorem longestMatch_of_searched (l : Language) {text : Text} {dead : DeadEnds}
    (h : l.table.Searched text dead) (start : Nat) :
    (l.table.longestMatch text start dead).1 = (l.table.longestMatch text start {}).1 ∧
    (∀ m, (l.table.longestMatch text start dead).1 = some m ↔
      l.table.LongestFrom text start start 0 m) ∧
    ((l.table.longestMatch text start dead).1 = none ↔ ∀ stop, start < stop → stop ≤ text.size →
      l.table.accepts? 0 (text.slice ⟨start, stop⟩) = none) := by
  have hdead := h.allBarren (GrammarTable.accept_start l.table_fault)
  have hempty := l.table.allBarren_empty text
  have hfound (m : Match) : (l.table.longestMatch text start dead).1 = some m ↔
      l.table.LongestFrom text start start 0 m :=
    GrammarTable.longestMatch_eq_some hdead
  refine ⟨Option.ext fun m => ?_, hfound, GrammarTable.longestMatch_eq_none hdead⟩
  rw [hfound, GrammarTable.longestMatch_eq_some hempty]

end Language

/-! ## An open string

In `"\"a` neither quote begins a token, and the search at the second one stops where the first one
has been.
-/

namespace Pyret.OpenString

def text : Text := #[0x22, 0x5C, 0x22, 0x61]

def dead : DeadEnds := (table.longestMatch text 2 (table.longestMatch text 0 {}).2).2

end Pyret.OpenString

namespace Language

open Pyret

theorem longestMatch_of_searched_openString :
    language.table.Searched OpenString.text OpenString.dead ∧
      (language.table.longestMatch OpenString.text 3 OpenString.dead).1 =
        some ⟨PyretSymbol.name, 4⟩ := by
  have hsearched : language.table.Searched OpenString.text OpenString.dead :=
    .search 2 (.search 0 .empty)
  have hname : language.table.longestMatch OpenString.text 3 {} = (some ⟨PyretSymbol.name, 4⟩, {}) :=
    GrammarTable.longestMatch_single rfl rfl rfl
  exact ⟨hsearched, (longestMatch_of_searched language hsearched 3).1.trans (congrArg Prod.fst hname)⟩

end Language

end TableParsing
