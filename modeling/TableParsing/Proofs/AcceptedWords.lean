import TableParsing.Proofs.Tokens

/-!
# Words of the lexer automaton

A run of the automaton over a whole word ends in a state, and the word is accepted for the symbol of
that state. The longest match at a position is the longest accepted word that begins there, whatever
dead ends are known by then.
-/
namespace TableParsing

/-! ## Parts of a text -/

namespace Text

variable {text : Text} {pos stop : Nat}

theorem slice_eq (text : Text) (pos stop : Nat) :
    text.slice ⟨pos, stop⟩ = (text.toList.drop pos).take (stop - pos) :=
  Array.toList_extract

@[simp] theorem slice_self (text : Text) (pos : Nat) : text.slice ⟨pos, pos⟩ = [] := by
  rw [slice_eq, Nat.sub_self, List.take_zero]

theorem slice_eq_cons {b : UInt8} (hb : text[pos]? = some b) (hp : pos < stop) :
    text.slice ⟨pos, stop⟩ = b :: text.slice ⟨pos + 1, stop⟩ := by
  obtain ⟨hlt, rfl⟩ := Array.getElem?_eq_some_iff.mp hb
  have hsucc : stop - pos = stop - (pos + 1) + 1 := by omega
  rw [slice_eq, slice_eq, List.drop_eq_getElem_cons hlt, hsucc, List.take_succ_cons]
  rfl

theorem getElem?_slice (text : Text) (pos stop i : Nat) :
    (text.slice ⟨pos, stop⟩)[i]? = if i < stop - pos then text[pos + i]? else none := by
  rw [slice_eq, List.getElem?_take, List.getElem?_drop, Array.getElem?_toList]

theorem slice_congr {text' : Text} (h : ∀ i, pos ≤ i → i < stop → text'[i]? = text[i]?) :
    text'.slice ⟨pos, stop⟩ = text.slice ⟨pos, stop⟩ := by
  apply List.ext_getElem?
  intro i
  rw [getElem?_slice, getElem?_slice]
  split
  · exact h (pos + i) (Nat.le_add_right _ _) (by omega)
  · rfl

theorem slice_append {mid : Nat} (h1 : pos ≤ mid) (h2 : mid ≤ stop) :
    text.slice ⟨pos, stop⟩ = text.slice ⟨pos, mid⟩ ++ text.slice ⟨mid, stop⟩ := by
  have hlen : stop - pos = (mid - pos) + (stop - mid) := by omega
  have hmid : pos + (mid - pos) = mid := by omega
  rw [slice_eq, slice_eq, slice_eq, hlen, List.take_add, List.drop_drop, hmid]

theorem slice_succ {b : UInt8} (h : pos ≤ stop) (hb : text[stop]? = some b) :
    text.slice ⟨pos, stop + 1⟩ = text.slice ⟨pos, stop⟩ ++ [b] := by
  rw [slice_append h (Nat.le_succ stop), slice_eq_cons hb (Nat.lt_succ_self stop), slice_self]

theorem mem_slice {i : Nat} {b : UInt8} (h1 : pos ≤ i) (h2 : i < stop) (hb : text[i]? = some b) :
    b ∈ text.slice ⟨pos, stop⟩ := by
  have hi : pos + (i - pos) = i := by omega
  apply List.mem_of_getElem?
  rw [getElem?_slice, if_pos (show i - pos < stop - pos by omega), hi, hb]

end Text

namespace GrammarTable

variable {t : GrammarTable} {text : Text} {dead : DeadEnds} {start pos stop : Nat}
  {state : LexStateId} {m : Match}

/-! ## Words -/

/-- The state behind a word that is read from `state` on. -/
def stateAfter? (t : GrammarTable) (state : LexStateId) : Bytes → Option LexStateId
  | [] => some state
  | b :: word => ((t.lexState? state).bind (·.next? b)).bind fun next => t.stateAfter? next word

/-- The symbol for which a word is accepted from `state` on, all of it read. -/
def accepts? (t : GrammarTable) (state : LexStateId) (word : Bytes) : Option Symbol :=
  (t.stateAfter? state word).bind fun last => (t.lexState? last).bind (·.accept)

theorem accepts?_nil (t : GrammarTable) (state : LexStateId) :
    t.accepts? state [] = (t.lexState? state).bind (·.accept) := rfl

theorem accepts?_cons (t : GrammarTable) (state : LexStateId) (b : UInt8) (word : Bytes) :
    t.accepts? state (b :: word) =
      ((t.lexState? state).bind (·.next? b)).bind fun next => t.accepts? next word := by
  rw [accepts?, stateAfter?, Option.bind_assoc]
  rfl

theorem accepts?_append (t : GrammarTable) (state : LexStateId) (word rest : Bytes) :
    t.accepts? state (word ++ rest) =
      (t.stateAfter? state word).bind fun last => t.accepts? last rest := by
  induction word generalizing state with
  | nil => rfl
  | cons b word ih =>
    rw [List.cons_append, accepts?_cons, stateAfter?]
    simp only [Option.bind_assoc, ih]

/-- The word from `pos` to a later place is read byte by byte. -/
theorem accepts?_slice (hp : pos < stop) (hs : stop ≤ text.size) :
    t.accepts? state (text.slice ⟨pos, stop⟩) =
      (t.lexStep text pos state).bind fun next => t.accepts? next (text.slice ⟨pos + 1, stop⟩) := by
  have hb : text[pos]? = some text[pos] := Array.getElem?_eq_getElem _
  rw [Text.slice_eq_cons hb hp, accepts?_cons, lexStep, hb, Option.bind_some]

/-! ## The longest match -/

/-- A match with no longer one, among the words read from `state` at `pos` on. -/
structure LongestFrom (t : GrammarTable) (text : Text) (start pos : Nat) (state : LexStateId)
    (m : Match) : Prop where
  start_lt : start < m.stop
  le_stop : pos ≤ m.stop
  stop_le : m.stop ≤ text.size
  accepted : t.accepts? state (text.slice ⟨pos, m.stop⟩) = some m.symbol
  longest : ∀ stop, m.stop < stop → stop ≤ text.size →
    t.accepts? state (text.slice ⟨pos, stop⟩) = none

/-- Read from this state at this position on, no word of the text is accepted, not even an empty one. -/
def Barren (t : GrammarTable) (text : Text) (pos : Nat) (state : LexStateId) : Prop :=
  ∀ stop, pos ≤ stop → stop ≤ text.size → t.accepts? state (text.slice ⟨pos, stop⟩) = none

/-- At the dead ends there is nothing to be found. -/
def AllBarren (t : GrammarTable) (text : Text) (dead : DeadEnds) : Prop :=
  ∀ pos state, dead.contains (pos, state) = true → t.Barren text pos state

theorem allBarren_empty (t : GrammarTable) (text : Text) : t.AllBarren text {} := by
  intro pos state h
  simp at h

/-- The match that ends where the run stands. -/
theorem matchAt_eq (t : GrammarTable) (text : Text) (start pos : Nat) (state : LexStateId) :
    t.matchAt start pos state =
      if start < pos then (t.accepts? state (text.slice ⟨pos, pos⟩)).map fun s => ⟨s, pos⟩
      else none := by
  rw [Text.slice_self, accepts?_nil, matchAt]

/-- A run finds the longest match, if there is any; stopping at a dead end loses none. -/
theorem runLexer_best_cases (hdead : t.AllBarren text dead) (start : Nat) (state : LexStateId)
    (run : LexRun) (hpos : pos ≤ text.size) :
    (∃ m, (t.runLexer text dead start pos state run).best = some m ∧
      t.LongestFrom text start pos state m) ∨
    ((t.runLexer text dead start pos state run).best = run.best ∧
      ∀ stop, start < stop → pos ≤ stop → stop ≤ text.size →
        t.accepts? state (text.slice ⟨pos, stop⟩) = none) := by
  -- Once the run cannot go on, or finds nothing later, what it has met here is the longest.
  have hhere {state : LexStateId} {run : LexRun} {pos : Nat} (hpos : pos ≤ text.size)
      (hlater : ∀ stop, start < stop → pos < stop → stop ≤ text.size →
        t.accepts? state (text.slice ⟨pos, stop⟩) = none) :
      (∃ m, (t.matchAt start pos state).or run.best = some m ∧
        t.LongestFrom text start pos state m) ∨
      ((t.matchAt start pos state).or run.best = run.best ∧
        ∀ stop, start < stop → pos ≤ stop → stop ≤ text.size →
          t.accepts? state (text.slice ⟨pos, stop⟩) = none) := by
    rw [matchAt_eq t text]
    by_cases hlt : start < pos
    · rw [if_pos hlt]
      cases ha : t.accepts? state (text.slice ⟨pos, pos⟩) with
      | some s =>
        refine .inl ⟨⟨s, pos⟩, rfl, hlt, Nat.le_refl _, hpos, ha, fun stop hstop hle => ?_⟩
        exact hlater stop (Nat.lt_trans hlt hstop) hstop hle
      | none =>
        refine .inr ⟨rfl, fun stop hs hp hle => ?_⟩
        rcases Nat.eq_or_lt_of_le hp with rfl | hp
        · exact ha
        · exact hlater stop hs hp hle
    · rw [if_neg hlt]
      exact .inr ⟨rfl, fun stop hs hp hle => hlater stop hs (by omega) hle⟩
  fun_induction runLexer t text dead start pos state run with
  | case1 pos state run hmem =>
    exact .inr ⟨rfl, fun stop _ hp hle => hdead pos state hmem stop hp hle⟩
  | case2 pos state run _ run' hstep =>
    refine hhere hpos fun stop _ hp hle => ?_
    rw [accepts?_slice hp hle, hstep, Option.bind_none]
  | case3 pos state run _ run' next hstep ih =>
    have hlt := lexStep_lt hstep
    have hnext {stop : Nat} (hp : pos < stop) (hle : stop ≤ text.size) :
        t.accepts? state (text.slice ⟨pos, stop⟩) =
          t.accepts? next (text.slice ⟨pos + 1, stop⟩) := by
      rw [accepts?_slice hp hle, hstep, Option.bind_some]
    rcases ih hlt with ⟨m, hm, hlong⟩ | ⟨hbest, hnone⟩
    · have hle := hlong.le_stop
      refine .inl ⟨m, hm, hlong.start_lt, by omega, hlong.stop_le, ?_, fun stop hs hle => ?_⟩
      · rw [hnext hle hlong.stop_le]
        exact hlong.accepted
      · rw [hnext (by omega) hle]
        exact hlong.longest stop hs hle
    · rw [hbest]
      refine hhere hpos fun stop hs hp hle => ?_
      rw [hnext hp hle]
      exact hnone stop hs hp hle

/-- Neither of two longest matches is the longer one. -/
theorem LongestFrom.unique {m' : Match} (h : t.LongestFrom text start pos state m)
    (h' : t.LongestFrom text start pos state m') : m = m' := by
  have hstop : m.stop = m'.stop := by
    have hle := h.longest m'.stop
    have hle' := h'.longest m.stop
    rw [h'.accepted] at hle
    rw [h.accepted] at hle'
    by_contra hne
    rcases Nat.lt_or_gt_of_ne hne with hlt | hlt
    · cases hle hlt h'.stop_le
    · cases hle' hlt h.stop_le
  have hsymbol := h.accepted
  rw [hstop, h'.accepted] at hsymbol
  cases m
  cases m'
  cases hstop
  cases hsymbol
  rfl

theorem longestMatch_fst (t : GrammarTable) (text : Text) (start : Nat) (dead : DeadEnds) :
    (t.longestMatch text start dead).1 = (t.runLexer text dead start start 0 ⟨none, []⟩).best := by
  rw [longestMatch]
  split <;> simp_all

/-- The longest match at a position is the longest accepted word that begins there, and without a
match there is no such word. -/
theorem longestMatch_cases (hdead : t.AllBarren text dead) (start : Nat) :
    (∃ m, (t.longestMatch text start dead).1 = some m ∧ t.LongestFrom text start start 0 m) ∨
    ((t.longestMatch text start dead).1 = none ∧ ∀ stop, start < stop → stop ≤ text.size →
      t.accepts? 0 (text.slice ⟨start, stop⟩) = none) := by
  by_cases hpos : start ≤ text.size
  · rw [longestMatch_fst]
    rcases runLexer_best_cases hdead start 0 ⟨none, []⟩ hpos with hsome | ⟨hbest, hnone⟩
    · exact .inl hsome
    · exact .inr ⟨hbest, fun stop hs hle => hnone stop hs (Nat.le_of_lt hs) hle⟩
  · -- Behind the text no word begins.
    have hstep : t.lexStep text start 0 = none := by
      rw [lexStep, Array.getElem?_eq_none (by omega), Option.bind_none]
    exact .inr ⟨longestMatch_of_stuck hstep, fun stop hs hle => by omega⟩

theorem longestMatch_eq_some (hdead : t.AllBarren text dead) :
    (t.longestMatch text start dead).1 = some m ↔ t.LongestFrom text start start 0 m := by
  rcases longestMatch_cases hdead start with ⟨m', hm', hlong⟩ | ⟨hnone, hwords⟩
  · rw [hm', Option.some.injEq]
    exact ⟨fun h => h ▸ hlong, fun h => hlong.unique h⟩
  · rw [hnone]
    constructor
    · intro h
      cases h
    · intro h
      have haccepted := h.accepted
      rw [hwords m.stop h.start_lt h.stop_le] at haccepted
      cases haccepted

theorem longestMatch_eq_none (hdead : t.AllBarren text dead) :
    (t.longestMatch text start dead).1 = none ↔ ∀ stop, start < stop → stop ≤ text.size →
      t.accepts? 0 (text.slice ⟨start, stop⟩) = none := by
  rcases longestMatch_cases hdead start with ⟨m, hm, hlong⟩ | ⟨hnone, hwords⟩
  · rw [hm]
    constructor
    · intro h
      cases h
    · intro h
      have haccepted := hlong.accepted
      rw [h m.stop hlong.start_lt hlong.stop_le] at haccepted
      cases haccepted
  · exact ⟨fun _ => hwords, fun _ => hnone⟩

end GrammarTable

end TableParsing
