import Mathlib.Tactic.Common
import TableParsing.Lexer.Tokens

/-!
# Lexing by equations

A run of the lexer goes on while the automaton has a transition, and its best match is the last one
it met. The token list of a text is read off lexeme by lexeme, each of which ends behind its
beginning.
-/
namespace TableParsing

namespace GrammarTable

variable {t : GrammarTable} {text : Text} {dead : DeadEnds} {start pos : Nat}
  {state next : LexStateId} {run : LexRun} {m : Match}

theorem runLexer_next (hd : dead.contains (pos, state) = false)
    (hs : t.lexStep text pos state = some next) :
    t.runLexer text dead start pos state run = t.runLexer text dead start (pos + 1) next
      ⟨(t.matchAt start pos state).or run.best, (pos, state) :: run.visited⟩ := by
  conv_lhs => rw [runLexer]
  rw [if_neg (by simp [hd])]
  split <;> simp_all

theorem runLexer_stop (hd : dead.contains (pos, state) = false)
    (hs : t.lexStep text pos state = none) : t.runLexer text dead start pos state run =
      ⟨(t.matchAt start pos state).or run.best, (pos, state) :: run.visited⟩ := by
  rw [runLexer, if_neg (by simp [hd])]
  split <;> simp_all

theorem longestMatch_of_best
    (h : (t.runLexer text dead start start 0 ⟨none, []⟩).best = some m) :
    t.longestMatch text start dead = (some m, dead) := by
  simp only [longestMatch, h]

theorem longestMatch_of_none
    (h : (t.runLexer text dead start start 0 ⟨none, []⟩).best = none) :
    (t.longestMatch text start dead).1 = none := by
  simp only [longestMatch, h]

/-- If the automaton has no transition on the first byte, nothing matches. -/
theorem longestMatch_of_stuck (hs : t.lexStep text start 0 = none) :
    (t.longestMatch text start dead).1 = none := by
  apply longestMatch_of_none
  by_cases hd : dead.contains (start, 0) = true
  · rw [runLexer, if_pos hd]
  · rw [runLexer_stop (by simpa using hd) hs, matchAt, if_neg (Nat.lt_irrefl start)]
    rfl

/-- If the automaton has no transition behind the first byte, that byte is the match. -/
theorem longestMatch_single {s : Symbol} (hs : t.lexStep text start 0 = some state)
    (hstop : t.lexStep text (start + 1) state = none)
    (ha : (t.lexState? state).bind (·.accept) = some s) :
    t.longestMatch text start {} = (some ⟨s, start + 1⟩, {}) := by
  apply longestMatch_of_best
  rw [runLexer_next (by simp) hs, runLexer_stop (by simp) hstop]
  simp [matchAt, ha]

end GrammarTable

namespace Grammar

variable {g : Grammar} {text : Text} {pos : Nat}

/-- Every external token is valid. -/
def allValid (g : Grammar) : List Bool := g.table.externalTokens.map fun _ => true

theorem lexemeAt_eq_endOfText {valid : List Bool} :
    g.lexemeAt text valid pos = .endOfText ↔ text.size ≤ g.skipSeparators text pos := by
  simp only [lexemeAt]
  constructor
  · intro h
    by_contra hle
    rw [if_neg hle] at h
    split at h
    · cases h
    · split at h <;> cases h
  · intro h
    rw [if_pos h]

/-- Where the text ends does not depend on what is valid. -/
theorem endOfText_congr {valid : List Bool} (h : g.lexemeAt text valid pos = .endOfText)
    (valid' : List Bool) : g.lexemeAt text valid' pos = .endOfText :=
  lexemeAt_eq_endOfText.mpr (lexemeAt_eq_endOfText.mp h)

theorem lexemeAt_of_size_le {valid : List Bool} (h : text.size ≤ pos) :
    g.lexemeAt text valid pos = .endOfText :=
  lexemeAt_eq_endOfText.mpr (Nat.le_trans h (le_skipSeparators pos))

theorem skipSeparators_stop (h : (text[pos]?).any g.table.isSeparator = false) :
    g.skipSeparators text pos = pos := by
  rw [skipSeparators]
  split
  · rename_i hlt
    simp only [Array.getElem?_eq_getElem hlt, Option.any_some] at h
    simp [h]
  · rfl

theorem skipSeparators_next (h : (text[pos]?).any g.table.isSeparator = true) :
    g.skipSeparators text pos = g.skipSeparators text (pos + 1) := by
  rcases (Option.any_eq_true _ _).mp h with ⟨b, hb, hsep⟩
  rcases Array.getElem?_eq_some_iff.mp hb with ⟨hlt, rfl⟩
  conv_lhs => rw [skipSeparators]
  rw [dif_pos hlt, if_pos hsep]

/-- A token of one byte that the scanner does not propose. -/
theorem lexemeAt_single {valid : List Bool} {start : Nat} {state : LexStateId} {s : Symbol}
    (hskip : g.skipSeparators text pos = start) (hext : g.scanExternal text start valid = none)
    (hs : g.table.lexStep text start 0 = some state)
    (hstop : g.table.lexStep text (start + 1) state = none)
    (ha : (g.table.lexState? state).bind (·.accept) = some s) :
    g.lexemeAt text valid pos = .token ⟨g.keywordOr text s ⟨start, start + 1⟩, start, start + 1⟩ := by
  have hlt := GrammarTable.lexStep_lt hs
  simp only [lexemeAt, hskip, if_neg (Nat.not_le.mpr hlt), hext,
    GrammarTable.longestMatch_single hs hstop ha]

/-- A byte that begins no token, with a separator or the end behind it. -/
theorem lexemeAt_stuck {valid : List Bool} {start : Nat} (hlt : start < text.size)
    (hskip : g.skipSeparators text pos = start) (hext : g.scanExternal text start valid = none)
    (hs : g.table.lexStep text start 0 = none)
    (hstop : (text[start + 1]?).all g.table.isSeparator = true) :
    g.lexemeAt text valid pos = .unlexable ⟨start, start + 1⟩ := by
  have hmatch : (g.table.longestMatch text start {}).1 = none :=
    GrammarTable.longestMatch_of_stuck hs
  simp only [lexemeAt, hskip, if_neg (Nat.not_le.mpr hlt), hext]
  split
  · rename_i m _ hm
    rw [hm] at hmatch
    cases hmatch
  · rw [unlexableEnd]
    split
    · rename_i hnext
      rw [Array.getElem?_eq_getElem hnext, Option.all_some] at hstop
      rw [if_pos hstop]
    · rfl

theorem tokensFrom_token {token : Token} (h : g.lexemeAt text g.allValid pos = .token token) :
    g.tokensFrom text pos = token :: g.tokensFrom text token.span.stop := by
  unfold allValid at h
  conv_lhs => rw [tokensFrom]
  split <;> simp_all

theorem tokensFrom_unlexable {span : Span} (h : g.lexemeAt text g.allValid pos = .unlexable span) :
    g.tokensFrom text pos = ⟨Symbol.error, span⟩ :: g.tokensFrom text span.stop := by
  unfold allValid at h
  conv_lhs => rw [tokensFrom]
  split <;> simp_all

theorem tokensFrom_endOfText (h : g.lexemeAt text g.allValid pos = .endOfText) :
    g.tokensFrom text pos = [] := by
  unfold allValid at h
  rw [tokensFrom]
  split <;> simp_all

/-- Going through a text lexeme by lexeme, with every external token valid. -/
theorem tokens_induction (g : Grammar) (text : Text) {motive : Nat → Prop}
    (token : ∀ pos token, g.lexemeAt text g.allValid pos = .token token →
      motive token.span.stop → motive pos)
    (unlexable : ∀ pos span, g.lexemeAt text g.allValid pos = .unlexable span →
      motive span.stop → motive pos)
    (endOfText : ∀ pos, g.lexemeAt text g.allValid pos = .endOfText → motive pos) (pos : Nat) :
    motive pos := by
  -- Every lexeme but the end has bytes, so fewer of them remain behind it.
  induction hm : text.size - pos using Nat.strongRecOn generalizing pos with
  | ind m ih =>
    cases hl : g.lexemeAt text g.allValid pos with
    | token t =>
      have := token_bounds hl
      exact token pos t hl (ih _ (by omega) t.span.stop rfl)
    | unlexable span =>
      have := unlexable_bounds hl
      exact unlexable pos span hl (ih _ (by omega) span.stop rfl)
    | endOfText => exact endOfText pos hl

end Grammar

end TableParsing
