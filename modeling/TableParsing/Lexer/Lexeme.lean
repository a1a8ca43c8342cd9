import TableParsing.Grammar
import TableParsing.Lexer.LongestMatch

/-!
# Lexemes

What stands at a position of the text: a token, a run of bytes in which no token begins, or the end.
The external scanner is asked first, then the automaton; a word that spells a keyword is that
keyword. Every lexeme but the end has at least one byte and lies within the text.
-/
namespace TableParsing

structure Token where
  symbol : Symbol
  span : Span
deriving DecidableEq, Inhabited

inductive Lexeme where
  | token (t : Token)
  | unlexable (span : Span)
  | endOfText
deriving DecidableEq

namespace Grammar

variable (g : Grammar) (text : Text)

def skipSeparators (pos : Nat) : Nat :=
  if h : pos < text.size then
    if g.table.isSeparator text[pos] then skipSeparators (pos + 1) else pos
  else pos

/-- A proposal counts if it is not empty, ends within the text and names a token that is valid. -/
def scanExternal (start : Nat) (valid : List Bool) : Option Token :=
  if valid.any id then
    g.scanner.bind fun scan => (scan text start valid).bind fun proposal =>
      if proposal.length ≠ 0 ∧ start + proposal.length ≤ text.size ∧
          valid[proposal.index]? = some true then
        g.table.externalTokens[proposal.index]?.map fun s =>
          ⟨s, start, start + proposal.length⟩
      else none
  else none

/-- The symbol of a lexeme that the automaton accepts for `s`. -/
def keywordOr (s : Symbol) (span : Span) : Symbol :=
  if g.table.wordToken = some s then (g.table.keyword? (text.slice span)).getD s else s

/-- First position from `stop` on that is the end, a separator, or the start of a token. -/
def unlexableEnd (valid : List Bool) (stop : Nat) (dead : DeadEnds) : Nat :=
  if h : stop < text.size then
    if g.table.isSeparator text[stop] then stop
    else
      match g.table.longestMatch text stop dead with
      | (some _, _) => stop
      | (none, dead) =>
        if (g.scanExternal text stop valid).isSome then stop
        else unlexableEnd valid (stop + 1) dead
  else stop
termination_by text.size - stop

/-- The lexeme at or after `pos`, separators skipped. -/
def lexemeAt (valid : List Bool) (pos : Nat) : Lexeme :=
  let start := g.skipSeparators text pos
  if text.size ≤ start then .endOfText
  else
    match g.scanExternal text start valid with
    | some token => .token token
    | none =>
      match g.table.longestMatch text start {} with
      | (some m, _) => .token ⟨g.keywordOr text m.symbol ⟨start, m.stop⟩, start, m.stop⟩
      | (none, dead) => .unlexable ⟨start, g.unlexableEnd text valid (start + 1) dead⟩

variable {g text}

theorem le_skipSeparators (pos : Nat) : pos ≤ g.skipSeparators text pos := by
  fun_induction skipSeparators g text pos with
  | case1 pos h hs ih => omega
  | case2 => omega
  | case3 => omega

/-- Behind the separators there is none. -/
theorem not_separator_at_skip (g : Grammar) (text : Text) (pos : Nat) :
    (text[g.skipSeparators text pos]?).any g.table.isSeparator = false := by
  fun_induction skipSeparators g text pos with
  | case1 pos hlt hsep ih => exact ih
  | case2 pos hlt hsep =>
    rw [Array.getElem?_eq_getElem hlt]
    simpa using hsep
  | case3 pos hge => rw [Array.getElem?_eq_none (Nat.le_of_not_lt hge), Option.any_none]

theorem scanExternal_span {start : Nat} {valid : List Bool} {token : Token}
    (h : g.scanExternal text start valid = some token) :
    token.span.start = start ∧ start < token.span.stop ∧ token.span.stop ≤ text.size := by
  unfold scanExternal at h
  split at h
  · simp only [Option.bind_eq_some_iff] at h
    obtain ⟨scan, _, proposal, _, h⟩ := h
    split at h
    · rename_i hp
      simp only [Option.map_eq_some_iff] at h
      obtain ⟨s, _, rfl⟩ := h
      refine ⟨rfl, ?_, hp.2.1⟩
      have := hp.1
      simp only; omega
    · cases h
  · cases h

theorem unlexableEnd_bounds {valid : List Bool} {stop : Nat} {dead : DeadEnds}
    (h : stop ≤ text.size) :
    stop ≤ g.unlexableEnd text valid stop dead ∧
      g.unlexableEnd text valid stop dead ≤ text.size := by
  fun_induction unlexableEnd g text valid stop dead with
  | case1 => omega
  | case2 => omega
  | case3 => omega
  | case4 stop dead hlt hsep dead' hm hx ih => have := ih (by omega); omega
  | case5 => omega

theorem token_bounds {valid : List Bool} {pos : Nat} {token : Token}
    (h : g.lexemeAt text valid pos = .token token) :
    pos ≤ token.span.start ∧ token.span.start < token.span.stop ∧
      token.span.stop ≤ text.size := by
  have hskip : pos ≤ g.skipSeparators text pos := le_skipSeparators pos
  unfold lexemeAt at h
  simp only at h
  split at h
  · cases h
  · rename_i hstart
    split at h
    · rename_i t ht
      cases h
      have := scanExternal_span ht
      omega
    · split at h
      · rename_i m dead hm
        cases h
        have := GrammarTable.longestMatch_stop (Nat.le_of_not_le hstart) (congrArg Prod.fst hm)
        simp only; omega
      · cases h

theorem unlexable_bounds {valid : List Bool} {pos : Nat} {span : Span}
    (h : g.lexemeAt text valid pos = .unlexable span) :
    pos ≤ span.start ∧ span.start < span.stop ∧ span.stop ≤ text.size := by
  have hskip : pos ≤ g.skipSeparators text pos := le_skipSeparators pos
  unfold lexemeAt at h
  simp only at h
  split at h
  · cases h
  · rename_i hstart
    split at h
    · cases h
    · split at h
      · cases h
      · rename_i dead hm
        cases h
        have hend : g.skipSeparators text pos + 1 ≤ g.unlexableEnd text valid _ dead ∧
            g.unlexableEnd text valid (g.skipSeparators text pos + 1) dead ≤ text.size :=
          unlexableEnd_bounds (by omega)
        simp only; omega

end Grammar

end TableParsing
