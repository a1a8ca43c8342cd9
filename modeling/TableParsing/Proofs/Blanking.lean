import TableParsing.Proofs.Coverage
import TableParsing.Proofs.Shadows

/-!
# Blanked texts

A text with spaces in place of its comments and unlexable bytes. Before every lexeme, and in place
of the noise, there are separators, so it reads as the text does, as long as its tokens are found
again.
-/
namespace TableParsing

/-! ## Spaces in place of bytes -/

/-- One of the spans has a byte at `i`. -/
def Covered (spans : List Span) (i : Nat) : Prop := ∃ s ∈ spans, s.start ≤ i ∧ i < s.stop

instance (spans : List Span) (i : Nat) : Decidable (Covered spans i) :=
  inferInstanceAs (Decidable (∃ s ∈ spans, s.start ≤ i ∧ i < s.stop))

/-- The text with a space for each byte of the spans. -/
def Text.blank (text : Text) (spans : List Span) : Text :=
  text.mapIdx fun i b => if Covered spans i then 0x20 else b

/-- The spans of the comments of a tree and of what was reported. -/
def SyntaxTree.noise (isComment : Symbol → Bool) (t : SyntaxTree) : List Span :=
  (t.walk.filter fun n => isComment n.symbol).map (·.span) ++ t.errors.map (·.span)

namespace Text

variable {text : Text} {spans : List Span} {i pos stop : Nat}

@[simp] theorem size_blank (text : Text) (spans : List Span) :
    (text.blank spans).size = text.size := Array.size_mapIdx

theorem getElem?_blank (text : Text) (spans : List Span) (i : Nat) :
    (text.blank spans)[i]? = text[i]?.map fun b => if Covered spans i then 0x20 else b :=
  Array.getElem?_mapIdx

theorem blank_of_covered (h : Covered spans i) (hi : i < text.size) :
    (text.blank spans)[i]? = some 0x20 := by
  rw [getElem?_blank, Array.getElem?_eq_getElem hi, Option.map_some, if_pos h]

theorem blank_of_not_covered (h : ¬ Covered spans i) : (text.blank spans)[i]? = text[i]? := by
  simp only [getElem?_blank, if_neg h, Option.map_id']

theorem blank_cases (text : Text) (spans : List Span) (i : Nat) :
    (text.blank spans)[i]? = text[i]? ∨ (text.blank spans)[i]? = some 0x20 := by
  by_cases hcov : Covered spans i
  · by_cases hi : i < text.size
    · exact .inr (blank_of_covered hcov hi)
    · left
      rw [getElem?_blank, Array.getElem?_eq_none (Nat.le_of_not_lt hi), Option.map_none]
  · exact .inl (blank_of_not_covered hcov)

end Text

namespace Grammar

variable {g : Grammar} {text : Text} {spans : List Span} {valid : List Bool} {i pos stop : Nat}

theorem skipSeparators_of_separators (hle : pos ≤ stop)
    (h : ∀ i, pos ≤ i → i < stop → g.SeparatorAt text i) :
    g.skipSeparators text pos = g.skipSeparators text stop := by
  induction stop, hle using Nat.le_induction with
  | base => rfl
  | succ stop hle ih =>
    obtain ⟨b, hb, hsep⟩ := h stop hle (Nat.lt_succ_self stop)
    rw [ih fun i h1 h2 => h i h1 (Nat.lt_succ_of_lt h2)]
    exact skipSeparators_next (by rw [hb]; exact hsep)

theorem SeparatorAt.blank (hspace : g.table.isSeparator 0x20 = true) (h : g.SeparatorAt text i) :
    g.SeparatorAt (text.blank spans) i := by
  obtain ⟨b, hb, hsep⟩ := h
  by_cases hcov : Covered spans i
  · exact ⟨0x20, Text.blank_of_covered hcov (Array.getElem?_eq_some_iff.mp hb).1, hspace⟩
  · exact ⟨b, (Text.blank_of_not_covered hcov).trans hb, hsep⟩

/-- Up to a lexeme that begins with a byte of the text the blanked text is skipped, too. -/
theorem skip_blank_of_same (hspace : g.table.isSeparator 0x20 = true) {token : Token}
    {lexeme : Lexeme} (h : g.lexemeAt text valid pos = lexeme) (ht : lexeme.token? = some token)
    (hstart : token.span.start = g.skipSeparators text pos)
    (hsame : ¬ Covered spans token.span.start) :
    g.skipSeparators (text.blank spans) pos = token.span.start := by
  have hle : pos ≤ token.span.start := hstart ▸ le_skipSeparators pos
  have hstop := g.not_separator_at_skip text pos
  rw [← hstart, ← Text.blank_of_not_covered hsame] at hstop
  rw [skipSeparators_of_separators hle fun i h1 h2 => (separatorAt_before h ht h1 h2).blank hspace,
    skipSeparators_stop hstop]

/-- A lexeme that is blanked separates. -/
theorem skip_blank_of_covered (hspace : g.table.isSeparator 0x20 = true) {token : Token}
    {lexeme : Lexeme} (h : g.lexemeAt text valid pos = lexeme) (ht : lexeme.token? = some token)
    (hstop : token.span.stop ≤ text.size) (hle : pos ≤ token.span.stop)
    (hcov : ∀ i, token.span.start ≤ i → i < token.span.stop → Covered spans i) :
    g.skipSeparators (text.blank spans) pos =
      g.skipSeparators (text.blank spans) token.span.stop := by
  apply skipSeparators_of_separators hle
  intro i h1 h2
  by_cases hi : i < token.span.start
  · exact (separatorAt_before h ht h1 hi).blank hspace
  · exact ⟨0x20, Text.blank_of_covered (hcov i (Nat.le_of_not_lt hi) h2) (by omega), hspace⟩

theorem endOfText_blank (hspace : g.table.isSeparator 0x20 = true)
    (h : g.lexemeAt text valid pos = .endOfText) :
    g.lexemeAt (text.blank spans) valid pos = .endOfText := by
  by_cases hle : pos ≤ text.size
  · refine lexemeAt_eq_endOfText.mpr ?_
    rw [skipSeparators_of_separators hle fun i h1 h2 => (separatorAt_end h h1 h2).blank hspace,
      Text.size_blank]
    exact le_skipSeparators _
  · exact lexemeAt_of_size_le (by rw [Text.size_blank]; omega)

theorem token?_bounds {token : Token} {lexeme : Lexeme} (h : g.lexemeAt text valid pos = lexeme)
    (ht : lexeme.token? = some token) : pos ≤ token.span.start ∧
      token.span.start < token.span.stop ∧ token.span.stop ≤ text.size := by
  cases lexeme with
  | token t =>
    cases ht
    exact token_bounds h
  | unlexable span =>
    cases ht
    exact unlexable_bounds h
  | endOfText => cases ht

end Grammar

theorem GrammarTable.isExtra_error {t : GrammarTable} (hf : t.fault? = none) :
    t.isExtra Symbol.error = false := by
  by_contra hx
  obtain ⟨m, hm, _⟩ := (Option.any_eq_true _ _).mp ((Bool.not_eq_false _).mp hx)
  exact ne_error_of_metadata hf hm rfl

/-! ## Noise of a parse -/

namespace Job

variable {job : Job} {r : Run} {seen : List Lexeme} {l : Language}

/-- Every lexeme of a record was found somewhere. -/
theorem Recorded.found (h : job.Recorded seen r) :
    ∀ lexeme ∈ seen, ∃ valid pos, job.grammar.lexemeAt job.text valid pos = lexeme := by
  induction h with
  | initial => exact List.forall_mem_nil _
  | @step seen r _ ih =>
    by_cases hp : r.phase = .scanning
    · obtain ⟨seen', r', hfound, hcases⟩ := recordScan_cases (P := fun seen _ =>
          ∀ lexeme ∈ seen, ∃ valid pos, job.grammar.lexemeAt job.text valid pos = lexeme)
        (fun _ _ _ hn h => List.forall_mem_cons.mpr ⟨⟨_, _, hn⟩, h⟩)
        (fun _ _ _ hn h => List.forall_mem_cons.mpr ⟨⟨_, _, hn⟩, h⟩) (r := r) ih
      simp only [recordStep, hp]
      obtain ⟨hn, hs⟩ | ⟨token, hn, hs⟩ := hcases
      all_goals
        rw [hs]
        exact List.forall_mem_cons.mpr ⟨⟨_, _, hn⟩, hfound⟩
    · rw [recordStep_fst hp]
      exact ih

/-- The spans of the unlexable runs in a record, newest first. -/
def runs (seen : List Lexeme) : List Span :=
  ((seen.filterMap Lexeme.token?).filter (·.symbol == Symbol.error)).map (·.span)

theorem runs_token {token : Token} (h : token.symbol ≠ Symbol.error) (seen : List Lexeme) :
    runs (.token token :: seen) = runs seen := by
  simp [runs, Lexeme.token?, h]

theorem runs_unlexable (span : Span) (seen : List Lexeme) :
    runs (.unlexable span :: seen) = span :: runs seen := by
  simp [runs, Lexeme.token?]

theorem runs_endOfText (seen : List Lexeme) : runs (.endOfText :: seen) = runs seen := rfl

/-- If nothing but unlexable runs is reported, they are reported in their order. -/
theorem Recorded.reports (hl : job.grammar = l.grammar) (h : job.Recorded seen r)
    (hlex : Lexical r.errors) : r.errors.map (·.span) = runs seen := by
  induction h with
  | initial => rfl
  | @step seen r h ih =>
    have hs := h.reachable.passes hlex
    have hr := ih (hlex.of_subset hs.errors_subset)
    by_cases hp : r.phase = .scanning
    · obtain ⟨seen', r', hr', hcases⟩ := recordScan_cases
        (P := fun seen r => r.errors.map (·.span) = runs seen)
        (fun seen r token hn h => by
          rw [runs_token (nextLexeme_ne_error hl hn)]
          exact h)
        (fun seen r span _ h => by
          rw [runs_unlexable, ← h]
          rfl) hr
      rw [← recordStep_snd job seen r]
      simp only [recordStep, hp]
      obtain ⟨_, hs⟩ | ⟨token, hn, hs⟩ := hcases
      · rw [hs, runs_endOfText]
        exact hr'
      · rw [hs, runs_token (nextLexeme_ne_error hl hn)]
        exact hr'
    · rw [recordStep_fst hp, ← hr]
      revert hs
      generalize job.step r = last
      intro hs
      cases hs with
      | scanned hq => exact absurd hq hp
      | shifted | reduced | ended => rfl

end Job

namespace Parser

open Node Job

variable {p : Parser} {text : Text} {i : Nat}

/-- The tokens that the lexer returned in the parse, unlexable runs among them. -/
def tokens (p : Parser) (text : Text) : List Token := (p.lexemes text).filterMap Lexeme.token?

theorem found_of_mem_tokens {token : Token} (h : token ∈ p.tokens text) : ∃ lexeme valid pos,
    lexeme ∈ p.lexemes text ∧ lexeme.token? = some token ∧
      p.language.grammar.lexemeAt text valid pos = lexeme := by
  obtain ⟨lexeme, hmem, ht⟩ := List.mem_filterMap.mp h
  obtain ⟨valid, pos, hn⟩ := (p.recorded_finish text).found lexeme (List.mem_reverse.mpr hmem)
  exact ⟨lexeme, valid, pos, hmem, ht, hn⟩

theorem map_span_errors (hlex : Lexical (p.parse text).errors) :
    (p.parse text).errors.map (·.span) =
      ((p.tokens text).filter (·.symbol == Symbol.error)).map (·.span) := by
  have hlex : Lexical (p.job text).finish.errors := fun e he => hlex e (List.mem_reverse.mpr he)
  have hr := (p.recorded_finish text).reports (l := p.language) rfl hlex
  change (p.job text).finish.errors.reverse.map (·.span) = _
  rw [List.map_reverse, hr, runs, List.filterMap_reverse, List.filter_reverse, List.map_reverse,
    List.reverse_reverse, tokens]

/-- Tokens of a tree without loss are the childless nodes that have bytes. -/
theorem Lossless.mem_tokens (h : p.Lossless text) {token : Token} : token ∈ p.tokens text ↔
    ∃ n ∈ (p.parse text).childless, n.span.start < n.span.stop ∧
      (⟨n.symbol, n.span⟩ : Token) = token := by
  rw [tokens, ← h.lexemes]
  simp only [List.mem_map, List.mem_filter, decide_eq_true_iff, and_assoc]

theorem Lossless.disjoint_tokens (h : p.Lossless text) {t t' : Token} (ht : t ∈ p.tokens text)
    (ht' : t' ∈ p.tokens text) (hne : t ≠ t') :
    t.span.stop ≤ t'.span.start ∨ t'.span.stop ≤ t.span.start := by
  have hpair : (p.tokens text).Pairwise fun a b => a.span.stop ≤ b.span.start := by
    rw [tokens, ← h.lexemes]
    exact List.pairwise_map.mpr (h.disjoint.filter _)
  obtain ⟨i, hi, rfl⟩ := List.getElem_of_mem ht
  obtain ⟨j, hj, rfl⟩ := List.getElem_of_mem ht'
  rcases Nat.lt_trichotomy i j with hlt | rfl | hlt
  · exact .inl (List.pairwise_iff_getElem.mp hpair i j hi hj hlt)
  · exact absurd rfl hne
  · exact .inr (List.pairwise_iff_getElem.mp hpair j i hj hi hlt)

theorem mem_walk_of_childless {n : Node} (h : n ∈ (p.parse text).childless) :
    n ∈ (p.parse text).walk :=
  List.mem_of_mem_tail (List.mem_of_mem_filter h)

/-- The parse reports nothing but unlexable bytes, and its root is no extra. -/
structure OnlyNoise (p : Parser) (text : Text) : Prop where
  quiet : p.language.table.Quiet
  root : p.language.table.isExtra (p.parse text).root.symbol = false
  lossless : p.Lossless text
  lexical : Lexical (p.parse text).errors

/-- The text of the parse without its noise. -/
def blanked (p : Parser) (text : Text) : Text :=
  text.blank ((p.parse text).noise p.language.table.isExtra)

namespace OnlyNoise

variable (h : p.OnlyNoise text)
include h

/-- Extras are tokens, so they have no children. -/
theorem childless_of_extra {n : Node} (hn : n ∈ (p.parse text).walk)
    (hx : p.language.table.isExtra n.symbol = true) : n ∈ (p.parse text).childless := by
  rw [SyntaxTree.childless, SyntaxTree.walk, walk_eq, List.tail_cons, List.mem_filter]
  rw [SyntaxTree.walk, walk_eq] at hn
  rcases List.mem_cons.mp hn with rfl | hn
  · exact absurd (h.root.symm.trans hx) (by decide)
  refine ⟨hn, List.isEmpty_iff.mpr ?_⟩
  obtain ⟨m, hm, hheld⟩ := exists_holds_of_mem_walkPending hn
  cases (builds_of_mem_root (l := p.language) rfl (p.job text).finish_reachable hm).of_holds
      hheld with
  | token _ hc => exact hc
  | error he =>
    rw [beq_iff_eq.mp he, GrammarTable.isExtra_error p.language.table_fault] at hx
    cases hx
  | parent hprod hs =>
    have hlhs := h.quiet.lhs _ (Array.mem_of_getElem? hprod)
    rw [← hs, GrammarTable.isNoise, Bool.or_eq_false_iff] at hlhs
    exact absurd (hlhs.2.symm.trans hx) (by decide)

/-- What is blanked are the bytes of the tokens that are noise. -/
theorem covered_iff : Covered ((p.parse text).noise p.language.table.isExtra) i ↔
    ∃ t ∈ p.tokens text, p.language.table.isNoise t.symbol = true ∧
      t.span.start ≤ i ∧ i < t.span.stop := by
  constructor
  · rintro ⟨s, hs, h1, h2⟩
    rcases List.mem_append.mp hs with hs | hs
    · obtain ⟨n, hn, rfl⟩ := List.mem_map.mp hs
      obtain ⟨hn, hx⟩ := List.mem_filter.mp hn
      have ht := h.lossless.mem_tokens.mpr
        ⟨n, h.childless_of_extra hn hx, Nat.lt_of_le_of_lt h1 h2, rfl⟩
      exact ⟨_, ht, by rw [GrammarTable.isNoise, hx, Bool.or_true], h1, h2⟩
    · rw [map_span_errors h.lexical] at hs
      obtain ⟨t, ht, rfl⟩ := List.mem_map.mp hs
      obtain ⟨ht, he⟩ := List.mem_filter.mp ht
      exact ⟨t, ht, by rw [GrammarTable.isNoise, he, Bool.true_or], h1, h2⟩
  · rintro ⟨t, ht, hx, h1, h2⟩
    refine ⟨t.span, List.mem_append.mpr ?_, h1, h2⟩
    rcases Bool.or_eq_true_iff.mp hx with he | hx
    · right
      rw [map_span_errors h.lexical]
      exact List.mem_map_of_mem (List.mem_filter.mpr ⟨ht, he⟩)
    · obtain ⟨n, hn, _, rfl⟩ := h.lossless.mem_tokens.mp ht
      exact .inl (List.mem_map_of_mem (List.mem_filter.mpr ⟨mem_walk_of_childless hn, hx⟩))

theorem not_covered {token : Token} (ht : token ∈ p.tokens text)
    (hx : p.language.table.isNoise token.symbol = false) (h1 : token.span.start ≤ i)
    (h2 : i < token.span.stop) : ¬ Covered ((p.parse text).noise p.language.table.isExtra) i := by
  intro hcov
  obtain ⟨t, hmem, hnoise, hlo, hhi⟩ := h.covered_iff.mp hcov
  have hne : t ≠ token := by
    rintro rfl
    exact absurd (hx.symm.trans hnoise) (by decide)
  rcases h.lossless.disjoint_tokens hmem ht hne with hd | hd <;> omega

/-- The blanked text reads as the text does, if all other tokens are found again. -/
theorem rereads (hspace : p.language.table.isSeparator 0x20 = true)
    (hagain : ∀ valid pos, ∀ token ∈ p.tokens text,
      p.language.grammar.lexemeAt text valid pos = .token token →
      p.language.table.isNoise token.symbol = false →
      p.language.grammar.skipSeparators (p.blanked text) pos = token.span.start →
      p.language.grammar.lexemeAt (p.blanked text) valid pos = .token token) :
    p.language.grammar.Rereads text (p.blanked text) (p.lexemes text) where
  size := Text.size_blank _ _
  noise valid pos lexeme token hn hmem ht hx := by
    have hb := Grammar.token?_bounds hn ht
    have htokens : token ∈ p.tokens text := List.mem_filterMap.mpr ⟨lexeme, hmem, ht⟩
    refine Grammar.skip_blank_of_covered hspace hn ht hb.2.2 (by omega) fun i h1 h2 => ?_
    exact h.covered_iff.mpr ⟨token, htokens, hx, h1, h2⟩
  token valid pos token hn hmem hx := by
    have htokens : token ∈ p.tokens text := List.mem_filterMap.mpr ⟨_, hmem, rfl⟩
    have hsame := h.not_covered htokens hx (Nat.le_refl _) (Grammar.token_bounds hn).2.1
    exact hagain valid pos token htokens hn hx
      (Grammar.skip_blank_of_same hspace hn rfl (Grammar.token_start hn) hsame)
  endOfText valid pos hn := Grammar.endOfText_blank hspace hn

end OnlyNoise

end Parser

end TableParsing
