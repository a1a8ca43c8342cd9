import TableParsing.Proofs.DeadEnds
import TableParsing.Proofs.Lexemes
import TableParsing.Proofs.Tokens

/-!
# Tilings

The tokens of a text lie in it in order, with only separators between them. Where one can begin,
one does: an error is the longest run of bytes at which there is neither a separator nor a token,
whatever dead ends the search for its end has gathered and whatever the scanner answers.
-/
namespace TableParsing

namespace Grammar

variable {g : Grammar} {text : Text} {valid : List Bool} {pos stop i : Nat} {dead : DeadEnds}
  {span : Span} {token : Token} {tokens : List Token}

/-! ## Where tokens begin -/

/-- The automaton accepts a word that begins here. -/
def WordAt (g : Grammar) (text : Text) (pos : Nat) : Prop :=
  ∃ stop s, pos < stop ∧ stop ≤ text.size ∧ g.table.accepts? 0 (text.slice ⟨pos, stop⟩) = some s

/-- The scanner proposes an external token here that is valid and lies within the text. -/
def ProposedAt (g : Grammar) (text : Text) (valid : List Bool) (pos : Nat) : Prop :=
  ∃ scan proposal, g.scanner = some scan ∧ scan text pos valid = some proposal ∧
    0 < proposal.length ∧ pos + proposal.length ≤ text.size ∧
    valid[proposal.index]? = some true ∧ proposal.index < g.table.externalTokens.length

def TokenAt (g : Grammar) (text : Text) (valid : List Bool) (pos : Nat) : Prop :=
  g.WordAt text pos ∨ g.ProposedAt text valid pos

theorem scanExternal_isSome_iff :
    (g.scanExternal text pos valid).isSome = true ↔ g.ProposedAt text valid pos := by
  rw [Option.isSome_iff_exists]
  constructor
  · rintro ⟨token, h⟩
    unfold scanExternal at h
    split at h
    · obtain ⟨scan, hscan, h⟩ := Option.bind_eq_some_iff.mp h
      obtain ⟨proposal, hproposal, h⟩ := Option.bind_eq_some_iff.mp h
      split at h
      · rename_i hcounts
        obtain ⟨s, hs, _⟩ := Option.map_eq_some_iff.mp h
        exact ⟨scan, proposal, hscan, hproposal, Nat.pos_of_ne_zero hcounts.1, hcounts.2.1,
          hcounts.2.2, (List.getElem?_eq_some_iff.mp hs).1⟩
      · cases h
    · cases h
  · rintro ⟨scan, proposal, hscan, hproposal, hlength, hstop, hvalid, hindex⟩
    have hany : valid.any id = true := List.any_eq_true.mpr ⟨true, List.mem_of_getElem? hvalid, rfl⟩
    refine ⟨⟨g.table.externalTokens[proposal.index], pos, pos + proposal.length⟩, ?_⟩
    rw [scanExternal, if_pos hany, hscan, Option.bind_some, hproposal, Option.bind_some,
      if_pos ⟨Nat.ne_of_gt hlength, hstop, hvalid⟩, List.getElem?_eq_getElem hindex, Option.map_some]

theorem longestMatch_eq_none_iff (hdead : g.table.AllBarren text dead) :
    (g.table.longestMatch text pos dead).1 = none ↔ ¬g.WordAt text pos := by
  rw [GrammarTable.longestMatch_eq_none hdead]
  constructor
  · rintro h ⟨stop, s, hlt, hle, hs⟩
    rw [h stop hlt hle] at hs
    cases hs
  · intro h stop hlt hle
    rw [Option.eq_none_iff_forall_ne_some]
    exact fun s hs => h ⟨stop, s, hlt, hle, hs⟩

/-! ## Errors -/

/-- A run of bytes at which neither a separator nor a token begins, as long as can be. -/
structure ErrorRun (g : Grammar) (text : Text) (valid : List Bool) (span : Span) : Prop where
  separator : ∀ i, span.start ≤ i → i < span.stop → ¬g.SeparatorAt text i
  token : ∀ i, span.start ≤ i → i < span.stop → ¬g.TokenAt text valid i
  ends : span.stop = text.size ∨ g.SeparatorAt text span.stop ∨ g.TokenAt text valid span.stop

/-- One more byte in front of a run. -/
theorem ErrorRun.cons (hsep : ¬g.SeparatorAt text pos) (htoken : ¬g.TokenAt text valid pos)
    (h : g.ErrorRun text valid ⟨pos + 1, stop⟩) : g.ErrorRun text valid ⟨pos, stop⟩ := by
  refine ⟨fun i hi hlt => ?_, fun i hi hlt => ?_, h.ends⟩
  · rcases Nat.eq_or_lt_of_le hi with rfl | hi
    · exact hsep
    · exact h.separator i hi hlt
  · rcases Nat.eq_or_lt_of_le hi with rfl | hi
    · exact htoken
    · exact h.token i hi hlt

theorem errorRun_self (h : stop = text.size ∨ g.SeparatorAt text stop ∨ g.TokenAt text valid stop) :
    g.ErrorRun text valid ⟨stop, stop⟩ :=
  ⟨fun _ hi hlt => absurd hi (Nat.not_le.mpr hlt), fun _ hi hlt => absurd hi (Nat.not_le.mpr hlt), h⟩

/-- Behind one error no other follows at once. -/
theorem ErrorRun.stop_ne_start {next : Span} (h : g.ErrorRun text valid span)
    (hnext : g.ErrorRun text valid next) (hlt : next.start < next.stop)
    (hle : next.stop ≤ text.size) : span.stop ≠ next.start := by
  intro heq
  rcases h.ends with hend | hsep | htoken
  · omega
  · exact hnext.separator next.start (Nat.le_refl _) hlt (heq ▸ hsep)
  · exact hnext.token next.start (Nat.le_refl _) hlt (heq ▸ htoken)

/-- The dead ends that the run gathers change nothing: each of them has been searched. -/
theorem errorRun_unlexableEnd (hstart : g.table.accepts? 0 [] = none)
    (hdead : g.table.AllBarren text dead) (hpos : pos ≤ text.size) :
    g.ErrorRun text valid ⟨pos, g.unlexableEnd text valid pos dead⟩ := by
  fun_induction unlexableEnd g text valid pos dead with
  | case1 pos dead hlt hsep =>
    exact errorRun_self (.inr (.inl ⟨_, Array.getElem?_eq_getElem hlt, hsep⟩))
  | case2 pos dead hlt hsep m dead' hm =>
    refine errorRun_self (.inr (.inr (.inl ?_)))
    by_contra hword
    rw [← longestMatch_eq_none_iff hdead, hm] at hword
    cases hword
  | case3 pos dead hlt hsep dead' hm hext =>
    exact errorRun_self (.inr (.inr (.inr (scanExternal_isSome_iff.mp hext))))
  | case4 pos dead hlt hsep dead' hm hext ih =>
    have hbarren := hdead.search hstart pos
    rw [hm] at hbarren
    refine ErrorRun.cons ?_ ?_ (ih hbarren hlt)
    · rintro ⟨b, hb, hsep'⟩
      rw [Array.getElem?_eq_getElem hlt] at hb
      cases hb
      exact hsep hsep'
    · rintro (hword | hproposed)
      · exact (longestMatch_eq_none_iff hdead).mp (congrArg Prod.fst hm) hword
      · exact hext (scanExternal_isSome_iff.mpr hproposed)
  | case5 pos dead hlt => exact errorRun_self (.inl (by omega))

theorem errorRun_of_unlexable (hstart : g.table.accepts? 0 [] = none)
    (h : g.lexemeAt text valid pos = .unlexable span) : g.ErrorRun text valid span := by
  have hsep : ¬g.SeparatorAt text (g.skipSeparators text pos) := fun ⟨b, hb, hsep⟩ => by
    have hnone := g.not_separator_at_skip text pos
    rw [hb, Option.any_some, hsep] at hnone
    cases hnone
  have hempty := g.table.allBarren_empty text
  simp only [lexemeAt] at h
  split at h
  · cases h
  · rename_i hlt
    split at h
    · cases h
    · rename_i hext
      split at h <;> cases h
      rename_i dead hm
      have hbarren := hempty.search hstart (g.skipSeparators text pos)
      rw [hm] at hbarren
      refine ErrorRun.cons hsep ?_ (errorRun_unlexableEnd hstart hbarren (by omega))
      rintro (hword | hproposed)
      · exact (longestMatch_eq_none_iff hempty).mp (congrArg Prod.fst hm) hword
      · rw [← scanExternal_isSome_iff, hext] at hproposed
        cases hproposed

theorem tokenAt_of_token (h : g.lexemeAt text valid pos = .token token) :
    g.TokenAt text valid token.span.start := by
  rw [token_start h]
  simp only [lexemeAt] at h
  split at h
  · cases h
  · split at h
    · rename_i hext
      exact .inr (scanExternal_isSome_iff.mp (hext ▸ rfl))
    · split at h <;> cases h
      rename_i m _ hm
      refine .inl ?_
      by_contra hword
      rw [← longestMatch_eq_none_iff (g.table.allBarren_empty text), hm] at hword
      cases hword

/-! ## Token lists -/

/-- From `pos` on the tokens lie in order, none of them empty, with only separators outside of them.
The errors among them are as long as can be, and the others begin where a token can. -/
structure Tiles (g : Grammar) (text : Text) (pos : Nat) (tokens : List Token) : Prop where
  within : ∀ token ∈ tokens,
    pos ≤ token.span.start ∧ token.span.start < token.span.stop ∧ token.span.stop ≤ text.size
  ordered : tokens.Pairwise fun a b => a.span.stop ≤ b.span.start
  separated : ∀ i, pos ≤ i → i < text.size →
    (∀ token ∈ tokens, ¬(token.span.start ≤ i ∧ i < token.span.stop)) → g.SeparatorAt text i
  errors : ∀ token ∈ tokens, token.symbol = Symbol.error → g.ErrorRun text g.allValid token.span
  starts : ∀ token ∈ tokens, token.symbol ≠ Symbol.error →
    g.TokenAt text g.allValid token.span.start

theorem tiles_nil (h : g.lexemeAt text g.allValid pos = .endOfText) : g.Tiles text pos [] where
  within := by simp
  ordered := .nil
  separated i hi hlt _ := separatorAt_end h hi hlt
  errors := by simp
  starts := by simp

theorem Tiles.cons {lexeme : Lexeme} (hlexeme : g.lexemeAt text g.allValid pos = lexeme)
    (htoken : lexeme.token? = some token)
    (hbounds : pos ≤ token.span.start ∧ token.span.start < token.span.stop ∧
      token.span.stop ≤ text.size)
    (herror : token.symbol = Symbol.error → g.ErrorRun text g.allValid token.span)
    (hstarts : token.symbol ≠ Symbol.error → g.TokenAt text g.allValid token.span.start)
    (h : g.Tiles text token.span.stop tokens) : g.Tiles text pos (token :: tokens) where
  within := by
    refine List.forall_mem_cons.mpr ⟨hbounds, fun next hnext => ?_⟩
    have hw := h.within next hnext
    exact ⟨by omega, hw.2⟩
  ordered := List.pairwise_cons.mpr ⟨fun next hnext => (h.within next hnext).1, h.ordered⟩
  separated i hi hlt hout := by
    obtain ⟨hhere, hout⟩ := List.forall_mem_cons.mp hout
    by_cases hbefore : i < token.span.start
    · exact separatorAt_before hlexeme htoken hi hbefore
    · exact h.separated i (by omega) hlt hout
  errors := List.forall_mem_cons.mpr ⟨herror, h.errors⟩
  starts := List.forall_mem_cons.mpr ⟨hstarts, h.starts⟩

end Grammar

namespace Language

/-- The tokens of a text tile it, and two errors among them never stand side by side. -/
theorem tokens_tile (l : Language) (text : Text) :
    l.grammar.Tiles text 0 (l.tokens text) ∧
    ∀ a ∈ l.tokens text, ∀ b ∈ l.tokens text, a.symbol = Symbol.error →
      b.symbol = Symbol.error → a.span.stop ≠ b.span.start := by
  have hstart : l.grammar.table.accepts? 0 [] = none := GrammarTable.accept_start l.table_fault
  have htiles : l.grammar.Tiles text 0 (l.tokens text) := by
    unfold Language.tokens
    induction 0 using l.grammar.tokens_induction text with
    | token pos token h ih =>
      have hne := l.lexemeAt_ne_error h
      rw [Grammar.tokensFrom_token h]
      exact ih.cons h rfl (Grammar.token_bounds h) (fun he => absurd he hne)
        fun _ => Grammar.tokenAt_of_token h
    | unlexable pos span h ih =>
      rw [Grammar.tokensFrom_unlexable h]
      exact Grammar.Tiles.cons h rfl (Grammar.unlexable_bounds h)
        (fun _ => Grammar.errorRun_of_unlexable hstart h) (fun hne => absurd rfl hne) ih
    | endOfText pos h =>
      rw [Grammar.tokensFrom_endOfText h]
      exact Grammar.tiles_nil h
  refine ⟨htiles, fun a ha b hb hea heb => ?_⟩
  have hw := htiles.within b hb
  exact (htiles.errors a ha hea).stop_ne_start (htiles.errors b hb heb) hw.2.1 hw.2.2

end Language

end TableParsing
