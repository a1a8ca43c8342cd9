import TableParsing.Proofs.Clean
import TableParsing.Proofs.Pyret.Certificate
import TableParsing.Proofs.Pyret.Lexing

/-!
# Programs without errors

The way of the parser through a text without errors is the way of the automaton through its tokens,
so the parser finds no error in exactly the programs of the grammar.
-/
namespace TableParsing.Pyret

open PyretSymbol Job

abbrev job (options : ParseOptions) (text : Text) : Job := ⟨grammar, options, text⟩

variable {options : ParseOptions} {text : Text} {path : List StateId} {pos : Nat} {token : Token}
  {tokens : List Token} {s : Symbol}

/-! ## Comments -/

/-- The symbols of the tokens, comments dropped. -/
def withoutComments (tokens : List Token) : List Symbol :=
  (tokens.map (·.symbol)).filter fun s => s != lineComment && s != blockComment

theorem metadata?_eq (s : Symbol) : table.metadata? s = (ofSymbol? s).map metadata := by
  simp only [GrammarTable.metadata?, table, List.getElem?_toArray, List.getElem?_map, ofSymbol?]

theorem isExtra_eq (s : Symbol) :
    table.isExtra s = (s == lineComment || s == blockComment) := by
  rw [GrammarTable.isExtra, metadata?_eq]
  cases hs : ofSymbol? s with
  | some x =>
    obtain rfl := symbol_of_ofSymbol? hs
    cases x <;> decide
  | none =>
    have hne (x : PyretSymbol) : (s == x.symbol) = false := by
      rw [beq_eq_false_iff_ne]
      rintro rfl
      rw [ofSymbol?_symbol] at hs
      cases hs
    rw [hne, hne]
    rfl

theorem withoutComments_extra (h : table.isExtra token.symbol = true) :
    withoutComments (token :: tokens) = withoutComments tokens := by
  rw [isExtra_eq, Bool.or_eq_true, beq_iff_eq, beq_iff_eq] at h
  simp only [withoutComments, List.map_cons]
  rcases h with h | h <;> simp [h]

theorem withoutComments_other (h : table.isExtra token.symbol = false) :
    withoutComments (token :: tokens) = token.symbol :: withoutComments tokens := by
  rw [isExtra_eq, Bool.or_eq_false_iff] at h
  simp [withoutComments, bne, h]

theorem not_extra_of_external {i : Nat} (h : table.externalTokens[i]? = some s) :
    table.isExtra s = false := by
  have hall : ∀ s ∈ table.externalTokens, table.isExtra s = false := by decide
  exact hall s (List.mem_of_getElem? h)

/-! ## The two ways -/

theorem validOn_of_action {i : Nat} (hi : table.externalTokens[i]? = some s)
    (ha : ∃ act, table.actionOn? s path = some act) :
    ((job options text).validOn path)[i]? = some true := by
  obtain ⟨act, ha⟩ := ha
  rw [validOn, List.getElem?_map]
  change (table.externalTokens[i]?).map (fun s => (table.actionOn? s path).isSome) = some true
  rw [hi, Option.map_some, ha]
  rfl

/-- Whatever the parser reads without an error, the automaton recognizes. -/
theorem recognizes_of_accepts (h : (job options text).Accepts path pos tokens) :
    grammar.tokensFrom text pos = tokens ∧ (∀ t ∈ tokens, t.symbol ≠ Symbol.error) ∧
      table.Recognizes path (withoutComments tokens) := by
  induction h with
  | ended hl hs =>
    obtain ⟨k, _, hch, hset⟩ := GrammarTable.chain_of_simulate hs
    exact ⟨Grammar.tokensFrom_endOfText (Grammar.endOfText_congr hl _), List.forall_mem_nil _,
      GrammarTable.recognizes_iff.mpr ⟨k, _, hch, hset⟩⟩
  | @stopped _ last _ token hl hx hs =>
    obtain ⟨k, _, hch, hset⟩ := GrammarTable.chain_of_simulate hs
    have htoken : table.isToken token.symbol = true := language.isToken_of_lexemeAt hl
    cases last with
    | nil => cases hset.1
    | cons q last =>
      have hend := (accept_only_end hset.1).2
      rw [hend] at htoken
      cases htoken
  | extra hl hx _ ih =>
    obtain ⟨htokens, herr, hrec⟩ := ih
    refine ⟨?_, List.forall_mem_cons.mpr ⟨language.lexemeAt_ne_error hl, herr⟩, ?_⟩
    · rw [Grammar.tokensFrom_token (lexemeAt_allValid hl), htokens]
    · rw [withoutComments_extra hx]
      exact hrec
  | shifted hl hx hne hs _ ih =>
    obtain ⟨htokens, herr, hrec⟩ := ih
    obtain ⟨k, _, hch, hset⟩ := GrammarTable.chain_of_simulate hs
    refine ⟨?_, List.forall_mem_cons.mpr ⟨language.lexemeAt_ne_error hl, herr⟩, ?_⟩
    · rw [Grammar.tokensFrom_token (lexemeAt_allValid hl), htokens]
    · rw [withoutComments_other hx]
      exact GrammarTable.recognizes_iff.mpr ⟨k, _, hch, _, hset, hrec⟩

/-- The parser finds every way that the automaton finds, since nine reductions are enough. -/
theorem accepts_of_recognizes (hlimit : 9 ≤ options.reductionLimit)
    (herr : ∀ t ∈ grammar.tokensFrom text pos, t.symbol ≠ Symbol.error)
    (h : table.Recognizes path (withoutComments (grammar.tokensFrom text pos))) :
    (job options text).Accepts path pos (grammar.tokensFrom text pos) := by
  induction pos using Grammar.tokens_induction grammar text generalizing path with
  | token pos token hl ih =>
    rw [Grammar.tokensFrom_token hl] at herr h ⊢
    have herr := (List.forall_mem_cons.mp herr).2
    cases hx : table.isExtra token.symbol with
    | true =>
      have hlex : (job options text).lexemeOn path pos = .token token := by
        refine lexemeAt_of_allValid hl fun i hi => ?_
        rw [not_extra_of_external hi] at hx
        cases hx
      rw [withoutComments_extra hx] at h
      exact .extra hlex hx (ih herr h)
    | false =>
      rw [withoutComments_other hx] at h
      have hlex : (job options text).lexemeOn path pos = .token token :=
        lexemeAt_of_allValid hl fun i hi => validOn_of_action hi h.action
      obtain ⟨k, last, hch, next, hset, hrec⟩ := GrammarTable.recognizes_iff.mp h
      have hk := chain_le hch
      have hs : (job options text).settles? path token.symbol = some (.shift next, last) :=
        GrammarTable.simulate_chain hch hset (Nat.le_trans hk hlimit)
      have hne : token.symbol ≠ Symbol.endOfInput := by
        have htoken : table.isToken token.symbol = true := language.isToken_of_lexemeAt hl
        exact bne_iff_ne.mp (Bool.and_eq_true_iff.mp htoken).1
      exact .shifted hlex hx hne hs (ih herr hrec)
  | unlexable pos span hl ih =>
    rw [Grammar.tokensFrom_unlexable hl] at herr
    exact absurd rfl (herr _ List.mem_cons_self)
  | endOfText pos hl =>
    rw [Grammar.tokensFrom_endOfText hl] at h ⊢
    obtain ⟨k, last, hch, hset⟩ := GrammarTable.recognizes_iff.mp h
    have hk := chain_le hch
    exact .ended (Grammar.endOfText_congr hl _)
      (GrammarTable.simulate_chain hch hset (Nat.le_trans hk hlimit))

/-- A text parses without an error exactly when its tokens, comments dropped, are a program of the
grammar and none of them is an error. -/
theorem parse_hasError_iff (text : Text) : (language.parse text).hasError = false ↔
    (∀ token ∈ language.tokens text, token.symbol ≠ Symbol.error) ∧
      Phrase .sourceFile (withoutComments (language.tokens text)) := by
  have hstart (s : Symbol) : table.action? startState s ≠ some .accept :=
    fun h => (accept_only_end h).1 rfl
  have htokens : language.tokens text = grammar.tokensFrom text 0 := rfl
  rw [Language.parse, Parser.hasError_eq_false_iff ⟨language, {}⟩ text hstart,
    Parser.errors_eq_nil_iff, ← recognizes_iff, htokens]
  constructor
  · rintro ⟨tokens, h⟩
    obtain ⟨heq, herr, hrec⟩ := recognizes_of_accepts h
    rw [heq]
    exact ⟨herr, hrec⟩
  · rintro ⟨herr, hrec⟩
    exact ⟨_, accepts_of_recognizes (by decide) herr hrec⟩

end TableParsing.Pyret
