import TableParsing.Proofs.Blanking
import TableParsing.Proofs.Pyret.Programs
import TableParsing.Proofs.Pyret.TokenGrammar
import TableParsing.Proofs.Pyret.Trees

/-!
# Pyret without comments

Comments and unlexable bytes can be replaced by spaces: the tree loses their nodes and nothing else.
A blank ends every token that may stand before it, and behind a comment a parenthesis applies
nothing, just as behind a space.
-/
namespace TableParsing.Pyret

open PyretSymbol

section

variable {text text' : Text} {b : UInt8} {word : Bytes} {s : Symbol} {id : LexStateId}
  {valid : List Bool} {pos start stop : Nat} {token : Token} {m : Match}

def isComment (s : Symbol) : Bool := s == PyretSymbol.lineComment || s == PyretSymbol.blockComment

theorem isExtra_table : table.isExtra = isComment := funext isExtra_eq

theorem table_quiet : table.Quiet := by
  constructor
  · decide
  · decide
  · decide

/-! ## Modes without blanks -/

/-- What completes a token in these modes has no blanks. -/
def LexMode.isTight : LexMode → Bool
  | .start | .doubleQuoted | .doubleQuotedEscape | .singleQuoted | .singleQuotedEscape => false
  | .hash | .lineComment | .blockFirstLine | .blockFirstLineBar => false
  | .block | .blockBar | .blockDone => false
  | _ => true

theorem tight_of_accept {mode : LexMode} (h : mode.state.accept = some s)
    (hs : isComment s = false) : mode.isTight = true := by
  cases mode <;> cases h <;> first | rfl | exact absurd hs (by decide)

theorem next?_tight {mode : LexMode} (hm : mode.isTight = true)
    (h : mode.state.next? b = some id) :
    b ≠ 0x20 ∧ ∃ next : LexMode, next.isTight = true ∧ id = next.id := by
  have hall : ∀ m ∈ LexMode.all, m.isTight = true → ∀ t ∈ m.state.transitions,
      t.1.contains 0x20 = false ∧ ∃ next ∈ LexMode.all, next.isTight = true ∧ t.2 = next.id := by
    decide
  obtain ⟨t, ht, rfl⟩ := Option.map_eq_some_iff.mp h
  obtain ⟨hblank, next, _, hnext, heq⟩ := hall mode (LexMode.mem_all mode) hm t
    (List.mem_of_find?_eq_some ht)
  refine ⟨?_, next, hnext, heq⟩
  rintro rfl
  have hcontains := List.find?_some ht
  exact absurd (hblank.symm.trans hcontains) (by decide)

theorem no_blank_of_accepts {mode : LexMode} (hm : mode.isTight = true)
    (h : table.accepts? mode.id word = some s) : 0x20 ∉ word := by
  induction word generalizing mode with
  | nil => exact List.not_mem_nil
  | cons b word ih =>
    rw [GrammarTable.accepts?_cons, lexState?_id, Option.bind_some, Option.bind_eq_some_iff] at h
    obtain ⟨id, hid, h⟩ := h
    obtain ⟨hb, next, hnext, rfl⟩ := next?_tight hm hid
    exact List.not_mem_cons_of_ne_of_not_mem hb.symm (ih hnext h)

theorem stateAfter?_mode (mode : LexMode) (h : table.stateAfter? mode.id word = some id) :
    ∃ last : LexMode, id = last.id := by
  induction word generalizing mode with
  | nil => exact ⟨mode, (Option.some.inj h).symm⟩
  | cons b word ih =>
    rw [GrammarTable.stateAfter?, lexState?_id, Option.bind_some, Option.bind_eq_some_iff] at h
    obtain ⟨id, hid, h⟩ := h
    obtain ⟨next, rfl⟩ := next?_mode mode hid
    exact ih next h

/-- The mode in which an accepted word ends. -/
theorem exists_mode_of_accepts (h : table.accepts? 0 word = some s) : ∃ mode : LexMode,
    table.stateAfter? 0 word = some mode.id ∧ mode.state.accept = some s := by
  obtain ⟨last, hlast, h⟩ := Option.bind_eq_some_iff.mp h
  obtain ⟨mode, rfl⟩ := stateAfter?_mode .start hlast
  rw [lexState?_id, Option.bind_some] at h
  exact ⟨mode, hlast, h⟩

/-! ## Longest matches -/

/-- A longest match stays one when blanks are put behind it, unless it is a comment. -/
theorem longest_of_blanks (hsize : text'.size = text.size)
    (hblank : ∀ i : Nat, text'[i]? = text[i]? ∨ text'[i]? = some 0x20)
    (hsame : ∀ i : Nat, start ≤ i → i < m.stop → text'[i]? = text[i]?)
    (hs : isComment m.symbol = false) (h : table.LongestFrom text start start 0 m) :
    table.LongestFrom text' start start 0 m := by
  have hslice := Text.slice_congr hsame
  refine ⟨h.start_lt, h.le_stop, hsize ▸ h.stop_le, hslice ▸ h.accepted, fun stop hlt hle => ?_⟩
  by_cases hall : ∀ i : Nat, start ≤ i → i < stop → text'[i]? = text[i]?
  · rw [Text.slice_congr hall]
    exact h.longest stop hlt (hsize ▸ hle)
  · -- Behind the match there is a blank, which no word reads over.
    simp only [not_forall] at hall
    obtain ⟨i, h1, h2, hne⟩ := hall
    have hi : m.stop ≤ i := by
      by_contra hlt
      exact hne (hsame i h1 (by omega))
    have hmem := Text.mem_slice hi h2 ((hblank i).resolve_left hne)
    obtain ⟨mode, hlast, haccept⟩ := exists_mode_of_accepts h.accepted
    rw [Text.slice_append h.le_stop (Nat.le_of_lt hlt), hslice, GrammarTable.accepts?_append, hlast,
      Option.bind_some]
    cases hrest : table.accepts? mode.id (text'.slice ⟨m.stop, stop⟩) with
    | none => rfl
    | some x => exact absurd hmem (no_blank_of_accepts (tight_of_accept haccept hs) hrest)

theorem isComment_keywordOr (text : Text) (s : Symbol) (span : Span) :
    isComment (grammar.keywordOr text s span) = isComment s := by
  unfold Grammar.keywordOr
  split
  · rename_i hword
    obtain rfl : PyretSymbol.name.symbol = s := Option.some.inj hword
    cases hk : grammar.table.keyword? (text.slice span) with
    | none => rfl
    | some x =>
      have hall : ∀ entry ∈ table.keywords, isComment entry.2 = false := by decide
      obtain ⟨entry, he, rfl⟩ := Option.map_eq_some_iff.mp hk
      exact hall entry (List.mem_of_find?_eq_some he)
  · rfl

/-- Apart from parentheses tokens are longest matches. -/
theorem lexemeAt_longest (h : text[grammar.skipSeparators text pos]? ≠ some 0x28) :
    grammar.lexemeAt text valid pos = .token token ↔
      ∃ m, table.LongestFrom text (grammar.skipSeparators text pos)
          (grammar.skipSeparators text pos) 0 m ∧
        token = ⟨grammar.keywordOr text m.symbol ⟨grammar.skipSeparators text pos, m.stop⟩,
          grammar.skipSeparators text pos, m.stop⟩ := by
  simp only [Grammar.lexemeAt, scanExternal_other h]
  by_cases hend : text.size ≤ grammar.skipSeparators text pos
  · rw [if_pos hend]
    constructor
    · intro h
      cases h
    · rintro ⟨m, hm, _⟩
      have := hm.start_lt
      have := hm.stop_le
      omega
  · have hlong (m : Match) :
        (table.longestMatch text (grammar.skipSeparators text pos) {}).1 = some m ↔
          table.LongestFrom text (grammar.skipSeparators text pos)
            (grammar.skipSeparators text pos) 0 m :=
      GrammarTable.longestMatch_eq_some (table.allBarren_empty text)
    rw [if_neg hend]
    simp only [← hlong]
    have htable : grammar.table = table := rfl
    rw [htable]
    split
    · rename_i m _ hm
      simp [hm, eq_comm]
    · rename_i hm
      simp [hm]

/-! ## Behind comments -/

/-- A line comment reads on up to a newline. -/
theorem newline_behind_lineComment (hm : m.symbol = PyretSymbol.lineComment)
    (h : table.LongestFrom text start start 0 m) (hb : text[m.stop]? = some b) : b = 0x0A := by
  by_contra hne
  have hall : ∀ mode ∈ LexMode.all, mode.state.accept = some PyretSymbol.lineComment.symbol →
      ∀ n < 256, n ≠ 10 →
        ∃ next ∈ [LexMode.lineComment, .blockFirstLine, .blockFirstLineBar, .blockDone],
          mode.state.next? (UInt8.ofNat n) = some next.id ∧ next.state.accept.isSome = true := by
    decide +kernel
  obtain ⟨mode, hlast, haccept⟩ := exists_mode_of_accepts h.accepted
  have hn : b.toNat ≠ 10 := fun heq => hne (UInt8.toNat_inj.mp heq)
  obtain ⟨next, _, hnext, hagain⟩ :=
    hall mode (LexMode.mem_all mode) (hm ▸ haccept) b.toNat b.toNat_lt hn
  have hlonger := h.longest (m.stop + 1) (Nat.lt_succ_self _) (Array.getElem?_eq_some_iff.mp hb).1
  rw [UInt8.ofNat_toNat] at hnext
  rw [Text.slice_succ h.le_stop hb, GrammarTable.accepts?_append, hlast, Option.bind_some,
    GrammarTable.accepts?_cons, lexState?_id, Option.bind_some, hnext, Option.bind_some,
    GrammarTable.accepts?_nil, lexState?_id, Option.bind_some] at hlonger
  rw [hlonger] at hagain
  cases hagain

theorem commentEnd_suffix_of_commentBlock (h : word ∈ commentBlock) : commentEnd <:+ word := by
  obtain ⟨_, _, _, ⟨_, _, rest, hrest, rfl⟩, rfl⟩ := h
  exact (hrest.1.trans (List.suffix_append _ _)).trans (List.suffix_append _ _)

/-- A block comment ends with `#`. -/
theorem blockComment_last (hm : m.symbol = PyretSymbol.blockComment)
    (h : table.LongestFrom text start start 0 m) : text[m.stop - 1]? = some 0x23 := by
  have hword : text.slice ⟨start, m.stop⟩ ∈ wordsOf .blockComment :=
    (accepts?_mode .start _ _).mp (hm ▸ h.accepted)
  have hlt := h.start_lt
  have hle := h.stop_le
  obtain ⟨stop, hstop⟩ : ∃ stop, m.stop = stop + 1 := ⟨m.stop - 1, by omega⟩
  have hb : text[stop]? = some text[stop] := Array.getElem?_eq_getElem _
  rw [hstop, Text.slice_succ (by omega) hb] at hword
  obtain ⟨front, hfront⟩ := commentEnd_suffix_of_commentBlock hword
  have hlast : text[stop] = '#'.toUInt8 := by
    simpa [commentEnd] using (congrArg List.getLast? hfront).symm
  rw [hstop, Nat.add_sub_cancel, hb, hlast]
  rfl

/-- Before a parenthesis there is no comment that ends with an expression. -/
theorem not_endsExpression_behind_comment (h : grammar.lexemeAt text valid pos = .token token)
    (hs : isComment token.symbol = true) (hp : text[token.span.stop]? = some 0x28) :
    (text[token.span.stop - 1]?).any endsExpression = false := by
  have hstart : text[grammar.skipSeparators text pos]? ≠ some 0x28 := by
    intro hparen
    obtain ⟨_, rfl⟩ := (lexemeAt_paren hparen).mp h
    have hextra := not_extra_of_external (external_paren text (grammar.skipSeparators text pos))
    rw [isExtra_table] at hextra
    exact absurd (hextra.symm.trans hs) (by decide)
  obtain ⟨m, hm, rfl⟩ := (lexemeAt_longest hstart).mp h
  rw [isComment_keywordOr, isComment, Bool.or_eq_true, beq_iff_eq, beq_iff_eq] at hs
  rcases hs with hs | hs
  · exact absurd (newline_behind_lineComment hs hm hp) (by decide)
  · rw [blockComment_last hs hm]
    rfl

/-! ## Tokens between blanks -/

/-- A token that is no comment is found again between blanks, if a parenthesis means the same. -/
theorem lexemeAt_of_blanks (hsize : text'.size = text.size)
    (hblank : ∀ i : Nat, text'[i]? = text[i]? ∨ text'[i]? = some 0x20)
    (hsame : ∀ i : Nat, token.span.start ≤ i → i < token.span.stop → text'[i]? = text[i]?)
    (hs : isComment token.symbol = false)
    (hskip : grammar.skipSeparators text' pos = token.span.start)
    (hparen : text[token.span.start]? = some 0x28 →
      parenIndex text' token.span.start = parenIndex text token.span.start)
    (h : grammar.lexemeAt text valid pos = .token token) :
    grammar.lexemeAt text' valid pos = .token token := by
  have hstart := Grammar.token_start h
  have hfirst := hsame _ (Nat.le_refl _) (Grammar.token_bounds h).2.1
  by_cases hp : text[token.span.start]? = some 0x28
  · have htoken : parenToken text' token.span.start = parenToken text token.span.start := by
      rw [parenToken, hparen hp, parenToken]
    obtain ⟨hv, heq⟩ := (lexemeAt_paren (hstart ▸ hp)).mp h
    rw [← hstart] at hv heq
    refine (lexemeAt_paren (by rw [hskip, hfirst, hp])).mpr ?_
    rw [hskip, hparen hp, htoken]
    exact ⟨hv, heq⟩
  · obtain ⟨m, hm, heq⟩ := (lexemeAt_longest (hstart ▸ hp)).mp h
    rw [← hstart] at hm heq
    have hstop : token.span.stop = m.stop := congrArg (·.span.stop) heq
    rw [hstop] at hsame
    have hcomment : isComment m.symbol = false := by
      rw [heq, isComment_keywordOr] at hs
      exact hs
    have hkeyword (s : Symbol) : grammar.keywordOr text' s ⟨token.span.start, m.stop⟩ =
        grammar.keywordOr text s ⟨token.span.start, m.stop⟩ := by
      rw [Grammar.keywordOr, Grammar.keywordOr, Text.slice_congr hsame]
    refine (lexemeAt_longest (by rw [hskip, hfirst]; exact hp)).mpr ⟨m, ?_, ?_⟩
    · rw [hskip]
      exact longest_of_blanks hsize hblank hsame hcomment hm
    · rw [hskip, hkeyword]
      exact heq

/-! ## The parse without noise -/

theorem table_isNoise (s : Symbol) : table.isNoise s = (s == Symbol.error || isComment s) := by
  rw [GrammarTable.isNoise, isExtra_table]

variable {options : ParseOptions}

theorem onlyNoise (hlex : Lexical (Parser.parse ⟨language, options⟩ text).errors) :
    Parser.OnlyNoise ⟨language, options⟩ text := by
  have hroot (s : Symbol) (h : s = Symbol.error ∨ s = sourceFile.symbol) :
      table.isExtra s = false ∧ table.isTerminal s = false := by
    rcases h with rfl | rfl <;> decide
  obtain ⟨hextra, hterminal⟩ := hroot _ (root_symbol options text)
  have haccept : table.AcceptsOnlyEnd := by decide
  exact ⟨table_quiet, hextra, Parser.lossless _ text haccept hterminal, hlex⟩

/-- Before a parenthesis there is no noise that ends with an expression. -/
theorem not_endsExpression_behind_noise (h : Parser.OnlyNoise ⟨language, options⟩ text)
    (hparen : ∀ e ∈ (Parser.parse ⟨language, options⟩ text).errors, text[e.span.stop]? ≠ some 0x28)
    (ht : token ∈ Parser.tokens ⟨language, options⟩ text)
    (hx : table.isNoise token.symbol = true) (hp : text[token.span.stop]? = some 0x28) :
    (text[token.span.stop - 1]?).any endsExpression = false := by
  rw [table_isNoise, Bool.or_eq_true] at hx
  obtain ⟨lexeme, valid, pos, _, hfound, hn⟩ := Parser.found_of_mem_tokens ht
  cases lexeme with
  | token t =>
    cases hfound
    have hne : token.symbol ≠ Symbol.error := language.lexemeAt_ne_error hn
    exact not_endsExpression_behind_comment hn (hx.resolve_left (by simpa using hne)) hp
  | unlexable span =>
    cases hfound
    have hmem : span ∈ (Parser.parse ⟨language, options⟩ text).errors.map (·.span) := by
      rw [Parser.map_span_errors h.lexical]
      exact List.mem_map_of_mem (List.mem_filter.mpr ⟨ht, rfl⟩)
    obtain ⟨e, he, rfl⟩ := List.mem_map.mp hmem
    exact absurd hp (hparen e he)
  | endOfText => cases hfound

/-- Behind noise a parenthesis stands as it does behind a blank. -/
theorem parenIndex_blanked (h : Parser.OnlyNoise ⟨language, options⟩ text)
    (hparen : ∀ e ∈ (Parser.parse ⟨language, options⟩ text).errors, text[e.span.stop]? ≠ some 0x28)
    (ht : token ∈ Parser.tokens ⟨language, options⟩ text)
    (hx : table.isNoise token.symbol = false) (hp : text[token.span.start]? = some 0x28)
    (hlt : token.span.start < token.span.stop) :
    parenIndex (Parser.blanked ⟨language, options⟩ text) token.span.start =
      parenIndex text token.span.start := by
  by_cases hzero : token.span.start = 0
  · simp [parenIndex, hzero]
  have hbyte :
      ((Parser.blanked ⟨language, options⟩ text)[token.span.start - 1]?).any endsExpression =
        (text[token.span.start - 1]?).any endsExpression := by
    by_cases hcov : Covered ((Parser.parse ⟨language, options⟩ text).noise table.isExtra)
        (token.span.start - 1)
    · -- The noise that covers the byte ends right before the parenthesis.
      obtain ⟨t, hmem, hnoise, hlo, hhi⟩ := h.covered_iff.mp hcov
      have hne : t ≠ token := by
        rintro rfl
        exact absurd (hx.symm.trans hnoise) (by decide)
      have hstop : t.span.stop = token.span.start := by
        rcases h.lossless.disjoint_tokens hmem ht hne with hd | hd <;> omega
      have hsize := (Array.getElem?_eq_some_iff.mp hp).1
      have hblank := Text.blank_of_covered hcov (Nat.lt_of_le_of_lt (Nat.sub_le _ 1) hsize)
      have hbefore := not_endsExpression_behind_noise h hparen hmem hnoise (hstop ▸ hp)
      rw [hstop] at hbefore
      rw [hbefore, Parser.blanked]
      exact hblank ▸ rfl
    · exact congrArg _ (Text.blank_of_not_covered hcov)
  rw [parenIndex, parenIndex, hbyte]

end

/-! ## A numeral and noise

The text `1@ #` is a numeral, a byte in which no token begins, and a comment without words.
-/

namespace Noisy

def text : Text := #[0x31, 0x40, 0x20, 0x23]

abbrev job : Job := Parser.job ⟨language, {}⟩ text

def junk : Node := { Node.error ⟨1, 2⟩ [] with extra := true }

def comment : Node := { Node.leaf PyretSymbol.lineComment ⟨3, 4⟩ true with extra := true }

def numeral : Node :=
  Node.branch block ⟨0, 1⟩ true [Node.branch primExpr ⟨0, 1⟩ true
    [Node.branch numExpr ⟨0, 1⟩ true [Node.leaf number ⟨0, 1⟩ true]]]

/-- The run that has shifted the numeral. -/
def counted : Run :=
  { Run.initial with
    lookahead := ⟨number, 0, 1⟩
    stack := [⟨19, Node.leaf number ⟨0, 1⟩ true⟩]
    position := 1
    lastEnd := 1 }

/-- The run that has passed over the noise and accepted. -/
def accepted : Run :=
  { counted with
    lookahead := ⟨Symbol.endOfInput, Span.empty 4⟩
    stack := [⟨1, comment⟩, ⟨1, junk⟩, ⟨1, Node.branch sourceFile ⟨0, 1⟩ true [numeral]⟩]
    phase := .accepting
    position := 4
    lastEnd := 4
    errors := [.unrecognized [0x40] ⟨1, 2⟩] }

theorem iterate_initial : job.step^[2] Run.initial = counted := by
  have hskip : grammar.skipSeparators text 0 = 0 := Grammar.skipSeparators_stop rfl
  have hn : job.nextLexeme Run.initial = .token ⟨number, 0, 1⟩ := by
    change grammar.lexemeAt text [false, true] 0 = _
    exact Grammar.lexemeAt_single (s := number) hskip (scanExternal_other (by decide)) rfl rfl rfl
  rw [Function.iterate_succ_apply, Job.step_of_scanning rfl, Job.scan_of_token hn rfl]
  rfl

theorem iterate_counted : job.step^[9] counted = accepted := by
  have hjunk : job.nextLexeme counted = .unlexable ⟨1, 2⟩ :=
    Grammar.lexemeAt_stuck (by decide) (Grammar.skipSeparators_stop rfl)
      (scanExternal_other (by decide)) rfl rfl
  have hcomment : job.nextLexeme ((counted.report (.unrecognized (job.text.slice ⟨1, 2⟩)
      ⟨1, 2⟩)).pushExtra (Node.error ⟨1, 2⟩ [])) = .token ⟨PyretSymbol.lineComment, 3, 4⟩ :=
    Grammar.lexemeAt_single (s := PyretSymbol.lineComment)
      ((Grammar.skipSeparators_next rfl).trans (Grammar.skipSeparators_stop rfl))
      (scanExternal_other (by decide)) rfl rfl rfl
  have hend (r : Run) (hr : r.position = 4) : job.nextLexeme r = .endOfText :=
    Grammar.lexemeAt_of_size_le (Nat.le_of_eq hr.symm)
  rw [Function.iterate_succ_apply, Job.step_of_scanning rfl, Job.scan_of_unlexable hjunk,
    Job.scan_of_extra hcomment rfl, Job.scan_of_endOfText (hend _ rfl)]
  rfl

theorem parse_eq : Parser.parse ⟨language, {}⟩ text =
    ⟨Node.branch sourceFile ⟨0, 4⟩ true [numeral, junk, comment], text, language,
      [.unrecognized [0x40] ⟨1, 2⟩]⟩ := by
  have hrun : job.step^[9 + 2] Run.initial = accepted := by
    rw [Function.iterate_add_apply, iterate_initial, iterate_counted]
  exact Parser.parse_of_iterate hrun rfl

theorem blank_noise :
    text.blank ((Parser.parse ⟨language, {}⟩ text).noise isComment) =
      #[0x31, 0x20, 0x20, 0x20] := by
  have hnoise : (Parser.parse ⟨language, {}⟩ text).noise isComment = [⟨3, 4⟩, ⟨1, 2⟩] := by
    rw [parse_eq, SyntaxTree.noise, SyntaxTree.walk, Node.walk_eq]
    simp only [Node.branch, Node.leaf, Node.error, numeral, junk, comment, Node.walkPending,
      List.cons_append, List.nil_append]
    rfl
  rw [hnoise]
  decide

end Noisy

/-- If nothing but unlexable bytes is reported, and no parenthesis follows right behind them, then
with a space for every byte of the comments and of the unlexable runs nothing is wrong with the
text, and its tree is the old one without the nodes of comments and errors. -/
theorem parse_blank_noise (options : ParseOptions) (text : Text)
    (hlex : Lexical (Parser.parse ⟨language, options⟩ text).errors)
    (hparen : ∀ e ∈ (Parser.parse ⟨language, options⟩ text).errors,
      text[e.span.stop]? ≠ some '('.toUInt8) :
    let tree := Parser.parse ⟨language, options⟩ text
    let blank := Parser.parse ⟨language, options⟩ (text.blank (tree.noise isComment))
    blank.errors = [] ∧
      blank.root = tree.root.prune fun s => s == Symbol.error || isComment s := by
  intro tree blank
  have h := onlyNoise hlex
  have hdrop : (fun s => s == Symbol.error || isComment s) = table.isNoise :=
    funext fun s => (table_isNoise s).symm
  have hre := h.rereads rfl fun valid pos token ht hn hx hskip => by
    have hcomment : isComment token.symbol = false :=
      (Bool.or_eq_false_iff.mp ((table_isNoise _).symm.trans hx)).2
    have hlt := (Grammar.token_bounds hn).2.1
    refine lexemeAt_of_blanks (Text.size_blank _ _) (Text.blank_cases _ _) ?_ hcomment hskip ?_ hn
    · exact fun i h1 h2 => Text.blank_of_not_covered (h.not_covered ht hx h1 h2)
    · exact fun hp => parenIndex_blanked h hparen ht hx hp hlt
  have hparse := Parser.parse_of_rereads ⟨language, options⟩ h.quiet hlex hre
  rw [hdrop]
  change (Parser.parse _ (text.blank (tree.noise isComment))).errors = [] ∧
    (Parser.parse _ (text.blank (tree.noise isComment))).root = _
  rw [← isExtra_table]
  exact hparse

theorem parse_blank_noise_numeral :
    (Lexical (Parser.parse ⟨language, {}⟩ Noisy.text).errors ∧
      ∀ e ∈ (Parser.parse ⟨language, {}⟩ Noisy.text).errors,
        Noisy.text[e.span.stop]? ≠ some '('.toUInt8) ∧
      (Parser.parse ⟨language, {}⟩ #[0x31, 0x20, 0x20, 0x20]).errors = [] ∧
      (Parser.parse ⟨language, {}⟩ #[0x31, 0x20, 0x20, 0x20]).root =
        Node.branch sourceFile ⟨0, 4⟩ true [Noisy.numeral] := by
  have hlex : Lexical (Parser.parse ⟨language, {}⟩ Noisy.text).errors := by
    rw [Noisy.parse_eq]
    exact List.forall_mem_singleton.mpr rfl
  have hparen : ∀ e ∈ (Parser.parse ⟨language, {}⟩ Noisy.text).errors,
      Noisy.text[e.span.stop]? ≠ some '('.toUInt8 := by
    rw [Noisy.parse_eq]
    exact List.forall_mem_singleton.mpr (by decide)
  have h := parse_blank_noise {} Noisy.text hlex hparen
  simp only [Noisy.blank_noise] at h
  refine ⟨⟨hlex, hparen⟩, h.1, ?_⟩
  rw [h.2, Noisy.parse_eq]
  rfl

end TableParsing.Pyret
