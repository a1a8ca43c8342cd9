import TableParsing.Proofs.Edges
import TableParsing.Proofs.Pyret.Blanking
import TableParsing.Proofs.Tiling
import TableParsing.Proofs.Utf8Cuts

/-!
# Where a Pyret text is cut

Every lexeme begins and ends next to an ASCII character or at an end of the text: other bytes stand
only inside of strings, comments and unlexable runs. So all spans of a parse are clean cuts. They
fall between the characters of a string, and reports on a text that is no UTF-8 are off exactly
where malformed pieces are shorter than the character that stands for them.
-/
namespace TableParsing

namespace Pyret

open PyretSymbol Text Utf8

/-! ## Lexemes -/

section

variable {text : Text} {b : UInt8} {valid : List Bool} {pos start stop : Nat} {token : Token}
  {span : Span} {m : Match}

theorem isAscii_of_isSeparator (h : table.isSeparator b = true) : isAscii b = true := by
  have hall : ∀ n < 256, table.isSeparator (UInt8.ofNat n) = true →
      isAscii (UInt8.ofNat n) = true := by
    decide +kernel
  have hb := hall b.toNat b.toNat_lt
  rw [UInt8.ofNat_toNat] at hb
  exact hb h

theorem cleanAt_skipSeparators (h : CleanAt text pos) :
    CleanAt text (grammar.skipSeparators text pos) := by
  have hle : pos ≤ grammar.skipSeparators text pos := Grammar.le_skipSeparators pos
  rcases Nat.eq_or_lt_of_le hle with heq | hlt
  · exact heq ▸ h
  · obtain ⟨last, hlast⟩ : ∃ last, grammar.skipSeparators text pos = last + 1 :=
      ⟨grammar.skipSeparators text pos - 1, by omega⟩
    have hskipped : last < grammar.skipSeparators text pos := by omega
    obtain ⟨b, hb, hsep⟩ := Grammar.separatorAt_of_skipped (by omega : pos ≤ last) hskipped
    rw [hlast]
    exact cleanAt_behind hb (isAscii_of_isSeparator hsep)

/-- The byte of a transition is no more than the end of its range. -/
theorem exists_transition {st : LexState} {id : LexStateId} (h : st.next? b = some id) :
    ∃ t ∈ st.transitions, b ≤ t.1.hi ∧ t.2 = id := by
  obtain ⟨t, ht, rfl⟩ := Option.map_eq_some_iff.mp h
  have hcontains := List.find?_some ht
  simp only [ByteRange.contains, Bool.and_eq_true, decide_eq_true_eq] at hcontains
  exact ⟨t, List.mem_of_find?_eq_some ht, hcontains.2, rfl⟩

/-- A word of the automaton begins with an ASCII character. -/
theorem isAscii_of_wordAt (h : grammar.WordAt text start) :
    ∃ b, text[start]? = some b ∧ isAscii b = true := by
  have hall : ∀ t ∈ LexMode.start.state.transitions, isAscii t.1.hi = true := by decide
  have hstate : table.lexState? 0 = some LexMode.start.state := lexState?_id .start
  obtain ⟨stop, s, hlt, hle, hs⟩ := h
  rw [GrammarTable.accepts?_slice hlt hle] at hs
  obtain ⟨next, hstep, _⟩ := Option.bind_eq_some_iff.mp hs
  obtain ⟨b, hb, hnext⟩ := Option.bind_eq_some_iff.mp hstep
  change (table.lexState? 0).bind (·.next? b) = some next at hnext
  rw [hstate, Option.bind_some] at hnext
  obtain ⟨t, ht, hle, _⟩ := exists_transition hnext
  exact ⟨b, hb, isAscii_of_le hle (hall t ht)⟩

/-- Apart from line comments, a match of the automaton ends with an ASCII character. -/
theorem isAscii_last (hm : m.symbol ≠ PyretSymbol.lineComment.symbol) (hb : text[stop]? = some b)
    (hstop : m.stop = stop + 1) (h : table.LongestFrom text start start 0 m) :
    isAscii b = true := by
  have hall : ∀ mode ∈ LexMode.all, ∀ t ∈ mode.state.transitions, ∀ last ∈ LexMode.all,
      t.2 = last.id → last.state.accept.isSome = true →
        last.state.accept ≠ some PyretSymbol.lineComment.symbol → isAscii t.1.hi = true := by
    decide +kernel
  have hlt := h.start_lt
  have haccepted := h.accepted
  rw [hstop, slice_succ (by omega) hb, GrammarTable.accepts?_append,
    Option.bind_eq_some_iff] at haccepted
  obtain ⟨before, hbefore, haccepted⟩ := haccepted
  obtain ⟨mode, rfl⟩ := stateAfter?_mode .start hbefore
  rw [GrammarTable.accepts?_cons, lexState?_id, Option.bind_some,
    Option.bind_eq_some_iff] at haccepted
  obtain ⟨id, hid, haccepted⟩ := haccepted
  obtain ⟨last, rfl⟩ := next?_mode mode hid
  rw [GrammarTable.accepts?_nil, lexState?_id, Option.bind_some] at haccepted
  obtain ⟨t, ht, hle, heq⟩ := exists_transition hid
  refine isAscii_of_le hle (hall mode mode.mem_all t ht last last.mem_all heq ?_ ?_)
  · rw [haccepted]
    rfl
  · rw [haccepted]
    exact fun heq => hm (Option.some.inj heq)

/-- Behind a match of the automaton the text is cut cleanly. -/
theorem cleanAt_match (h : table.LongestFrom text start start 0 m) : CleanAt text m.stop := by
  have hlt := h.start_lt
  have hle := h.stop_le
  obtain ⟨stop, hstop⟩ : ∃ stop, m.stop = stop + 1 := ⟨m.stop - 1, by omega⟩
  by_cases hm : m.symbol = PyretSymbol.lineComment.symbol
  · rcases Nat.eq_or_lt_of_le hle with heq | hlt
    · exact heq ▸ cleanAt_size text
    · have hb : text[m.stop]? = some text[m.stop] := Array.getElem?_eq_getElem hlt
      refine cleanAt_before hb ?_
      rw [newline_behind_lineComment hm h hb]
      rfl
  · have hb : text[stop]? = some text[stop] := Array.getElem?_eq_getElem (by omega)
    rw [hstop]
    exact cleanAt_behind hb (isAscii_last hm hb hstop h)

theorem cleanAt_token (h : CleanAt text pos)
    (hn : grammar.lexemeAt text valid pos = .token token) : token.span.Ends (CleanAt text) := by
  have hstart := cleanAt_skipSeparators h
  by_cases hp : text[grammar.skipSeparators text pos]? = some 0x28
  · obtain ⟨_, rfl⟩ := (lexemeAt_paren hp).mp hn
    exact ⟨hstart, cleanAt_behind hp rfl⟩
  · obtain ⟨m, hm, rfl⟩ := (lexemeAt_longest hp).mp hn
    exact ⟨hstart, cleanAt_match hm⟩

/-- Only a parenthesis is proposed. -/
theorem paren_of_proposedAt (h : grammar.ProposedAt text valid start) : text[start]? = some 0x28 := by
  by_contra hp
  rw [← Grammar.scanExternal_isSome_iff, scanExternal_other hp] at h
  cases h

theorem cleanAt_unlexable (h : CleanAt text pos)
    (hn : grammar.lexemeAt text valid pos = .unlexable span) : span.Ends (CleanAt text) := by
  have hrun := Grammar.errorRun_of_unlexable (GrammarTable.accept_start language.table_fault) hn
  refine ⟨?_, ?_⟩
  · rw [Grammar.unlexable_start hn]
    exact cleanAt_skipSeparators h
  · rcases hrun.ends with hend | ⟨b, hb, hsep⟩ | hword | hproposed
    · exact hend ▸ cleanAt_size text
    · exact cleanAt_before hb (isAscii_of_isSeparator hsep)
    · obtain ⟨b, hb, hascii⟩ := isAscii_of_wordAt hword
      exact cleanAt_before hb hascii
    · exact cleanAt_before (paren_of_proposedAt hproposed) rfl

theorem cutsAt_clean (options : ParseOptions) (text : Text) :
    (Parser.job ⟨language, options⟩ text).CutsAt (CleanAt text) where
  zero := cleanAt_zero text
  size := cleanAt_size text
  token _ _ h hn := cleanAt_token h hn
  unlexable _ _ h hn := cleanAt_unlexable h hn

/-- All spans of a parse are clean cuts. -/
theorem parse_clean (options : ParseOptions) (text : Text) :
    let tree := Parser.parse ⟨language, options⟩ text
    tree.root.Edged (CleanAt text) ∧ ∀ e ∈ tree.errors, e.span.Ends (CleanAt text) :=
  Parser.parse_edged (cutsAt_clean options text)

end

/-! ## Strings -/

/-! A comment with a character of two bytes, and behind it a parenthesis that closes nothing. -/

namespace Accent

def text : Text := #[0x23, 0xC3, 0xA9, 0x0A, 0x29]

abbrev job : Job := Parser.job ⟨language, {}⟩ text

def comment : Node := { Node.leaf PyretSymbol.lineComment ⟨0, 3⟩ true with extra := true }

def skipped : Node := { Node.error ⟨4, 5⟩ [Node.leaf rightParen ⟨4, 5⟩ false] with extra := true }

/-- The run that has skipped the parenthesis. -/
def closed : Run :=
  { Run.initial with
    lookahead := ⟨rightParen, 4, 5⟩
    stack := [⟨0, skipped⟩, ⟨0, comment⟩]
    position := 5
    lastEnd := 5
    mergeSkips := true
    errors := [.unexpected "\")\"" ⟨4, 5⟩] }

def accepted : Run :=
  { closed with
    lookahead := ⟨Symbol.endOfInput, Span.empty 5⟩
    stack := [⟨1, skipped⟩, ⟨1, comment⟩, ⟨1, Node.branch sourceFile (Span.empty 0) true []⟩]
    mergeSkips := false
    phase := .accepting }

theorem longestFrom_comment :
    table.LongestFrom text 0 0 0 ⟨PyretSymbol.lineComment, 3⟩ where
  start_lt := by decide
  le_stop := by decide
  stop_le := by decide
  accepted := by decide +kernel
  longest := by
    have hall : ∀ stop < 6, 3 < stop → table.accepts? 0 (text.slice ⟨0, stop⟩) = none := by
      decide +kernel
    exact fun stop hlt hle => hall stop (Nat.lt_succ_of_le hle) hlt

theorem iterate_initial : job.step^[2] Run.initial = closed := by
  have hskip : grammar.skipSeparators text 0 = 0 := Grammar.skipSeparators_stop rfl
  have hcomment : job.nextLexeme Run.initial = .token ⟨PyretSymbol.lineComment, 0, 3⟩ := by
    change grammar.lexemeAt text [false, true] 0 = _
    apply (lexemeAt_longest (by rw [hskip]; decide)).mpr
    rw [hskip]
    exact ⟨_, longestFrom_comment, rfl⟩
  have hparen : job.nextLexeme (Run.initial.pushExtra
      (job.leaf ⟨PyretSymbol.lineComment, 0, 3⟩)) = .token ⟨rightParen, 4, 5⟩ :=
    Grammar.lexemeAt_single (s := rightParen)
      ((Grammar.skipSeparators_next rfl).trans (Grammar.skipSeparators_stop rfl))
      (scanExternal_other (by decide)) rfl rfl rfl
  rw [Function.iterate_succ_apply, Job.step_of_scanning rfl, Job.scan_of_extra hcomment rfl,
    Job.scan_of_token hparen rfl]
  rfl

theorem iterate_closed : job.step^[2] closed = accepted := by
  have hend : job.nextLexeme closed = .endOfText := Grammar.lexemeAt_of_size_le (Nat.le_refl 5)
  rw [Function.iterate_succ_apply, Job.step_of_scanning rfl, Job.scan_of_endOfText hend]
  rfl

theorem parse_eq : Parser.parse ⟨language, {}⟩ text =
    ⟨Node.branch sourceFile ⟨0, 5⟩ true [comment, skipped], text, language,
      [.unexpected "\")\"" ⟨4, 5⟩]⟩ := by
  have hrun : job.step^[2 + 2] Run.initial = accepted := by
    rw [Function.iterate_add_apply, iterate_initial, iterate_closed]
  exact Parser.parse_of_iterate hrun rfl

end Accent

/-- In the parse of a string all nodes and errors begin and end between characters, and the text of
every node is the part of the string that begins where the node does. -/
theorem parse_at_characters (s : String) (options : ParseOptions) :
    let tree := Parser.parse ⟨language, options⟩ (Text.ofString s)
    (∀ n ∈ tree.walk, n.span.Ends (fun pos => (⟨pos⟩ : String.Pos.Raw).IsValid s) ∧
      ∃ before part after, s = before ++ part ++ after ∧ before.utf8ByteSize = n.span.start ∧
        tree.nodeText n = .ok part) ∧
      ∀ e ∈ tree.errors, e.span.Ends fun pos => (⟨pos⟩ : String.Pos.Raw).IsValid s := by
  intro tree
  obtain ⟨hroot, herrors⟩ := parse_clean options (Text.ofString s)
  constructor
  · intro n hn
    obtain ⟨hstart, hstop⟩ := hroot.of_mem_walk hn
    have hnested : tree.root.All fun n => n.span.start ≤ n.span.stop := fun m hm =>
      (Node.nested_iff.mp ((Parser.parse_root_nested _ _).2.of_holds hm)).1.le
    obtain ⟨before, part, after, hs, hsize, hpart⟩ := hstart.exists_part hstop (hnested.of_mem_walk hn)
    refine ⟨⟨hstart.isValid, hstop.isValid⟩, before, part, after, hs, hsize, ?_⟩
    change decode ((Text.ofString s).slice n.span) = _
    rw [← hpart, decode_encode]
  · intro e he
    obtain ⟨hstart, hstop⟩ := herrors e he
    exact ⟨hstart.isValid, hstop.isValid⟩

theorem parse_at_characters_accent :
    let tree := Parser.parse ⟨language, {}⟩ (Text.ofString "#é\n)")
    (Accent.comment ∈ tree.walk ∧ (⟨3⟩ : String.Pos.Raw).IsValid "#é\n)" ∧
      ∃ part, tree.nodeText Accent.comment = .ok part) ∧
      ∃ e ∈ tree.errors, e.span = ⟨4, 5⟩ ∧ (⟨4⟩ : String.Pos.Raw).IsValid "#é\n)" := by
  intro tree
  have htext : Text.ofString "#é\n)" = Accent.text := by decide +kernel
  have hparse : tree = Parser.parse ⟨language, {}⟩ Accent.text := congrArg (Parser.parse _) htext
  have hwalk : Accent.comment ∈ tree.walk := by
    rw [hparse, SyntaxTree.walk, Accent.parse_eq, Node.walk_eq, Node.branch, Node.walkPending]
    exact List.mem_cons_of_mem _ List.mem_cons_self
  have herror : SyntaxError.unexpected "\")\"" ⟨4, 5⟩ ∈ tree.errors := by
    rw [hparse, Accent.parse_eq]
    exact List.mem_cons_self
  obtain ⟨hnodes, herrors⟩ := parse_at_characters "#é\n)" {}
  obtain ⟨hends, before, part, after, _, _, hpart⟩ := hnodes _ hwalk
  exact ⟨⟨hwalk, hends.2, part, hpart⟩, _, herror, rfl, (herrors _ herror).1⟩

end Pyret

end TableParsing
