import TableParsing.Proofs.Pyret.Cuts

/-!
# Where reports on a Pyret text point

A report is drawn over the text as it reads with U+FFFD for every malformed piece, but its offset
counts the bytes of the text itself. U+FFFD has three bytes and a malformed piece one to three, so a
report never points behind its error, and it points at the error exactly if all malformed pieces
before it have three bytes.
-/
namespace TableParsing

namespace Utf8

/-- The pieces as long as what they read as are the characters and the malformed ones of three
bytes. -/
theorem forall_length_iff {ps : List Piece} : (∀ p ∈ ps, p.length = p.toChar.utf8Size) ↔
    ∀ n cut, Piece.malformed n cut ∈ ps → n = 3 := by
  constructor
  · intro h n cut hp
    exact h _ hp
  · intro h p hp
    cases p with
    | char c => rfl
    | malformed n cut => exact h n cut hp

end Utf8

namespace Pyret

open PyretSymbol Utf8

/-! A byte that begins no character, and behind it a parenthesis that closes nothing. -/

namespace Stray

def text : Text := #[0xFF, 0x20, 0x29]

abbrev job : Job := Parser.job ⟨language, {}⟩ text

def junk : Node := { Node.error ⟨0, 1⟩ [] with extra := true }

def skipped : Node := { Node.error ⟨2, 3⟩ [Node.leaf rightParen ⟨2, 3⟩ false] with extra := true }

/-- The run that has skipped the parenthesis. -/
def closed : Run :=
  { Run.initial with
    lookahead := ⟨rightParen, 2, 3⟩
    stack := [⟨0, skipped⟩, ⟨0, junk⟩]
    position := 3
    lastEnd := 3
    mergeSkips := true
    errors := [.unexpected "\")\"" ⟨2, 3⟩, .unrecognized [0xFF] ⟨0, 1⟩] }

def accepted : Run :=
  { closed with
    lookahead := ⟨Symbol.endOfInput, Span.empty 3⟩
    stack := [⟨1, skipped⟩, ⟨1, junk⟩, ⟨1, Node.branch sourceFile (Span.empty 0) true []⟩]
    mergeSkips := false
    phase := .accepting }

theorem iterate_initial : job.step^[2] Run.initial = closed := by
  have hjunk : job.nextLexeme Run.initial = .unlexable ⟨0, 1⟩ :=
    Grammar.lexemeAt_stuck (by decide) (Grammar.skipSeparators_stop rfl)
      (scanExternal_other (by decide)) rfl rfl
  have hparen : job.nextLexeme ((Run.initial.report (.unrecognized (job.text.slice ⟨0, 1⟩)
      ⟨0, 1⟩)).pushExtra (Node.error ⟨0, 1⟩ [])) = .token ⟨rightParen, 2, 3⟩ :=
    Grammar.lexemeAt_single (s := rightParen)
      ((Grammar.skipSeparators_next rfl).trans (Grammar.skipSeparators_stop rfl))
      (scanExternal_other (by decide)) rfl rfl rfl
  rw [Function.iterate_succ_apply, Job.step_of_scanning rfl, Job.scan_of_unlexable hjunk,
    Job.scan_of_token hparen rfl]
  rfl

theorem iterate_closed : job.step^[2] closed = accepted := by
  have hend : job.nextLexeme closed = .endOfText := Grammar.lexemeAt_of_size_le (Nat.le_refl 3)
  rw [Function.iterate_succ_apply, Job.step_of_scanning rfl, Job.scan_of_endOfText hend]
  rfl

theorem errors_parse : (Parser.parse ⟨language, {}⟩ text).errors =
    [.unrecognized [0xFF] ⟨0, 1⟩, .unexpected "\")\"" ⟨2, 3⟩] := by
  have hrun : job.step^[2 + 2] Run.initial = accepted := by
    rw [Function.iterate_add_apply, iterate_initial, iterate_closed]
  rw [Parser.parse_of_iterate hrun rfl]
  rfl

theorem mem_errors : SyntaxError.unexpected "\")\"" ⟨2, 3⟩ ∈
    (Parser.parse ⟨language, {}⟩ text).errors := by
  rw [errors_parse]
  exact List.mem_cons_of_mem _ List.mem_cons_self

end Stray

/-- The character that a report on an error points at is never behind the first of the error, and it
is that one exactly if all malformed pieces before the error have three bytes. -/
theorem parse_charOffset (options : ParseOptions) (text : Text) :
    ∀ e ∈ (Parser.parse ⟨language, options⟩ text).errors,
      let offset := charOffset (lossyChars text.toList) e.span.start
      let before := text.toList.take e.span.start
      offset ≤ (lossyChars before).length ∧
        (offset = (lossyChars before).length ↔
          ∀ n cut, Piece.malformed n cut ∈ pieces before → n = 3) := by
  intro e he offset before
  have hstart : text.CleanAt e.span.start := ((parse_clean options text).2 e he).1
  have hcount := charOffset_lossyChars hstart.2
  rw [hstart.slice_append, Text.slice_all, Text.length_slice_zero hstart.1, Text.slice_zero,
    forall_length_iff] at hcount
  exact hcount

theorem parse_charOffset_stray :
    SyntaxError.unexpected "\")\"" ⟨2, 3⟩ ∈ (Parser.parse ⟨language, {}⟩ Stray.text).errors ∧
      charOffset (lossyChars Stray.text.toList) 2 ≠ (lossyChars (Stray.text.toList.take 2)).length := by
  refine ⟨Stray.mem_errors, fun heq => ?_⟩
  have hthree := (parse_charOffset {} Stray.text _ Stray.mem_errors).2.mp heq
  have hpiece : Piece.malformed 1 false ∈ pieces (Stray.text.toList.take 2) := by decide +kernel
  exact absurd (hthree 1 false hpiece) (by decide)

/-- The report on the parenthesis points at the malformed byte before it. -/
theorem charOffset_misplaced : ¬ ∀ (options : ParseOptions) (text : Text),
    ∀ e ∈ (Parser.parse ⟨language, options⟩ text).errors,
      charOffset (lossyChars text.toList) e.span.start =
        (lossyChars (text.toList.take e.span.start)).length := by
  intro h
  have heq := h {} Stray.text _ Stray.mem_errors
  revert heq
  decide +kernel

end Pyret

end TableParsing
