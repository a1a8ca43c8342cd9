import TableParsing.Proofs.ErrorOrder
import TableParsing.Proofs.Pyret.Blanking

/-!
# The order of errors in Pyret

The report of an unexpected end is the only one that may stand behind errors of a later beginning.
An open parenthesis with junk behind it is reported after the junk.
-/
namespace TableParsing.Pyret

open PyretSymbol

/-! An open parenthesis, and behind it a byte that begins no token. -/

namespace OpenParen

open Opening

def text : Text := #[0x28, 0x40]

abbrev job : Job := Parser.job ⟨language, {}⟩ text

def junk : Node := { Node.error ⟨1, 2⟩ [] with extra := true }

def wrapper : Node := Node.error ⟨0, 2⟩ [paren, junk]

/-- The run that has wrapped everything and accepted. -/
def accepted : Run :=
  { opened with
    lookahead := ⟨Symbol.endOfInput, Span.empty 2⟩
    stack := [⟨1, wrapper⟩, ⟨1, Node.branch sourceFile (Span.empty 0) true []⟩]
    phase := .accepting
    position := 2
    lastEnd := 2
    errors := [.unexpectedEnd ⟨0, 2⟩, .unrecognized [0x40] ⟨1, 2⟩] }

theorem iterate_junk : job.step^[3] opened = accepted := by
  have hjunk : job.nextLexeme opened = .unlexable ⟨1, 2⟩ :=
    Grammar.lexemeAt_stuck (by decide) (Grammar.skipSeparators_stop rfl)
      (scanExternal_other (by decide)) rfl rfl
  have hend (r : Run) (hr : r.position = 2) : job.nextLexeme r = .endOfText :=
    Grammar.lexemeAt_of_size_le (Nat.le_of_eq hr.symm)
  rw [Function.iterate_succ_apply, Job.step_of_scanning rfl, Job.scan_of_unlexable hjunk,
    Job.scan_of_endOfText (hend _ rfl)]
  rfl

theorem errors_parse : (Parser.parse ⟨language, {}⟩ text).errors =
    [.unrecognized [0x40] ⟨1, 2⟩, .unexpectedEnd ⟨0, 2⟩] := by
  have hrun : job.step^[3 + 2] Run.initial = accepted := by
    rw [Function.iterate_add_apply, iterate_initial rfl, iterate_junk]
  rw [Parser.parse_of_iterate hrun rfl]
  rfl

end OpenParen

/-- The errors of a Pyret text begin one behind the other, apart from the last one if it reports that
the end was unexpected. -/
theorem parse_errors_ascend (options : ParseOptions) (text : Text) : ∃ front tail,
    (Parser.parse ⟨language, options⟩ text).errors = front ++ tail ∧
      (front.Pairwise fun e e' => e.span.start ≤ e'.span.start) ∧
      (tail = [] ∨ ∃ span, tail = [.unexpectedEnd span]) :=
  Parser.parse_errors_ascending ⟨language, options⟩ text

theorem errors_out_of_order : ¬ ∀ (options : ParseOptions) (text : Text),
    (Parser.parse ⟨language, options⟩ text).errors.Pairwise
      fun e e' => e.span.start ≤ e'.span.start := by
  intro h
  have hpair := h {} OpenParen.text
  rw [OpenParen.errors_parse] at hpair
  exact absurd (List.rel_of_pairwise_cons hpair (List.mem_singleton.mpr rfl)) (by decide)

end TableParsing.Pyret
