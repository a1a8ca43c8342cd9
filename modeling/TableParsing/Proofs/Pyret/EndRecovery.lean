import TableParsing.Proofs.EndRecovery
import TableParsing.Proofs.Flaws
import TableParsing.Proofs.Pyret.HiddenRules

/-!
# Ends of Pyret texts

The empty program takes one reduction, so a Pyret parse finds a stack on which the end is viable
under every limit that allows reductions at all: each text has a program as its root.
-/
namespace TableParsing

open Job

namespace Pyret

variable {options : ParseOptions} {text : Text} {r : Run}

/-- Of the empty stack the empty program is made, and then the end is accepted. -/
theorem endViable_nil (h : 1 ≤ options.reductionLimit) :
    (Parser.job ⟨language, options⟩ text).EndViable [] := by
  have hr : language.table.Reduces Symbol.endOfInput 1 (production .sourceFile 0 []) [0] [1, 0] :=
    ⟨rfl, rfl, rfl⟩
  exact ⟨1, h, .accept, [1, 0], .cons hr (.nil _), rfl, rfl⟩

theorem not_gaveUp (hlimit : 1 ≤ options.reductionLimit)
    (h : (Parser.job ⟨language, options⟩ text).Reachable r) : r.phase ≠ .gaveUp :=
  h.not_gaveUp (l := language) rfl (endViable_nil hlimit)

theorem root_sourceFile (hlimit : 1 ≤ options.reductionLimit) :
    (Parser.parse ⟨language, options⟩ text).root.symbol = PyretSymbol.sourceFile.symbol := by
  let job := Parser.job ⟨language, options⟩ text
  have hp := finish_accepting_of_ne (not_gaveUp hlimit job.finish_reachable)
  have hs := symbols_of_accepting job.finish_reachable hp
  obtain ⟨root, trailing, hd⟩ :=
    job.finish_reachable.exists_root hp fun _ ha => (accept_only_end ha).1 rfl
  have hroot := Stack.symbols_of_dropWhile hd
  rw [hs, List.reverse_singleton] at hroot
  change (job.assembleRoot job.finish.phase job.finish.stack.nodes).symbol = _
  simp only [assembleRoot, hp, ite_true, hd]
  exact (List.cons.inj hroot).1.symm

/-- The run that finds no token to supply behind the operator of the open sum. -/
def OpenSum.stopped : Run :=
  { OpenSum.joined with
    lookahead := ⟨Symbol.endOfInput, Span.empty 3⟩
    phase := .recovering }

theorem OpenSum.stuck : OpenSum.job.Stuck stopped where
  reachable := by
    have hn : OpenSum.job.nextLexeme joined = .endOfText :=
      Grammar.lexemeAt_of_size_le (Nat.le_refl 3)
    have hs : OpenSum.job.step joined = stopped := by
      rw [step_of_scanning rfl, scan_of_endOfText hn]
      rfl
    have hj : OpenSum.job.step^[6 + (2 + 2)] Run.initial = joined := by
      rw [Function.iterate_add_apply, Function.iterate_add_apply, Opening.iterate_initial rfl,
        Opening.iterate_opened rfl rfl, iterate_counted]
    exact hs ▸ (hj ▸ Reachable.initial.iterate _).step
  recovering := rfl
  atEnd := rfl
  unsupplied := fun _ => rfl

end Pyret

open Pyret

/-- In recovery at the end of the input, with no token to supply, the parser wraps the fewest entries
whose removal leaves a stack on which the end is viable, and then accepts; it gives up, and leaves
the stack as it is, exactly if the end is viable on no smaller stack. On a Pyret text it never gives
up if it may reduce at all, and the root is a program. -/
theorem Parser.recoverAtEnd_least (text : Text) :
    (∀ (p : Parser) (r : Run), p.options.reductionLimit + 1 < wordBound → (p.job text).Stuck r →
      let job := p.job text
      job.checkedRecover r = some (job.step r) ∧
      ¬job.EndViable r.stack ∧
      ((job.step r).phase = .gaveUp ↔
        ∀ newest rest, r.stack = newest ++ rest → newest ≠ [] → ¬job.EndViable rest) ∧
      ((job.step r).phase = .gaveUp → (job.step r).stack = r.stack) ∧
      ((job.step r).phase ≠ .gaveUp → ∃ newest rest span, job.Wraps r newest rest span)) ∧
    ∀ options : ParseOptions, 1 ≤ options.reductionLimit →
      (∀ r, (Parser.job ⟨Pyret.language, options⟩ text).Reachable r → r.phase ≠ .gaveUp) ∧
      (Parser.parse ⟨Pyret.language, options⟩ text).root.symbol = PyretSymbol.sourceFile.symbol := by
  refine ⟨fun p r hword h => ?_, fun options hlimit =>
    ⟨fun r hr => not_gaveUp hlimit hr, root_sourceFile hlimit⟩⟩
  intro job
  refine ⟨h.reachable.checkedRecover_eq ⟨p.language.table_fault, hword⟩ h.recovering,
    h.not_endViable, ?_⟩
  rcases h.cases (l := p.language) rfl with ⟨hw, hp⟩ | ⟨hnone, hp, hs⟩
  · obtain ⟨newest, rest, span, hwraps⟩ := hw
    refine ⟨iff_of_false hp fun hnone => ?_, fun hg => absurd hg hp, fun _ => ⟨_, _, _, hwraps⟩⟩
    exact hnone newest rest hwraps.divides hwraps.nonempty hwraps.viable
  · exact ⟨iff_of_true hp hnone, fun _ => hs, fun hn => absurd hp hn⟩

/-- All of the open sum is wrapped, under the least limit that allows a reduction too. -/
theorem Parser.recoverAtEnd_least_openSum :
    (OpenSum.job.options.reductionLimit + 1 < wordBound ∧ OpenSum.job.Stuck OpenSum.stopped ∧
      (OpenSum.job.step OpenSum.stopped).phase ≠ .gaveUp ∧
      ∃ newest rest span, OpenSum.job.Wraps OpenSum.stopped newest rest span) ∧
    1 ≤ ({ reductionLimit := 1 } : ParseOptions).reductionLimit ∧
      (Parser.parse ⟨Pyret.language, { reductionLimit := 1 }⟩ OpenSum.text).root.symbol =
        PyretSymbol.sourceFile.symbol := by
  have hword : OpenSum.job.options.reductionLimit + 1 < wordBound := by decide
  have hp : (OpenSum.job.step OpenSum.stopped).phase ≠ .gaveUp := by decide
  have hstuck := OpenSum.stuck
  have hleast := recoverAtEnd_least OpenSum.text
  exact ⟨⟨hword, hstuck, hp, (hleast.1 _ _ hword hstuck).2.2.2.2 hp⟩, Nat.le_refl 1,
    (hleast.2 { reductionLimit := 1 } (Nat.le_refl 1)).2⟩

/-! ## An end that runs away

With the letter a removed, the end makes nodes of nothing without end.
-/

namespace Runaway

theorem stuck_stuck : (job false #[0x61]).Stuck stuck where
  reachable := stuck_reachable false
  recovering := rfl
  atEnd := rfl
  unsupplied := Bool.noConfusion

theorem not_endViable_nil : ¬(job false #[0x61]).EndViable [] := fun ⟨_, _, hv⟩ =>
  endless_end.not_viableIn hv

/-- The end is viable on no smaller stack, so the parser should give up, but it does not return from
the start state. -/
theorem wrapping_never_returns :
    let job := job false #[0x61]
    (job.options.reductionLimit + 1 = wordBound ∧ job.Stuck stuck) ∧
    (∀ newest rest, stuck.stack = newest ++ rest → newest ≠ [] → ¬job.EndViable rest) ∧
    (∀ n out, ¬Ends (job.table.simulateBody Symbol.endOfInput job.options.reductionLimit) n
      (0, Stack.path []) out) ∧
    job.checkedRecover stuck = none := by
  intro job
  refine ⟨⟨rfl, stuck_stuck⟩, fun newest rest hdiv hne => ?_,
    fun n out => endless_end.not_ends (Nat.le_refl wordBound), ?_⟩
  · cases newest with
    | nil => exact absurd rfl hne
    | cons e newest =>
      obtain ⟨_, hrest⟩ := List.cons.inj hdiv
      obtain ⟨_, rfl⟩ := List.append_eq_nil_iff.mp hrest.symm
      exact not_endViable_nil
  · have hstart : table.Holds [0] := List.forall_mem_singleton.mpr ⟨_, rfl⟩
    have hend : job.checkedViable [0] Symbol.endOfInput = none :=
      Job.checkedViable_none table_fault hstart endless_end (Nat.le_refl wordBound)
    have hsplit : Stack.checkedSplit (job.checkedViable · Symbol.endOfInput) [] stuck.stack =
        none := by
      change (job.checkedViable [0] Symbol.endOfInput).bind _ = none
      rw [hend, Option.bind_none]
    change (Stack.checkedSplit (job.checkedViable · Symbol.endOfInput) [] stuck.stack).bind _ = none
    rw [hsplit, Option.bind_none]

end Runaway

end TableParsing
