import TableParsing.Proofs.Acceptance

/-!
# Parsing under other options

The options decide what recovery may do and how far a simulation may go. A simulation that has found
its way within a limit finds the same one within a larger limit, so a parse without errors takes the
same steps under all options that allow as many reductions.
-/
namespace TableParsing

theorem GrammarTable.simulate_mono {t : GrammarTable} {s : Symbol} {limit limit' : Nat}
    {path : List StateId} {out : Action × List StateId} (hle : limit ≤ limit')
    (h : t.simulate s limit path = some out) : t.simulate s limit' path = some out := by
  obtain ⟨k, hk, hc, hs⟩ := chain_of_simulate h
  exact simulate_chain hc hs (Nat.le_trans hk hle)

namespace Job

def under (job : Job) (options : ParseOptions) : Job := { job with options := options }

variable {job : Job} {options : ParseOptions} {r : Run} {n : Nat}

theorem scan_under (job : Job) (options : ParseOptions) (r : Run) :
    (job.under options).scan r = job.scan r := by
  fun_induction Job.scan job r with
  | case1 r hn => exact scan_of_endOfText hn
  | case2 r token hn hx ih =>
    have hscan : (job.under options).scan r =
        (job.under options).scan (r.pushExtra (job.leaf token)) := scan_of_extra hn hx
    exact hscan.trans ih
  | case3 r token hn hx =>
    have hx : job.table.isExtra token.symbol = false := by simpa using hx
    exact scan_of_token hn hx
  | case4 r span hn ih =>
    have hscan : (job.under options).scan r = (job.under options).scan ((r.report
        (.unrecognized (job.text.slice span) span)).pushExtra (Node.error span [])) :=
      scan_of_unlexable hn
    exact hscan.trans ih

/-- What is not in recovery stays out of it when more reductions are allowed. -/
theorem dispatch_under (hle : job.options.reductionLimit ≤ options.reductionLimit)
    (h : job.dispatch r ≠ .recovering) : (job.under options).dispatch r = job.dispatch r := by
  have hcurrent : (job.under options).currentAction? r = job.currentAction? r := rfl
  have hphase : (job.under options).phaseForLookahead r = job.phaseForLookahead r := rfl
  unfold dispatch at h ⊢
  rw [hcurrent, hphase]
  split at h
  · split at h
    · rename_i hv
      obtain ⟨out, hs⟩ := Option.isSome_iff_exists.mp hv
      have hv' : (job.under options).isViable r.stack.path r.lookahead.symbol = true :=
        Option.isSome_iff_exists.mpr ⟨out, GrammarTable.simulate_mono hle hs⟩
      simp only [hv, hv']
    · exact absurd rfl h
  · rfl

/-- A step that neither starts from recovery nor leads there is the same under both options. -/
theorem Reachable.step_under (hle : job.options.reductionLimit ≤ options.reductionLimit)
    (h : job.Reachable r) (hp : r.phase ≠ .recovering) (hs : (job.step r).phase ≠ .recovering) :
    (job.under options).step r = job.step r := by
  cases hphase : r.phase with
  | scanning =>
    rw [step_of_scanning hphase] at hs ⊢
    rw [step_of_scanning hphase, scan_under, dispatch_under hle hs]
  | shifting =>
    simp only [Job.step, hphase]
    rfl
  | reducing =>
    obtain ⟨id, ha⟩ := h.steady.reducing hphase
    have ha' : (job.under options).currentAction? r = some (.reduce id) := ha
    simp only [Job.step, hphase, reduceStep, ha, ha']
    rfl
  | recovering => exact absurd hphase hp
  | accepting | gaveUp => simp only [Job.step, hphase]

theorem Reachable.iterate_under (hle : job.options.reductionLimit ≤ options.reductionLimit)
    (h : job.Reachable r) (hf : (job.step^[n] r).phase = .accepting)
    (he : (job.step^[n] r).errors = []) : (job.under options).step^[n] r = job.step^[n] r := by
  induction n generalizing r with
  | zero => rfl
  | succ n ih =>
    have hp := h.not_recovering hf he
    rw [Function.iterate_succ_apply] at hf he ⊢
    have hs := h.step.not_recovering hf he
    rw [Function.iterate_succ_apply, h.step_under hle hp hs]
    exact ih h.step hf he

theorem finish_under (hle : job.options.reductionLimit ≤ options.reductionLimit)
    (he : job.finish.errors = []) : (job.under options).finish = job.finish := by
  have hphase := finish_accepting he
  have hfinish : job.finish = job.step^[job.stepBound] Run.initial := runFor_eq_iterate _ _ _
  rw [hfinish] at he hphase
  have hsame := Reachable.initial.iterate_under hle hphase he
  have hfinal : ((job.under options).step^[job.stepBound] Run.initial).phase.isFinal = true := by
    rw [hsame, hphase]
    rfl
  rw [finish_eq hfinal, hsame, hfinish]

end Job

namespace Parser

/-- A text that parses without errors has the same tree, and no errors, under all options that allow
at least as many reductions, whether or not missing tokens may be supplied. -/
theorem parse_eq_of_errors_eq_nil (l : Language) (options options' : ParseOptions) (text : Text)
    (hle : options.reductionLimit ≤ options'.reductionLimit)
    (he : (Parser.parse ⟨l, options⟩ text).errors = []) :
    (Parser.parse ⟨l, options'⟩ text).errors = [] ∧
      Parser.parse ⟨l, options'⟩ text = Parser.parse ⟨l, options⟩ text := by
  let job := Parser.job ⟨l, options⟩ text
  have hfinish : (job.under options').finish = job.finish :=
    Job.finish_under hle (List.reverse_eq_nil_iff.mp he)
  have hparse : Parser.parse ⟨l, options'⟩ text = Parser.parse ⟨l, options⟩ text := by
    change SyntaxTree.mk ((job.under options').assembleRoot (job.under options').finish.phase
      (job.under options').finish.stack.nodes) text l (job.under options').finish.errors.reverse = _
    rw [hfinish]
    rfl
  exact ⟨hparse ▸ he, hparse⟩

/-- A text that is one word, parsed without supplying tokens. -/
theorem parse_eq_of_errors_eq_nil_word :
    let options : ParseOptions := ⟨false, 200000⟩
    Word.parser.options.reductionLimit ≤ options.reductionLimit ∧
      (Word.parser.parse #[0x61]).errors = [] ∧
      (Parser.parse ⟨Word.language, options⟩ #[0x61]).errors = [] ∧
      Parser.parse ⟨Word.language, options⟩ #[0x61] = Word.parser.parse #[0x61] := by
  intro options
  have hle : Word.parser.options.reductionLimit ≤ options.reductionLimit := by decide
  have he : (Word.parser.parse #[0x61]).errors = [] := by
    change Word.letterJob.finish.errors.reverse = []
    rw [Word.finish_letter]
    rfl
  exact ⟨hle, he, parse_eq_of_errors_eq_nil Word.language {} options #[0x61] hle he⟩

end Parser

end TableParsing
