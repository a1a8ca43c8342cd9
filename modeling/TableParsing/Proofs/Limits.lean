import TableParsing.Proofs.Options

/-!
# Limits that are never reached

If no chain of a table is longer than a bound, no simulation makes more reductions, whether it
succeeds or fails. So all limits from the bound on are one: under each of them a parse takes the
same steps, through its recoveries too.
-/
namespace TableParsing

namespace GrammarTable

variable {t : GrammarTable} {s : Symbol} {path last : List StateId} {act : Action}
  {bound limit limit' n : Nat} {word : UInt64} {out : Option (Action × List StateId)}

theorem simulate_eq_some_iff : t.simulate s limit path = some (act, last) ↔
    ∃ k ≤ limit, t.Chain s k path last ∧ t.Settled s act last := by
  constructor
  · exact chain_of_simulate
  · rintro ⟨k, hk, hc, hs⟩
    exact simulate_chain hc hs hk

theorem ChainsWithin.simulate_eq (h : t.ChainsWithin bound) (hl : bound ≤ limit)
    (hl' : bound ≤ limit') (s : Symbol) (path : List StateId) :
    t.simulate s limit path = t.simulate s limit' path := by
  refine Option.ext fun (act, last) => ?_
  rw [simulate_eq_some_iff, simulate_eq_some_iff]
  constructor
  · rintro ⟨k, _, hc, hs⟩
    exact ⟨k, Nat.le_trans (h hc) hl', hc, hs⟩
  · rintro ⟨k, _, hc, hs⟩
    exact ⟨k, Nat.le_trans (h hc) hl, hc, hs⟩

/-- All rounds of a simulation but the last make a reduction each. -/
theorem chain_of_ends (h : Ends (t.simulateBody s limit) (n + 1) (word, path) out) :
    ∃ last, t.Chain s n path last := by
  induction n generalizing word path with
  | zero => exact ⟨path, .nil path⟩
  | succ n ih =>
    cases h with
    | @again _ _ state _ hround h =>
      obtain ⟨word', next⟩ := state
      obtain ⟨_, _, id, p, hr⟩ := reduces_of_round hround
      obtain ⟨last, hc⟩ := ih h
      exact ⟨last, .cons hr hc⟩

/-- A simulation makes no more reductions than the longest chain has, under any limit. -/
theorem ChainsWithin.simulate_ends (h : t.ChainsWithin bound) (hword : bound + 1 < wordBound)
    (s : Symbol) (limit : Nat) (path : List StateId) :
    ∃ n ≤ bound, Ends (t.simulateBody s limit) (n + 1) (0, path) (t.simulate s limit path) := by
  have hcounted : t.Counted s (0 : UInt64).toNat limit path := h.counted (by simpa using hword)
  obtain ⟨n, _, he⟩ := hcounted.ends
  rw [UInt64.toNat_zero, Nat.zero_add] at he
  obtain ⟨n, rfl⟩ : ∃ m, n = m + 1 := by
    cases he with
    | stop => exact ⟨0, rfl⟩
    | again => exact ⟨_, rfl⟩
  obtain ⟨last, hc⟩ := chain_of_ends he
  exact ⟨n, h hc, he⟩

end GrammarTable

namespace Job

variable {job : Job} {options : ParseOptions} {r : Run} {s : Symbol}

/-- The other options allow recovery the same, and every simulation ends the same under them. -/
structure Alike (job : Job) (options : ParseOptions) : Prop where
  insertMissing : job.options.insertMissing = options.insertMissing
  simulate : ∀ s path, job.table.simulate s options.reductionLimit path =
    job.table.simulate s job.options.reductionLimit path

theorem Alike.isViable (h : job.Alike options) : (job.under options).isViable = job.isViable := by
  funext path s
  exact congrArg Option.isSome (h.simulate s path)

theorem Alike.dispatch (h : job.Alike options) (r : Run) :
    (job.under options).dispatch r = job.dispatch r := by
  simp only [Job.dispatch, h.isViable]
  rfl

theorem Alike.isAdmissible (h : job.Alike options) :
    (job.under options).isAdmissible = job.isAdmissible := by
  funext path lookahead s
  have hs : (job.under options).table.simulate s (job.under options).options.reductionLimit path =
      job.table.simulate s job.options.reductionLimit path := h.simulate s path
  simp only [Job.isAdmissible, hs, h.isViable]
  rfl

theorem Alike.missingCandidate? (h : job.Alike options) (r : Run) :
    (job.under options).missingCandidate? r = job.missingCandidate? r := by
  simp only [Job.missingCandidate?, h.isAdmissible]
  rfl

theorem supply_under (job : Job) (options : ParseOptions) (s : Symbol) (limit : Nat) (r : Run) :
    (job.under options).supply s limit r = job.supply s limit r := by
  induction limit generalizing r with
  | zero =>
    unfold Job.supply
    rfl
  | succ limit ih =>
    unfold Job.supply
    simp only [ih]
    rfl

/-- Both limits allow the reductions that a candidate takes. -/
theorem Alike.chain (h : job.Alike options) (hm : job.missingCandidate? r = some s) :
    ∃ k next path, k ≤ job.options.reductionLimit ∧ k ≤ options.reductionLimit ∧
      job.table.Chain s k r.stack.path path ∧ job.table.Settled s (.shift next) path := by
  obtain ⟨k, next, path, ha⟩ := admissible_of_candidate hm
  obtain ⟨k', next', path', ha'⟩ := admissible_of_candidate ((h.missingCandidate? r).trans hm)
  -- The two chains are the same one; the smaller limit allows it, hence both do.
  rcases Nat.le_total job.options.reductionLimit options.reductionLimit with hle | hle
  · exact ⟨k, next, path, ha.bound, Nat.le_trans ha.bound hle, ha.chain, ha.settled⟩
  · exact ⟨k', next', path', Nat.le_trans ha'.bound hle, ha'.bound, ha'.chain, ha'.settled⟩

theorem Alike.supply (h : job.Alike options) (hc : r.stack.Coherent)
    (hm : job.missingCandidate? r = some s) :
    (job.under options).supply s options.reductionLimit r =
      job.supply s job.options.reductionLimit r := by
  obtain ⟨k, next, path, hk, hk', hchain, hsettled⟩ := h.chain hm
  obtain ⟨last, hr, rfl, hlc⟩ := replays_of_chain hc hchain
  have ha : job.table.action? last.stack.topState s = some (.shift next) := by
    rw [hlc.action?_topState]
    exact hsettled.1
  rw [supply_under, supply_of_replays hr ha hk, supply_of_replays hr ha hk']

theorem Alike.recover (h : job.Alike options) (hc : r.stack.Coherent) :
    (job.under options).recover r = job.recover r := by
  have hallow : (job.under options).options.insertMissing = job.options.insertMissing :=
    h.insertMissing.symm
  simp only [Job.recover, hallow, h.missingCandidate?]
  split
  · rename_i s hs
    have hm : job.missingCandidate? r = some s := by
      split at hs
      · exact hs
      · cases hs
    have hsupply : (job.under options).insertMissing s r = job.insertMissing s r := by
      simp only [Job.insertMissing]
      exact congrArg (fun r : Run =>
        { r.report (.absent (job.table.displayName s) r.lastEnd) with mergeSkips := false })
        (h.supply hc hm)
    rw [hsupply]
    rfl
  · have hend : (job.under options).recoverAtEnd r = job.recoverAtEnd r := by
      simp only [Job.recoverAtEnd, h.isViable]
      rfl
    rw [hend]
    rfl

theorem Alike.step (h : job.Alike options) (hr : job.Reachable r) :
    (job.under options).step r = job.step r := by
  cases hphase : r.phase with
  | scanning =>
    rw [step_of_scanning hphase, step_of_scanning hphase, scan_under, h.dispatch]
  | shifting =>
    simp only [Job.step, hphase]
    rfl
  | reducing =>
    obtain ⟨id, ha⟩ := hr.steady.reducing hphase
    have ha' : (job.under options).currentAction? r = some (.reduce id) := ha
    simp only [Job.step, hphase, reduceStep, ha, ha']
    rfl
  | recovering =>
    simp only [Job.step, hphase]
    exact h.recover hr.steady.coherent
  | accepting | gaveUp => simp only [Job.step, hphase]

theorem Alike.iterate (h : job.Alike options) (hr : job.Reachable r) (n : Nat) :
    (job.under options).step^[n] r = job.step^[n] r := by
  induction n generalizing r with
  | zero => rfl
  | succ n ih =>
    rw [Function.iterate_succ_apply, Function.iterate_succ_apply, h.step hr]
    exact ih hr.step

theorem Alike.finish (h : job.Alike options) : (job.under options).finish = job.finish := by
  have hfinish : job.finish = job.step^[job.stepBound] Run.initial := runFor_eq_iterate _ _ _
  have hsame := h.iterate .initial job.stepBound
  have hfinal : ((job.under options).step^[job.stepBound] Run.initial).phase.isFinal = true := by
    rw [hsame, ← hfinish]
    exact job.finish_final
  rw [finish_eq hfinal, hsame, hfinish]

end Job

namespace Parser

/-- Under limits that no chain of the table exceeds the parses of a text are equal. -/
theorem parse_eq_of_chainsWithin {l : Language} {bound : Nat} (h : l.table.ChainsWithin bound)
    {options options' : ParseOptions} (text : Text)
    (hsame : options.insertMissing = options'.insertMissing)
    (hl : bound ≤ options.reductionLimit) (hl' : bound ≤ options'.reductionLimit) :
    Parser.parse ⟨l, options⟩ text = Parser.parse ⟨l, options'⟩ text := by
  let job := Parser.job ⟨l, options⟩ text
  have halike : job.Alike options' := ⟨hsame, h.simulate_eq hl' hl⟩
  change _ = SyntaxTree.mk ((job.under options').assembleRoot (job.under options').finish.phase
    (job.under options').finish.stack.nodes) text l (job.under options').finish.errors.reverse
  rw [halike.finish]
  rfl

end Parser

end TableParsing
