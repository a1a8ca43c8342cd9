import Mathlib.Logic.Function.Iterate
import TableParsing.Proofs.Reachable

/-!
# Simulation and parse agree

What a simulation finds on the path of a reachable stack, the reductions on the stack do, one by
one. So no reduction of a parse fails, and recovery begins only at a lookahead just scanned.
-/
namespace TableParsing.Job

variable {job : Job} {r r' last : Run} {s : Symbol} {id : ProductionId} {path : List StateId}
  {act : Action} {k limit : Nat}

/-- The states of the loop that supplies a missing token, with the reductions still allowed. -/
inductive Supplying (job : Job) (s : Symbol) : Nat → Run → Prop
  | start {r : Run} : job.Reachable r → r.phase = .recovering →
      job.options.insertMissing = true → job.missingCandidate? r = some s →
      Supplying job s job.options.reductionLimit r
  | next {limit : Nat} {r last : Run} {id : ProductionId} : Supplying job s (limit + 1) r →
      job.table.action? r.stack.topState s = some (.reduce id) →
      job.reduce r ((job.table.production? id).getD default) = (true, last) →
      Supplying job s limit last

/-- The calls of `reduce` in a parse: of steps that reduce, and of the loop that supplies a missing
token. -/
inductive Calls (job : Job) : Run → ProductionId → Prop
  | reducing {r : Run} {id : ProductionId} : job.Reachable r → r.phase = .reducing →
      job.currentAction? r = some (.reduce id) → Calls job r id
  | supplying {s : Symbol} {limit : Nat} {r : Run} {id : ProductionId} : Supplying job s limit r →
      job.table.action? r.stack.topState s = some (.reduce id) → Calls job r id

theorem OnCourse.phase_ne (h : job.OnCourse r) (hc : r.stack.Coherent) :
    r.phase ≠ .recovering ∧ r.phase ≠ .scanning := by
  obtain ⟨_, hp, _⟩ | ⟨_, hp, _⟩ | ⟨hp, _⟩ := h.cases hc <;> simp [hp]

/-- Each step of reducing follows one reduction of the chain. -/
theorem reduceStep_iterate (hc : r.stack.Coherent)
    (h : job.table.Chain r.lookahead.symbol k r.stack.path path) :
    (∀ i < k, ∃ id p state, job.currentAction? (job.reduceStep^[i] r) = some (.reduce id) ∧
      job.table.production? id = some p ∧ job.Performs (job.reduceStep^[i] r) p state) ∧
    (job.reduceStep^[k] r).stack.path = path ∧ (job.reduceStep^[k] r).stack.Coherent ∧
    (job.reduceStep^[k] r).lookahead = r.lookahead := by
  induction k generalizing r with
  | zero =>
    cases h
    exact ⟨fun i hi => absurd hi (Nat.not_lt_zero i), rfl, hc, rfl⟩
  | succ k ih =>
    cases h with
    | @cons _ id p _ _ _ hr h =>
      obtain ⟨state, ha, hp, hs, hn⟩ := reduceStep_of_reduces hc hr
      simp only [Function.iterate_succ, Function.comp_apply, hs]
      obtain ⟨hi, hpath, hlc, hl⟩ := ih (r := job.continued r p state) (coherent_reduced hc)
        (by rw [hn]; exact h)
      refine ⟨fun i hik => ?_, hpath, hlc, hl⟩
      cases i with
      | zero => exact ⟨id, p, state, ha, hr.production, hp⟩
      | succ i =>
        simp only [Function.iterate_succ, Function.comp_apply, hs]
        exact hi i (by omega)

/-- The loop is always on the way to the shift that was simulated, within its limit. -/
theorem Supplying.chain (h : job.Supplying s limit r) : r.stack.Coherent ∧
    ∃ k ≤ limit, ∃ next path, job.table.Chain s k r.stack.path path ∧
      job.table.Settled s (.shift next) path := by
  induction h with
  | start hr _ _ hm =>
    obtain ⟨k, next, path, ha⟩ := admissible_of_candidate hm
    exact ⟨hr.steady.coherent, k, ha.bound, next, path, ha.chain, ha.settled⟩
  | next _ hact hred ih =>
    obtain ⟨hc, k, hk, next, path, hch, hs⟩ := ih
    rw [hc.action?_topState] at hact
    -- The reduction made is the first one of the chain that was simulated.
    obtain ⟨k, p, mid, rfl, hr, hch⟩ := hch.uncons hs hact
    obtain ⟨state, hp, hn⟩ := performs_of_reducePath hc hr.reduced
    rw [hr.production, Option.getD_some, hp.succeeds] at hred
    cases hred
    refine ⟨coherent_reduced hc, k, by omega, next, path, ?_, hs⟩
    rw [hn]
    exact hch

theorem Supplying.performs (h : job.Supplying s limit r)
    (ha : job.table.action? r.stack.topState s = some (.reduce id)) :
    0 < limit ∧ ∃ p state, job.table.production? id = some p ∧ job.Performs r p state := by
  obtain ⟨hc, k, hk, next, path, hch, hs⟩ := h.chain
  rw [hc.action?_topState] at ha
  obtain ⟨k, p, mid, rfl, hr, _⟩ := hch.uncons hs ha
  obtain ⟨state, hp, _⟩ := performs_of_reducePath hc hr.reduced
  exact ⟨by omega, p, state, hr.production, hp⟩

theorem Calls.performs (h : job.Calls r id) :
    ∃ p state, job.table.production? id = some p ∧ job.Performs r p state := by
  cases h with
  | reducing hr hp ha =>
    have hst := hr.steady
    obtain ⟨p, state, hprod, hperf, _⟩ :=
      (hst.onCourse (.inr (.inl hp))).reduceStep hst.coherent ha
    exact ⟨p, state, hprod, hperf⟩
  | supplying hs ha => exact (hs.performs ha).2

theorem Steps.recovering (hst : job.Steady r) (h : job.Steps r r') (hp : r'.phase = .recovering) :
    r.phase = .scanning ∧ job.dispatch (job.scan r) = .recovering ∧
      r' = { job.scan r with phase := .recovering } := by
  have hc := (h.steady hst).coherent
  cases h with
  | scanned hs =>
    refine ⟨hs, hp, ?_⟩
    rw [show job.dispatch (job.scan r) = .recovering from hp]
  | shifted => cases hp
  | shiftedEnd => cases hp
  | reduced _ _ _ _ ho => exact absurd hp (ho.phase_ne hc).1
  | recovered _ hr =>
    cases hr with
    | supplied _ _ ha hr hpath _ =>
      exact absurd hp ((supplied_course ha hr hpath).phase_ne hc).1
    | wrapped _ hl hs => exact absurd hp ((wrapped_course hl hs).phase_ne hc).1
    | gaveUp => cases hp
    | skipped => cases hp
  | ended he =>
    rw [hp] at he
    cases he

/-- A simulation on the path of a reachable stack is replayed by the stack: as many reductions, each
with a state to go to and all its children, the same states and the same action at the end. Hence
every reduction that a parse performs succeeds, a step that shifts finds its shift, and a parse goes
into recovery only when it has just scanned the lookahead. -/
theorem simulation_agrees (p : Parser) (text : Text) :
    let job := p.job text
    (∀ r act path, job.Reachable r →
      job.table.simulate r.lookahead.symbol job.options.reductionLimit r.stack.path =
        some (act, path) →
      ∃ k ≤ job.options.reductionLimit, job.table.Chain r.lookahead.symbol k r.stack.path path ∧
        (∀ i < k, ∃ id q state, job.currentAction? (job.reduceStep^[i] r) = some (.reduce id) ∧
          job.table.production? id = some q ∧ job.Performs (job.reduceStep^[i] r) q state) ∧
        (job.reduceStep^[k] r).stack.path = path ∧
        job.currentAction? (job.reduceStep^[k] r) = some act ∧ act.isReduction = false) ∧
    (∀ r id, job.Calls r id →
      ∃ q state, job.table.production? id = some q ∧ job.Performs r q state) ∧
    (∀ r, job.Reachable r → r.phase = .shifting →
      ∃ next, job.currentAction? r = some (.shift next)) ∧
    (∀ r, job.Reachable r → (job.step r).phase = .recovering →
      r.phase = .scanning ∧ job.dispatch (job.scan r) = .recovering ∧
      job.step r = { job.scan r with phase := .recovering }) := by
  intro job
  refine ⟨fun r act path hr hsim => ?_, fun r id hc => hc.performs, fun r hr => hr.steady.shifting,
    fun r hr hp => hr.steps.recovering hr.steady hp⟩
  obtain ⟨k, hk, hch, hset⟩ := GrammarTable.chain_of_simulate hsim
  obtain ⟨hi, hpath, hlc, hl⟩ := reduceStep_iterate hr.steady.coherent hch
  refine ⟨k, hk, hch, hi, hpath, ?_, hset.2⟩
  rw [job.currentAction?_eq hlc, hl, hpath]
  exact hset.1

/-- After the word supplied to the empty text one reduction is simulated and one is made. -/
theorem simulation_agrees_word :
    let job := Word.job
    let r := Word.resumed
    (job.Reachable r ∧ job.table.simulate r.lookahead.symbol job.options.reductionLimit
        r.stack.path = some (.accept, [1, 0]) ∧
      ∃ k ≤ job.options.reductionLimit, job.table.Chain r.lookahead.symbol k r.stack.path [1, 0] ∧
        (∀ i < k, ∃ id q state, job.currentAction? (job.reduceStep^[i] r) = some (.reduce id) ∧
          job.table.production? id = some q ∧ job.Performs (job.reduceStep^[i] r) q state) ∧
        (job.reduceStep^[k] r).stack.path = [1, 0] ∧
        job.currentAction? (job.reduceStep^[k] r) = some .accept ∧
        Action.accept.isReduction = false) ∧
    (job.Calls r 0 ∧ ∃ q state, job.table.production? 0 = some q ∧ job.Performs r q state) ∧
    (Word.letterJob.Reachable Word.scanned ∧ Word.scanned.phase = .shifting ∧
      ∃ next, Word.letterJob.currentAction? Word.scanned = some (.shift next)) ∧
    (job.Reachable Run.initial ∧ (job.step Run.initial).phase = .recovering ∧
      Run.initial.phase = .scanning ∧ job.dispatch (job.scan Run.initial) = .recovering ∧
      job.step Run.initial = { job.scan Run.initial with phase := .recovering }) := by
  intro job r
  have hempty := simulation_agrees Word.parser #[]
  have hletter := simulation_agrees Word.parser #[0x61]
  have hr : job.Reachable r := Word.resumed_reachable
  have hsim : job.table.simulate r.lookahead.symbol job.options.reductionLimit r.stack.path =
      some (.accept, [1, 0]) := rfl
  have hcall : job.Calls r 0 := .reducing hr rfl rfl
  have hrec : (job.step Run.initial).phase = .recovering := by
    rw [Word.step_initial]
    rfl
  exact ⟨⟨hr, hsim, hempty.1 r _ _ hr hsim⟩, ⟨hcall, hempty.2.1 r 0 hcall⟩,
    ⟨Word.scanned_reachable, rfl, hletter.2.2.1 _ Word.scanned_reachable rfl⟩,
    .initial, hrec, hempty.2.2.2 _ .initial hrec⟩

end TableParsing.Job
