import TableParsing.Proofs.Termination

/-!
# Texts without errors

A parse reports no error exactly when the automaton, asking the lexer for one token after another,
finds a way through the whole text. Recovery and unlexable bytes always leave an error, and errors
are never taken back.
-/
namespace TableParsing

namespace Job

open GrammarTable

variable {job : Job} {r r' : Run} {s : Symbol} {path last : List StateId} {pos k n : Nat}
  {token : Token} {tokens : List Token} {act : Action}

/-- The external tokens with an action on this path. -/
def validOn (job : Job) (path : List StateId) : List Bool :=
  job.table.externalTokens.map fun s => (job.table.actionOn? s path).isSome

def lexemeOn (job : Job) (path : List StateId) (pos : Nat) : Lexeme :=
  job.grammar.lexemeAt job.text (job.validOn path) pos

/-- The simulation with the limit of the job. -/
def settles? (job : Job) (path : List StateId) (s : Symbol) : Option (Action × List StateId) :=
  job.table.simulate s job.options.reductionLimit path

/-- From this path and position the tokens are read without an error until a symbol is accepted. -/
inductive Accepts (job : Job) : List StateId → Nat → List Token → Prop
  | ended {path last : List StateId} {pos : Nat} : job.lexemeOn path pos = .endOfText →
      job.settles? path Symbol.endOfInput = some (.accept, last) → Accepts job path pos []
  | stopped {path last : List StateId} {pos : Nat} {token : Token} :
      job.lexemeOn path pos = .token token → job.table.isExtra token.symbol = false →
      job.settles? path token.symbol = some (.accept, last) → Accepts job path pos []
  | extra {path : List StateId} {pos : Nat} {token : Token} {tokens : List Token} :
      job.lexemeOn path pos = .token token → job.table.isExtra token.symbol = true →
      Accepts job path token.span.stop tokens → Accepts job path pos (token :: tokens)
  | shifted {path last : List StateId} {pos : Nat} {token : Token} {tokens : List Token}
      {next : StateId} : job.lexemeOn path pos = .token token →
      job.table.isExtra token.symbol = false → token.symbol ≠ Symbol.endOfInput →
      job.settles? path token.symbol = some (.shift next, last) →
      Accepts job (next :: last) token.span.stop tokens → Accepts job path pos (token :: tokens)

theorem nextLexeme_eq (hc : r.stack.Coherent) :
    job.nextLexeme r = job.lexemeOn r.stack.path r.position := by
  simp only [nextLexeme, lexemeOn, validExternals, validOn, hc.action?_topState]

theorem step_of_final (h : r.phase.isFinal = true) : job.step r = r := by
  cases hp : r.phase <;> simp_all [step, Phase.isFinal]

theorem runFor_eq_iterate (job : Job) (n : Nat) (r : Run) : job.runFor n r = job.step^[n] r := by
  induction n generalizing r with
  | zero => rfl
  | succ n ih =>
    rw [runFor, Function.iterate_succ_apply]
    split
    · rename_i hf
      rw [step_of_final hf, Function.iterate_fixed (step_of_final hf)]
    · exact ih (job.step r)

/-- All steps after the end lead to the same run. -/
theorem iterate_of_final (h : (job.step^[n] r).phase.isFinal = true) (m : Nat) :
    job.step^[m + n] r = job.step^[n] r := by
  rw [Function.iterate_add_apply, Function.iterate_fixed (step_of_final h)]

/-- A parse finishes in whatever final run its steps lead to. -/
theorem finish_eq (h : (job.step^[n] Run.initial).phase.isFinal = true) :
    job.finish = job.step^[n] Run.initial := by
  have hfin := job.finish_final
  have hfinish : job.finish = job.step^[job.stepBound] Run.initial := runFor_eq_iterate _ _ _
  rw [hfinish] at hfin ⊢
  rw [← iterate_of_final hfin n, Nat.add_comm, iterate_of_final h]

/-! ## The way through the text is taken -/

/-- A viable lookahead is met in the phase of its action. -/
theorem dispatch_of_viable (h : job.isViable r.stack.path r.lookahead.symbol = true) :
    job.dispatch r = job.phaseForLookahead r := by
  unfold dispatch phaseForLookahead
  split
  · rename_i id ha
    simp [ha, h]
  · rfl

/-- `k` steps of reducing, each with success, lead from one run to another. -/
inductive Reducing (job : Job) : Nat → Run → Run → Prop
  | nil (r : Run) : Reducing job 0 r r
  | cons {k : Nat} {r last : Run} {id : ProductionId} {p : Production} {state : StateId} :
      r.phase = .reducing → job.currentAction? r = some (.reduce id) →
      job.table.production? id = some p → job.Performs r p state →
      Reducing job k (job.continued r p state) last → Reducing job (k + 1) r last

theorem step_of_performs {id : ProductionId} {p : Production} {state : StateId}
    (hp : r.phase = .reducing) (ha : job.currentAction? r = some (.reduce id))
    (hprod : job.table.production? id = some p) (h : job.Performs r p state) :
    job.step r = job.continued r p state := by
  simp only [step, hp, reduceStep, ha, hprod, Option.getD_some, h.succeeds, ite_true, continued]

theorem Reducing.iterate (h : job.Reducing k r r') : job.step^[k] r = r' := by
  induction h with
  | nil => rfl
  | cons hp ha hprod hperf _ ih =>
    rw [Function.iterate_succ_apply, step_of_performs hp ha hprod hperf]
    exact ih

theorem Reducing.fields (h : job.Reducing k r r') :
    r'.lookahead = r.lookahead ∧ r'.errors = r.errors := by
  induction h with
  | nil => exact ⟨rfl, rfl⟩
  | cons _ _ _ _ _ ih => exact ih

/-- A chain of reductions is followed step by step. -/
theorem reducing_of_chain (hc : r.stack.Coherent) (hp : r.phase = job.phaseForLookahead r)
    (h : job.table.Chain r.lookahead.symbol k r.stack.path last) :
    ∃ r', job.Reducing k r r' ∧ r'.stack.path = last ∧ r'.stack.Coherent ∧
      r'.phase = job.phaseForLookahead r' := by
  induction k generalizing r with
  | zero =>
    cases h
    exact ⟨r, .nil r, rfl, hc, hp⟩
  | succ k ih =>
    cases h with
    | @cons _ id p _ _ _ hr h =>
      obtain ⟨state, ha, hperf, _, hn⟩ := reduceStep_of_reduces hc hr
      have hred : r.phase = .reducing := by
        rw [hp, phaseForLookahead, ha]
      rw [← hn] at h
      obtain ⟨r', hlast, hend⟩ :=
        ih (r := job.continued r p state) (coherent_reduced hc) rfl h
      exact ⟨r', .cons hred ha hr.production hperf hlast, hend⟩

/-- A scanned lookahead that settles is brought to the action it settles on. -/
theorem iterate_settles (hc : r.stack.Coherent) (hp : r.phase = .scanning)
    (hscan : job.scan r = { r with lookahead := token })
    (h : job.settles? r.stack.path token.symbol = some (act, last)) :
    ∃ k r', job.step^[k + 1] r = r' ∧ r'.stack.path = last ∧ r'.stack.Coherent ∧
      r'.lookahead = token ∧ r'.errors = r.errors ∧ r'.phase = job.phaseForLookahead r' ∧
      job.currentAction? r' = some act := by
  obtain ⟨k, hk, hch, hset⟩ := chain_of_simulate h
  have hv : job.isViable r.stack.path token.symbol = true :=
    isViable_iff.mpr ⟨k, hk, act, last, hch, hset⟩
  have hphase := dispatch_of_viable (r := { r with lookahead := token }) hv
  obtain ⟨r', hred, hpath, hlc, hp'⟩ := reducing_of_chain
    (r := { r with lookahead := token, phase := job.dispatch { r with lookahead := token } })
    hc hphase hch
  obtain ⟨hl, he⟩ := hred.fields
  refine ⟨k, r', ?_, hpath, hlc, hl, he, hp', ?_⟩
  · rw [Function.iterate_succ_apply, step_of_scanning hp, hscan]
    exact hred.iterate
  · rw [job.currentAction?_eq hlc, hpath, hl]
    exact hset.1

/-- A scanned lookahead that settles on acceptance ends the parse without an error of its own. -/
theorem iterate_accepts (hc : r.stack.Coherent) (hp : r.phase = .scanning)
    (hscan : job.scan r = { r with lookahead := token })
    (h : job.settles? r.stack.path token.symbol = some (.accept, last)) :
    ∃ n, (job.step^[n] r).phase = .accepting ∧ (job.step^[n] r).errors = r.errors := by
  obtain ⟨k, r', hr, _, _, _, hre, hrp, ha⟩ := iterate_settles hc hp hscan h
  refine ⟨k + 1, ?_⟩
  rw [hr, hrp, phaseForLookahead, ha]
  exact ⟨rfl, hre⟩

theorem scan_of_extra (h : job.nextLexeme r = .token token)
    (hx : job.table.isExtra token.symbol = true) :
    job.scan r = job.scan (r.pushExtra (job.leaf token)) := by
  conv_lhs => rw [scan]
  split <;> simp_all

theorem scan_of_unlexable {span : Span} (h : job.nextLexeme r = .unlexable span) :
    job.scan r = job.scan ((r.report
      (.unrecognized (job.text.slice span) span)).pushExtra (Node.error span [])) := by
  conv_lhs => rw [scan]
  split <;> simp_all

/-- A token with a shift in the current state is on the stack after two steps. -/
theorem iterate_shift {next : StateId} (hp : r.phase = .scanning)
    (hn : job.nextLexeme r = .token token) (hx : job.table.isExtra token.symbol = false)
    (he : token.symbol ≠ Symbol.endOfInput)
    (ha : job.table.action? r.stack.topState token.symbol = some (.shift next)) :
    job.step^[2] r = { r.advance token.span.stop with
      lookahead := token
      stack := r.stack.shift next (job.leaf token)
      phase := .scanning } := by
  have hcurrent : job.currentAction? { r with lookahead := token } = some (.shift next) := ha
  have hdispatch : job.dispatch { r with lookahead := token } = .shifting := by
    simp only [dispatch, phaseForLookahead, hcurrent]
  rw [Function.iterate_succ_apply, step_of_scanning hp, scan_of_token hn hx, hdispatch,
    Function.iterate_one]
  change job.shift { r with lookahead := token, phase := .shifting } = _
  rw [shift, show job.currentAction? { r with lookahead := token, phase := .shifting } = _ from ha]
  simp only [if_neg he]
  rfl

theorem iterate_of_accepts (h : job.Accepts path pos tokens) (hc : r.stack.Coherent)
    (hp : r.phase = .scanning) (hpath : r.stack.path = path) (hpos : r.position = pos)
    (he : r.errors = []) :
    ∃ n, (job.step^[n] r).phase = .accepting ∧ (job.step^[n] r).errors = [] := by
  induction h generalizing r with
  | ended hl hs =>
    rw [← hpath, ← hpos, ← nextLexeme_eq hc] at hl
    rw [← hpath] at hs
    exact he ▸ iterate_accepts hc hp (scan_of_endOfText hl) hs
  | stopped hl hx hs =>
    rw [← hpath, ← hpos, ← nextLexeme_eq hc] at hl
    rw [← hpath] at hs
    exact he ▸ iterate_accepts hc hp (scan_of_token hl hx) hs
  | @extra _ _ token _ hl hx _ ih =>
    rw [← hpath, ← hpos, ← nextLexeme_eq hc] at hl
    have hpushed : (r.pushExtra (job.leaf token)).phase = .scanning := hp
    obtain ⟨n, hn⟩ := ih (r := r.pushExtra (job.leaf token)) (hc.pushExtra _) hpushed
      ((Stack.path_pushExtra _ _).trans hpath) rfl he
    -- Extras are scanned within one step, so the first step behind the extra is the first one here.
    cases n with
    | zero =>
      rw [Function.iterate_zero_apply, hpushed] at hn
      cases hn.1
    | succ n =>
      refine ⟨n + 1, ?_⟩
      rw [Function.iterate_succ_apply] at hn ⊢
      rw [step_of_scanning hp, scan_of_extra hl hx, ← step_of_scanning hpushed]
      exact hn
  | @shifted _ last _ token _ next hl hx hne hs _ ih =>
    rw [← hpath, ← hpos, ← nextLexeme_eq hc] at hl
    subst hpath
    obtain ⟨k, r', hr, hrpath, hrc, hrl, hre, hrp, ha⟩ :=
      iterate_settles hc hp (scan_of_token hl hx) hs
    rw [phaseForLookahead, ha] at hrp
    have hstep : job.step r' = { r'.advance r'.lookahead.span.stop with
        stack := r'.stack.shift next (job.leaf r'.lookahead)
        phase := .scanning } := by
      simp only [step, hrp, shift, ha, hrl, hne, if_false]
    obtain ⟨n, hn⟩ := ih (r := job.step r') (by rw [hstep]; exact hrc.shift _ rfl)
      (by rw [hstep]) (by rw [hstep, ← hrpath]; exact Stack.path_shift _ _ rfl)
      (by rw [hstep, hrl]; rfl) (by rw [hstep]; exact hre.trans he)
    refine ⟨n + (1 + (k + 1)), ?_⟩
    rw [Function.iterate_add_apply, Function.iterate_add_apply, hr, Function.iterate_one]
    exact hn

/-! ## Errors stay -/

/-- Giving up and skipping are never silent. -/
structure Blamed (r : Run) : Prop where
  gaveUp : r.phase = .gaveUp → r.errors ≠ []
  merging : r.mergeSkips = true → r.errors ≠ []

theorem scan_errors (job : Job) (r : Run) : r.errors.length ≤ (job.scan r).errors.length ∧
    ((r.mergeSkips = true → r.errors ≠ []) →
      (job.scan r).mergeSkips = true → (job.scan r).errors ≠ []) := by
  obtain ⟨r', hr, ⟨_, hs⟩ | ⟨_, _, _, hs⟩⟩ := job.scan_cases
    (P := fun r' => r.errors.length ≤ r'.errors.length ∧
      ((r.mergeSkips = true → r.errors ≠ []) → r'.mergeSkips = true → r'.errors ≠ []))
    (fun r' token _ _ h => ⟨h.1, fun _ hm => absurd hm Bool.false_ne_true⟩)
    (fun r' span _ h => ⟨Nat.le_succ_of_le h.1, fun _ hm => absurd hm Bool.false_ne_true⟩)
    ⟨Nat.le_refl _, id⟩
  · rw [hs]
    exact hr
  · rw [hs]
    exact hr

theorem extendNewest_length (stop : Nat) (errors : List SyntaxError) :
    (extendNewest stop errors).length = errors.length := by
  cases errors <;> rfl

/-- Leaving recovery leaves an error. -/
theorem Recovers.errors_ne_nil (h : job.Recovers r r') (hb : Blamed r) :
    r'.errors ≠ [] ∧ r.errors.length ≤ r'.errors.length := by
  cases h with
  | supplied _ _ _ hr =>
    refine ⟨List.cons_ne_nil _ _, ?_⟩
    rw [← hr.fields.2.2.2]
    exact Nat.le_succ _
  | wrapped => exact ⟨List.cons_ne_nil _ _, Nat.le_succ _⟩
  | gaveUp => exact ⟨List.cons_ne_nil _ _, Nat.le_succ _⟩
  | skipped =>
    unfold skipLookahead
    split
    · rename_i ho
      have hlen := extendNewest_length r.lookahead.span.stop r.errors
      refine ⟨?_, Nat.le_of_eq hlen.symm⟩
      rw [← List.length_pos_iff]
      change 0 < (extendNewest r.lookahead.span.stop r.errors).length
      rw [hlen]
      exact List.length_pos_iff.mpr (hb.merging (openSkip?_eq_some ho).2)
    · exact ⟨List.cons_ne_nil _ _, Nat.le_succ _⟩

theorem Steps.errors_length (h : job.Steps r r') (hb : Blamed r) :
    r.errors.length ≤ r'.errors.length := by
  cases h with
  | scanned => exact (job.scan_errors r).1
  | shiftedEnd => exact Nat.le_succ _
  | recovered _ hr => exact (hr.errors_ne_nil hb).2
  | shifted | reduced | ended => exact Nat.le_refl _

theorem phaseForLookahead_ne_gaveUp (job : Job) (r : Run) : job.phaseForLookahead r ≠ .gaveUp := by
  unfold phaseForLookahead
  split <;> simp

theorem dispatch_ne_gaveUp (job : Job) (r : Run) : job.dispatch r ≠ .gaveUp := by
  unfold dispatch
  split
  · split <;> simp
  · exact job.phaseForLookahead_ne_gaveUp r

theorem Steps.blamed (h : job.Steps r r') (hb : Blamed r) : Blamed r' := by
  cases h with
  | scanned =>
    exact ⟨fun hg => absurd hg (job.dispatch_ne_gaveUp _), (job.scan_errors r).2 hb.merging⟩
  | shifted => exact ⟨fun hg => (by cases hg), fun hm => absurd hm Bool.false_ne_true⟩
  | shiftedEnd => exact ⟨fun _ => List.cons_ne_nil _ _, fun _ => List.cons_ne_nil _ _⟩
  | reduced =>
    exact ⟨fun hg => absurd hg (job.phaseForLookahead_ne_gaveUp _),
      fun hm => absurd hm Bool.false_ne_true⟩
  | recovered _ hr =>
    have he := (hr.errors_ne_nil hb).1
    exact ⟨fun _ => he, fun _ => he⟩
  | ended => exact hb

theorem Reachable.blamed (h : job.Reachable r) : Blamed r := by
  induction h with
  | initial => exact ⟨fun hg => (by cases hg), fun hm => absurd hm Bool.false_ne_true⟩
  | step h ih => exact h.steps.blamed ih

theorem Reachable.errors_eq_nil (h : job.Reachable r) (he : (job.step^[n] r).errors = []) :
    r.errors = [] := by
  induction n generalizing r with
  | zero => exact he
  | succ n ih =>
    have hs := ih h.step he
    have hlen := h.steps.errors_length h.blamed
    rw [hs] at hlen
    exact List.eq_nil_of_length_eq_zero (Nat.le_zero.mp hlen)

/-! ## Only the way through the text is taken -/

/-- What may follow a lookahead that settles: acceptance, or a shift and the rest of the text. -/
def Continues (job : Job) (token : Token) (last : List StateId) : Action → Prop
  | .accept => True
  | .shift next => token.symbol ≠ Symbol.endOfInput ∧
      ∃ tokens, job.Accepts (next :: last) token.span.stop tokens
  | .reduce _ => False

theorem accepts_of_scan (hc : r.stack.Coherent) (he : (job.scan r).errors = [])
    (hs : job.settles? (job.scan r).stack.path (job.scan r).lookahead.symbol = some (act, last))
    (hcont : job.Continues (job.scan r).lookahead last act) :
    ∃ tokens, job.Accepts r.stack.path r.position tokens := by
  fun_induction Job.scan job r with
  | case1 r hn =>
    rw [nextLexeme_eq hc] at hn
    cases act with
    | accept => exact ⟨[], .ended hn hs⟩
    | shift next => exact absurd rfl hcont.1
    | reduce id => exact hcont.elim
  | case2 r token hn hx ih =>
    rw [nextLexeme_eq hc] at hn
    obtain ⟨tokens, ht⟩ := ih (hc.pushExtra _) he hs hcont
    rw [show (r.pushExtra (job.leaf token)).stack.path = r.stack.path from
      Stack.path_pushExtra _ _] at ht
    exact ⟨token :: tokens, .extra hn hx ht⟩
  | case3 r token hn hx =>
    rw [nextLexeme_eq hc] at hn
    have hx : job.table.isExtra token.symbol = false := by simpa using hx
    cases act with
    | accept => exact ⟨[], .stopped hn hx hs⟩
    | shift next =>
      obtain ⟨hne, tokens, ht⟩ := hcont
      exact ⟨token :: tokens, .shifted hn hx hne hs ht⟩
    | reduce id => exact hcont.elim
  | case4 r span hn ih =>
    have hlen := (job.scan_errors ((r.report
      (.unrecognized (job.text.slice span) span)).pushExtra (Node.error span []))).1
    rw [he] at hlen
    exact absurd hlen (Nat.not_succ_le_zero _)

/-- A run that is accepted without errors is not in recovery. -/
theorem Reachable.not_recovering (h : job.Reachable r)
    (hf : (job.step^[n] r).phase = .accepting) (he : (job.step^[n] r).errors = []) :
    r.phase ≠ .recovering := by
  intro hp
  cases n with
  | zero =>
    change r.phase = .accepting at hf
    rw [hp] at hf
    cases hf
  | succ n =>
    have hnil := h.step.errors_eq_nil he
    have hst := h.steady
    have hrec : job.Recovers r (job.recover r) := recovers hst.coherent
    simp only [Job.step, hp] at hnil
    exact (hrec.errors_ne_nil h.blamed).1 hnil

/-- A scanned lookahead that is not in recovery settles within the limit. -/
theorem settles_of_dispatch (hc : r.stack.Coherent) (hd : job.dispatch r ≠ .recovering)
    (hch : job.table.Chain r.lookahead.symbol k r.stack.path last)
    (hset : job.table.Settled r.lookahead.symbol act last) :
    job.settles? r.stack.path r.lookahead.symbol = some (act, last) :=
  simulate_of_viable (isViable_iff.mpr (dispatch_course hc hd).viable) hch hset

/-- A run that is accepted without errors has found a way through the rest of the text. -/
theorem Reachable.accepts (h : job.Reachable r) (hf : (job.step^[n] r).phase = .accepting)
    (he : (job.step^[n] r).errors = []) :
    (r.phase = .scanning → ∃ tokens, job.Accepts r.stack.path r.position tokens) ∧
    (r.phase ≠ .scanning → ∃ k act last, job.table.Chain r.lookahead.symbol k r.stack.path last ∧
      job.table.Settled r.lookahead.symbol act last ∧ job.Continues r.lookahead last act) := by
  induction n generalizing r with
  | zero =>
    change r.phase = .accepting at hf
    have hst := h.steady
    have ha := hst.accepting hf
    rw [job.currentAction?_eq hst.coherent] at ha
    refine ⟨fun hp => by simp [hf] at hp, fun _ => ?_⟩
    exact ⟨0, .accept, r.stack.path, .nil _, ⟨ha, rfl⟩, trivial⟩
  | succ n ih =>
    have hst := h.steady
    have hc := hst.coherent
    have hr := h.step
    have hsteps := h.steps
    have hblamed := h.blamed
    rw [Function.iterate_succ_apply] at hf he
    have hnil := hr.errors_eq_nil he
    have hrec := hr.not_recovering hf he
    have hcourse := hr.steady
    have hnext := ih hr hf he
    -- What holds of the next run is carried back over the step that leads to it.
    generalize job.step r = r' at hsteps hnil hrec hnext hcourse
    cases hsteps with
    | scanned hp =>
      refine ⟨fun _ => ?_, fun hn => absurd hp hn⟩
      have hsc := job.scan_coherent hc
      obtain ⟨k, act, last, hch, hset, hcont⟩ := hnext.2
        ((dispatch_course hsc hrec).phase_ne hsc).2
      exact accepts_of_scan hc hnil (settles_of_dispatch hsc hrec hch hset) hcont
    | @shifted next hp ha hl =>
      refine ⟨fun hs => by simp [hp] at hs, fun _ => ?_⟩
      obtain ⟨tokens, ht⟩ := hnext.1 rfl
      simp only [Run.advance, Stack.path_shift _ _ (show (job.leaf r.lookahead).extra = false from
        rfl)] at ht
      rw [job.currentAction?_eq hc] at ha
      exact ⟨0, .shift next, r.stack.path, .nil _, ⟨ha, rfl⟩, hl, tokens, ht⟩
    | shiftedEnd hp => cases hnil
    | reduced hp ha hprod hperf ho =>
      refine ⟨fun hs => by simp [hp] at hs, fun _ => ?_⟩
      obtain ⟨k, act, last, hch, hset, hcont⟩ := hnext.2 (ho.phase_ne hcourse.coherent).2
      obtain ⟨_, _, hv⟩ := (hst.onCourse (.inr (.inl hp))).viable
      rw [job.currentAction?_eq hc] at ha
      obtain ⟨_, q, next, _, hred, _⟩ := hv.reduce ha
      rw [hred.production] at hprod
      cases hprod
      have hpath := hperf.path_eq hc hred.reduced
      exact ⟨k + 1, act, last, .cons hred (hpath ▸ hch), hset, hcont⟩
    | recovered hp hrec => exact absurd hnil (hrec.errors_ne_nil hblamed).1
    | ended => exact hnext

/-- A parse that does not give up accepts. -/
theorem finish_accepting_of_ne (h : job.finish.phase ≠ .gaveUp) :
    job.finish.phase = .accepting := by
  have hfin := job.finish_final
  cases hp : job.finish.phase with
  | accepting => rfl
  | gaveUp => exact absurd hp h
  | _ =>
    rw [hp] at hfin
    cases hfin

theorem finish_accepting (he : job.finish.errors = []) : job.finish.phase = .accepting :=
  finish_accepting_of_ne fun hp => job.finish_reachable.blamed.gaveUp hp he

end Job

namespace Parser

open Job

/-- A parse makes its tree of whatever final run its steps lead to. -/
theorem parse_of_iterate {p : Parser} {text : Text} {r : Run} {n : Nat}
    (h : (p.job text).step^[n] Run.initial = r) (hfin : r.phase.isFinal = true) : p.parse text =
      ⟨(p.job text).assembleRoot r.phase r.stack.nodes, text, p.language, r.errors.reverse⟩ := by
  have hfinish : (p.job text).finish = r := by
    rw [finish_eq (by rw [h]; exact hfin), h]
  rw [← hfinish]
  rfl

/-- A parse reports no error exactly when there is a way through the text. -/
theorem errors_eq_nil_iff (p : Parser) (text : Text) :
    (p.parse text).errors = [] ↔ ∃ tokens, (p.job text).Accepts [startState] 0 tokens := by
  change (p.job text).finish.errors.reverse = [] ↔ _
  rw [List.reverse_eq_nil_iff]
  constructor
  · intro he
    have hfinish : (p.job text).finish = (p.job text).step^[(p.job text).stepBound] Run.initial :=
      runFor_eq_iterate _ _ _
    have hphase := finish_accepting he
    rw [hfinish] at he hphase
    exact (Reachable.initial.accepts hphase he).1 rfl
  · rintro ⟨tokens, ht⟩
    obtain ⟨n, hp, he⟩ := iterate_of_accepts ht (r := Run.initial) trivial rfl rfl rfl rfl
    rw [finish_eq (by rw [hp]; rfl)]
    exact he

end Parser

end TableParsing
