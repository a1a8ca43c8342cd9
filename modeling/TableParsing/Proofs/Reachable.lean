import TableParsing.Parser.Parse
import TableParsing.Proofs.Reduction
import TableParsing.Proofs.Tokens

/-!
# Reachable runs

Every run that a parse goes through has a coherent stack, and outside of scanning and recovery its
lookahead is viable and its phase is the one that the action for the lookahead asks for.
-/
namespace TableParsing

def Parser.job (p : Parser) (text : Text) : Job := ⟨p.language.grammar, p.options, text⟩

namespace Job

variable {job : Job} {r last : Run} {s : Symbol} {p : Production} {id : ProductionId}
  {state next : StateId} {k limit : Nat} {act : Action}

inductive Reachable (job : Job) : Run → Prop
  | initial : Reachable job Run.initial
  | step {r : Run} : Reachable job r → Reachable job (job.step r)

theorem Reachable.runFor (h : job.Reachable r) (steps : Nat) : job.Reachable (job.runFor steps r) := by
  induction steps generalizing r with
  | zero => exact h
  | succ steps ih =>
    rw [Job.runFor]
    split
    · exact h
    · exact ih h.step

theorem finish_reachable (job : Job) : job.Reachable job.finish := Reachable.initial.runFor _

theorem Reachable.keeps {P : Run → Prop} (initial : P Run.initial)
    (step : ∀ r, P r → P (job.step r)) (h : job.Reachable r) : P r := by
  induction h with
  | initial => exact initial
  | step _ ih => exact step _ ih

/-- A scan pushes extras and unlexable runs, and then only sets the lookahead. -/
theorem scan_cases (job : Job) {P : Run → Prop}
    (extra : ∀ r token, job.nextLexeme r = .token token → job.table.isExtra token.symbol = true →
      P r → P (r.pushExtra (job.leaf token)))
    (unlexable : ∀ r span, job.nextLexeme r = .unlexable span → P r →
      P ((r.report (.unrecognized (job.text.slice span) span)).pushExtra (Node.error span [])))
    (h : P r) : ∃ r', P r' ∧
      (job.nextLexeme r' = .endOfText ∧
          job.scan r = { r' with lookahead := ⟨Symbol.endOfInput, Span.empty job.text.size⟩ } ∨
        ∃ token, job.nextLexeme r' = .token token ∧ job.table.isExtra token.symbol = false ∧
          job.scan r = { r' with lookahead := token }) := by
  fun_induction Job.scan job r with
  | case1 r hn => exact ⟨r, h, .inl ⟨hn, rfl⟩⟩
  | case2 r token hn hx ih => exact ih (extra r token hn hx h)
  | case3 r token hn hx => exact ⟨r, h, .inr ⟨token, hn, by simpa using hx, rfl⟩⟩
  | case4 r span hn ih => exact ih (unlexable r span hn h)

theorem scan_of_endOfText (h : job.nextLexeme r = .endOfText) : job.scan r =
    { r with lookahead := ⟨Symbol.endOfInput, Span.empty job.text.size⟩ } := by
  rw [scan]
  split <;> simp_all

theorem scan_of_token {token : Token} (h : job.nextLexeme r = .token token)
    (hx : job.table.isExtra token.symbol = false) :
    job.scan r = { r with lookahead := token } := by
  rw [scan]
  split <;> simp_all

theorem step_of_scanning (h : r.phase = .scanning) :
    job.step r = { job.scan r with phase := job.dispatch (job.scan r) } := by
  simp only [step, h]

theorem scan_coherent (job : Job) (h : r.stack.Coherent) : (job.scan r).stack.Coherent := by
  obtain ⟨r', hr, ⟨_, hs⟩ | ⟨_, _, _, hs⟩⟩ := job.scan_cases (P := fun r => r.stack.Coherent)
    (fun r token _ _ h => h.pushExtra _) (fun r span _ h => h.pushExtra _) h <;>
  · rw [hs]
    exact hr

/-! ## Courses -/

/-- The lookahead is viable, and the phase is that of its action. -/
structure OnCourse (job : Job) (r : Run) : Prop where
  phase : r.phase = job.phaseForLookahead r
  viable : ∃ k ≤ job.options.reductionLimit, job.table.ViableIn r.lookahead.symbol k r.stack.path

theorem currentAction?_eq (job : Job) (hc : r.stack.Coherent) :
    job.currentAction? r = job.table.actionOn? r.lookahead.symbol r.stack.path :=
  hc.action?_topState _ _

theorem dispatch_course (hc : r.stack.Coherent) (h : job.dispatch r ≠ .recovering) :
    job.OnCourse { r with phase := job.dispatch r } := by
  have ha := job.currentAction?_eq hc
  unfold dispatch at h ⊢
  cases hact : job.currentAction? r with
  | none => simp [hact, phaseForLookahead] at h
  | some act =>
    rw [hact] at ha
    cases act with
    | shift next => exact ⟨rfl, 0, Nat.zero_le _, _, _, .nil _, ha.symm, rfl⟩
    | accept => exact ⟨rfl, 0, Nat.zero_le _, _, _, .nil _, ha.symm, rfl⟩
    | reduce id =>
      simp only [hact] at h ⊢
      split at h
      · rename_i hv
        refine ⟨?_, GrammarTable.isViable_iff.mp hv⟩
        simp only [hv, ite_true, phaseForLookahead]
        rw [show job.currentAction? { r with phase := Phase.reducing } = _ from hact]
      · exact absurd rfl h

theorem OnCourse.action (h : job.OnCourse r) (hc : r.stack.Coherent) :
    ∃ act, job.currentAction? r = some act := by
  obtain ⟨k, _, hv⟩ := h.viable
  rw [job.currentAction?_eq hc]
  exact hv.action

/-- Phase and action determine each other. -/
theorem OnCourse.cases (h : job.OnCourse r) (hc : r.stack.Coherent) :
    (∃ next, r.phase = .shifting ∧ job.currentAction? r = some (.shift next)) ∨
      (∃ id, r.phase = .reducing ∧ job.currentAction? r = some (.reduce id)) ∨
      r.phase = .accepting ∧ job.currentAction? r = some .accept := by
  obtain ⟨act, ha⟩ := h.action hc
  have hp := h.phase
  rw [phaseForLookahead, ha] at hp
  cases act with
  | shift next => exact .inl ⟨next, hp, ha⟩
  | reduce id => exact .inr (.inl ⟨id, hp, ha⟩)
  | accept => exact .inr (.inr ⟨hp, ha⟩)

/-- The run after a reduction, with the phase that the lookahead asks for next. -/
def continued (job : Job) (r : Run) (p : Production) (state : StateId) : Run :=
  { job.reduced r p state with phase := job.phaseForLookahead (job.reduced r p state) }

/-- A reduction that the lookahead triggers on the path is made by a step of reducing. -/
theorem reduceStep_of_reduces {path : List StateId} (hc : r.stack.Coherent)
    (h : job.table.Reduces r.lookahead.symbol id p r.stack.path path) :
    ∃ state, job.currentAction? r = some (.reduce id) ∧ job.Performs r p state ∧
      job.reduceStep r = job.continued r p state ∧
      (job.continued r p state).stack.path = path := by
  obtain ⟨state, hp, hpath⟩ := performs_of_reducePath hc h.reduced
  have ha : job.currentAction? r = some (.reduce id) := by
    rw [job.currentAction?_eq hc, h.action]
  refine ⟨state, ha, hp, ?_, hpath⟩
  simp only [reduceStep, ha, h.production, Option.getD_some, hp.succeeds, ite_true, continued]

/-- A step of reducing performs the reduction and stays on course. -/
theorem OnCourse.reduceStep (h : job.OnCourse r) (hc : r.stack.Coherent)
    (ha : job.currentAction? r = some (.reduce id)) :
    ∃ p state, job.table.production? id = some p ∧ job.Performs r p state ∧
      job.reduceStep r = job.continued r p state ∧ job.OnCourse (job.continued r p state) := by
  obtain ⟨k, hk, hv⟩ := h.viable
  rw [job.currentAction?_eq hc] at ha
  obtain ⟨k', p, next, rfl, hr, hv'⟩ := hv.reduce ha
  obtain ⟨state, _, hp, hs, hpath⟩ := reduceStep_of_reduces hc hr
  rw [← hpath] at hv'
  exact ⟨p, state, hr.production, hp, hs, rfl, k', by omega, hv'⟩

/-! ## Recovery -/

theorem Replays.fields (h : job.Replays s k r last) :
    last.lookahead = r.lookahead ∧ last.position = r.position ∧ last.lastEnd = r.lastEnd ∧
      last.errors = r.errors := by
  refine h.keeps (P := fun last => last.lookahead = r.lookahead ∧ last.position = r.position ∧
    last.lastEnd = r.lastEnd ∧ last.errors = r.errors) ?_ ⟨rfl, rfl, rfl, rfl⟩
  exact fun _ _ _ _ h => h

theorem supply_of_replays (h : job.Replays s k r last)
    (ha : job.table.action? last.stack.topState s = some (.shift next)) (hk : k ≤ limit) :
    job.supply s limit r = { last with
      stack := last.stack.shift next (Node.supplied s last.lastEnd (job.table.isNamed s)) } := by
  induction h generalizing limit with
  | nil r =>
    unfold supply
    simp only [ha]
  | cons hact hprod hp _ ih =>
    obtain ⟨limit, rfl⟩ : ∃ n, limit = n + 1 := ⟨limit - 1, by omega⟩
    have hl := Nat.le_of_succ_le_succ hk
    rw [← ih ha hl]
    conv_lhs => unfold supply
    simp only [hact, hprod, Option.getD_some, hp.succeeds, ite_true]

/-- A missing token that recovery may supply: the reductions it triggers lead to a shift, and
behind it the lookahead is viable. -/
structure Admissible (job : Job) (r : Run) (s : Symbol) (k : Nat) (next : StateId)
    (path : List StateId) : Prop where
  bound : k ≤ job.options.reductionLimit
  chain : job.table.Chain s k r.stack.path path
  settled : job.table.Settled s (.shift next) path
  viable : job.isViable (next :: path) r.lookahead.symbol = true

theorem admissible_of_candidate (h : job.missingCandidate? r = some s) :
    ∃ k next path, job.Admissible r s k next path := by
  obtain ⟨st, _, hf⟩ := Option.bind_eq_some_iff.mp h
  have ha := List.find?_some hf
  unfold isAdmissible at ha
  split at ha
  · cases ha
  · split at ha
    · rename_i next path hs
      obtain ⟨k, hk, hc, he⟩ := GrammarTable.chain_of_simulate hs
      exact ⟨k, next, path, hk, hc, he, ha⟩
    · cases ha

/-- Supplying replays the reductions that were simulated and pushes the token. -/
theorem Admissible.supply {path : List StateId} (h : job.Admissible r s k next path)
    (hc : r.stack.Coherent) : ∃ last, job.Replays s k r last ∧ last.stack.path = path ∧
      last.stack.Coherent ∧ job.table.action? last.stack.topState s = some (.shift next) ∧
      job.supply s job.options.reductionLimit r = { last with
        stack := last.stack.shift next (Node.supplied s last.lastEnd (job.table.isNamed s)) } := by
  obtain ⟨last, hr, rfl, hlc⟩ := replays_of_chain hc h.chain
  have ha : job.table.action? last.stack.topState s = some (.shift next) := by
    rw [hlc.action?_topState]
    exact h.settled.1
  exact ⟨last, hr, rfl, hlc, ha, supply_of_replays hr ha h.bound⟩

/-- `s` is pushed as a supplied token, and the lookahead is looked at again. -/
def supplied (job : Job) (r : Run) (s : Symbol) (next : StateId) : Run :=
  let r := { r.report (.absent (job.table.displayName s) r.lastEnd) with
    stack := r.stack.shift next (Node.supplied s r.lastEnd (job.table.isNamed s))
    mergeSkips := false }
  { r with phase := job.phaseForLookahead r }

/-- The removed entries are wrapped in an error above the rest. -/
def wrapped (job : Job) (r : Run) (removed : List Entry) (rest : Stack) : Run :=
  let nodes := removed.map (·.node)
  let span := coveringSpan (Stack.endOffset rest) nodes
  let r := { r.report (.unexpectedEnd span) with
    stack := Stack.pushExtra rest (Node.error span nodes) }
  { r with phase := job.phaseForLookahead r }

/-- The ways out of recovery. -/
inductive Recovers (job : Job) (r : Run) : Run → Prop
  | supplied {s : Symbol} {k : Nat} {next : StateId} {path : List StateId} {last : Run} :
      job.options.insertMissing = true → job.missingCandidate? r = some s →
      job.Admissible r s k next path → job.Replays s k r last → last.stack.path = path →
      last.stack.Coherent → Recovers job r (job.supplied last s next)
  | wrapped {removed : List Entry} {rest : Stack} :
      (job.options.insertMissing = true → job.missingCandidate? r = none) →
      r.lookahead.symbol = Symbol.endOfInput →
      Stack.splitWhere (job.isViable · Symbol.endOfInput) [] r.stack = some (removed, rest) →
      Recovers job r (job.wrapped r removed rest)
  | gaveUp :
      (job.options.insertMissing = true → job.missingCandidate? r = none) →
      r.lookahead.symbol = Symbol.endOfInput →
      Stack.splitWhere (job.isViable · Symbol.endOfInput) [] r.stack = none →
      Recovers job r
        { r.report (.unexpectedEnd (Span.empty job.text.size)) with phase := .gaveUp }
  | skipped :
      (job.options.insertMissing = true → job.missingCandidate? r = none) →
      r.lookahead.symbol ≠ Symbol.endOfInput → Recovers job r (job.skipLookahead r)

theorem recovers (hc : r.stack.Coherent) : job.Recovers r (job.recover r) := by
  unfold recover
  split
  · rename_i s hs
    split at hs
    · rename_i hi
      obtain ⟨k, next, path, ha⟩ := admissible_of_candidate hs
      obtain ⟨last, hr, hp, hlc, _, hsup⟩ := ha.supply hc
      simp only [insertMissing, hsup]
      exact .supplied hi hs ha hr hp hlc
    · cases hs
  · rename_i hs
    have hnone : job.options.insertMissing = true → job.missingCandidate? r = none := by
      intro hi
      simpa [hi] using hs
    split
    · rename_i hl
      unfold recoverAtEnd
      split
      · rename_i removed s hsp
        exact .wrapped hnone hl hsp
      · rename_i hsp
        exact .gaveUp hnone hl hsp
    · rename_i hl
      exact .skipped hnone hl

theorem openSkip?_eq_some {e : Entry} {rest : Stack} (h : openSkip? r = some (e, rest)) :
    r.stack = e :: rest ∧ r.mergeSkips = true := by
  unfold openSkip? at h
  cases hs : r.stack with
  | nil => simp [hs] at h
  | cons top below =>
    simp only [hs, Option.ite_none_right_eq_some, Bool.and_eq_true_iff, Option.some.injEq,
      Prod.mk.injEq] at h
    obtain ⟨⟨hm, _⟩, rfl, rfl⟩ := h
    exact ⟨rfl, hm⟩

theorem skipLookahead_coherent (hc : r.stack.Coherent) : (job.skipLookahead r).stack.Coherent := by
  unfold skipLookahead
  split
  · rename_i ho
    rw [(openSkip?_eq_some ho).1] at hc
    exact hc
  · exact hc.pushExtra _

theorem supplied_course {path : List StateId} (h : job.Admissible r s k next path)
    (hr : job.Replays s k r last) (hp : last.stack.path = path) :
    job.OnCourse (job.supplied last s next) := by
  refine ⟨rfl, ?_⟩
  have hv := h.viable
  rw [isViable, GrammarTable.isViable_iff, ← hr.fields.1, ← hp] at hv
  exact hv

theorem wrapped_course {removed : List Entry} {rest : Stack}
    (hl : r.lookahead.symbol = Symbol.endOfInput)
    (h : Stack.splitWhere (job.isViable · Symbol.endOfInput) [] r.stack = some (removed, rest)) :
    job.OnCourse (job.wrapped r removed rest) := by
  refine ⟨rfl, ?_⟩
  have hv := (Stack.splitWhere_eq_some h).1
  rw [isViable, GrammarTable.isViable_iff, ← hl] at hv
  simp only [wrapped, Run.report, Stack.path_pushExtra]
  exact hv

theorem wrapped_coherent {removed : List Entry} {rest : Stack} {p : List StateId → Bool}
    (hc : r.stack.Coherent) (h : Stack.splitWhere p [] r.stack = some (removed, rest)) :
    (job.wrapped r removed rest).stack.Coherent := by
  obtain ⟨_, front, _, hs, _⟩ := Stack.splitWhere_eq_some h
  exact (hc.of_suffix ⟨front, hs.symm⟩).pushExtra _

/-! ## The invariant -/

structure Steady (job : Job) (r : Run) : Prop where
  coherent : r.stack.Coherent
  course : r.phase = .scanning ∨ r.phase = .recovering ∨ r.phase = .gaveUp ∨ job.OnCourse r

theorem Steady.onCourse (h : job.Steady r)
    (hp : r.phase = .shifting ∨ r.phase = .reducing ∨ r.phase = .accepting) : job.OnCourse r := by
  rcases h.course with hq | hq | hq | ho
  · simp [hq] at hp
  · simp [hq] at hp
  · simp [hq] at hp
  · exact ho

theorem Steady.shifting (h : job.Steady r) (hp : r.phase = .shifting) :
    ∃ next, job.currentAction? r = some (.shift next) := by
  rcases (h.onCourse (.inl hp)).cases h.coherent with ⟨next, _, ha⟩ | ⟨_, hq, _⟩ | ⟨hq, _⟩
  · exact ⟨next, ha⟩
  · simp [hp] at hq
  · simp [hp] at hq

theorem Steady.reducing (h : job.Steady r) (hp : r.phase = .reducing) :
    ∃ id, job.currentAction? r = some (.reduce id) := by
  rcases (h.onCourse (.inr (.inl hp))).cases h.coherent with ⟨_, hq, _⟩ | ⟨id, _, ha⟩ | ⟨hq, _⟩
  · simp [hp] at hq
  · exact ⟨id, ha⟩
  · simp [hp] at hq

theorem Steady.accepting (h : job.Steady r) (hp : r.phase = .accepting) :
    job.currentAction? r = some .accept := by
  rcases (h.onCourse (.inr (.inr hp))).cases h.coherent with ⟨_, hq, _⟩ | ⟨_, hq, _⟩ | ⟨_, ha⟩
  · simp [hp] at hq
  · simp [hp] at hq
  · exact ha

/-- What one step does, by the phase it starts from. -/
inductive Steps (job : Job) (r : Run) : Run → Prop
  | scanned : r.phase = .scanning →
      Steps job r { job.scan r with phase := job.dispatch (job.scan r) }
  | shifted {next : StateId} : r.phase = .shifting → job.currentAction? r = some (.shift next) →
      r.lookahead.symbol ≠ Symbol.endOfInput →
      Steps job r { r.advance r.lookahead.span.stop with
        stack := r.stack.shift next (job.leaf r.lookahead)
        phase := .scanning }
  | shiftedEnd {next : StateId} : r.phase = .shifting →
      job.currentAction? r = some (.shift next) → r.lookahead.symbol = Symbol.endOfInput →
      Steps job r { r.report (.unexpectedEnd r.lookahead.span) with phase := .gaveUp }
  | reduced {id : ProductionId} {p : Production} {state : StateId} : r.phase = .reducing →
      job.currentAction? r = some (.reduce id) → job.table.production? id = some p →
      job.Performs r p state → job.OnCourse (job.continued r p state) →
      Steps job r (job.continued r p state)
  | recovered {last : Run} : r.phase = .recovering → job.Recovers r last → Steps job r last
  | ended : r.phase.isFinal = true → Steps job r r

theorem Steady.steps (h : job.Steady r) : job.Steps r (job.step r) := by
  cases hp : r.phase with
  | scanning =>
    simp only [step, hp]
    exact .scanned hp
  | shifting =>
    obtain ⟨next, ha⟩ := h.shifting hp
    simp only [step, hp, shift, ha]
    split
    · rename_i hl
      exact .shiftedEnd hp ha hl
    · rename_i hl
      exact .shifted hp ha hl
  | reducing =>
    obtain ⟨id, ha⟩ := h.reducing hp
    obtain ⟨p, state, hprod, hperf, hs, ho⟩ :=
      (h.onCourse (.inr (.inl hp))).reduceStep h.coherent ha
    simp only [step, hp]
    rw [hs]
    exact .reduced hp ha hprod hperf ho
  | recovering =>
    simp only [step, hp]
    exact .recovered hp (recovers h.coherent)
  | accepting =>
    simp only [step, hp]
    exact .ended (by rw [hp]; rfl)
  | gaveUp =>
    simp only [step, hp]
    exact .ended (by rw [hp]; rfl)

theorem Steps.steady {r' : Run} (h : job.Steady r) (hs : job.Steps r r') : job.Steady r' := by
  have hc := h.coherent
  cases hs with
  | scanned hp =>
    have hsc := job.scan_coherent hc
    by_cases hd : job.dispatch (job.scan r) = .recovering
    · exact ⟨hsc, .inr (.inl hd)⟩
    · exact ⟨hsc, .inr (.inr (.inr (dispatch_course hsc hd)))⟩
  | shifted => exact ⟨hc.shift _ rfl, .inl rfl⟩
  | shiftedEnd => exact ⟨hc, .inr (.inr (.inl rfl))⟩
  | reduced _ _ _ _ ho => exact ⟨coherent_reduced hc, .inr (.inr (.inr ho))⟩
  | recovered hp hr =>
    cases hr with
    | supplied _ _ ha hr hpath hlc =>
      exact ⟨hlc.shift _ rfl, .inr (.inr (.inr (supplied_course ha hr hpath)))⟩
    | wrapped _ hl hs => exact ⟨wrapped_coherent hc hs, .inr (.inr (.inr (wrapped_course hl hs)))⟩
    | gaveUp => exact ⟨hc, .inr (.inr (.inl rfl))⟩
    | skipped => exact ⟨skipLookahead_coherent hc, .inl rfl⟩
  | ended => exact h

theorem Reachable.steady (h : job.Reachable r) : job.Steady r :=
  h.keeps ⟨trivial, .inl rfl⟩ fun _ h => h.steps.steady h

theorem Reachable.steps (h : job.Reachable r) : job.Steps r (job.step r) := h.steady.steps

end Job

/-! ## A language of one word

The smallest language with a token: a program is one word of small letters. On the empty text the
word is missing, and its parse supplies it.
-/

namespace Word

def word : Symbol := ⟨1⟩

def program : Symbol := ⟨2⟩

def table : GrammarTable :=
  { name := "word"
    version := newestVersion
    symbols := #[⟨"end", .terminal, false, false, false⟩, ⟨"word", .terminal, true, true, false⟩,
      ⟨"program", .nonTerminal, true, true, false⟩]
    fields := #[]
    productions := #[Production.ofArity program 1]
    states := #[(ParseState.empty.shift word 2).goto program 1,
      ParseState.empty.accept Symbol.endOfInput, ParseState.empty.reduce [Symbol.endOfInput] 0]
    lexStates := #[LexState.empty.on 0x61 0x7A 1, (LexState.accepting word).on 0x61 0x7A 1]
    separators := [ByteRange.single 0x20]
    wordToken := none
    keywords := []
    externalTokens := [] }

def language : Language :=
  ⟨table.withoutScanner, by decide, by decide +kernel⟩

def parser : Parser := ⟨language, {}⟩

abbrev job : Job := parser.job #[]

/-- The run that finds the word missing. -/
def missing : Run := { Run.initial with phase := .recovering }

/-- The run behind the supplied word. -/
def resumed : Run :=
  { missing with
    stack := [⟨2, Node.supplied word 0 true⟩]
    phase := .reducing
    errors := [.absent "word" 0] }

theorem step_initial : job.step Run.initial = missing := by
  have hn : job.nextLexeme Run.initial = .endOfText :=
    Grammar.lexemeAt_of_size_le (Nat.zero_le _)
  rw [Job.step_of_scanning rfl, Job.scan_of_endOfText hn]
  rfl

theorem step_missing : job.step missing = resumed := rfl

theorem missing_reachable : job.Reachable missing := step_initial ▸ .step .initial

theorem resumed_reachable : job.Reachable resumed := step_missing ▸ missing_reachable.step

/-- The run that has made a program of the supplied word. -/
def accepted : Run :=
  { resumed with
    stack := [⟨1, Node.branch program (Span.empty 0) true [Node.supplied word 0 true]⟩]
    phase := .accepting }

theorem finish_empty : job.finish = accepted := by
  change job.runFor (100002 + 1) Run.initial = accepted
  rw [Job.runFor, step_initial]
  rfl

theorem parse_empty : (parser.parse #[]).root =
    Node.branch program (Span.empty 0) true [Node.supplied word 0 true] := by
  change job.assembleRoot job.finish.phase job.finish.stack.nodes = _
  rw [finish_empty]
  rfl

abbrev letterJob : Job := parser.job #[0x61]

/-- The run that has scanned the word. -/
def scanned : Run := { Run.initial with lookahead := ⟨word, 0, 1⟩, phase := .shifting }

theorem step_letter : letterJob.step Run.initial = scanned := by
  have hn : letterJob.nextLexeme Run.initial = .token ⟨word, 0, 1⟩ :=
    Grammar.lexemeAt_single (Grammar.skipSeparators_stop rfl) rfl rfl rfl rfl
  rw [Job.step_of_scanning rfl, Job.scan_of_token hn rfl]
  rfl

theorem scanned_reachable : letterJob.Reachable scanned := step_letter ▸ .step .initial

/-- The run that has shifted the word. -/
def shifted : Run :=
  { scanned with
    stack := [⟨2, Node.leaf word ⟨0, 1⟩ true⟩]
    phase := .scanning
    position := 1
    lastEnd := 1 }

/-- The run that has found the end behind the word. -/
def ended : Run := { shifted with phase := .reducing, lookahead := ⟨Symbol.endOfInput, Span.empty 1⟩ }

theorem step_shifted : letterJob.step shifted = ended := by
  have hn : letterJob.nextLexeme shifted = .endOfText := Grammar.lexemeAt_of_size_le (Nat.le_refl 1)
  rw [Job.step_of_scanning rfl, Job.scan_of_endOfText hn]
  rfl

theorem finish_letter : letterJob.finish = { ended with
    stack := [⟨1, Node.branch program ⟨0, 1⟩ true [Node.leaf word ⟨0, 1⟩ true]⟩]
    phase := .accepting } := by
  have hbound (n : Nat) : letterJob.runFor (n + 5) Run.initial = { ended with
      stack := [⟨1, Node.branch program ⟨0, 1⟩ true [Node.leaf word ⟨0, 1⟩ true]⟩]
      phase := .accepting } := by
    have hscanned : letterJob.runFor (n + 4) scanned = letterJob.runFor (n + 3) shifted := rfl
    rw [Job.runFor, if_neg (by decide), step_letter, hscanned, Job.runFor, if_neg (by decide),
      step_shifted]
    rfl
  exact hbound 200001

theorem parse_letter : (parser.parse #[0x61]).root =
    Node.branch program ⟨0, 1⟩ true [Node.leaf word ⟨0, 1⟩ true] := by
  change letterJob.assembleRoot letterJob.finish.phase letterJob.finish.stack.nodes = _
  rw [finish_letter]
  rfl

end Word

end TableParsing
