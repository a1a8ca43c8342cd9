import TableParsing.Proofs.Progress
import TableParsing.Proofs.Pyret.Lexing

/-!
# Missing tokens

Which token recovery supplies, and what it leaves behind. The candidates are tried in the order of a
sorted row, and a terminal without an action could not be fed to the stack at all, so the first
admissible one is the lowest of the table. The reductions that were simulated on bare states are
then made on the stack itself, below the extras that lie on top.
-/
namespace TableParsing

namespace Job

variable {job : Job} {r r' last : Run} {s other : Symbol} {next : StateId} {k : Nat} {l : Language}

/-! ## Admissible tokens -/

/-- A terminal that can be fed to the stack, its reductions and then its shift, so that the lookahead
is viable behind it. -/
structure Suppliable (job : Job) (r : Run) (s : Symbol) : Prop where
  terminal : job.table.isTerminal s = true
  ne_end : s ≠ Symbol.endOfInput
  not_extra : job.table.isExtra s = false
  not_external : job.table.isExternal s = false
  continues : ∃ k ≤ job.options.reductionLimit, ∃ next path,
    job.table.Chain s k r.stack.path path ∧ job.table.Settled s (.shift next) path ∧
    ∃ n ≤ job.options.reductionLimit, job.table.ViableIn r.lookahead.symbol n (next :: path)

theorem suppliable_iff (hl : job.grammar = l.grammar) :
    job.Suppliable r s ↔ job.isAdmissible r.stack.path r.lookahead.symbol s = true := by
  unfold isAdmissible
  constructor
  · intro h
    obtain ⟨k, hk, next, path, hchain, hsettled, hviable⟩ := h.continues
    rw [if_neg (by simp [h.ne_end, h.not_extra, h.not_external]),
      GrammarTable.simulate_chain hchain hsettled hk]
    exact GrammarTable.isViable_iff.mpr hviable
  · intro h
    split at h
    · cases h
    · rename_i hplain
      simp only [Bool.or_eq_true, decide_eq_true_eq, not_or, Bool.not_eq_true] at hplain
      split at h
      · rename_i next path hsim
        obtain ⟨k, hk, hchain, hsettled⟩ := GrammarTable.chain_of_simulate hsim
        exact ⟨isTerminal_of_actionOn hl hsettled.1, hplain.1.1, hplain.1.2, hplain.2, k, hk, next,
          path, hchain, hsettled, GrammarTable.isViable_iff.mp h⟩
      · cases h

/-- What can be fed to the stack has an action in the current state. -/
theorem Suppliable.exists_action (h : job.Suppliable r s) (hc : r.stack.Coherent) :
    ∃ act, job.table.action? r.stack.topState s = some act := by
  obtain ⟨k, _, next, path, hchain, hsettled, _⟩ := h.continues
  have hviable : job.table.ViableIn s k r.stack.path := ⟨.shift next, path, hchain, hsettled⟩
  rw [hc.action?_topState]
  exact hviable.action

/-- So it is among the symbols that recovery tries. -/
theorem Suppliable.mem_keys (hl : job.grammar = l.grammar) (h : job.Suppliable r s)
    (hc : r.stack.Coherent) :
    ∃ st, job.table.state? r.stack.topState = some st ∧ s ∈ st.actions.keys := by
  obtain ⟨act, hact⟩ := h.exists_action hc
  obtain ⟨st, hst, hmem⟩ := (GrammarTable.action?_iff (table_fault hl)).mp hact
  exact ⟨st, hst, List.mem_map_of_mem hmem⟩

/-- Recovery chooses the lowest token that can be supplied. -/
theorem suppliable_of_candidate (hl : job.grammar = l.grammar) (hc : r.stack.Coherent)
    (h : job.missingCandidate? r = some s) :
    job.Suppliable r s ∧ ∀ other, job.Suppliable r other → s.id ≤ other.id := by
  obtain ⟨st, hst, hfind⟩ := Option.bind_eq_some_iff.mp h
  refine ⟨(suppliable_iff hl).mpr (List.find?_some hfind), fun other hother => ?_⟩
  obtain ⟨st', hst', hmem⟩ := hother.mem_keys hl hc
  rw [hst] at hst'
  cases hst'
  exact (GrammarTable.actions_sorted (table_fault hl) hst).le_of_find?_keys hfind hmem
    ((suppliable_iff hl).mp hother)

theorem not_suppliable_of_candidate (hl : job.grammar = l.grammar) (hc : r.stack.Coherent)
    (h : job.missingCandidate? r = none) : ¬job.Suppliable r s := by
  intro hs
  obtain ⟨st, hst, hmem⟩ := hs.mem_keys hl hc
  rw [missingCandidate?, hst, Option.bind_some, List.find?_eq_none] at h
  exact h s hmem ((suppliable_iff hl).mp hs)

/-! ## What supplying does -/

/-- The extras on top of the stack stay there. -/
theorem Replays.popExtras (h : job.Replays s k r last) :
    last.stack.popExtras.1 = r.stack.popExtras.1 := by
  refine h.keeps (P := fun last => last.stack.popExtras.1 = r.stack.popExtras.1)
    (fun r' p state _ h => ?_) rfl
  rw [← h]
  change (((r'.below p).shift state (job.parent r' p)).pushExtras r'.stack.popExtras.1).popExtras.1 = _
  rw [Stack.popExtras_pushExtras (Stack.popExtras_extra r'.stack), Stack.popExtras_shift _ _ rfl,
    List.nil_append]

/-- Supplied nodes in the trees on the stack. -/
def suppliedNodes (r : Run) : Nat := (Node.walkPending r.stack.nodes).countP (·.missing)

/-- `s` is supplied on a stack whose states are those that were simulated, right above the extras
that lay on top. -/
structure Supplies (job : Job) (r r' : Run) (s : Symbol) (next : StateId) (below : Stack) :
    Prop where
  simulated : job.table.simulate s job.options.reductionLimit r.stack.path =
    some (.shift next, below.path)
  stack : r'.stack = below.shift next (Node.supplied s r.lastEnd (job.table.isNamed s))
  path : r'.stack.path = next :: below.path
  extras : below.popExtras.1 = r.stack.popExtras.1
  nodes : suppliedNodes r' = suppliedNodes r + 1
  errors : r'.errors = .absent (job.table.displayName s) r.lastEnd :: r.errors
  lookahead : r'.lookahead = r.lookahead
  position : r'.position = r.position

theorem Reachable.supplies (hl : job.grammar = l.grammar) (h : job.Reachable r)
    (hs : job.step r = job.supplied last s next) {path : List StateId}
    (hadm : job.Admissible r s k next path) (hreplay : job.Replays s k r last)
    (hpath : last.stack.path = path) : job.Supplies r (job.step r) s next last.stack := by
  obtain ⟨hlook, hposition, hlast, herrors⟩ := hreplay.fields
  have hnew : (job.step r).errors =
      .absent (job.table.displayName s) r.lastEnd :: r.errors := by
    rw [hs, ← hlast, ← herrors]
    rfl
  constructor
  case simulated =>
    rw [hpath]
    exact GrammarTable.simulate_chain hadm.chain hadm.settled hadm.bound
  case stack =>
    rw [hs, ← hlast]
    rfl
  case path =>
    rw [hs]
    exact Stack.path_shift _ _ rfl
  case extras => exact hreplay.popExtras
  case nodes =>
    rw [suppliedNodes, suppliedNodes, h.step.countP_missing hl, h.countP_missing hl, hnew,
      absences_absent]
  case errors => exact hnew
  case lookahead =>
    rw [hs]
    exact hlook
  case position =>
    rw [hs]
    exact hposition

/-- Recovery that supplies nothing reports nothing as missing. -/
theorem Recovers.absences (hr : job.Recovers r r') (hm : r.mergeSkips = true → OnOpen r)
    (h : job.missingCandidate? r = none) :
    Job.absences r'.errors = Job.absences r.errors := by
  cases hr with
  | supplied _ hsome =>
    rw [h] at hsome
    cases hsome
  | wrapped | gaveUp => exact absences_cons SyntaxErrorKind.noConfusion _
  | skipped => exact absences_skips (skips hm)

end Job

namespace Parser

/-- Recovery comes to an end. It supplies the lowest of the tokens that can be supplied, just as it was
simulated; if there is none, no supplied node comes onto the stack. -/
theorem recovery_supplies (p : Parser) (text : Text) {r : Run}
    (hlimit : p.options.reductionLimit + 1 < wordBound) (h : (p.job text).Reachable r)
    (hp : r.phase = .recovering) (hi : p.options.insertMissing = true) :
    let job := p.job text
    job.checkedRecover r = some (job.step r) ∧
    ((∃ s, job.Suppliable r s ∧ (∀ other, job.Suppliable r other → s.id ≤ other.id) ∧
      ∃ next below, job.Supplies r (job.step r) s next below) ∨
    (∀ s, ¬job.Suppliable r s) ∧ Job.suppliedNodes (job.step r) = Job.suppliedNodes r) := by
  intro job
  refine ⟨h.checkedRecover_eq ⟨p.language.table_fault, hlimit⟩ hp, ?_⟩
  have hl : job.grammar = p.language.grammar := rfl
  have hc := h.steady.coherent
  have hstep : job.step r = job.recover r := by simp only [Job.step, hp]
  have hr : job.Recovers r (job.recover r) := Job.recovers hc
  rw [← hstep] at hr
  cases hm : job.missingCandidate? r with
  | some s =>
    obtain ⟨hs, hleast⟩ := Job.suppliable_of_candidate hl hc hm
    refine .inl ⟨s, hs, hleast, ?_⟩
    generalize hr' : job.step r = r' at hr
    cases hr with
    | @supplied s' _ next _ last _ hsome hadm hreplay hpath =>
      obtain rfl := Option.some.inj (hm.symm.trans hsome)
      exact ⟨next, last.stack, hr' ▸ h.supplies hl hr' hadm hreplay hpath⟩
    | wrapped hnone | gaveUp hnone | skipped hnone =>
      have hnone := hnone hi
      rw [hm] at hnone
      cases hnone
  | none =>
    refine .inr ⟨fun s => Job.not_suppliable_of_candidate hl hc hm, ?_⟩
    rw [Job.suppliedNodes, Job.suppliedNodes, h.step.countP_missing hl, h.countP_missing hl]
    exact hr.absences (h.merges (by simp [hp])) hm

end Parser

/-! ## An open parenthesis

In `(1#` the end is found behind a comment. What closes the parenthesis is supplied above the
comment, after the reductions of the number below it.
-/

namespace Pyret.Unclosed

open PyretSymbol Opening

def text : Text := #[0x28, 0x31, 0x23]

abbrev job : Job := Parser.job ⟨language, {}⟩ text

def comment : Node := { Node.leaf lineComment ⟨2, 3⟩ true with extra := true }

/-- The run that finds the end where the parenthesis is still open. -/
def unclosed : Run :=
  { counted with
    lookahead := ⟨Symbol.endOfInput, Span.empty 3⟩
    stack := ⟨19, comment⟩ :: counted.stack
    phase := .recovering
    position := 3
    lastEnd := 3 }

theorem step_counted : job.step counted = unclosed := by
  have hcomment : job.nextLexeme counted = .token ⟨lineComment, 2, 3⟩ :=
    Grammar.lexemeAt_single (s := lineComment) (Grammar.skipSeparators_stop rfl)
      (scanExternal_other (by decide)) rfl rfl rfl
  have hend (r : Run) (hr : r.position = 3) : job.nextLexeme r = .endOfText :=
    Grammar.lexemeAt_of_size_le (Nat.le_of_eq hr.symm)
  rw [Job.step_of_scanning rfl, Job.scan_of_extra hcomment rfl, Job.scan_of_endOfText (hend _ rfl)]
  rfl

theorem unclosed_reachable : job.Reachable unclosed := by
  have hcounted : job.step^[2 + 2] Run.initial = counted := by
    rw [Function.iterate_add_apply, iterate_initial rfl, iterate_opened rfl rfl]
  have hr : job.Reachable (job.step^[2 + 2] Run.initial) := Job.Reachable.initial.iterate _
  rw [hcounted] at hr
  exact step_counted ▸ hr.step

theorem suppliable_rightParen : job.Suppliable unclosed rightParen :=
  (Job.suppliable_iff (l := language) rfl).mpr rfl

theorem recovery_supplies_unclosed :
    (job.options.reductionLimit + 1 < wordBound ∧ job.Reachable unclosed ∧
      unclosed.phase = .recovering ∧ job.options.insertMissing = true) ∧
    ∃ s, job.Suppliable unclosed s ∧
      (∀ other, job.Suppliable unclosed other → s.id ≤ other.id) ∧
      ∃ next below, job.Supplies unclosed (job.step unclosed) s next below := by
  have hlimit : job.options.reductionLimit + 1 < wordBound := by decide
  have hsupplies :=
    (Parser.recovery_supplies ⟨language, {}⟩ text hlimit unclosed_reachable rfl rfl).2
  exact ⟨⟨hlimit, unclosed_reachable, rfl, rfl⟩,
    hsupplies.resolve_right fun h => h.1 _ suppliable_rightParen⟩

end Pyret.Unclosed

/-! ## A candidate in front

Behind the letter b the unexpected x could be shifted. The letter a stands before b in the row, and x
runs away behind it.
-/

namespace Runaway

open GrammarTable

/-- The run that finds the letter x at the start. -/
def unexpected : Run :=
  { Run.initial with lookahead := ⟨x, 0, 1⟩, phase := .recovering }

theorem unexpected_reachable : (job true #[0x78]).Reachable unexpected := by
  have hletter : (job true #[0x78]).nextLexeme Run.initial = .token ⟨x, 0, 1⟩ :=
    Grammar.lexemeAt_single (Grammar.skipSeparators_stop rfl) rfl rfl rfl rfl
  have hstep : (job true #[0x78]).step Run.initial = unexpected := by
    rw [Job.step_of_scanning rfl, Job.scan_of_token hletter rfl]
    rfl
  exact hstep ▸ Job.Reachable.initial.step

theorem suppliable_b : (job true #[0x78]).Suppliable unexpected b where
  terminal := rfl
  ne_end := by decide
  not_extra := rfl
  not_external := rfl
  continues := ⟨0, Nat.zero_le _, 2, [0], .nil _, ⟨rfl, rfl⟩, 0, Nat.zero_le _, .shift 4, [2, 0],
    .nil _, rfl, rfl⟩

theorem not_suppliable_a : ¬(job true #[0x78]).Suppliable unexpected a := by
  intro h
  obtain ⟨k, _, next, path, hchain, hsettled, n, _, hviable⟩ := h.continues
  cases hchain with
  | nil =>
    cases hsettled.1
    exact endless_x.not_viableIn hviable
  | cons hr _ => cases hr.action

/-- The letter a is shifted at once, and then x is simulated. -/
theorem checkedAdmissible_a : (job true #[0x78]).checkedAdmissible [0] x a = none := by
  have hshift : table.Settled a (.shift 1) [0] := ⟨rfl, rfl⟩
  have hstart : table.Holds [0] := List.forall_mem_singleton.mpr ⟨_, rfl⟩
  change (table.checkedSimulate a (wordBound - 1) [0]).bind _ = none
  rw [hshift.counted.checkedSimulate_eq table_fault hstart, simulate_settled hshift]
  exact Job.checkedViable_none table_fault holds endless_x (Nat.le_refl wordBound)

/-- The letter b is the lowest token that can be supplied, but recovery does not return from a. -/
theorem supplying_never_returns :
    let job := job true #[0x78]
    (job.options.reductionLimit + 1 = wordBound ∧ job.Reachable unexpected ∧
      unexpected.phase = .recovering ∧ job.options.insertMissing = true) ∧
    job.Suppliable unexpected b ∧
    (∀ other, job.Suppliable unexpected other → b.id ≤ other.id) ∧
    (∀ n out, ¬Ends (job.table.simulateBody x job.options.reductionLimit) n (0, [1, 0]) out) ∧
    job.checkedRecover unexpected = none := by
  intro job
  refine ⟨⟨rfl, unexpected_reachable, rfl, rfl⟩, suppliable_b, fun other h => ?_,
    fun n out => endless_x.not_ends (Nat.le_refl wordBound), ?_⟩
  · obtain ⟨st, hst, hmem⟩ := h.mem_keys (l := language) rfl unexpected_reachable.steady.coherent
    cases hst
    have hother : other ∈ [Symbol.endOfInput, a, b] := hmem
    rcases List.mem_cons.mp hother with rfl | hother
    · exact absurd rfl h.ne_end
    · rcases List.mem_cons.mp hother with rfl | hother
      · exact absurd h not_suppliable_a
      · rw [List.mem_singleton.mp hother]
        exact UInt16.le_refl _
  · have hcandidate : job.checkedCandidate unexpected = none := by
      change (job.checkedAdmissible [0] x a).bind _ = none
      rw [checkedAdmissible_a, Option.bind_none]
    exact Job.checkedRecover_none rfl hcandidate

end Runaway

end TableParsing
