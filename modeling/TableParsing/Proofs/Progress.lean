import Mathlib.Data.Nat.Count
import TableParsing.Proofs.Origins
import TableParsing.Proofs.Safety.Parser

/-!
# Recovery makes progress

A lookahead goes through recovery once. Behind a supplied token it is shifted or accepted after
reductions alone, behind wrapped entries the end is accepted, and otherwise the lookahead is skipped
or the parse gives up. So every supplied token but the last one is paid for by a shift.
-/
namespace TableParsing

namespace Job

variable {job : Job} {r r' last : Run} {s : Symbol} {p : Production} {id : ProductionId}
  {state : StateId} {k n : Nat} {l : Language}

/-! ## From recovery to the next scan -/

/-- Reductions lead a run on course to where the lookahead is shifted or accepted. -/
theorem OnCourse.settles (h : job.OnCourse r) (hc : r.stack.Coherent) :
    ∃ n ≤ job.options.reductionLimit, ∃ last, job.Reducing n r last ∧
      (last.phase = .shifting ∨ last.phase = .accepting) := by
  obtain ⟨n, hn, act, path, hchain, hset⟩ := h.viable
  obtain ⟨last, hred, hpath, hlc, hp⟩ := reducing_of_chain hc h.phase hchain
  refine ⟨n, hn, last, hred, ?_⟩
  have ha : job.currentAction? last = some act := by
    rw [job.currentAction?_eq hlc, hpath, hred.fields.1]
    exact hset.1
  rw [phaseForLookahead, ha] at hp
  cases act with
  | shift next => exact .inl hp
  | accept => exact .inr hp
  | reduce id => cases hset.2

/-- The lookahead is pushed, and the next one is scanned. -/
def Shifts (job : Job) (r r' : Run) : Prop :=
  ∃ next, job.currentAction? r = some (.shift next) ∧
    r' = { r.advance r.lookahead.span.stop with
      stack := r.stack.shift next (job.leaf r.lookahead)
      phase := .scanning }

theorem Reachable.shifts (hl : job.grammar = l.grammar) (h : job.Reachable r)
    (hp : r.phase = .shifting) : job.Shifts r (job.step r) := by
  obtain ⟨next, ha⟩ := h.steady.shifting hp
  have he : r.lookahead.symbol ≠ Symbol.endOfInput :=
    GrammarTable.ne_endOfInput_of_shift (table_fault hl) ha
  refine ⟨next, ha, ?_⟩
  simp only [Job.step, hp, shift, ha, if_neg he]

theorem Reachable.iterate (h : job.Reachable r) (n : Nat) : job.Reachable (job.step^[n] r) := by
  induction n generalizing r with
  | zero => exact h
  | succ n ih => exact ih h.step

theorem Reachable.exists_iterate (h : job.Reachable r) : ∃ n, job.step^[n] Run.initial = r := by
  induction h with
  | initial => exact ⟨0, rfl⟩
  | step _ ih =>
    obtain ⟨n, hn⟩ := ih
    exact ⟨n + 1, by rw [Function.iterate_succ_apply', hn]⟩

theorem Reachable.finish_eq (h : job.Reachable r) (hf : r.phase.isFinal = true) : job.finish = r := by
  obtain ⟨n, rfl⟩ := h.exists_iterate
  exact Job.finish_eq hf

/-- Between two recoveries a lookahead is scanned. -/
theorem exists_scanning_between {i j : Nat} (hij : i < j)
    (hi : (job.step^[i] Run.initial).phase = .recovering)
    (hj : (job.step^[j] Run.initial).phase = .recovering) :
    ∃ m, i < m ∧ m < j ∧ (job.step^[m] Run.initial).phase = .scanning := by
  obtain ⟨m, rfl⟩ : ∃ m, j = m + 1 := ⟨j - 1, by omega⟩
  rw [Function.iterate_succ_apply'] at hj
  have hr : job.Reachable (job.step^[m] Run.initial) := Reachable.initial.iterate m
  have hm := (hr.steps.recovering hr.steady hj).1
  have hne : i ≠ m := by
    rintro rfl
    exact absurd (hi.symm.trans hm) (by decide)
  exact ⟨m, by omega, Nat.lt_succ_self m, hm⟩

/-- How recovery ends, and what comes of it. -/
inductive Resolves (job : Job) (r : Run) : Prop
  | supplied {s : Symbol} {k n : Nat} {before last : Run} {next : StateId} :
      job.options.insertMissing = true → job.missingCandidate? r = some s →
      job.Replays s k r before → job.step r = job.supplied before s next →
      (job.step r).errors = .absent (job.table.displayName s) r.lastEnd :: r.errors →
      job.Reducing n (job.step r) last →
      last.lookahead = r.lookahead → last.errors = (job.step r).errors →
      (last.phase = .shifting ∧ job.Shifts last (job.step last) ∨
        last.phase = .accepting ∧ job.finish = last) → Resolves job r
  | wrapped {n : Nat} {removed : List Entry} {rest : Stack} {last : Run} :
      (job.options.insertMissing = true → job.missingCandidate? r = none) →
      r.lookahead.symbol = Symbol.endOfInput →
      Stack.splitWhere (job.isViable · Symbol.endOfInput) [] r.stack = some (removed, rest) →
      job.step r = job.wrapped r removed rest →
      job.Reducing n (job.step r) last → last.errors = (job.step r).errors →
      last.phase = .accepting → job.finish = last → Resolves job r
  | skipped :
      (job.options.insertMissing = true → job.missingCandidate? r = none) →
      r.lookahead.symbol ≠ Symbol.endOfInput → job.Skips r (job.step r) →
      (job.step r).phase = .scanning → (job.step r).position = r.lookahead.span.stop →
      Resolves job r
  | gaveUp :
      (job.options.insertMissing = true → job.missingCandidate? r = none) →
      r.lookahead.symbol = Symbol.endOfInput →
      Stack.splitWhere (job.isViable · Symbol.endOfInput) [] r.stack = none →
      (job.step r).phase = .gaveUp → job.finish = job.step r → Resolves job r

theorem Recovers.resolves (hl : job.grammar = l.grammar) (h : job.Reachable r)
    (hp : r.phase = .recovering) (hr : job.Recovers r r') (hs : job.step r = r') :
    job.Resolves r := by
  have hc := h.steady.coherent
  have hstep := h.step
  rw [hs] at hstep
  cases hr with
  | @supplied s k next path before hi hm ha hreplay hpath hbc =>
    obtain ⟨n, _, last, hred, hend⟩ := (supplied_course ha hreplay hpath).settles (hbc.shift _ rfl)
    have hfields := hreplay.fields
    have hlast : job.Reachable last := hred.iterate ▸ hstep.iterate n
    refine .supplied hi hm hreplay hs ?_ (hs ▸ hred) (hred.fields.1.trans hfields.1)
      (hs ▸ hred.fields.2) (hend.imp (fun hq => ⟨hq, hlast.shifts hl hq⟩)
        fun hq => ⟨hq, hlast.finish_eq (by rw [hq]; rfl)⟩)
    rw [hs, ← hfields.2.2.1, ← hfields.2.2.2]
    rfl
  | @wrapped removed rest hnone he hsp =>
    obtain ⟨n, _, last, hred, hend⟩ :=
      (wrapped_course he hsp).settles (wrapped_coherent hc hsp)
    have hlast : job.Reachable last := hred.iterate ▸ hstep.iterate n
    have hq : last.phase = .accepting := by
      refine hend.resolve_left fun hq => ?_
      obtain ⟨next, ha, _⟩ := hlast.shifts hl hq
      refine GrammarTable.ne_endOfInput_of_shift (table_fault hl) ha ?_
      rw [hred.fields.1]
      exact he
    exact .wrapped hnone he hsp hs (hs ▸ hred) (hs ▸ hred.fields.2) hq
      (hlast.finish_eq (by rw [hq]; rfl))
  | gaveUp hnone he hsp =>
    exact .gaveUp hnone he hsp (by rw [hs]) (by rw [hs]; exact hstep.finish_eq rfl)
  | skipped hnone he =>
    have hsk := h.skips hp
    exact .skipped hnone he (hs ▸ hsk) (hs ▸ hsk.scanning.1) (hs ▸ hsk.scanning.2)

theorem Reachable.resolves (hl : job.grammar = l.grammar) (h : job.Reachable r)
    (hp : r.phase = .recovering) : job.Resolves r := by
  have hs : job.step r = job.recover r := by simp only [Job.step, hp]
  exact (recovers h.steady.coherent).resolves hl h hp hs

/-! ## Supplied tokens are paid for -/

/-- Number of tokens shifted in the first `n` steps. -/
def shiftsIn (job : Job) (n : Nat) : Nat :=
  Nat.count (fun i => (job.step^[i] Run.initial).phase = .shifting) n

/-- Number of tokens reported as missing. -/
def absences (errors : List SyntaxError) : Nat := errors.countP (·.kind = .missing)

theorem absences_cons {e : SyntaxError} (h : e.kind ≠ .missing) (errors : List SyntaxError) :
    absences (e :: errors) = absences errors :=
  List.countP_cons_of_neg (by simpa using h)

theorem absences_absent (name : String) (offset : Nat) (errors : List SyntaxError) :
    absences (.absent name offset :: errors) = absences errors + 1 :=
  List.countP_cons_of_pos rfl

theorem absences_scan (job : Job) (r : Run) :
    absences (job.scan r).errors = absences r.errors := by
  have unlexable (r' : Run) (span : Span) (_ : job.nextLexeme r' = .unlexable span)
      (h : absences r'.errors = absences r.errors) :
      absences (.unrecognized (job.text.slice span) span :: r'.errors) = absences r.errors :=
    (absences_cons SyntaxErrorKind.noConfusion _).trans h
  obtain ⟨r', hr, ⟨_, hs⟩ | ⟨_, _, _, hs⟩⟩ := job.scan_cases
    (P := fun r' => absences r'.errors = absences r.errors) (fun _ _ _ _ h => h) unlexable rfl
  all_goals
    rw [hs]
    exact hr

theorem absences_skips (hs : job.Skips r r') : absences r'.errors = absences r.errors := by
  cases hs with
  | grown _ herr => simp [absences, grown, herr, List.countP_cons]
  | opened => exact absences_cons SyntaxErrorKind.noConfusion _

/-- Each supplied token but the newest was followed by a shift, and the newest too once the next
lookahead is scanned. -/
structure Paid (r : Run) (shifts : Nat) : Prop where
  bound : absences r.errors ≤ shifts + 1
  settled : r.phase = .scanning ∨ r.phase = .recovering → absences r.errors ≤ shifts

variable {shifts : Nat}

theorem Paid.of_le (h : absences r.errors ≤ shifts) : Paid r shifts :=
  ⟨Nat.le_succ_of_le h, fun _ => h⟩

theorem OnCourse.paid (ho : job.OnCourse r) (hc : r.stack.Coherent)
    (h : absences r.errors ≤ shifts + 1) : Paid r shifts :=
  ⟨h, fun hp => (hp.elim (ho.phase_ne hc).2 (ho.phase_ne hc).1).elim⟩

theorem Recovers.paid (hr : job.Recovers r r') (hm : r.mergeSkips = true → OnOpen r)
    (h : absences r.errors ≤ shifts) (hc : r'.stack.Coherent) : Paid r' shifts := by
  cases hr with
  | @supplied s _ _ _ last _ _ ha hreplay hpath =>
    refine (supplied_course ha hreplay hpath).paid hc ?_
    rw [← hreplay.fields.2.2.2] at h
    exact (absences_absent (job.table.displayName s) last.lastEnd _).trans_le (Nat.succ_le_succ h)
  | wrapped | gaveUp => exact .of_le ((absences_cons SyntaxErrorKind.noConfusion _).trans_le h)
  | skipped => exact .of_le ((absences_skips (skips hm)).trans_le h)

/-- A shift pays for what the lookahead before it was supplied with. -/
theorem Steps.paid (hs : job.Steps r r') (hm : Merges r) (hc : r'.stack.Coherent)
    (h : Paid r shifts) : Paid r' (shifts + if r.phase = .shifting then 1 else 0) := by
  cases hs with
  | scanned hp =>
    rw [if_neg (by simp [hp])]
    exact .of_le ((absences_scan job r).trans_le (h.settled (.inl hp)))
  | shifted hp =>
    rw [if_pos hp]
    exact .of_le h.bound
  | shiftedEnd hp =>
    rw [if_pos hp]
    exact .of_le ((absences_cons SyntaxErrorKind.noConfusion _).trans_le h.bound)
  | reduced hp _ _ _ ho =>
    rw [if_neg (by simp [hp])]
    exact ho.paid hc h.bound
  | recovered hp hr =>
    rw [if_neg (by simp [hp])]
    exact hr.paid (hm (by simp [hp])) (h.settled (.inr hp)) hc
  | ended hf =>
    rw [if_neg (by rintro hp; rw [hp] at hf; cases hf)]
    exact h

theorem paid_iterate (job : Job) (n : Nat) :
    Paid (job.step^[n] Run.initial) (job.shiftsIn n) := by
  induction n with
  | zero => exact .of_le (Nat.le_refl 0)
  | succ n ih =>
    have hr : job.Reachable (job.step^[n] Run.initial) := Reachable.initial.iterate n
    rw [shiftsIn, Nat.count_succ, Function.iterate_succ_apply']
    exact hr.steps.paid hr.merges hr.step.steady.coherent ih

/-! ## Supplied tokens in the tree -/

/-- Unless errors are supplied, the supplied nodes are the flaws of the kind missing. -/
theorem flaw?_missing {n : Node} (h : n.isError = true → n.missing = false) :
    (n.flaw?.map fun flaw => decide (flaw.1 = .missing)).getD false = n.missing := by
  unfold Node.flaw? Node.flawKind?
  cases he : n.isError with
  | true =>
    rw [h he]
    cases n.children.isEmpty <;> rfl
  | false => cases n.missing <;> rfl

/-- The supplied tokens on the stack are those reported as missing. -/
theorem Reachable.countP_missing (hl : job.grammar = l.grammar) (h : job.Reachable r) :
    (Node.walkPending r.stack.nodes).countP (·.missing) = absences r.errors := by
  have hsound (n : Node) (hn : n ∈ Node.walkPending r.stack.nodes) (he : n.isError = true) :
      n.missing = false := by
    obtain ⟨m, hm, hn⟩ := Node.exists_holds_of_mem_walkPending hn
    exact ((h.built hl m hm).of_holds hn).missing (table_fault hl) he
  have hplace (errors : List SyntaxError) :
      absences errors = (errors.map place).countP (·.1 = .missing) := by
    rw [List.countP_map]
    rfl
  have hflaws : (Node.walkPending r.stack.nodes).countP (·.missing) =
      (Node.flaws r.stack.nodes).countP (·.1 = .missing) := by
    rw [Node.flaws, List.countP_filterMap]
    exact List.countP_congr fun n hn => by rw [flaw?_missing (hsound n hn)]
  rw [hflaws, hplace]
  cases h.matched hl with
  | going _ hb => exact (List.Perm.countP_eq _ hb).symm
  | gaveUp _ herr hkind hperm =>
    rw [herr, List.map_cons, List.countP_cons_of_neg (by simp [place, hkind])]
    exact (List.Perm.countP_eq _ hperm).symm

/-- The root holds as many supplied tokens as the stack. -/
theorem countP_walk_assembleRoot (job : Job) (phase : Phase) (nodes : List Node) :
    (job.assembleRoot phase nodes).walk.countP (·.missing) =
      (Node.walkPending nodes).countP (·.missing) := by
  have hfailed : (Node.branch Symbol.error ⟨0, job.text.size⟩ true nodes).walk.countP (·.missing) =
      (Node.walkPending nodes).countP (·.missing) := by
    rw [Node.walk_eq, List.countP_cons_of_neg (by simp [Node.branch])]
    rfl
  unfold assembleRoot
  split
  · split
    · rename_i root trailing hd
      conv_rhs => rw [(Stack.root_of_dropWhile hd).2]
      simp only [Node.walk_eq, Node.walkPending_append, Node.walkPending, List.countP_append,
        List.countP_cons]
      omega
    · exact hfailed
  · exact hfailed

end Job

/-! ## Three words, of which two are skipped -/

namespace Word

abbrev wordsJob : Job := parser.job #[0x61, 0x20, 0x61, 0x20, 0x61]

/-- The run that finds the second word unexpected. -/
def second : Run := { shifted with phase := .recovering, lookahead := ⟨word, 2, 3⟩ }

/-- The run that has skipped the second word. -/
def skipped : Run := wordsJob.skipLookahead second

/-- The run that finds the third word unexpected. -/
def third : Run := { skipped with phase := .recovering, lookahead := ⟨word, 4, 5⟩ }

theorem iterate_second : wordsJob.step^[3] Run.initial = second := by
  have hfirst : wordsJob.nextLexeme Run.initial = .token ⟨word, 0, 1⟩ :=
    Grammar.lexemeAt_single (Grammar.skipSeparators_stop rfl) rfl rfl rfl rfl
  have hsecond : wordsJob.nextLexeme shifted = .token ⟨word, 2, 3⟩ :=
    Grammar.lexemeAt_single ((Grammar.skipSeparators_next rfl).trans
      (Grammar.skipSeparators_stop rfl)) rfl rfl rfl rfl
  have hshifted : wordsJob.step^[2] Run.initial = shifted := by
    rw [Function.iterate_succ_apply, Job.step_of_scanning rfl, Job.scan_of_token hfirst rfl]
    rfl
  rw [Function.iterate_succ_apply', hshifted, Job.step_of_scanning rfl,
    Job.scan_of_token hsecond rfl]
  rfl

theorem iterate_third : wordsJob.step^[5] Run.initial = third := by
  have hthird : wordsJob.nextLexeme skipped = .token ⟨word, 4, 5⟩ :=
    Grammar.lexemeAt_single ((Grammar.skipSeparators_next rfl).trans
      (Grammar.skipSeparators_stop rfl)) rfl rfl rfl rfl
  have hskipped : wordsJob.step second = skipped := rfl
  rw [Function.iterate_succ_apply', Function.iterate_succ_apply', iterate_second, hskipped,
    Job.step_of_scanning rfl, Job.scan_of_token hthird rfl]
  rfl

end Word

namespace Parser

/-- Recovery comes to an end and makes progress: a lookahead goes through it once, and after it the
lookahead is shifted or accepted without a new error, skipped, or the last one. So a tree has at most
one supplied token more than tokens were shifted. -/
theorem recovery_progress (p : Parser) (text : Text)
    (hlimit : p.options.reductionLimit + 1 < wordBound) :
    let job := p.job text
    (∀ i j, i < j → (job.step^[i] Run.initial).phase = .recovering →
      (job.step^[j] Run.initial).phase = .recovering →
      ∃ m, i < m ∧ m < j ∧ (job.step^[m] Run.initial).phase = .scanning) ∧
    (∀ r, job.Reachable r → r.phase = .recovering →
      job.checkedRecover r = some (job.step r) ∧ job.Resolves r) ∧
    (∀ r, job.Reachable r → r.phase = .shifting → job.Shifts r (job.step r)) ∧
    (p.parse text).walk.countP (·.missing) ≤ job.shiftsIn job.stepBound + 1 := by
  intro job
  have hj : job.Bounded := ⟨p.language.table_fault, hlimit⟩
  refine ⟨fun i j => Job.exists_scanning_between,
    fun r hr hp => ⟨hr.checkedRecover_eq hj hp, hr.resolves (l := p.language) rfl hp⟩,
    fun r hr => hr.shifts (l := p.language) rfl, ?_⟩
  have hcount := job.finish_reachable.countP_missing (l := p.language) rfl
  have hfinish : job.finish = job.step^[job.stepBound] Run.initial := Job.runFor_eq_iterate _ _ _
  calc (p.parse text).walk.countP (·.missing)
    _ = (Node.walkPending job.finish.stack.nodes).countP (·.missing) :=
      job.countP_walk_assembleRoot _ _
    _ = Job.absences job.finish.errors := hcount
    _ ≤ job.shiftsIn job.stepBound + 1 := by
      rw [hfinish]
      exact (job.paid_iterate job.stepBound).bound

/-- Both skipped words go through recovery, with a scan between; in the empty text a word is
supplied. -/
theorem recovery_progress_words : Word.parser.options.reductionLimit + 1 < wordBound ∧
    ((Word.wordsJob.step^[3] Run.initial).phase = .recovering ∧
      (Word.wordsJob.step^[5] Run.initial).phase = .recovering ∧
      ∃ m, 3 < m ∧ m < 5 ∧ (Word.wordsJob.step^[m] Run.initial).phase = .scanning) ∧
    (Word.job.Reachable Word.missing ∧ Word.missing.phase = .recovering ∧
      Word.job.Resolves Word.missing) ∧
    (Word.letterJob.Reachable Word.scanned ∧ Word.scanned.phase = .shifting ∧
      Word.letterJob.Shifts Word.scanned (Word.letterJob.step Word.scanned)) ∧
    (Word.parser.parse #[]).walk.countP (·.missing) ≤ Word.job.shiftsIn Word.job.stepBound + 1 := by
  have hlimit : Word.parser.options.reductionLimit + 1 < wordBound := by decide
  have hwords := recovery_progress Word.parser #[0x61, 0x20, 0x61, 0x20, 0x61] hlimit
  have hempty := recovery_progress Word.parser #[] hlimit
  have hletter := recovery_progress Word.parser #[0x61] hlimit
  have hsecond : (Word.wordsJob.step^[3] Run.initial).phase = .recovering := by
    rw [Word.iterate_second]
    rfl
  have hthird : (Word.wordsJob.step^[5] Run.initial).phase = .recovering := by
    rw [Word.iterate_third]
    rfl
  exact ⟨hlimit, ⟨hsecond, hthird, hwords.1 3 5 (by decide) hsecond hthird⟩,
    ⟨Word.missing_reachable, rfl, (hempty.2.1 _ Word.missing_reachable rfl).2⟩,
    ⟨Word.scanned_reachable, rfl, hletter.2.2.1 _ Word.scanned_reachable rfl⟩, hempty.2.2.2⟩

end Parser

/-! ## A runaway chain

Behind the letter a, the letter x makes nodes without end, and at the start the end does; under the
greatest word as a limit nothing stops them.
-/

namespace Runaway

def a : Symbol := ⟨1⟩

def b : Symbol := ⟨2⟩

def x : Symbol := ⟨3⟩

def node : Symbol := ⟨4⟩

def table : GrammarTable :=
  { name := "runaway"
    version := newestVersion
    symbols := #[⟨"end", .terminal, false, false, false⟩, ⟨"a", .terminal, true, true, false⟩,
      ⟨"b", .terminal, true, true, false⟩, ⟨"x", .terminal, true, true, false⟩,
      ⟨"node", .nonTerminal, true, true, false⟩]
    fields := #[]
    productions := #[Production.ofArity node 0, Production.ofArity node 1]
    states := #[
      (((ParseState.empty.shift a 1).shift b 2).reduce [Symbol.endOfInput] 0).goto node 3,
      (ParseState.empty.reduce [x] 0).goto node 3, ParseState.empty.shift x 4,
      ParseState.empty.reduce [Symbol.endOfInput, x] 1, ParseState.empty.accept Symbol.endOfInput]
    lexStates := #[((LexState.empty.onByte 0x61 1).onByte 0x62 2).onByte 0x78 3,
      LexState.accepting a, LexState.accepting b, LexState.accepting x]
    separators := []
    wordToken := none
    keywords := []
    externalTokens := [] }

def language : Language := ⟨table.withoutScanner, by decide, by decide +kernel⟩

abbrev job (insertMissing : Bool) (text : Text) : Job :=
  Parser.job ⟨language, ⟨insertMissing, wordBound - 1⟩⟩ text

theorem table_fault : table.fault? = none := language.table_fault

theorem endless_end : table.Endless Symbol.endOfInput [0] := by
  have hnode : table.Reduces Symbol.endOfInput 0 (Production.ofArity node 0) [0] [3, 0] :=
    ⟨rfl, rfl, rfl⟩
  have hagain : table.Reduces Symbol.endOfInput 1 (Production.ofArity node 1) [3, 0] [3, 0] :=
    ⟨rfl, rfl, rfl⟩
  exact .of_reduces hnode (.of_self hagain)

theorem endless_x : table.Endless x [1, 0] := by
  have hnode : table.Reduces x 0 (Production.ofArity node 0) [1, 0] [3, 1, 0] := ⟨rfl, rfl, rfl⟩
  have hagain : table.Reduces x 1 (Production.ofArity node 1) [3, 1, 0] [3, 1, 0] :=
    ⟨rfl, rfl, rfl⟩
  exact .of_reduces hnode (.of_self hagain)

theorem holds : table.Holds [1, 0] :=
  List.forall_mem_cons.mpr ⟨⟨_, rfl⟩, List.forall_mem_singleton.mpr ⟨_, rfl⟩⟩

/-- The run that has scanned the letter a. -/
def scanned : Run := { Run.initial with lookahead := ⟨a, 0, 1⟩, phase := .shifting }

/-- The run that has shifted it. -/
def shifted : Run :=
  { scanned with
    stack := [⟨1, Node.leaf a ⟨0, 1⟩ true⟩]
    phase := .scanning
    position := 1
    lastEnd := 1 }

/-- The run that finds the end behind it. -/
def stuck : Run :=
  { shifted with lookahead := ⟨Symbol.endOfInput, Span.empty 1⟩, phase := .recovering }

theorem stuck_reachable (insertMissing : Bool) : (job insertMissing #[0x61]).Reachable stuck := by
  have hletter : (job insertMissing #[0x61]).nextLexeme Run.initial = .token ⟨a, 0, 1⟩ :=
    Grammar.lexemeAt_single (Grammar.skipSeparators_stop rfl) rfl rfl rfl rfl
  have hend : (job insertMissing #[0x61]).nextLexeme shifted = .endOfText :=
    Grammar.lexemeAt_of_size_le (Nat.le_refl 1)
  have hscanned : (job insertMissing #[0x61]).step Run.initial = scanned := by
    rw [Job.step_of_scanning rfl, Job.scan_of_token hletter rfl]
    cases insertMissing <;> rfl
  have hshifted : (job insertMissing #[0x61]).step scanned = shifted := by
    cases insertMissing <;> rfl
  have hstuck : (job insertMissing #[0x61]).step shifted = stuck := by
    rw [Job.step_of_scanning rfl, Job.scan_of_endOfText hend]
    cases insertMissing <;> rfl
  exact hstuck ▸ (hshifted ▸ (hscanned ▸ Job.Reachable.initial.step).step).step

/-- Recovery tries x, the only token that the newest state has an action for, and does not return. -/
theorem recovery_never_returns :
    let job := job true #[0x61]
    job.options.reductionLimit + 1 = wordBound ∧ job.Reachable stuck ∧ stuck.phase = .recovering ∧
      (job.table.state? stuck.stack.topState).map (·.validTerminals) = some [x] ∧
      (∀ n out, ¬Ends (job.table.simulateBody x job.options.reductionLimit) n
        (0, stuck.stack.path) out) ∧
      job.checkedRecover stuck = none := by
  intro job
  refine ⟨rfl, stuck_reachable true, rfl, rfl,
    fun n out => endless_x.not_ends (Nat.le_refl wordBound), ?_⟩
  have hrun : table.checkedSimulate x (wordBound - 1) [1, 0] = none :=
    endless_x.checkedSimulate_none table_fault holds (Nat.le_refl wordBound)
  have hx : job.checkedAdmissible [1, 0] Symbol.endOfInput x = none := by
    change (table.checkedSimulate x (wordBound - 1) [1, 0]).bind _ = none
    rw [hrun, Option.bind_none]
  have hcandidate : job.checkedCandidate stuck = none := by
    change (job.checkedAdmissible [1, 0] Symbol.endOfInput x).bind _ = none
    rw [hx, Option.bind_none]
  exact Job.checkedRecover_none rfl hcandidate

end Runaway

end TableParsing
