import TableParsing.Proofs.Progress
import TableParsing.Proofs.Spans

/-!
# The order of errors

An error begins where the next scan does or behind that, so errors are found in the order of their
beginnings. Only the report of an unexpected end may begin before, with the oldest of the entries
that it wraps; it is the last one.
-/
namespace TableParsing

namespace Job

variable {job : Job} {r r' : Run} {e : SyntaxError} {l : Language}

/-- Later errors begin no earlier. -/
def Ascending (errors : List SyntaxError) : Prop :=
  errors.Pairwise fun e e' => e.span.start ≤ e'.span.start

/-- The errors so far ascend, up to where the next scan begins. -/
structure InOrder (r : Run) : Prop where
  ascending : Ascending r.errors.reverse
  reached : ∀ e ∈ r.errors, e.span.start ≤ r.position

theorem ascending_reverse_cons {errors : List SyntaxError} : Ascending (e :: errors).reverse ↔
    (∀ e' ∈ errors, e'.span.start ≤ e.span.start) ∧ Ascending errors.reverse := by
  simp only [Ascending, List.pairwise_reverse, List.pairwise_cons]

theorem InOrder.advance (h : InOrder r) (herrors : r'.errors = r.errors)
    (hp : r.position ≤ r'.position) : InOrder r' := by
  refine ⟨herrors ▸ h.ascending, fun e he => ?_⟩
  rw [herrors] at he
  exact Nat.le_trans (h.reached e he) hp

/-- A new error begins where the scan does or behind that. -/
theorem InOrder.report (h : InOrder r) (herrors : r'.errors = e :: r.errors)
    (h1 : r.position ≤ e.span.start) (h2 : e.span.start ≤ r'.position) : InOrder r' := by
  have hall : ∀ e' ∈ r.errors, e'.span.start ≤ e.span.start := fun e' he =>
    Nat.le_trans (h.reached e' he) h1
  refine ⟨?_, ?_⟩
  · rw [herrors, ascending_reverse_cons]
    exact ⟨hall, h.ascending⟩
  · rw [herrors, List.forall_mem_cons]
    exact ⟨h2, fun e' he => Nat.le_trans (hall e' he) h2⟩

theorem InOrder.scan (h : InOrder r) : InOrder (job.scan r) := by
  have extra (r : Run) (token : Token) (hn : job.nextLexeme r = .token token)
      (_ : job.table.isExtra token.symbol = true) (h : InOrder r) :
      InOrder (r.pushExtra (job.leaf token)) := by
    have hb := Grammar.token_bounds hn
    refine h.advance rfl ?_
    simp only [Run.pushExtra, Run.advance, leaf, Node.leaf, Node.branch]
    omega
  have unlexable (r : Run) (span : Span) (hn : job.nextLexeme r = .unlexable span)
      (h : InOrder r) : InOrder ((r.report
        (.unrecognized (job.text.slice span) span)).pushExtra (Node.error span [])) := by
    have hb := Grammar.unlexable_bounds hn
    exact h.report rfl hb.1 (Nat.le_of_lt hb.2.1)
  obtain ⟨r', hr, ⟨_, hs⟩ | ⟨_, _, _, hs⟩⟩ := job.scan_cases extra unlexable h
  all_goals
    rw [hs]
    exact hr.advance rfl (Nat.le_refl _)

/-- An error that grows keeps its beginning. -/
theorem InOrder.skips (hs : job.Skips r r') (ha : job.Ahead r) (h : InOrder r) : InOrder r' := by
  obtain ⟨ha1, ha2, _⟩ := ha
  cases hs with
  | grown _ herr =>
    have hascending := h.ascending
    have hreached := h.reached
    rw [herr, ascending_reverse_cons] at hascending
    rw [herr, List.forall_mem_cons] at hreached
    refine ⟨ascending_reverse_cons.mpr hascending, List.forall_mem_cons.mpr ⟨?_, fun e he => ?_⟩⟩
    · exact Nat.le_trans hreached.1 (Nat.le_trans ha1 ha2)
    · exact Nat.le_trans (hreached.2 e he) (Nat.le_trans ha1 ha2)
  | opened => exact h.report rfl ha1 ha2

/-- The parse ends with the report of an unexpected end, and the errors before that ascend. -/
def EndsUnexpected (job : Job) : Prop :=
  ∃ span errors, job.finish.errors = .unexpectedEnd span :: errors ∧ Ascending errors.reverse

theorem step_of_gaveUp (hp : r.phase = .recovering)
    (hnone : job.options.insertMissing = true → job.missingCandidate? r = none)
    (he : r.lookahead.symbol = Symbol.endOfInput)
    (hs : Stack.splitWhere (job.isViable · Symbol.endOfInput) [] r.stack = none) :
    job.step r = { r.report (.unexpectedEnd (Span.empty job.text.size)) with phase := .gaveUp } := by
  have hnot : (if job.options.insertMissing then job.missingCandidate? r else none) = none := by
    split
    · rename_i hi
      exact hnone hi
    · rfl
  simp only [step, hp, recover, hnot, he, ite_true, recoverAtEnd, hs]

theorem Resolves.inOrder (ho : job.Ordered r) (hp : r.phase = .recovering) (hr : job.Resolves r)
    (h : InOrder r) : InOrder (job.step r) ∨ job.EndsUnexpected := by
  cases hr with
  | supplied _ _ hreplay hs herrors =>
    have hlast := ho.placed.newest
    have hposition : (job.step r).position = r.position := by
      rw [hs]
      exact hreplay.fields.2.1
    refine .inl (h.report herrors (Nat.le_of_eq hlast.symm) ?_)
    rw [hposition]
    exact Nat.le_of_eq hlast
  | @wrapped _ removed rest _ _ _ _ hs _ herrors _ hfinish =>
    refine .inr ⟨coveringSpan (Stack.endOffset rest) (removed.map (·.node)), r.errors, ?_,
      h.ascending⟩
    rw [hfinish, herrors, hs]
    rfl
  | skipped _ _ hs => exact .inl (h.skips hs (ho.ahead (by simp [hp])))
  | gaveUp hnone he hs _ hfinish =>
    refine .inr ⟨Span.empty job.text.size, r.errors, ?_, h.ascending⟩
    rw [hfinish, step_of_gaveUp hp hnone he hs]
    rfl

theorem Reachable.inOrder_step (hl : job.grammar = l.grammar) (h : job.Reachable r)
    (hr : InOrder r) : InOrder (job.step r) ∨ job.EndsUnexpected := by
  have ho := h.ordered
  cases hp : r.phase with
  | scanning =>
    rw [step_of_scanning hp]
    exact .inl (hr.scan.advance rfl (Nat.le_refl _))
  | shifting =>
    obtain ⟨ha1, ha2, _⟩ := ho.ahead (by simp [hp])
    obtain ⟨next, _, hs⟩ := h.shifts hl hp
    rw [hs]
    exact .inl (hr.advance rfl (Nat.le_trans ha1 ha2))
  | reducing =>
    obtain ⟨_, ha⟩ := h.steady.reducing hp
    obtain ⟨_, _, _, _, hs, _⟩ :=
      (h.steady.onCourse (.inr (.inl hp))).reduceStep h.steady.coherent ha
    simp only [Job.step, hp]
    rw [hs]
    exact .inl (hr.advance rfl (Nat.le_refl _))
  | recovering => exact (h.resolves hl hp).inOrder ho hp hr
  | accepting | gaveUp =>
    simp only [Job.step, hp]
    exact .inl hr

/-- As long as the parse does not end with an unexpected end, the errors ascend. -/
theorem Reachable.inOrder (hl : job.grammar = l.grammar) (h : job.Reachable r) :
    InOrder r ∨ job.EndsUnexpected := by
  induction h with
  | initial => exact .inl ⟨.nil, List.forall_mem_nil _⟩
  | step h ih =>
    rcases ih with ih | ih
    · exact h.inOrder_step hl ih
    · exact .inr ih

end Job

open Job in
/-- The errors of a parse begin one behind the other, apart from the last one if it reports that the
end was unexpected. -/
theorem Parser.parse_errors_ascending (p : Parser) (text : Text) : ∃ front tail,
    (p.parse text).errors = front ++ tail ∧ Ascending front ∧
      (tail = [] ∨ ∃ span, tail = [.unexpectedEnd span]) := by
  let job := p.job text
  change ∃ front tail, job.finish.errors.reverse = _ ∧ _
  rcases (finish_reachable job).inOrder (l := p.language) rfl with h | ⟨span, errors, he, h⟩
  · exact ⟨job.finish.errors.reverse, [], (List.append_nil _).symm, h.ascending, .inl rfl⟩
  · refine ⟨errors.reverse, [.unexpectedEnd span], ?_, h, .inr ⟨span, rfl⟩⟩
    rw [he, List.reverse_cons]

end TableParsing
