import TableParsing.Proofs.Progress
import TableParsing.Proofs.Spans

/-!
# Recovery at the end

At an end that is not viable and that no supplied token helps, the fewest entries are wrapped whose
removal leaves a stack on which the end is viable, and the parse goes on to accept. It gives up only
if no smaller stack would do, so never on a table that accepts the empty text within the limit.
-/
namespace TableParsing.Job

open Node

variable {job : Job} {r r' : Run} {rest : Stack} {l : Language}

def EndViable (job : Job) (s : Stack) : Prop :=
  ∃ k ≤ job.options.reductionLimit, job.table.ViableIn Symbol.endOfInput k s.path

theorem isViable_end_iff {s : Stack} :
    job.isViable s.path Symbol.endOfInput = true ↔ job.EndViable s :=
  GrammarTable.isViable_iff

/-- A parse in recovery at the end, with no token to supply. -/
structure Stuck (job : Job) (r : Run) : Prop where
  reachable : job.Reachable r
  recovering : r.phase = .recovering
  atEnd : r.lookahead.symbol = Symbol.endOfInput
  unsupplied : job.options.insertMissing = true → job.missingCandidate? r = none

/-- The step wraps the entries `newest` in an error and keeps those below, `rest`. -/
structure Wraps (job : Job) (r : Run) (newest : List Entry) (rest : Stack) (span : Span) :
    Prop where
  divides : r.stack = newest ++ rest
  nonempty : newest ≠ []
  viable : job.EndViable rest
  fewest : ∀ newest' rest', r.stack = newest' ++ rest' → newest' ≠ [] → job.EndViable rest' →
    newest.length ≤ newest'.length
  stack : (job.step r).stack = ⟨rest.topState, Node.error span (Stack.nodes newest)⟩ :: rest
  starts : (Stack.nodes newest).head?.map (·.span.start) = some span.start
  stops : (Stack.nodes newest).getLast?.map (·.span.stop) = some span.stop
  covers : ∀ n ∈ Stack.nodes newest, span.contains n.span = true
  reported : (job.step r).errors = .unexpectedEnd span :: r.errors
  accepts : job.finish.phase = .accepting

theorem Reachable.not_viable (h : job.Reachable r) (hp : r.phase = .recovering) :
    job.isViable r.stack.path r.lookahead.symbol = false := by
  cases h with
  | initial => cases hp
  | @step q h =>
    obtain ⟨_, hd, hs⟩ := h.steps.recovering h.steady hp
    have hc := job.scan_coherent h.steady.coherent
    rw [hs, Bool.eq_false_iff]
    intro hv
    have hcourse : job.OnCourse { job.scan q with phase := job.dispatch (job.scan q) } :=
      ⟨dispatch_of_viable hv, GrammarTable.isViable_iff.mp hv⟩
    exact (hcourse.phase_ne hc).1 hd

theorem Stuck.not_endViable (h : job.Stuck r) : ¬job.EndViable r.stack := by
  rw [← isViable_end_iff, ← h.atEnd, h.reachable.not_viable h.recovering]
  exact Bool.false_ne_true

theorem coveringSpan_tight {nodes : List Node} (h : nodes ≠ []) (offset : Nat) :
    nodes.head?.map (·.span.start) = some (coveringSpan offset nodes).start ∧
      nodes.getLast?.map (·.span.stop) = some (coveringSpan offset nodes).stop := by
  have hf := List.head?_eq_some_head h
  have hl := List.getLast?_eq_some_getLast h
  simp [coveringSpan, hf, hl]

/-- The newest error on a stack covers its children. -/
theorem Placed.covers {state : StateId} {span : Span} {nodes : List Node} (h : job.Placed r)
    (hs : r.stack = ⟨state, Node.error span nodes⟩ :: rest) :
    ∀ n ∈ nodes, span.contains n.span = true := by
  have hl := h.laid
  rw [hs, Stack.nodes_cons, laid_append] at hl
  obtain ⟨_, _, herror⟩ := hl
  obtain ⟨_, _, _, hn⟩ := laid_singleton.mp herror
  intro n hmem
  obtain ⟨h1, _, h2⟩ := (nested_iff.mp hn).1.bounds hmem
  exact (Span.contains_iff _ _).mpr ⟨h1, h2⟩

theorem Stuck.step_eq (h : job.Stuck r) : job.step r = job.recoverAtEnd r := by
  have hnone : (if job.options.insertMissing then job.missingCandidate? r else none) = none := by
    split
    · rename_i hi
      exact h.unsupplied hi
    · rfl
  simp only [step, h.recovering, recover, hnone, h.atEnd, ite_true]

theorem Stuck.wraps (h : job.Stuck r) {removed : List Entry}
    (hsp : Stack.splitWhere (job.isViable · Symbol.endOfInput) [] r.stack = some (removed, rest))
    (hs : job.step r = job.wrapped r removed rest) (hf : job.finish.phase = .accepting) :
    ∃ newest span, job.Wraps r newest rest span := by
  obtain ⟨hv, newest, hne, hdiv, rfl⟩ := Stack.splitWhere_eq_some hsp
  have hnodes : (newest.reverse ++ []).map (fun e : Entry => e.node) = Stack.nodes newest := by
    simp [Stack.nodes]
  rw [wrapped, hnodes] at hs
  have hsome : Stack.nodes newest ≠ [] := by simpa [Stack.nodes] using hne
  have htight := coveringSpan_tight hsome (Stack.endOffset rest)
  have hstack := congrArg Run.stack hs
  have hfewest (newest' : List Entry) (rest' : Stack) (hdiv' : r.stack = newest' ++ rest')
      (hne' : newest' ≠ []) (hv' : job.EndViable rest') : newest.length ≤ newest'.length := by
    have hlen := Stack.splitWhere_fewest hsp hdiv' hne' (isViable_end_iff.mpr hv')
    have htotal := congrArg List.length (hdiv.symm.trans hdiv')
    simp only [List.length_append] at htotal
    omega
  exact ⟨newest, _,
    { divides := hdiv
      nonempty := hne
      viable := isViable_end_iff.mp hv
      fewest := hfewest
      stack := hstack
      starts := htight.1
      stops := htight.2
      covers := h.reachable.step.ordered.placed.covers hstack
      reported := congrArg Run.errors hs
      accepts := hf }⟩

/-- At the end a parse either wraps entries and accepts, or no smaller stack would do. -/
theorem Stuck.cases (hl : job.grammar = l.grammar) (h : job.Stuck r) :
    (∃ newest rest span, job.Wraps r newest rest span) ∧ (job.step r).phase ≠ .gaveUp ∨
      (∀ newest rest, r.stack = newest ++ rest → newest ≠ [] → ¬job.EndViable rest) ∧
        (job.step r).phase = .gaveUp ∧ (job.step r).stack = r.stack := by
  cases h.reachable.resolves hl h.recovering with
  | supplied hi hm =>
    rw [h.unsupplied hi] at hm
    cases hm
  | @wrapped _ _ rest _ _ _ hsp hs _ _ hlast hfin =>
    obtain ⟨newest, span, hw⟩ := h.wraps hsp hs (by rw [hfin, hlast])
    refine .inl ⟨⟨newest, rest, span, hw⟩, ?_⟩
    rw [hs]
    exact job.phaseForLookahead_ne_gaveUp _
  | skipped _ he => exact absurd h.atEnd he
  | gaveUp hnone he hsp hp =>
    refine .inr ⟨fun newest rest hdiv hne => ?_, hp, ?_⟩
    · rw [← isViable_end_iff]
      exact Stack.splitWhere_eq_none_iff.mp hsp newest rest hdiv hne
    · simp only [h.step_eq, recoverAtEnd, hsp, Run.report]

/-- Where the end is viable on the empty stack, removing every entry would do, so no parse gives up. -/
theorem Reachable.not_gaveUp (hl : job.grammar = l.grammar) (hempty : job.EndViable [])
    (h : job.Reachable r) : r.phase ≠ .gaveUp := by
  induction h with
  | initial => exact Phase.noConfusion
  | @step r h ih =>
    have hsteps := h.steps
    intro hp
    generalize job.step r = r' at hsteps hp
    cases hsteps with
    | scanned => exact job.dispatch_ne_gaveUp _ hp
    | shifted => cases hp
    | shiftedEnd _ ha he =>
      exact GrammarTable.ne_endOfInput_of_shift (table_fault hl) ha he
    | reduced => exact job.phaseForLookahead_ne_gaveUp _ hp
    | recovered hrec hr' =>
      cases hr' with
      | supplied | wrapped => exact job.phaseForLookahead_ne_gaveUp _ hp
      | skipped => cases hp
      | gaveUp hnone he hsp =>
        have hstuck : job.Stuck r := ⟨h, hrec, he, hnone⟩
        have hne : r.stack ≠ [] := fun hs => hstuck.not_endViable (hs ▸ hempty)
        exact Stack.splitWhere_eq_none_iff.mp hsp r.stack [] (List.append_nil _).symm hne
          (isViable_end_iff.mpr hempty)
    | ended => exact ih hp

end TableParsing.Job
