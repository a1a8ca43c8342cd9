import TableParsing.Proofs.Spans
import TableParsing.Proofs.StackNodes
import TableParsing.Proofs.Subtrees

/-!
# Where a parse cuts the text

Every end of a node and of an error is the beginning or the end of the text or of a lexeme, in trees
of whatever texts: recovery places what it supplies or wraps between lexemes. So a property of
offsets that the lexer keeps is one of all spans of a parse.
-/
namespace TableParsing

variable {P : Nat → Prop}

/-- The property holds of both ends. -/
def Span.Ends (P : Nat → Prop) (span : Span) : Prop := P span.start ∧ P span.stop

theorem Span.Ends.empty {offset : Nat} (h : P offset) : (Span.empty offset).Ends P := ⟨h, h⟩

namespace Node

variable {n : Node} {ns : List Node}

/-- The ends of all nodes of the tree have the property. -/
def Edged (P : Nat → Prop) : Node → Prop := All fun n => n.span.Ends P

theorem edged_iff : n.Edged P ↔ n.span.Ends P ∧ ∀ c ∈ n.children, c.Edged P := all_iff

theorem edged_leaf {s : Symbol} {span : Span} {named : Bool} (h : span.Ends P) :
    (Node.leaf s span named).Edged P :=
  edged_iff.mpr ⟨h, List.forall_mem_nil _⟩

theorem edged_error {span : Span} (h : span.Ends P) (hns : ∀ n ∈ ns, n.Edged P) :
    (Node.error span ns).Edged P :=
  edged_iff.mpr ⟨h, hns⟩

/-- Whether a node is an extra does not matter. -/
theorem edged_extra (h : n.Edged P) : ({ n with extra := true } : Node).Edged P :=
  All.congr (n := n) rfl h.here h

end Node

open Node

theorem coveringSpan_ends {offset : Nat} {ns : List Node} (h : P offset)
    (hns : ∀ n ∈ ns, n.Edged P) : (coveringSpan offset ns).Ends P := by
  unfold coveringSpan
  split
  · rename_i first last hfirst hlast
    exact ⟨(hns first (List.mem_of_head? hfirst)).here.1,
      (hns last (List.mem_of_getLast? hlast)).here.2⟩
  · exact .empty h

theorem Stack.endOffset_ends {s : Stack} (h : P 0) (hs : ∀ n ∈ s.nodes, n.Edged P) :
    P s.endOffset := by
  cases s with
  | nil => exact h
  | cons e s =>
    rw [nodes_cons, List.forall_mem_append, List.forall_mem_singleton] at hs
    exact hs.2.here.2

namespace Job

variable {job : Job} {r r' last : Run} {s : Symbol} {p : Production} {state : StateId} {k : Nat}

/-- The ends of the text have the property, and with the position of a scan the ends of the lexeme
that is found there. -/
structure CutsAt (job : Job) (P : Nat → Prop) : Prop where
  zero : P 0
  size : P job.text.size
  token : ∀ r token, P r.position → job.nextLexeme r = .token token → token.span.Ends P
  unlexable : ∀ r span, P r.position → job.nextLexeme r = .unlexable span → span.Ends P

/-- All that a parse has placed so far has its ends at offsets with the property. -/
structure Edged (P : Nat → Prop) (r : Run) : Prop where
  nodes : ∀ n ∈ r.stack.nodes, n.Edged P
  errors : ∀ e ∈ r.errors, e.span.Ends P
  position : P r.position
  lastEnd : P r.lastEnd

theorem Edged.report {e : SyntaxError} (h : Edged P r) (he : e.span.Ends P) :
    Edged P (r.report e) :=
  ⟨h.nodes, List.forall_mem_cons.mpr ⟨he, h.errors⟩, h.position, h.lastEnd⟩

theorem Edged.pushExtra {n : Node} (h : Edged P r) (hn : n.Edged P) : Edged P (r.pushExtra n) := by
  refine ⟨?_, h.errors, hn.here.2, hn.here.2⟩
  rw [Run.pushExtra, Stack.nodes_pushExtra]
  exact forall_mem_push h.nodes (edged_extra hn)

theorem Edged.scan (hP : job.CutsAt P) (h : Edged P r) :
    Edged P (job.scan r) ∧ (job.scan r).lookahead.span.Ends P := by
  have extra (r : Run) (token : Token) (hn : job.nextLexeme r = .token token)
      (_ : job.table.isExtra token.symbol = true) (h : Edged P r) :
      Edged P (r.pushExtra (job.leaf token)) :=
    h.pushExtra (edged_leaf (hP.token r token h.position hn))
  have unlexable (r : Run) (span : Span) (hn : job.nextLexeme r = .unlexable span)
      (h : Edged P r) : Edged P ((r.report
        (.unrecognized (job.text.slice span) span)).pushExtra (Node.error span [])) := by
    have hspan := hP.unlexable r span h.position hn
    exact (h.report hspan).pushExtra (edged_error hspan (List.forall_mem_nil _))
  obtain ⟨r', hr, ⟨_, hs⟩ | ⟨token, hn, _, hs⟩⟩ := job.scan_cases extra unlexable h
  · rw [hs]
    exact ⟨⟨hr.nodes, hr.errors, hr.position, hr.lastEnd⟩, .empty hP.size⟩
  · rw [hs]
    exact ⟨⟨hr.nodes, hr.errors, hr.position, hr.lastEnd⟩, hP.token r' token hr.position hn⟩

theorem Edged.reduced (h0 : P 0) (h : Edged P r) : Edged P (job.reduced r p state) := by
  refine ⟨forall_nodes_reduced h.nodes ?_, h.errors, h.position, h.lastEnd⟩
  have hnodes := h.nodes
  rw [← nodes_taken r p, List.forall_mem_append, List.forall_mem_append] at hnodes
  have hchildren : ∀ c ∈ job.table.collectChildren p 0 (r.taken p), c.Edged P :=
    all_collectChildren (fun _ _ h => h) hnodes.1.2
  exact edged_iff.mpr
    ⟨coveringSpan_ends (Stack.endOffset_ends h0 hnodes.1.1) hchildren, hchildren⟩

theorem Edged.replays (h0 : P 0) (hr : job.Replays s k r last) (h : Edged P r) : Edged P last :=
  hr.keeps (P := Edged P) (fun _ _ _ _ h => h.reduced h0) h

theorem Edged.supplied {next : StateId} (h : Edged P r) : Edged P (job.supplied r s next) := by
  refine ⟨?_, List.forall_mem_cons.mpr ⟨.empty h.lastEnd, h.errors⟩, h.position, h.lastEnd⟩
  rw [Job.supplied, Stack.nodes_shift]
  exact forall_mem_push h.nodes (edged_iff.mpr ⟨.empty h.lastEnd, List.forall_mem_nil _⟩)

theorem Edged.wrapped {removed : List Entry} {rest : Stack} {q : List StateId → Bool} (h0 : P 0)
    (hs : Stack.splitWhere q [] r.stack = some (removed, rest)) (h : Edged P r) :
    Edged P (job.wrapped r removed rest) := by
  have hnodes := h.nodes
  rw [(Stack.nodes_of_splitWhere hs).2, List.forall_mem_append] at hnodes
  have hspan := coveringSpan_ends (Stack.endOffset_ends h0 hnodes.1) hnodes.2
  refine ⟨?_, List.forall_mem_cons.mpr ⟨hspan, h.errors⟩, h.position, h.lastEnd⟩
  rw [Job.wrapped, Run.report, Stack.nodes_pushExtra]
  exact forall_mem_push hnodes.1 (edged_extra (edged_error hspan hnodes.2))

/-- The error that grows keeps its start. -/
theorem Edged.skips (hs : job.Skips r r') (hl : r.lookahead.span.Ends P) (h : Edged P r) :
    Edged P r' := by
  have hleaf : (job.leaf r.lookahead).Edged P := edged_leaf hl
  cases hs with
  | grown hstack herr =>
    have hnodes := h.nodes
    have herrors := h.errors
    rw [hstack, Stack.nodes_cons, List.forall_mem_append, List.forall_mem_singleton] at hnodes
    rw [herr, List.forall_mem_cons] at herrors
    obtain ⟨hspan, hchildren⟩ := edged_iff.mp hnodes.2
    refine ⟨?_, List.forall_mem_cons.mpr ⟨⟨herrors.1.1, hl.2⟩, herrors.2⟩, hl.2, hl.2⟩
    rw [grown, Stack.nodes_cons]
    exact forall_mem_push hnodes.1
      (edged_iff.mpr ⟨⟨hspan.1, hl.2⟩, forall_mem_push hchildren hleaf⟩)
  | opened =>
    refine ⟨?_, List.forall_mem_cons.mpr ⟨hl, h.errors⟩, hl.2, hl.2⟩
    rw [opened, Stack.nodes_pushExtra]
    exact forall_mem_push h.nodes
      (edged_extra (edged_error hl (List.forall_mem_singleton.mpr hleaf)))

theorem Recovers.edged (hP : job.CutsAt P) (hr : job.Recovers r r')
    (hs : job.Skips r (job.skipLookahead r)) (hl : r.lookahead.span.Ends P) (h : Edged P r) :
    Edged P r' ∧ (r'.phase ≠ .scanning → r'.lookahead.span.Ends P) := by
  cases hr with
  | supplied _ _ _ hr =>
    refine ⟨(h.replays hP.zero hr).supplied, fun _ => ?_⟩
    simp only [Job.supplied, Run.report, hr.fields.1]
    exact hl
  | wrapped _ _ hsp => exact ⟨h.wrapped hP.zero hsp, fun _ => hl⟩
  | gaveUp =>
    have he := h.report (e := .unexpectedEnd (Span.empty job.text.size)) (.empty hP.size)
    exact ⟨⟨he.nodes, he.errors, he.position, he.lastEnd⟩, fun _ => hl⟩
  | skipped => exact ⟨h.skips hs hl, fun hp => absurd hs.scanning.1 hp⟩

theorem Steps.edged (hP : job.CutsAt P) (hs : job.Steps r r')
    (hskips : r.phase = .recovering → job.Skips r (job.skipLookahead r))
    (h : Edged P r ∧ (r.phase ≠ .scanning → r.lookahead.span.Ends P)) :
    Edged P r' ∧ (r'.phase ≠ .scanning → r'.lookahead.span.Ends P) := by
  obtain ⟨h, hahead⟩ := h
  cases hs with
  | scanned =>
    obtain ⟨hr, hl⟩ := h.scan hP
    exact ⟨⟨hr.nodes, hr.errors, hr.position, hr.lastEnd⟩, fun _ => hl⟩
  | shifted hp =>
    have hl := hahead (by simp [hp])
    refine ⟨⟨?_, h.errors, hl.2, hl.2⟩, fun hp => absurd rfl hp⟩
    rw [Stack.nodes_shift]
    exact forall_mem_push h.nodes (edged_leaf hl)
  | shiftedEnd hp =>
    have hl := hahead (by simp [hp])
    exact ⟨⟨h.nodes, List.forall_mem_cons.mpr ⟨hl, h.errors⟩, h.position, h.lastEnd⟩, fun _ => hl⟩
  | @reduced _ p state hp =>
    have hr : Edged P (job.reduced r p state) := h.reduced hP.zero
    exact ⟨⟨hr.nodes, hr.errors, hr.position, hr.lastEnd⟩, fun _ => hahead (by simp [hp])⟩
  | recovered hp hr => exact hr.edged hP (hskips hp) (hahead (by simp [hp])) h
  | ended => exact ⟨h, hahead⟩

theorem Reachable.edged (hP : job.CutsAt P) (h : job.Reachable r) : Edged P r := by
  have hall : Edged P r ∧ (r.phase ≠ .scanning → r.lookahead.span.Ends P) := by
    induction h with
    | initial =>
      exact ⟨⟨List.forall_mem_nil _, List.forall_mem_nil _, hP.zero, hP.zero⟩,
        fun hp => absurd rfl hp⟩
    | step h ih => exact h.steps.edged hP h.skips ih
  exact hall.1

theorem assembleRoot_edged {phase : Phase} {nodes : List Node} (h0 : P 0) (hsize : P job.text.size)
    (h : ∀ n ∈ nodes, n.Edged P) : (job.assembleRoot phase nodes).Edged P := by
  refine edged_iff.mpr ⟨?_, fun c hc => ?_⟩
  · unfold assembleRoot
    split
    · split
      · exact ⟨h0, hsize⟩
      · exact ⟨h0, hsize⟩
    · exact ⟨h0, hsize⟩
  · rcases mem_assembleRoot hc with hc | ⟨n, hn, hc⟩
    · exact h c hc
    · exact (h n hn).child hc

end Job

/-- In the tree and among the errors of a parse there are only ends of the text and of lexemes. -/
theorem Parser.parse_edged {p : Parser} {text : Text} (hP : (p.job text).CutsAt P) :
    (p.parse text).root.Edged P ∧ ∀ e ∈ (p.parse text).errors, e.span.Ends P := by
  have h := (p.job text).finish_reachable.edged hP
  refine ⟨Job.assembleRoot_edged hP.zero hP.size h.nodes, fun e he => ?_⟩
  exact h.errors e (List.mem_reverse.mp he)

end TableParsing
