import TableParsing.Proofs.Nesting
import TableParsing.Proofs.Reachable

/-!
# Spans of a tree

The nodes of a stack lie in order up to where the next scan begins, and the lookahead lies behind
them. Every step keeps this, and so the tree made from the stack at the end is nested.
-/
namespace TableParsing

namespace Job

open Node

variable {job : Job} {r r' last : Run} {s : Symbol} {p : Production} {state : StateId} {hi k : Nat}

/-- The lookahead lies behind the stack and within the text. -/
def Ahead (job : Job) (r : Run) : Prop :=
  r.position ≤ r.lookahead.span.start ∧ r.lookahead.span.start ≤ r.lookahead.span.stop ∧
    r.lookahead.span.stop ≤ job.text.size

/-- The nodes of the stack lie in order up to where the next scan begins. -/
structure Placed (job : Job) (r : Run) : Prop where
  laid : Laid 0 r.position r.stack.nodes
  newest : r.lastEnd = r.position
  within : r.position ≤ job.text.size

theorem laid_reduced (h : Laid 0 hi r.stack.nodes) :
    Laid 0 hi (job.reduced r p state).stack.nodes := by
  rw [← nodes_taken r p, laid_append] at h
  obtain ⟨mid, h, htrailing⟩ := h
  obtain ⟨low, hbelow, htaken⟩ := laid_append.mp h
  obtain ⟨hle, hbelow⟩ := Stack.laid_endOffset hbelow
  have hchildren : Laid (Stack.endOffset (r.below p)) mid
      (job.table.collectChildren p 0 (r.taken p)) :=
    job.table.collectChildren_laid p 0 ⟨htaken.1.mono_left hle, htaken.2⟩
  obtain ⟨h1, h2, hc⟩ := laid_coveringSpan hchildren
  have hparent : Laid (Stack.endOffset (r.below p)) mid [job.parent r p] :=
    laid_singleton.mpr ⟨h1, hc.le, h2, nested_iff.mpr hc⟩
  rw [nodes_reduced]
  exact laid_append.mpr ⟨mid, laid_append.mpr ⟨_, hbelow, hparent⟩, htrailing⟩

theorem Placed.reduced (h : job.Placed r) : job.Placed (job.reduced r p state) :=
  ⟨laid_reduced h.laid, h.newest, h.within⟩

theorem Placed.pushExtra {n : Node} (h : job.Placed r) (hn : Laid r.position job.text.size [n]) :
    job.Placed (r.pushExtra n) := by
  obtain ⟨h1, h2, h3, hn⟩ := laid_singleton.mp hn
  exact ⟨Stack.laid_pushExtra h.laid (laid_singleton.mpr ⟨h1, h2, Nat.le_refl _, hn⟩), rfl, h3⟩

theorem laid_leaf {lo : Nat} {token : Token} (h1 : lo ≤ token.span.start)
    (h2 : token.span.start ≤ token.span.stop) (h3 : token.span.stop ≤ hi) :
    Laid lo hi [job.leaf token] :=
  laid_singleton.mpr ⟨h1, h2, h3, nested_leaf h2⟩

theorem Placed.scan (h : job.Placed r) : job.Placed (job.scan r) ∧ job.Ahead (job.scan r) := by
  have extra (r : Run) (token : Token) (hn : job.nextLexeme r = .token token)
      (_ : job.table.isExtra token.symbol = true) (h : job.Placed r) :
      job.Placed (r.pushExtra (job.leaf token)) := by
    have hb := Grammar.token_bounds hn
    exact h.pushExtra (laid_leaf hb.1 (by omega) hb.2.2)
  have unlexable (r : Run) (span : Span) (hn : job.nextLexeme r = .unlexable span)
      (h : job.Placed r) : job.Placed ((r.report
        (.unrecognized (job.text.slice span) span)).pushExtra (Node.error span [])) := by
    have hb := Grammar.unlexable_bounds hn
    have hl : Laid r.position job.text.size [Node.error span []] :=
      laid_singleton.mpr ⟨hb.1, by simp only [Node.error]; omega, hb.2.2,
        nested_iff.mpr (laid_nil (by simp only [Node.error]; omega))⟩
    exact Placed.pushExtra (r := r.report _) ⟨h.laid, h.newest, h.within⟩ hl
  obtain ⟨r', hr, ⟨_, hs⟩ | ⟨token, hn, _, hs⟩⟩ := job.scan_cases extra unlexable h
  · rw [hs]
    exact ⟨⟨hr.laid, hr.newest, hr.within⟩, hr.within, Nat.le_refl _, Nat.le_refl _⟩
  · rw [hs]
    have hb := Grammar.token_bounds hn
    exact ⟨⟨hr.laid, hr.newest, hr.within⟩, hb.1, Nat.le_of_lt hb.2.1, hb.2.2⟩

theorem Placed.supplied {next : StateId} (h : job.Placed r) :
    job.Placed (job.supplied r s next) := by
  refine ⟨Stack.laid_shift h.laid (laid_singleton.mpr ?_), h.newest, h.within⟩
  simp only [Node.supplied, Node.leaf, Node.branch, Span.empty, h.newest]
  exact ⟨Nat.le_refl _, Nat.le_refl _, Nat.le_refl _, nested_iff.mpr (laid_nil (Nat.le_refl _))⟩

theorem Placed.wrapped {removed : List Entry} {rest : Stack} {q : List StateId → Bool}
    (h : job.Placed r) (hs : Stack.splitWhere q [] r.stack = some (removed, rest)) :
    job.Placed (job.wrapped r removed rest) := by
  obtain ⟨_, front, _, hstack, rfl⟩ := Stack.splitWhere_eq_some hs
  have hl := h.laid
  have hnodes : r.stack.nodes =
      Stack.nodes rest ++ (front.reverse ++ []).map fun e : Entry => e.node := by
    simp [hstack, Stack.nodes]
  rw [hnodes, laid_append] at hl
  obtain ⟨low, hrest, hfront⟩ := hl
  obtain ⟨hle, hrest⟩ := Stack.laid_endOffset hrest
  obtain ⟨h1, h2, hc⟩ := laid_coveringSpan ⟨hfront.1.mono_left hle, hfront.2⟩
  exact ⟨Stack.laid_pushExtra hrest (laid_singleton.mpr ⟨h1, hc.le, h2, nested_iff.mpr hc⟩),
    h.newest, h.within⟩

/-- Skipping grows the error on top or starts one behind the stack. -/
theorem Placed.skipped (h : job.Placed r) (ha : job.Ahead r) :
    job.Placed (job.skipLookahead r) := by
  obtain ⟨ha1, ha2, ha3⟩ := ha
  unfold skipLookahead
  refine ⟨?_, rfl, ha3⟩
  split
  · rename_i e rest ho
    have hl := h.laid
    rw [(openSkip?_eq_some ho).1, Stack.nodes_cons, laid_append] at hl
    obtain ⟨mid, hrest, hnode⟩ := hl
    obtain ⟨h1, h2, h3, hn⟩ := laid_singleton.mp hnode
    have hleaf : Laid e.node.span.stop r.lookahead.span.stop [job.leaf r.lookahead] :=
      laid_leaf (Nat.le_trans h3 ha1) ha2 (Nat.le_refl _)
    have hchildren := laid_append.mpr ⟨_, nested_iff.mp hn, hleaf⟩
    simp only [Run.advance, Stack.nodes_cons]
    refine laid_append.mpr ⟨mid, hrest, laid_singleton.mpr ?_⟩
    exact ⟨h1, hchildren.le, Nat.le_refl _, nested_iff.mpr hchildren⟩
  · refine Stack.laid_pushExtra h.laid (laid_singleton.mpr ⟨ha1, ha2, Nat.le_refl _, ?_⟩)
    exact nested_iff.mpr (laid_leaf (Nat.le_refl _) ha2 (Nat.le_refl _))

/-- The invariant of a parse: a lookahead that has been scanned lies ahead of what is placed. -/
structure Ordered (job : Job) (r : Run) : Prop where
  placed : job.Placed r
  ahead : r.phase ≠ .scanning → job.Ahead r

theorem Recovers.ordered (h : job.Placed r) (ha : job.Ahead r) (hr : job.Recovers r r') :
    job.Ordered r' := by
  cases hr with
  | supplied _ _ _ hr =>
    have hp := hr.keeps (P := job.Placed) (fun _ _ _ _ hp => hp.reduced) h
    refine ⟨hp.supplied, fun _ => ?_⟩
    obtain ⟨hlook, hpos, _, _⟩ := hr.fields
    simp only [Ahead, Job.supplied, Run.report, hlook, hpos]
    exact ha
  | wrapped _ _ hs => exact ⟨h.wrapped hs, fun _ => ha⟩
  | gaveUp => exact ⟨⟨h.laid, h.newest, h.within⟩, fun _ => ha⟩
  | skipped => exact ⟨h.skipped ha, fun hp => absurd rfl hp⟩

theorem Steps.ordered (h : job.Ordered r) (hs : job.Steps r r') : job.Ordered r' := by
  cases hs with
  | scanned =>
    obtain ⟨hp, ha⟩ := h.placed.scan
    exact ⟨⟨hp.laid, hp.newest, hp.within⟩, fun _ => ha⟩
  | shifted hp =>
    obtain ⟨ha1, ha2, ha3⟩ := h.ahead (by simp [hp])
    exact ⟨⟨Stack.laid_shift h.placed.laid (laid_leaf ha1 ha2 (Nat.le_refl _)), rfl, ha3⟩,
      fun hp => absurd rfl hp⟩
  | shiftedEnd hp =>
    exact ⟨⟨h.placed.laid, h.placed.newest, h.placed.within⟩, fun _ => h.ahead (by simp [hp])⟩
  | @reduced _ p state hp =>
    have hr : job.Placed (job.reduced r p state) := h.placed.reduced
    exact ⟨⟨hr.laid, hr.newest, hr.within⟩, fun _ => h.ahead (by simp [hp])⟩
  | recovered hp hr => exact hr.ordered h.placed (h.ahead (by simp [hp]))
  | ended => exact h

theorem ordered_initial (job : Job) : job.Ordered Run.initial :=
  ⟨⟨laid_nil (Nat.le_refl 0), rfl, Nat.zero_le _⟩, fun hp => absurd rfl hp⟩

theorem Reachable.ordered (h : job.Reachable r) : job.Ordered r := by
  induction h with
  | initial => exact job.ordered_initial
  | step h ih => exact h.steps.ordered ih

/-- Whatever the outcome, the root covers the text and holds the nodes of the stack in order. -/
theorem assembleRoot_nested (job : Job) {phase : Phase} {nodes : List Node}
    (h : Laid 0 job.text.size nodes) :
    (job.assembleRoot phase nodes).span = ⟨0, job.text.size⟩ ∧
      (job.assembleRoot phase nodes).Nested := by
  have failed : (Node.branch Symbol.error ⟨0, job.text.size⟩ true nodes).Nested :=
    nested_iff.mpr h
  unfold assembleRoot
  split
  · split
    · rename_i root trailing hd
      refine ⟨rfl, nested_iff.mpr ?_⟩
      rw [← List.takeWhile_append_dropWhile (p := (·.extra)) (l := nodes), hd,
        laid_append] at h
      obtain ⟨mid, hlead, hrest⟩ := h
      obtain ⟨h1, _, hroot, htrail⟩ := laid_cons.mp hrest
      have hc := nested_iff.mp hroot
      have hchildren : Laid mid root.span.stop root.children := ⟨hc.1.mono_left h1, hc.2⟩
      exact laid_append.mpr ⟨_, laid_append.mpr ⟨mid, hlead, hchildren⟩, htrail⟩
    · exact ⟨rfl, failed⟩
  · exact ⟨rfl, failed⟩

end Job

namespace Parser

open Node

theorem parse_root_nested (p : Parser) (text : Text) :
    (p.parse text).root.span = ⟨0, text.size⟩ ∧ (p.parse text).root.Nested := by
  have h := (p.job text).finish_reachable.ordered.placed
  exact (p.job text).assembleRoot_nested (h.laid.mono_right h.within)

/-- The root of every tree covers the text. In every node of the tree the start is not behind the
end, the children lie within the node, and each begins where the one before it ends or later. -/
theorem parse_spans_nested (p : Parser) (text : Text) :
    (p.parse text).root.span = ⟨0, text.size⟩ ∧
      ∀ n, (p.parse text).root.Holds n → n.span.start ≤ n.span.stop ∧
        (∀ c ∈ n.children, n.span.contains c.span = true) ∧
        n.children.IsChain fun a b => a.span.stop ≤ b.span.start := by
  obtain ⟨hspan, hroot⟩ := p.parse_root_nested text
  refine ⟨hspan, fun n hn => ?_⟩
  have hl := (nested_iff.mp (hroot.of_holds hn)).1
  refine ⟨hl.le, fun c hc => ?_, hl.chain⟩
  obtain ⟨h1, _, h2⟩ := hl.bounds hc
  exact (Span.contains_iff _ _).mpr ⟨h1, h2⟩

/-- The word supplied to the empty text lies within the program. -/
theorem parse_spans_nested_word :
    let root := (Word.parser.parse #[]).root
    let supplied := Node.supplied Word.word 0 true
    root.Holds root ∧ supplied ∈ root.children ∧ root.span.contains supplied.span = true := by
  intro root supplied
  have hc : supplied ∈ root.children := by
    simp only [root, Word.parse_empty]
    exact List.mem_singleton.mpr rfl
  exact ⟨.root, hc, ((Word.parser.parse_spans_nested #[]).2 root .root).2.1 supplied hc⟩

end Parser

end TableParsing
