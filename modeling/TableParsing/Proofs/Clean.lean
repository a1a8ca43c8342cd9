import Mathlib.Data.List.TakeWhile
import TableParsing.Proofs.Acceptance
import TableParsing.Proofs.Consistency

/-!
# Trees without errors

As long as no error is reported, no node of the stack is an error or a supplied token. Hence a parse
without errors gives a clean tree, unless its table accepts on the start state, where there is no
node to take as the root.
-/
namespace TableParsing

namespace Node

variable {n : Node} {ns : List Node}

/-- Neither errors nor supplied tokens among the nodes and their descendants. -/
def Clean (ns : List Node) : Prop := ∀ n ∈ ns, n.hasError = false

theorem anyHasError_eq_false : anyHasError ns = false ↔ Clean ns := by
  induction ns with
  | nil => simp [anyHasError, Clean]
  | cons n ns ih => simp [anyHasError, Clean, ih]

theorem hasError_eq_false : n.hasError = false ↔
    n.symbol ≠ Symbol.error ∧ n.missing = false ∧ Clean n.children := by
  rw [hasError_eq, Bool.or_eq_false_iff, Bool.or_eq_false_iff, anyHasError_eq_false, isError,
    beq_eq_false_iff_ne, and_assoc]

theorem clean_nil : Clean [] := List.forall_mem_nil _

theorem clean_append {ms : List Node} : Clean (ns ++ ms) ↔ Clean ns ∧ Clean ms :=
  List.forall_mem_append

theorem clean_singleton : Clean [n] ↔ n.hasError = false := List.forall_mem_singleton

/-- Marking a node changes neither its symbol nor its children. -/
theorem Clean.map {f : Node → Node} (h : Clean ns) (hf : ∀ n, (f n).hasError = n.hasError) :
    Clean (ns.map f) := by
  intro m hm
  obtain ⟨n, hn, rfl⟩ := List.mem_map.mp hm
  rw [hf]
  exact h n hn

theorem hasError_with_field (n : Node) (field : Option FieldId) :
    hasError { n with field := field } = n.hasError := by
  simp only [hasError_eq, isError]

theorem inherit_hasError (field : Option FieldId) (n : Node) :
    (n.inherit field).hasError = n.hasError :=
  inherit_congr hasError_with_field field n

theorem withField_hasError (field : Option FieldId) (n : Node) :
    (n.withField field).hasError = n.hasError :=
  withField_congr hasError_with_field field n

end Node

open Node

theorem GrammarTable.spliced_clean (t : GrammarTable) (field : Option FieldId) {n : Node}
    (h : n.hasError = false) : Clean (t.spliced field n) := by
  unfold spliced
  split
  · exact (hasError_eq_false.mp h).2.2.map (inherit_hasError field)
  · exact clean_singleton.mpr ((withField_hasError field n).trans h)

theorem GrammarTable.collectChildren_clean (t : GrammarTable) (p : Production) (index : Nat)
    {ns : List Node} (h : Clean ns) : Clean (t.collectChildren p index ns) := by
  induction ns generalizing index with
  | nil => exact h
  | cons n rest ih =>
    obtain ⟨hn, hrest⟩ := List.forall_mem_cons.mp h
    rw [collectChildren]
    split
    · exact List.forall_mem_cons.mpr ⟨hn, ih index hrest⟩
    · exact clean_append.mpr ⟨t.spliced_clean _ hn, ih (index + 1) hrest⟩

namespace Job

variable {job : Job} {r r' : Run} {token : Token}

/-- The lookahead is not an error, and as long as none is reported, no node is. -/
structure Spotless (r : Run) : Prop where
  lookahead : r.lookahead.symbol ≠ Symbol.error
  nodes : r.errors = [] → Clean r.stack.nodes

theorem leaf_hasError (h : token.symbol ≠ Symbol.error) : (job.leaf token).hasError = false :=
  hasError_eq_false.mpr ⟨h, rfl, clean_nil⟩

theorem end_ne_error : Symbol.endOfInput ≠ Symbol.error := by decide

theorem nextLexeme_ne_error {l : Language} (hl : job.grammar = l.grammar)
    (hn : job.nextLexeme r = .token token) : token.symbol ≠ Symbol.error := by
  rw [nextLexeme, hl] at hn
  exact Language.lexemeAt_ne_error hn

theorem Spotless.scan {l : Language} (hl : job.grammar = l.grammar) (h : Spotless r) :
    Spotless (job.scan r) := by
  have extra (r : Run) (token : Token) (hn : job.nextLexeme r = .token token)
      (_ : job.table.isExtra token.symbol = true) (h : Spotless r) :
      Spotless (r.pushExtra (job.leaf token)) := by
    refine ⟨h.lookahead, fun he => ?_⟩
    simp only [Run.pushExtra, Run.advance, Stack.nodes_pushExtra]
    refine clean_append.mpr ⟨h.nodes he, clean_singleton.mpr ?_⟩
    exact hasError_eq_false.mpr ⟨nextLexeme_ne_error hl hn, rfl, clean_nil⟩
  have unlexable (r : Run) (span : Span) (_ : job.nextLexeme r = .unlexable span)
      (h : Spotless r) : Spotless ((r.report
        (.unrecognized (job.text.slice span) span)).pushExtra (Node.error span [])) :=
    ⟨h.lookahead, fun he => absurd he (List.cons_ne_nil _ _)⟩
  obtain ⟨r', hr, ⟨_, hs⟩ | ⟨token, hn, _, hs⟩⟩ := job.scan_cases extra unlexable h
  · rw [hs]
    exact ⟨end_ne_error, hr.nodes⟩
  · rw [hs]
    exact ⟨nextLexeme_ne_error hl hn, hr.nodes⟩

theorem Spotless.reduced {p : Production} {state : StateId} (hlhs : p.lhs ≠ Symbol.error)
    (h : Spotless r) : Spotless (job.reduced r p state) := by
  refine ⟨h.lookahead, fun he => ?_⟩
  have hn := h.nodes he
  rw [← nodes_taken r p, clean_append, clean_append] at hn
  obtain ⟨⟨hbelow, htaken⟩, htrailing⟩ := hn
  have hparent : (job.parent r p).hasError = false :=
    hasError_eq_false.mpr ⟨hlhs, rfl, job.table.collectChildren_clean p 0 htaken⟩
  rw [nodes_reduced]
  exact clean_append.mpr
    ⟨clean_append.mpr ⟨hbelow, clean_singleton.mpr hparent⟩, htrailing⟩

theorem Recovers.lookahead (h : job.Recovers r r') : r'.lookahead = r.lookahead := by
  cases h with
  | supplied _ _ _ hr => exact hr.fields.1
  | wrapped | gaveUp => rfl
  | skipped =>
    unfold skipLookahead
    split <;> rfl

theorem Steps.spotless {l : Language} (hl : job.grammar = l.grammar) (hs : job.Steps r r')
    (hb : Blamed r) (h : Spotless r) : Spotless r' := by
  cases hs with
  | scanned => exact ⟨(h.scan hl).lookahead, (h.scan hl).nodes⟩
  | shifted =>
    refine ⟨h.lookahead, fun he => ?_⟩
    simp only [Stack.nodes_shift]
    exact clean_append.mpr ⟨h.nodes he, clean_singleton.mpr (leaf_hasError h.lookahead)⟩
  | shiftedEnd => exact ⟨h.lookahead, fun he => absurd he (List.cons_ne_nil _ _)⟩
  | @reduced _ p state _ _ hp _ _ =>
    rw [table, hl] at hp
    have hr : Spotless (job.reduced r p state) :=
      h.reduced (GrammarTable.lhs_ne_error l.table_fault hp)
    exact ⟨hr.lookahead, hr.nodes⟩
  | recovered _ hr =>
    exact ⟨hr.lookahead ▸ h.lookahead, fun he => absurd he (hr.errors_ne_nil hb).1⟩
  | ended => exact h

theorem Reachable.spotless {l : Language} (hl : job.grammar = l.grammar) (h : job.Reachable r) :
    Spotless r := by
  induction h with
  | initial => exact ⟨end_ne_error, fun _ => clean_nil⟩
  | step h ih => exact h.steps.spotless hl h.blamed ih

/-- The accepted root is clean if the nodes of the stack are. -/
theorem assembleRoot_clean {nodes : List Node} (h : Clean nodes)
    (hn : ∃ n ∈ nodes, n.extra = false) : (job.assembleRoot .accepting nodes).hasError = false := by
  have hsplit := List.takeWhile_append_dropWhile (p := (·.extra)) (l := nodes)
  unfold assembleRoot
  simp only [ite_true]
  split
  · rename_i root trailing hd
    rw [← hsplit, hd, clean_append] at h
    obtain ⟨hlead, hrest⟩ := h
    obtain ⟨hroot, htrail⟩ := List.forall_mem_cons.mp hrest
    obtain ⟨hs, hm, hc⟩ := hasError_eq_false.mp hroot
    exact hasError_eq_false.mpr
      ⟨hs, hm, clean_append.mpr ⟨clean_append.mpr ⟨hlead, hc⟩, htrail⟩⟩
  · rename_i hd
    obtain ⟨n, hmem, hx⟩ := hn
    have hall := List.dropWhile_eq_nil_iff.mp hd n hmem
    rw [hx] at hall
    cases hall

end Job

/-- On a stack of extras alone the parse is still in the start state. -/
theorem Stack.path_of_extras {s : Stack} (h : ∀ n ∈ s.nodes, n.extra = true) :
    s.path = [startState] := by
  induction s with
  | nil => rfl
  | cons e s ih =>
    rw [nodes_cons, List.forall_mem_append, List.forall_mem_singleton] at h
    rw [path, if_pos h.2, ih h.1]

namespace Parser

open Job

/-- The tree has an error exactly when one was reported, if nothing is accepted on the start state. -/
theorem hasError_eq_false_iff (p : Parser) (text : Text)
    (hstart : ∀ s, p.language.table.action? startState s ≠ some .accept) :
    (p.parse text).hasError = false ↔ (p.parse text).errors = [] := by
  have hroot : (p.parse text).errors = [] → (p.parse text).root.hasError = false := by
    intro he
    have he : (p.job text).finish.errors = [] := List.reverse_eq_nil_iff.mp he
    have hr := (p.job text).finish_reachable
    have hp := finish_accepting he
    have hst := hr.steady
    change ((p.job text).assembleRoot (p.job text).finish.phase
      (p.job text).finish.stack.nodes).hasError = false
    rw [hp]
    refine assembleRoot_clean ((hr.spotless rfl).nodes he) ?_
    -- With extras alone on the stack the path is the start state, where nothing is accepted.
    by_contra hall
    have hpath : (p.job text).finish.stack.path = [startState] := by
      refine Stack.path_of_extras fun n hn => ?_
      by_contra hx
      exact hall ⟨n, hn, by simpa using hx⟩
    have ha := hst.accepting hp
    rw [currentAction?_eq _ hst.coherent, hpath] at ha
    exact hstart _ ha
  rw [SyntaxTree.hasError, Bool.or_eq_false_iff, Bool.not_eq_false', List.isEmpty_iff]
  exact ⟨fun h => h.1, fun h => ⟨h, hroot h⟩⟩

end Parser

end TableParsing
