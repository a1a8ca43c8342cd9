import TableParsing.Proofs.SexpReading
import TableParsing.Proofs.WellFormed

/-!
# S-expressions of parsed texts

If the names in a table are words, or can be quoted, every tree of a text is plain: its nodes bear
symbols of the table with their flags, and its root has no field. So the visible trees can be read
back from S-expressions.
-/
namespace TableParsing

open Node

/-- Named symbols and fields are words that no heading begins with, other symbols need no escapes. -/
structure Language.PlainNames (l : Language) : Prop where
  named : ∀ m ∈ l.table.symbols, m.named = true → isWord m.name = true ∧ m.name ≠ "MISSING"
  quotable : ∀ m ∈ l.table.symbols, m.named = false → IsQuotable m.name
  fields : ∀ f ∈ l.table.fields, isWord f = true

variable {l : Language} {n : Node} {ns : List Node}

/-- A node is an error or called like a symbol of the table. -/
theorem Node.Known.cases (h : n.Known l.table) :
    (n.isError = true ∧ n.named = true ∧ l.kind n = "ERROR") ∨
      n.isError = false ∧ ∃ m ∈ l.table.symbols, n.named = m.named ∧ l.kind n = m.name := by
  by_cases he : n.symbol = Symbol.error
  · exact .inl ⟨beq_iff_eq.mpr he, h.named.mpr (.inl he), by
      simp [Language.kind, Language.symbolName?, he]⟩
  · have hlt := h.declared.resolve_left he
    have hm : l.table.metadata? n.symbol = some l.table.symbols[n.symbol.index] :=
      Array.getElem?_eq_getElem hlt
    refine .inr ⟨beq_eq_false_iff_ne.mpr he, _, Array.getElem_mem hlt, ?_, ?_⟩
    · have hnamed := h.named
      simp only [he, false_or, GrammarTable.isNamed, hm, Option.any_some] at hnamed
      exact Bool.eq_iff_iff.mpr hnamed
    · simp [Language.kind, Language.symbolName?, he, hm]

theorem Language.PlainNames.field (hl : l.PlainNames) {f : String} (h : l.fieldOf? n = some f) :
    isWord f = true := by
  obtain ⟨id, _, hf⟩ := Option.bind_eq_some_iff.mp h
  exact hl.fields f (Array.mem_of_getElem? hf)

/-- The tree of a node that is written is legible. -/
theorem Language.PlainNames.legible (hl : l.PlainNames) (h : n.Known l.table)
    (hw : l.isWritten n = true) (children : List VisibleTree) :
    VisibleTree.Legible ⟨l.kind n, n.missing, n.named, l.fieldOf? n, children⟩ := by
  rcases h.cases with ⟨_, hn, hk⟩ | ⟨he, m, hm, hn, hk⟩
  · have herror : isWord "ERROR" = true ∧ "ERROR" ≠ "MISSING" := by decide
    exact
      { field := fun _ hf => hl.field hf
        written := fun _ => ⟨hn, hk ▸ herror⟩
        word := fun _ _ => hk ▸ herror.1
        quoted := fun _ hq => absurd hn (by simp [show n.named = false from hq]) }
  · refine { field := fun _ hf => hl.field hf, written := ?_, word := ?_, quoted := ?_ }
    · intro hmissing
      have hnamed : n.named = true := by
        simp only [Language.isWritten, he, show n.missing = false from hmissing, Bool.false_or,
          Bool.and_eq_true] at hw
        exact hw.1
      exact ⟨hnamed, hk ▸ hl.named m hm (hn ▸ hnamed)⟩
    · exact fun _ hnamed => hk ▸ (hl.named m hm (hn ▸ hnamed)).1
    · exact fun _ hnamed => hk ▸ hl.quotable m hm (hn ▸ hnamed)

theorem plain_visibles (h : ∀ n ∈ ns, ∀ t ∈ l.visible n, t.Plain) : ∀ t ∈ l.visibles ns, t.Plain := by
  induction ns with
  | nil => exact List.forall_mem_nil _
  | cons n ns ih =>
    obtain ⟨hn, hns⟩ := List.forall_mem_cons.mp h
    rw [Language.visibles]
    exact List.forall_mem_append.mpr ⟨hn, ih hns⟩

theorem plain_visible (hl : l.PlainNames) : n.All (WellFormed l.table) → ∀ t ∈ l.visible n, t.Plain := by
  induction n using Node.induction_children with
  | parent n ih =>
    intro h
    have hchildren := plain_visibles fun c hc => ih c hc (h.child hc)
    cases hw : l.isWritten n with
    | false =>
      rw [Language.visible_of_not_written hw]
      exact hchildren
    | true =>
      rw [Language.visible_of_written hw, List.forall_mem_singleton]
      exact .intro (hl.legible h.here.toKnown hw _) hchildren

/-! ## The root -/

/-- The root is an error of its own, or a node of the stack with other span and children. -/
theorem Job.assembleRoot_cases (job : Job) (phase : Phase) (nodes : List Node) :
    job.assembleRoot phase nodes = Node.branch Symbol.error ⟨0, job.text.size⟩ true nodes ∨
      ∃ top ∈ nodes, top.extra = false ∧ ∃ children, job.assembleRoot phase nodes =
        { top with span := ⟨0, job.text.size⟩, children := children } := by
  unfold Job.assembleRoot
  split
  · split
    · rename_i root trailing hd
      obtain ⟨hx, hnodes⟩ := Stack.root_of_dropWhile hd
      refine .inr ⟨root, ?_, hx, _, rfl⟩
      rw [hnodes]
      exact List.mem_append_right _ List.mem_cons_self
    · exact .inl rfl
  · exact .inl rfl

/-- What a table puts on a stack has no field yet. -/
theorem GrammarTable.Makes.field {t : GrammarTable} (h : t.Makes n) : n.field = none := by
  cases h <;> rfl

namespace Parser

theorem root_known (p : Parser) (text : Text) :
    (p.parse text).root.Known p.language.table ∧ (p.parse text).root.field = none := by
  let job := p.job text
  have hr := job.finish_reachable
  change (job.assembleRoot job.finish.phase job.finish.stack.nodes).Known _ ∧
    (job.assembleRoot job.finish.phase job.finish.stack.nodes).field = none
  rcases job.assembleRoot_cases job.finish.phase job.finish.stack.nodes with
    hroot | ⟨top, htop, hx, children, hroot⟩
  · rw [hroot]
    exact ⟨⟨.inl rfl, by simp [Node.branch]⟩, rfl⟩
  · rw [hroot]
    have hk := (hr.wellFormed (l := p.language) rfl top htop).here.toKnown
    exact ⟨⟨hk.declared, hk.named⟩, (hr.made (l := p.language) rfl top htop hx).field⟩

/-- A root that is written has one visible tree, which is plain, and the S-expression is its text. -/
theorem exists_plain (p : Parser) (hl : p.language.PlainNames) (text : Text)
    (hw : p.language.isWritten (p.parse text).root = true) :
    ∃ t, p.language.visible (p.parse text).root = [t] ∧ (p.parse text).sexp = t.sexp ∧ t.Plain ∧
      t.field = none := by
  obtain ⟨hknown, hfield⟩ := p.root_known text
  have hnone : p.language.fieldOf? (p.parse text).root = none := by
    rw [Language.fieldOf?, hfield]
    rfl
  obtain ⟨t, ht, hsexp⟩ := Language.writeSexp_root hw hnone
  refine ⟨t, ht, hsexp, ?_⟩
  rw [Language.visible_of_written hw, List.singleton_inj] at ht
  subst ht
  exact ⟨.intro (hl.legible hknown hw _) (plain_visibles fun c hc =>
    plain_visible hl (p.all_wellFormed text c hc)), hnone⟩

end Parser

end TableParsing
