import TableParsing.Proofs.MissingTokens
import TableParsing.Proofs.Subtrees

/-!
# Well-formed trees

What a node owes to the table: its symbol is declared, its flags are those of the symbol, and fields
and supplied tokens stand only where they may. Nodes are made so in every way there is, and stay so
when they take a field, leave a hidden rule or are wrapped.
-/
namespace TableParsing

namespace Node

/-- The symbol is declared or an error, and the node is named if its symbol is. -/
structure Known (t : GrammarTable) (n : Node) : Prop where
  declared : n.symbol = Symbol.error ∨ n.symbol.index < t.symbols.size
  named : n.named = true ↔ n.symbol = Symbol.error ∨ t.isNamed n.symbol = true

/-- The node is as the table declares nodes of its symbol; an error is a named extra. -/
structure WellFormed (t : GrammarTable) (n : Node) : Prop extends Known t n where
  ne_end : n.symbol ≠ Symbol.endOfInput
  extra : n.extra = true ↔ n.symbol = Symbol.error ∨ t.isExtra n.symbol = true
  field : ∀ f, n.field = some f → n.extra = false ∧ f.index < t.fields.size
  terminal : t.isTerminal n.symbol = true → n.children = []
  missing : n.missing = true → t.isTerminal n.symbol = true ∧ n.children = [] ∧
    n.span.start = n.span.stop ∧ t.isExtra n.symbol = false ∧ t.isExternal n.symbol = false

variable {t : GrammarTable} {n : Node} {ns : List Node} {field : Option FieldId}

/-- A node that is no extra may take a field of the table. -/
theorem WellFormed.with_field (hfield : ∀ f, field = some f → f.index < t.fields.size)
    (hx : n.extra = false) (h : n.WellFormed t) :
    ({ n with field := field } : Node).WellFormed t :=
  { h with field := fun f he => ⟨hx, hfield f he⟩ }

theorem all_inherit (hfield : ∀ f, field = some f → f.index < t.fields.size)
    (h : n.All (WellFormed t)) : (n.inherit field).All (WellFormed t) := by
  unfold Node.inherit
  split
  · rename_i hx
    simp only [Bool.and_eq_true, Bool.not_eq_true'] at hx
    exact All.congr (n := n) rfl (h.here.with_field hfield hx.2) h
  · exact h

theorem all_withField (hfield : ∀ f, field = some f → f.index < t.fields.size)
    (hx : n.extra = false) (h : n.All (WellFormed t)) : (n.withField field).All (WellFormed t) := by
  unfold Node.withField
  split
  · exact All.congr (n := n) rfl (h.here.with_field hfield hx) h
  · exact h

/-- Children take only fields that their production declares. -/
theorem wellFormed_collectChildren (ht : t.fault? = none) {id : ProductionId} {p : Production}
    (hp : t.production? id = some p) {index : Nat} (h : ∀ n ∈ ns, n.All (WellFormed t)) :
    ∀ c ∈ t.collectChildren p index ns, c.All (WellFormed t) := by
  have hfield (i : Nat) (f : FieldId) (hf : p.fieldFor i = some f) : f.index < t.fields.size :=
    GrammarTable.field_lt ht hp hf
  intro c hc
  obtain ⟨n, hn, ⟨_, rfl⟩ | ⟨hx, i, hc⟩⟩ := GrammarTable.mem_collectChildren hc
  · exact h c hn
  · rcases GrammarTable.mem_spliced hc with ⟨_, _, g, hg, rfl⟩ | ⟨_, rfl⟩
    · exact all_inherit (hfield i) ((h n hn).child hg)
    · exact all_withField (hfield i) hx (h n hn)

/-- A token is an extra if its symbol is one. -/
theorem wellFormed_token (ht : t.fault? = none) {s : Symbol} {span : Span}
    (hs : t.isToken s = true) {x : Bool} (hx : t.isExtra s = x) :
    ({ leaf s span (t.isNamed s) with extra := x } : Node).All (WellFormed t) := by
  have hne := GrammarTable.ne_error_of_isToken ht hs
  obtain ⟨hend, hterm⟩ := Bool.and_eq_true_iff.mp hs
  obtain ⟨m, hm, _⟩ := (Option.any_eq_true _ _).mp hterm
  refine all_iff.mpr ⟨?_, List.forall_mem_nil _⟩
  exact
    { declared := .inr (Array.getElem?_eq_some_iff.mp hm).1
      ne_end := by simpa [leaf, branch] using hend
      named := by simp [leaf, branch, hne]
      extra := by simp [leaf, branch, hne, hx]
      field := fun _ hf => nomatch hf
      terminal := fun _ => rfl
      missing := fun hm => nomatch hm }

theorem wellFormed_supplied (ht : t.fault? = none) {s : Symbol} {offset : Nat}
    (hs : t.isTerminal s = true) (hend : s ≠ Symbol.endOfInput) (hx : t.isExtra s = false)
    (hexternal : t.isExternal s = false) :
    (supplied s offset (t.isNamed s)).All (WellFormed t) := by
  have htoken : t.isToken s = true := by simp [GrammarTable.isToken, hend, hs]
  have hplain : WellFormed t { leaf s (Span.empty offset) (t.isNamed s) with extra := false } :=
    (wellFormed_token ht htoken hx).here
  refine all_iff.mpr ⟨?_, List.forall_mem_nil _⟩
  exact { hplain with missing := fun _ => ⟨hs, rfl, rfl, hx, hexternal⟩ }

theorem wellFormed_error (ht : t.fault? = none) {span : Span} (h : ∀ n ∈ ns, n.All (WellFormed t)) :
    (error span ns).All (WellFormed t) := by
  refine all_iff.mpr ⟨?_, h⟩
  exact
    { declared := .inl rfl
      ne_end := show Symbol.error ≠ Symbol.endOfInput by decide
      named := by simp [error]
      extra := by simp [error]
      field := fun _ hf => nomatch hf
      terminal := fun hs => absurd rfl (GrammarTable.ne_error_of_isTerminal ht hs)
      missing := fun hm => nomatch hm }

/-- An error may be given another span and other children. -/
theorem wellFormed_around (ht : t.fault? = none) (he : n.symbol = Symbol.error)
    (hn : n.WellFormed t) (span : Span) (h : ∀ n ∈ ns, n.All (WellFormed t)) :
    ({ n with span := span, children := ns } : Node).All (WellFormed t) := by
  have hnot : ¬t.isTerminal n.symbol = true := fun hs => GrammarTable.ne_error_of_isTerminal ht hs he
  refine all_iff.mpr ⟨?_, h⟩
  exact
    { hn with
      terminal := fun hs => absurd hs hnot
      missing := fun hm => absurd (hn.missing hm).1 hnot }

/-- Only declared rules are reduced, and these are neither the end nor extras. -/
theorem wellFormed_parent (ht : t.fault? = none) {id : ProductionId} {p : Production}
    (hp : t.production? id = some p) {span : Span} (h : ∀ n ∈ ns, n.All (WellFormed t)) :
    (branch p.lhs span (t.isNamed p.lhs) ns).All (WellFormed t) := by
  have hnon := GrammarTable.isNonTerminal_lhs ht hp
  have hterm := GrammarTable.isTerminal_of_isNonTerminal hnon
  have hne := GrammarTable.lhs_ne_error ht hp
  have hx : t.isExtra p.lhs = false := by
    by_contra hx
    exact absurd (GrammarTable.isTerminal_of_isExtra ht ((Bool.not_eq_false _).mp hx)) (by simp [hterm])
  obtain ⟨m, hm, _⟩ := (Option.any_eq_true _ _).mp hnon
  refine all_iff.mpr ⟨?_, h⟩
  exact
    { declared := .inr (Array.getElem?_eq_some_iff.mp hm).1
      ne_end := fun he => by
        obtain ⟨m, hm, hmt, _⟩ := GrammarTable.endOfInput_metadata ht
        have hs : t.isTerminal p.lhs = true := by
          simp only [branch] at he
          simp [GrammarTable.isTerminal, he, hm, hmt]
        exact absurd hs (by simp [hterm])
      named := by simp [branch, hne]
      extra := by simp [branch, hne, hx]
      field := fun _ hf => nomatch hf
      terminal := fun hs => absurd hs (by simp [branch, hterm])
      missing := fun hm => nomatch hm }

end Node

open Node

namespace Job

variable {job : Job} {r r' last : Run} {s : Symbol} {p : Production} {state : StateId} {k : Nat}
  {l : Language}

/-- No extra is ever looked at. -/
theorem Reachable.lookahead_not_extra (hl : job.grammar = l.grammar) (h : job.Reachable r) :
    job.table.isExtra r.lookahead.symbol = false := by
  have hend : job.table.isExtra Symbol.endOfInput = false := by
    obtain ⟨m, hm, _, hx⟩ := GrammarTable.endOfInput_metadata (table_fault hl)
    simp [GrammarTable.isExtra, hm, hx]
  induction h with
  | initial => exact hend
  | step h ih =>
    generalize hr : job.step _ = r'
    have hs := h.steps
    rw [hr] at hs
    cases hs with
    | scanned =>
      obtain ⟨_, _, ⟨_, hs⟩ | ⟨token, _, hx, hs⟩⟩ := job.scan_cases (P := fun _ => True)
        (fun _ _ _ _ _ => trivial) (fun _ _ _ _ => trivial) (r := _) trivial
      · rw [hs]
        exact hend
      · rw [hs]
        exact hx
    | shifted | shiftedEnd | reduced | ended => exact ih
    | recovered _ hr => exact hr.lookahead ▸ ih

/-- All trees on the stack are well-formed. -/
def WellFormed (job : Job) (r : Run) : Prop :=
  ∀ n ∈ r.stack.nodes, n.All (Node.WellFormed job.table)

theorem WellFormed.scan (hl : job.grammar = l.grammar) (h : job.WellFormed r) :
    job.WellFormed (job.scan r) := by
  have ht := table_fault hl
  have extra (r : Run) (token : Token) (hn : job.nextLexeme r = .token token)
      (hx : job.table.isExtra token.symbol = true) (h : job.WellFormed r) :
      job.WellFormed (r.pushExtra (job.leaf token)) := by
    rw [WellFormed, Run.pushExtra, Stack.nodes_pushExtra]
    exact forall_mem_push h (wellFormed_token ht (lexed_of_nextLexeme hl hn).1 hx)
  have unlexable (r : Run) (span : Span) (_ : job.nextLexeme r = .unlexable span)
      (h : job.WellFormed r) : job.WellFormed ((r.report
        (.unrecognized (job.text.slice span) span)).pushExtra (Node.error span [])) := by
    rw [WellFormed, Run.pushExtra, Stack.nodes_pushExtra]
    exact forall_mem_push h (wellFormed_error ht (List.forall_mem_nil _))
  obtain ⟨r', hr, ⟨_, hs⟩ | ⟨_, _, _, hs⟩⟩ := job.scan_cases extra unlexable h
  all_goals
    rw [hs]
    exact hr

theorem WellFormed.reduced (hl : job.grammar = l.grammar) {id : ProductionId}
    (hp : job.table.production? id = some p) (h : job.WellFormed r) :
    job.WellFormed (job.reduced r p state) := by
  have ht := table_fault hl
  have hnodes := h
  rw [WellFormed, ← nodes_taken r p, List.forall_mem_append, List.forall_mem_append] at hnodes
  exact forall_nodes_reduced h
    (wellFormed_parent ht hp (wellFormed_collectChildren ht hp hnodes.1.2))

theorem WellFormed.replays (hl : job.grammar = l.grammar) (hr : job.Replays s k r last)
    (h : job.WellFormed r) : job.WellFormed last := by
  induction hr with
  | nil => exact h
  | cons _ hprod _ _ ih => exact ih (h.reduced hl hprod)

theorem WellFormed.wrapped (hl : job.grammar = l.grammar) {removed : List Entry} {rest : Stack}
    {q : List StateId → Bool} (hs : Stack.splitWhere q [] r.stack = some (removed, rest))
    (h : job.WellFormed r) : job.WellFormed (job.wrapped r removed rest) := by
  rw [WellFormed, (Stack.nodes_of_splitWhere hs).2, List.forall_mem_append] at h
  rw [WellFormed, Job.wrapped, Run.report, Stack.nodes_pushExtra]
  exact forall_mem_push h.1 (wellFormed_error (table_fault hl) h.2)

theorem WellFormed.skips (hl : job.grammar = l.grammar) (hs : job.Skips r r')
    (htoken : job.table.isToken r.lookahead.symbol = true)
    (hx : job.table.isExtra r.lookahead.symbol = false) (h : job.WellFormed r) :
    job.WellFormed r' := by
  have ht := table_fault hl
  have hleaf : (job.leaf r.lookahead).All (Node.WellFormed job.table) := wellFormed_token ht htoken hx
  cases hs with
  | grown hstack _ ho =>
    rw [WellFormed, hstack, Stack.nodes_cons, List.forall_mem_append,
      List.forall_mem_singleton] at h
    obtain ⟨hrest, herror⟩ := h
    obtain ⟨hhere, hchildren⟩ := all_iff.mp herror
    rw [WellFormed, grown, Stack.nodes_cons]
    exact forall_mem_push hrest
      (wellFormed_around ht (beq_iff_eq.mp ho.isError) hhere _ (forall_mem_push hchildren hleaf))
  | opened =>
    rw [WellFormed, opened, Stack.nodes_pushExtra]
    exact forall_mem_push h (wellFormed_error ht (List.forall_mem_singleton.mpr hleaf))

theorem Reachable.wellFormed (hl : job.grammar = l.grammar) (h : job.Reachable r) :
    job.WellFormed r := by
  have ht := table_fault hl
  induction h with
  | initial => exact fun n hn => nomatch hn
  | @step r h ih =>
    have htoken (he : r.lookahead.symbol ≠ Symbol.endOfInput) := (h.lexed hl he).1
    have hx := h.lookahead_not_extra hl
    generalize hr : job.step r = r'
    have hs := h.steps
    rw [hr] at hs
    cases hs with
    | scanned => exact ih.scan hl
    | shifted _ _ he =>
      rw [WellFormed, Stack.nodes_shift]
      exact forall_mem_push ih (wellFormed_token ht (htoken he) hx)
    | shiftedEnd | ended => exact ih
    | reduced _ _ hp => exact ih.reduced hl hp
    | recovered hq hrec =>
      cases hrec with
      | supplied _ hm _ hreplay =>
        have hs := (suppliable_of_candidate hl h.steady.coherent hm).1
        rw [WellFormed, Job.supplied, Run.report, Stack.nodes_shift]
        exact forall_mem_push (ih.replays hl hreplay)
          (wellFormed_supplied ht hs.terminal hs.ne_end hs.not_extra hs.not_external)
      | wrapped _ _ hsp => exact ih.wrapped hl hsp
      | gaveUp => exact ih
      | skipped _ he => exact ih.skips hl (h.skips hq) (htoken he) hx

end Job

/-- A node with a known symbol is called by its name. -/
theorem Node.Known.kind {l : Language} {n : Node} (h : n.Known l.table) :
    l.symbolName? n.symbol = some (l.kind n) := by
  have hname : (l.symbolName? n.symbol).isSome = true := by
    unfold Language.symbolName?
    rcases h.declared with he | hlt
    · simp [he]
    · split
      · rfl
      · simp [GrammarTable.metadata?, hlt]
  obtain ⟨name, hname⟩ := Option.isSome_iff_exists.mp hname
  rw [Language.kind, hname, Option.getD_some]

namespace Parser

theorem all_wellFormed (p : Parser) (text : Text) :
    ∀ c ∈ (p.parse text).root.children, c.All (Node.WellFormed p.language.table) := by
  intro c hc
  have hr := (p.job text).finish_reachable.wellFormed (l := p.language) rfl
  rcases Job.mem_assembleRoot hc with hc | ⟨n, hn, hc⟩
  · exact hr c hc
  · exact (hr n hn).child hc

/-- All nodes of a tree but its root are well-formed and bear the name of a symbol. -/
theorem parse_wellFormed (p : Parser) (text : Text) : ∀ n ∈ (p.parse text).walk.tail,
    n.WellFormed p.language.table ∧ p.language.symbolName? n.symbol = some (p.language.kind n) := by
  intro n hn
  rw [SyntaxTree.walk, walk_eq, List.tail_cons] at hn
  obtain ⟨c, hc, hn⟩ := exists_holds_of_mem_walkPending hn
  have h := p.all_wellFormed text c hc n hn
  exact ⟨h, h.toKnown.kind⟩

/-- The word that is supplied to the empty text. -/
theorem parse_wellFormed_word :
    Node.supplied Word.word 0 true ∈ (Word.parser.parse #[]).walk.tail ∧
      (Node.supplied Word.word 0 true).WellFormed Word.table ∧
      Word.language.symbolName? Word.word = some "word" := by
  have hmem : Node.supplied Word.word 0 true ∈ (Word.parser.parse #[]).walk.tail := by
    rw [SyntaxTree.walk, Word.parse_empty]
    simp [walk_eq, walkPending, Node.branch, Node.supplied, Node.leaf]
  exact ⟨hmem, Word.parser.parse_wellFormed #[] _ hmem⟩

end Parser

end TableParsing
