import TableParsing.Proofs.Flaws

/-!
# How nodes are built

Every node of a parse is a token, an error around nodes, or the parent that a production makes of
nodes. So hidden rules, which parents replace by their children, can only be left directly below an
error, and before the end of the input errors hold nothing but tokens.
-/
namespace TableParsing

namespace Node

variable {m n : Node} {ns : List Node}

theorem forall_mem_push {P : Node → Prop} (h : ∀ m ∈ ns, P m) (hn : P n) : ∀ m ∈ ns ++ [n], P m :=
  List.forall_mem_append.mpr ⟨h, List.forall_mem_singleton.mpr hn⟩

theorem Holds.of_child {c : Node} (hc : c ∈ n.children) (h : c.Holds m) : n.Holds m := by
  induction h with
  | root => exact .child .root hc
  | child _ hm ih => exact .child ih hm

/-- A walk meets only the given nodes and what they hold. -/
theorem exists_holds_of_mem_walkPending (h : n ∈ walkPending ns) : ∃ m ∈ ns, m.Holds n := by
  fun_induction walkPending ns with
  | case1 => cases h
  | case2 m ns ih =>
    rcases List.mem_cons.mp h with rfl | h
    · exact ⟨n, List.mem_cons_self, .root⟩
    · obtain ⟨c, hc, hn⟩ := ih h
      rcases List.mem_append.mp hc with hc | hc
      · exact ⟨m, List.mem_cons_self, .of_child hc hn⟩
      · exact ⟨c, List.mem_cons_of_mem _ hc, hn⟩

end Node

open Node

namespace GrammarTable

variable {t : GrammarTable} {wrapped wrapped' : Prop} {m n c : Node} {ns : List Node} {p : Production}

/-- A child is an extra that was popped, or stands for a popped node that is none. -/
theorem mem_collectChildren {index : Nat} (h : c ∈ t.collectChildren p index ns) :
    ∃ n ∈ ns, n.extra = true ∧ c = n ∨
      n.extra = false ∧ ∃ i, c ∈ t.spliced (p.fieldFor i) n := by
  induction ns generalizing index with
  | nil => cases h
  | cons n ns ih =>
    rw [collectChildren] at h
    split at h
    · rename_i hx
      rcases List.mem_cons.mp h with rfl | h
      · exact ⟨c, List.mem_cons_self, .inl ⟨hx, rfl⟩⟩
      · obtain ⟨m, hm, hc⟩ := ih h
        exact ⟨m, List.mem_cons_of_mem _ hm, hc⟩
    · rename_i hx
      rcases List.mem_append.mp h with h | h
      · exact ⟨n, List.mem_cons_self, .inr ⟨by simpa using hx, _, h⟩⟩
      · obtain ⟨m, hm, hc⟩ := ih h
        exact ⟨m, List.mem_cons_of_mem _ hm, hc⟩

/-- A hidden rule is replaced by its children, and another node only takes a field. -/
theorem mem_spliced {field : Option FieldId} (h : c ∈ t.spliced field n) :
    n.isError = false ∧ t.isHiddenRule n.symbol = true ∧ (∃ g ∈ n.children, c = g.inherit field) ∨
      (n.isError = false → t.isHiddenRule n.symbol = false) ∧ c = n.withField field := by
  unfold spliced at h
  split at h
  · rename_i hh
    obtain ⟨he, hh⟩ := Bool.and_eq_true_iff.mp hh
    obtain ⟨g, hg, rfl⟩ := List.mem_map.mp h
    exact .inl ⟨by simpa using he, hh, g, hg, rfl⟩
  · rename_i hh
    refine .inr ⟨fun he => ?_, List.mem_singleton.mp h⟩
    simpa [he] using hh

/-- The nodes made by a table: tokens, with bytes unless they are supplied, errors around such nodes,
and parents of such nodes. Unless entries of the stack have been wrapped, errors hold only tokens. -/
inductive Builds (t : GrammarTable) (wrapped : Prop) : Node → Prop
  | token {n : Node} : t.isTerminal n.symbol = true → n.children = [] →
      (n.missing = false → n.span.start < n.span.stop) → Builds t wrapped n
  | error {n : Node} : n.isError = true → n.missing = false →
      (∀ c ∈ n.children, Builds t wrapped c) →
      (wrapped ∨ ∀ c ∈ n.children, t.isTerminal c.symbol = true) → Builds t wrapped n
  | parent {n : Node} {id : ProductionId} {p : Production} {nodes : List Node} :
      t.production? id = some p → n.symbol = p.lhs → n.extra = false → n.missing = false →
      (∀ m ∈ nodes, Builds t wrapped m) → n.children = t.collectChildren p 0 nodes →
      Builds t wrapped n

theorem Builds.mono (hw : wrapped → wrapped') (h : t.Builds wrapped n) : t.Builds wrapped' n := by
  induction h with
  | token ht hc hb => exact .token ht hc hb
  | error he hm _ hw' ih => exact .error he hm ih (hw'.imp_left hw)
  | parent hp hs hx hm _ hc ih => exact .parent hp hs hx hm ih hc

/-- In which part a node stands does not matter. -/
theorem Builds.congr (hs : m.symbol = n.symbol) (hp : m.span = n.span)
    (hc : m.children = n.children) (hx : m.extra = n.extra) (hm : m.missing = n.missing)
    (h : t.Builds wrapped n) : t.Builds wrapped m := by
  have he : m.isError = n.isError := by rw [isError, isError, hs]
  cases h with
  | token ht hn hb => exact .token (hs ▸ ht) (hc.trans hn) fun h => hp ▸ hb (hm ▸ h)
  | error hn hmn hcn hw => exact .error (he.trans hn) (hm.trans hmn) (hc ▸ hcn) (hc ▸ hw)
  | parent hp hsn hxn hmn hn hcn =>
    exact .parent hp (hs.trans hsn) (hx.trans hxn) (hm.trans hmn) hn (hc.trans hcn)

theorem Builds.inherit (field : Option FieldId) (h : t.Builds wrapped n) :
    t.Builds wrapped (n.inherit field) := by
  unfold Node.inherit
  split
  · exact Builds.congr (n := n) rfl rfl rfl rfl rfl h
  · exact h

theorem Builds.withField (field : Option FieldId) (h : t.Builds wrapped n) :
    t.Builds wrapped (n.withField field) := by
  unfold Node.withField
  split
  · exact Builds.congr (n := n) rfl rfl rfl rfl rfl h
  · exact h

theorem Builds.child (h : t.Builds wrapped n) (hc : c ∈ n.children) : t.Builds wrapped c := by
  induction h generalizing c with
  | token _ hn =>
    rw [hn] at hc
    cases hc
  | error _ _ hn => exact hn c hc
  | parent _ _ _ _ hn hcn ih =>
    rw [hcn] at hc
    obtain ⟨m, hm, ⟨_, rfl⟩ | ⟨_, i, hc⟩⟩ := mem_collectChildren hc
    · exact hn c hm
    · obtain ⟨_, _, g, hg, rfl⟩ | ⟨_, rfl⟩ := mem_spliced hc
      · exact (ih m hm hg).inherit _
      · exact (hn m hm).withField _

theorem Builds.of_holds (h : t.Builds wrapped n) (hm : n.Holds m) : t.Builds wrapped m := by
  induction hm with
  | root => exact h
  | child _ hc ih => exact ih.child hc

theorem isHiddenRule_error (hf : t.fault? = none) : t.isHiddenRule Symbol.error = false := by
  by_contra hh
  obtain ⟨m, hm, _⟩ := (Option.any_eq_true _ _).mp ((Bool.not_eq_false _).mp hh)
  exact ne_error_of_metadata hf hm rfl

/-- No error was supplied. -/
theorem Builds.missing (hf : t.fault? = none) (h : t.Builds wrapped n) (he : n.isError = true) :
    n.missing = false := by
  cases h with
  | token ht => exact absurd (beq_iff_eq.mp he) (ne_error_of_isTerminal hf ht)
  | error _ hm => exact hm
  | parent _ _ _ hm => exact hm

/-- Only parents bear the symbol of a hidden rule. -/
theorem Builds.extra (hf : t.fault? = none) (h : t.Builds wrapped n)
    (hh : t.isHiddenRule n.symbol = true) : n.extra = false := by
  cases h with
  | token ht => exact absurd (ht.symm.trans (isTerminal_of_isHiddenRule hh)) (by decide)
  | error he =>
    rw [beq_iff_eq.mp he, isHiddenRule_error hf] at hh
    cases hh
  | parent _ _ hx => exact hx

/-- A hidden rule is left only directly below an error that wraps entries of the stack. -/
theorem Builds.hidden_child (hf : t.fault? = none) (h : t.Builds wrapped n) (hc : c ∈ n.children)
    (hh : t.isHiddenRule c.symbol = true) : n.isError = true ∧ wrapped := by
  induction h generalizing c with
  | token _ hn =>
    rw [hn] at hc
    cases hc
  | error he _ _ hw =>
    refine ⟨he, hw.resolve_right fun ht => ?_⟩
    exact absurd ((ht c hc).symm.trans (isTerminal_of_isHiddenRule hh)) (by decide)
  | parent _ _ _ _ hn hcn ih =>
    exfalso
    rw [hcn] at hc
    obtain ⟨m, hm, ⟨hx, rfl⟩ | ⟨_, i, hc⟩⟩ := mem_collectChildren hc
    · exact absurd (hx.symm.trans ((hn c hm).extra hf hh)) (by decide)
    · obtain ⟨he, _, g, hg, rfl⟩ | ⟨hm', rfl⟩ := mem_spliced hc
      · rw [inherit_symbol] at hh
        exact absurd (he.symm.trans (ih m hm hg hh).1) (by decide)
      · rw [withField_symbol] at hh
        cases he : m.isError with
        | false => exact absurd (hh.symm.trans (hm' he)) (by decide)
        | true =>
          rw [beq_iff_eq.mp he, isHiddenRule_error hf] at hh
          cases hh

end GrammarTable

namespace Job

open GrammarTable

variable {job : Job} {r r' last : Run} {s : Symbol} {p : Production} {state : StateId} {k : Nat}
  {l : Language}

/-- The end of the input was reported as unexpected. -/
def EndReported (errors : List SyntaxError) : Prop := ∃ span, SyntaxError.unexpectedEnd span ∈ errors

/-- All nodes on the stack are made by the table, and entries are wrapped only at an unexpected end. -/
def Built (job : Job) (r : Run) : Prop :=
  ∀ n ∈ r.stack.nodes, job.table.Builds (EndReported r.errors) n

theorem EndReported.cons {errors : List SyntaxError} (h : EndReported errors) (e : SyntaxError) :
    EndReported (e :: errors) := by
  obtain ⟨span, h⟩ := h
  exact ⟨span, List.mem_cons_of_mem _ h⟩

/-- An error that grows stays the report that it was. -/
theorem EndReported.grow {errors : List SyntaxError} {e : SyntaxError} (stop : Nat)
    (h : EndReported (e :: errors)) : EndReported ({ e with span.stop := stop } :: errors) := by
  obtain ⟨span, h⟩ := h
  rcases List.mem_cons.mp h with rfl | h
  · exact ⟨⟨span.start, stop⟩, List.mem_cons_self⟩
  · exact ⟨span, List.mem_cons_of_mem _ h⟩

theorem Built.scan (hl : job.grammar = l.grammar) (h : job.Built r) : job.Built (job.scan r) := by
  have extra (r : Run) (token : Token) (hn : job.nextLexeme r = .token token)
      (_ : job.table.isExtra token.symbol = true) (h : job.Built r) :
      job.Built (r.pushExtra (job.leaf token)) := by
    have hlexed := lexed_of_nextLexeme hl hn
    have ht := (Bool.and_eq_true_iff.mp hlexed.1).2
    rw [Built, Run.pushExtra, Stack.nodes_pushExtra]
    exact forall_mem_push h (.token ht rfl fun _ => hlexed.2)
  have unlexable (r : Run) (span : Span) (_ : job.nextLexeme r = .unlexable span)
      (h : job.Built r) : job.Built ((r.report
        (.unrecognized (job.text.slice span) span)).pushExtra (Node.error span [])) := by
    rw [Built, Run.pushExtra, Stack.nodes_pushExtra]
    refine forall_mem_push (fun n hn => (h n hn).mono fun hw => hw.cons _) ?_
    exact .error rfl rfl (List.forall_mem_nil _) (.inr (List.forall_mem_nil _))
  obtain ⟨r', hr, ⟨_, hs⟩ | ⟨_, _, _, hs⟩⟩ := job.scan_cases extra unlexable h
  all_goals
    rw [hs]
    exact hr

theorem Built.reduced {id : ProductionId} (hp : job.table.production? id = some p)
    (h : job.Built r) : job.Built (job.reduced r p state) := by
  refine forall_nodes_reduced h (.parent hp rfl rfl rfl (fun n hn => h n ?_) rfl)
  rw [← nodes_taken r p]
  exact List.mem_append_left _ (List.mem_append_right _ hn)

theorem Built.replays (hr : job.Replays s k r last) (h : job.Built r) : job.Built last := by
  induction hr with
  | nil => exact h
  | cons _ hprod _ _ ih => exact ih (h.reduced hprod)

theorem Built.wrapped {removed : List Entry} {rest : Stack} {q : List StateId → Bool}
    (hsp : Stack.splitWhere q [] r.stack = some (removed, rest)) (h : job.Built r) :
    job.Built (job.wrapped r removed rest) := by
  have hnodes := (Stack.nodes_of_splitWhere hsp).2
  have hw : EndReported (job.wrapped r removed rest).errors := ⟨_, List.mem_cons_self⟩
  have hall (n : Node) (hn : n ∈ r.stack.nodes) :
      job.table.Builds (EndReported (job.wrapped r removed rest).errors) n :=
    (h n hn).mono fun _ => hw
  rw [hnodes, List.forall_mem_append] at hall
  simp only [Built, Job.wrapped, Run.report, Stack.nodes_pushExtra]
  exact forall_mem_push hall.1 (.error rfl rfl hall.2 (.inl hw))

theorem Built.skips (hl : job.grammar = l.grammar) (hs : job.Skips r r')
    (hlex : job.table.isToken r.lookahead.symbol = true ∧
      r.lookahead.span.start < r.lookahead.span.stop) (h : job.Built r) : job.Built r' := by
  have ht := (Bool.and_eq_true_iff.mp hlex.1).2
  have hleaf {wrapped : Prop} : job.table.Builds wrapped (job.leaf r.lookahead) :=
    .token ht rfl fun _ => hlex.2
  cases hs with
  | @grown e rest err errs hstack herr ho =>
    have hgrow (hw : EndReported r.errors) :
        EndReported (job.grown r e rest err errs).errors := by
      rw [herr] at hw
      exact hw.grow _
    have hall (n : Node) (hn : n ∈ r.stack.nodes) :
        job.table.Builds (EndReported (job.grown r e rest err errs).errors) n :=
      (h n hn).mono hgrow
    rw [hstack, Stack.nodes_cons, List.forall_mem_append, List.forall_mem_singleton] at hall
    rw [Built, grown, Stack.nodes_cons]
    refine forall_mem_push hall.1 ?_
    cases hall.2 with
    | token hterm =>
      exact absurd (beq_iff_eq.mp ho.isError) (ne_error_of_isTerminal (table_fault hl) hterm)
    | error he hm hc hw =>
      exact .error he hm (forall_mem_push hc hleaf) (hw.imp_right fun hw => forall_mem_push hw ht)
    | parent hp hsym =>
      exact absurd (hsym.symm.trans (beq_iff_eq.mp ho.isError)) (lhs_ne_error (table_fault hl) hp)
  | opened =>
    rw [Built, opened, Stack.nodes_pushExtra]
    refine forall_mem_push (fun n hn => (h n hn).mono fun hw => hw.cons _) ?_
    refine .error rfl rfl (List.forall_mem_singleton.mpr hleaf) (.inr ?_)
    exact List.forall_mem_singleton.mpr ht

theorem Steps.built (hl : job.grammar = l.grammar) (hs : job.Steps r r')
    (hlex : job.Lexed r.lookahead) (hm : Merges r) (h : job.Built r) : job.Built r' := by
  cases hs with
  | scanned => exact h.scan hl
  | shifted _ _ he =>
    have ht := (Bool.and_eq_true_iff.mp (hlex he).1).2
    simp only [Built, Run.advance, Stack.nodes_shift]
    exact forall_mem_push h (.token ht rfl fun _ => (hlex he).2)
  | shiftedEnd => exact fun n hn => (h n hn).mono fun hw => hw.cons _
  | reduced _ _ hp => exact Built.reduced hp h
  | recovered hq hr =>
    cases hr with
    | supplied _ _ ha hr =>
      have ht := isTerminal_of_actionOn hl ha.settled.1
      simp only [Built, Job.supplied, Run.report, Stack.nodes_shift]
      exact forall_mem_push (fun n hn => (h.replays hr n hn).mono fun hw => hw.cons _)
        (.token ht rfl fun hm => absurd hm Bool.noConfusion)
    | wrapped _ _ hsp => exact h.wrapped hsp
    | gaveUp => exact fun n hn => (h n hn).mono fun hw => hw.cons _
    | skipped _ he => exact h.skips hl (skips (hm (by simp [hq]))) (hlex he)
  | ended => exact h

theorem Reachable.built (hl : job.grammar = l.grammar) (h : job.Reachable r) : job.Built r := by
  induction h with
  | initial => exact fun n hn => nomatch hn
  | step h ih => exact h.steps.built hl (h.lexed hl) h.merges ih

theorem Steps.endReported (hs : job.Steps r r') (h : r.phase = .gaveUp → EndReported r.errors) :
    r'.phase = .gaveUp → EndReported r'.errors := by
  intro hp
  cases hs with
  | scanned => exact absurd hp (job.dispatch_ne_gaveUp _)
  | shifted => cases hp
  | shiftedEnd => exact ⟨_, List.mem_cons_self⟩
  | reduced => exact absurd hp (job.phaseForLookahead_ne_gaveUp _)
  | recovered _ hr =>
    cases hr with
    | supplied | wrapped => exact absurd hp (job.phaseForLookahead_ne_gaveUp _)
    | gaveUp => exact ⟨_, List.mem_cons_self⟩
    | skipped => cases hp
  | ended => exact h hp

/-- A parse gives up only at an unexpected end. -/
theorem Reachable.endReported (h : job.Reachable r) (hp : r.phase = .gaveUp) :
    EndReported r.errors := by
  induction h with
  | initial => cases hp
  | step h ih => exact h.steps.endReported ih hp

/-! ## The tree -/

/-- Below the root are the nodes of the stack, and the children of the one that was accepted. -/
theorem mem_assembleRoot {phase : Phase} {nodes : List Node} {c : Node}
    (hc : c ∈ (job.assembleRoot phase nodes).children) :
    c ∈ nodes ∨ ∃ n ∈ nodes, c ∈ n.children := by
  unfold assembleRoot at hc
  split at hc
  · split at hc
    · rename_i root trailing hd
      have hsplit := (Stack.root_of_dropWhile hd).2
      rw [hsplit]
      simp only [List.mem_append] at hc ⊢
      obtain (hc | hc) | hc := hc
      · exact .inl (.inl hc)
      · exact .inr ⟨root, .inr List.mem_cons_self, hc⟩
      · exact .inl (.inr (List.mem_cons_of_mem _ hc))
    · exact .inl hc
  · exact .inl hc

theorem builds_of_mem_root (hl : job.grammar = l.grammar) (h : job.Reachable r) {c : Node}
    (hc : c ∈ (job.assembleRoot r.phase r.stack.nodes).children) :
    job.table.Builds (EndReported r.errors) c := by
  have hb := h.built hl
  obtain hc | ⟨n, hn, hc⟩ := mem_assembleRoot hc
  · exact hb c hc
  · exact (hb n hn).child hc

/-- The accepted node is the only one on the stack that is not an extra. -/
def Single (r : Run) : Prop := ∀ root trailing, r.stack.nodes.dropWhile (·.extra) = root :: trailing →
  ∀ n ∈ trailing, n.extra = true

/-- A hidden rule directly below the root is left there by the end of the parse. -/
theorem hidden_of_mem_root (hl : job.grammar = l.grammar) (h : job.Reachable r)
    (hfin : r.phase.isFinal = true) (hsingle : r.phase = .accepting → Single r) {c : Node}
    (hc : c ∈ (job.assembleRoot r.phase r.stack.nodes).children)
    (hh : job.table.isHiddenRule c.symbol = true) :
    (job.assembleRoot r.phase r.stack.nodes).isError = true ∧ EndReported r.errors := by
  have hf := table_fault hl
  have hb := h.built hl
  have not_extra (n : Node) (hn : n ∈ r.stack.nodes) (hx : n.extra = true)
      (hh : job.table.isHiddenRule n.symbol = true) : False :=
    absurd (hx.symm.trans ((hb n hn).extra hf hh)) (by decide)
  cases hp : r.phase with
  | accepting =>
    simp only [assembleRoot, hp, ite_true] at hc ⊢
    split at hc
    · rename_i root trailing hd
      have hsplit := (Stack.root_of_dropWhile hd).2
      simp only [List.mem_append] at hc
      obtain (hc | hc) | hc := hc
      · refine (not_extra c ?_ (List.all_eq_true.mp List.all_takeWhile c hc) hh).elim
        rw [hsplit]
        exact List.mem_append_left _ hc
      · have hroot : root ∈ r.stack.nodes := by
          rw [hsplit]
          exact List.mem_append_right _ List.mem_cons_self
        have hleft := (hb root hroot).hidden_child hf hc hh
        exact hleft
      · refine (not_extra c ?_ (hsingle hp root trailing hd c hc) hh).elim
        rw [hsplit]
        exact List.mem_append_right _ (List.mem_cons_of_mem _ hc)
    · rename_i hd
      exact (not_extra c hc (List.dropWhile_eq_nil_iff.mp hd c hc) hh).elim
  | gaveUp => exact ⟨rfl, h.endReported hp⟩
  | scanning | shifting | reducing | recovering =>
    rw [hp] at hfin
    cases hfin

/-- Hidden rules are left in a tree only directly below errors, and only if the end of the input was
unexpected. -/
theorem hidden_of_mem_walk (hl : job.grammar = l.grammar) (h : job.Reachable r)
    (hfin : r.phase.isFinal = true) (hsingle : r.phase = .accepting → Single r) {n c : Node}
    (hn : n ∈ (job.assembleRoot r.phase r.stack.nodes).walk) (hc : c ∈ n.children)
    (hh : job.table.isHiddenRule c.symbol = true) : n.isError = true ∧ EndReported r.errors := by
  rw [walk_eq] at hn
  rcases List.mem_cons.mp hn with rfl | hn
  · exact hidden_of_mem_root hl h hfin hsingle hc hh
  · obtain ⟨m, hm, hn⟩ := exists_holds_of_mem_walkPending hn
    exact ((builds_of_mem_root hl h hm).of_holds hn).hidden_child (table_fault hl) hc hh

end Job

end TableParsing
