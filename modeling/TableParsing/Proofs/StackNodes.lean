import TableParsing.Proofs.Agreement
import TableParsing.Proofs.Clean
import TableParsing.Proofs.Leaves

/-!
# The nodes on the stack

A node on the stack that is not an extra is a token, shifted or supplied, or was made by a
production. As long as a skipped token may join the newest error, that error is on top of the stack
and has tokens of its own, so it is no run of unlexable bytes.
-/
namespace TableParsing

namespace GrammarTable

variable {t : GrammarTable} {s : Symbol} {n : Node}

theorem isTerminal_of_isHiddenRule (h : t.isHiddenRule s = true) : t.isTerminal s = false := by
  obtain ⟨m, hm, hh⟩ := (Option.any_eq_true _ _).mp h
  have hk : m.kind = .nonTerminal := by
    simpa using (Bool.and_eq_true_iff.mp hh).1
  simp [isTerminal, hm, SymbolMetadata.isTerminal, hk]

/-- The nodes that a table puts on a stack. -/
inductive Makes (t : GrammarTable) : Node → Prop
  | token {s : Symbol} {span : Span} {named : Bool} : t.isTerminal s = true →
      Makes t (Node.leaf s span named)
  | supplied {s : Symbol} {offset : Nat} {named : Bool} : t.isTerminal s = true →
      Makes t (Node.supplied s offset named)
  | parent {id : ProductionId} {p : Production} {span : Span} {named : Bool}
      {children : List Node} : t.production? id = some p →
      (children = [] → span.stop ≤ span.start) → Makes t (Node.branch p.lhs span named children)

/-- Only tokens have bytes without having children. -/
theorem Makes.filled (h : t.Makes n) (hs : t.isTerminal n.symbol = false) : n.Filled := by
  cases h with
  | token ht | supplied ht => exact absurd ht (ne_true_of_eq_false hs)
  | parent _ hc => exact hc

end GrammarTable

/-- The first node that is not an extra stands behind the extras before it. -/
theorem Stack.root_of_dropWhile {nodes trailing : List Node} {root : Node}
    (h : nodes.dropWhile (·.extra) = root :: trailing) :
    root.extra = false ∧ nodes = nodes.takeWhile (·.extra) ++ root :: trailing := by
  have hx := List.dropWhile_get_zero_not (p := (·.extra)) nodes (by simp [h])
  constructor
  · simpa [h] using hx
  · rw [← h, List.takeWhile_append_dropWhile]

namespace Job

variable {job : Job} {r r' last : Run} {s : Symbol} {p : Production} {state : StateId} {k : Nat}
  {l : Language}

theorem table_fault (hl : job.grammar = l.grammar) : job.table.fault? = none := by
  rw [table, hl]
  exact l.table_fault

/-! ## The lookahead -/

/-- A lookahead other than the end is a token of the table and has bytes. -/
def Lexed (job : Job) (token : Token) : Prop :=
  token.symbol ≠ Symbol.endOfInput →
    job.table.isToken token.symbol = true ∧ token.span.start < token.span.stop

theorem lexed_of_nextLexeme (hl : job.grammar = l.grammar) {token : Token}
    (h : job.nextLexeme r = .token token) :
    job.table.isToken token.symbol = true ∧ token.span.start < token.span.stop := by
  have hb := Grammar.token_bounds h
  rw [nextLexeme, hl] at h
  rw [table, hl]
  exact ⟨Language.isToken_of_lexemeAt h, hb.2.1⟩

theorem Steps.lexed (hl : job.grammar = l.grammar) (hs : job.Steps r r')
    (h : job.Lexed r.lookahead) : job.Lexed r'.lookahead := by
  cases hs with
  | scanned =>
    obtain ⟨_, _, ⟨_, hs⟩ | ⟨token, hn, _, hs⟩⟩ := job.scan_cases (P := fun _ => True)
      (fun _ _ _ _ _ => trivial) (fun _ _ _ _ => trivial) (r := r) trivial
    · rw [hs]
      exact fun he => absurd rfl he
    · rw [hs]
      exact fun _ => lexed_of_nextLexeme hl hn
  | shifted | shiftedEnd | reduced | ended => exact h
  | recovered _ hr => exact hr.lookahead ▸ h

theorem Reachable.lexed (hl : job.grammar = l.grammar) (h : job.Reachable r) :
    job.Lexed r.lookahead := by
  induction h with
  | initial => exact fun he => absurd rfl he
  | step h ih => exact h.steps.lexed hl ih

/-! ## Skipped tokens -/

/-- An error that grows with the next skipped token, and its report. -/
structure Open (e : Entry) (err : SyntaxError) : Prop where
  extra : e.node.extra = true
  isError : e.node.isError = true
  children : e.node.children ≠ []
  kind : err.kind = .syntactic
  span : err.span = e.node.span

/-- The newest entry and the newest report are of an error that grows with the next skipped token. -/
inductive OnOpen : Run → Prop
  | intro {r : Run} {e : Entry} {rest : Stack} {err : SyntaxError} {errs : List SyntaxError} :
      r.stack = e :: rest → r.errors = err :: errs → Open e err → OnOpen r

/-- The node with the lookahead as its last child. -/
def grownNode (job : Job) (r : Run) (n : Node) : Node :=
  { n with
    span.stop := r.lookahead.span.stop
    children := n.children ++ [job.leaf r.lookahead] }

/-- The error on top takes the lookahead in. -/
def grown (job : Job) (r : Run) (e : Entry) (rest : Stack) (err : SyntaxError)
    (errs : List SyntaxError) : Run :=
  let stop := r.lookahead.span.stop
  { r with
    stack := { e with node := job.grownNode r e.node } :: rest
    phase := .scanning
    position := stop
    lastEnd := stop
    mergeSkips := true
    errors := { err with span.stop := stop } :: errs }

/-- The lookahead alone makes an error. -/
def opened (job : Job) (r : Run) : Run :=
  let token := r.lookahead
  { r with
    stack := r.stack.pushExtra (Node.error token.span [job.leaf token])
    phase := .scanning
    position := token.span.stop
    lastEnd := token.span.stop
    mergeSkips := true
    errors := .unexpected (job.table.displayName token.symbol) token.span :: r.errors }

/-- The ways to skip the lookahead. -/
inductive Skips (job : Job) (r : Run) : Run → Prop
  | grown {e : Entry} {rest : Stack} {err : SyntaxError} {errs : List SyntaxError} :
      r.stack = e :: rest → r.errors = err :: errs → Open e err →
      Skips job r (job.grown r e rest err errs)
  | opened : Skips job r (job.opened r)

theorem skips (h : r.mergeSkips = true → OnOpen r) : job.Skips r (job.skipLookahead r) := by
  unfold skipLookahead
  split
  · rename_i ho
    obtain ⟨hs, hm⟩ := openSkip?_eq_some ho
    cases h hm with
    | intro hs' herr hopen =>
      obtain ⟨rfl, rfl⟩ := List.cons.inj (hs.symm.trans hs')
      rw [herr]
      exact .grown hs herr hopen
  · exact .opened

theorem Skips.onOpen (h : job.Skips r r') : OnOpen r' := by
  cases h with
  | grown _ _ ho =>
    exact .intro rfl rfl
      ⟨ho.extra, ho.isError, by simp [grownNode], ho.kind, by simp [grownNode, ho.span]⟩
  | opened => exact .intro rfl rfl ⟨rfl, rfl, List.cons_ne_nil _ _, rfl, rfl⟩

theorem Skips.scanning (h : job.Skips r r') :
    r'.phase = .scanning ∧ r'.position = r.lookahead.span.stop := by
  cases h <;> exact ⟨rfl, rfl⟩

/-- Wrapping leaves the new error on top, with at least one node in it. -/
theorem onOpen_wrapped {removed : List Entry} {rest : Stack} {q : List StateId → Bool}
    (h : Stack.splitWhere q [] r.stack = some (removed, rest)) :
    OnOpen (job.wrapped r removed rest) := by
  have hne := (Stack.nodes_of_splitWhere h).1
  exact .intro rfl rfl ⟨rfl, rfl, by simpa [Node.error] using hne, rfl, rfl⟩

/-- While skips may be merged there is an error to merge them into. -/
def Merges (r : Run) : Prop := r.phase ≠ .gaveUp → r.mergeSkips = true → OnOpen r

theorem scan_merges (job : Job) (h : r.mergeSkips = true → OnOpen r) :
    (job.scan r).mergeSkips = true → OnOpen (job.scan r) := by
  obtain ⟨_, hr, ⟨_, hs⟩ | ⟨_, _, _, hs⟩⟩ :=
    job.scan_cases (P := fun r => r.mergeSkips = true → OnOpen r)
      (fun _ _ _ _ _ hm => nomatch hm) (fun _ _ _ _ hm => nomatch hm) h
  all_goals
    rw [hs]
    intro hm
    cases hr hm with
    | intro hstack herr ho => exact .intro hstack herr ho

theorem Steps.merges (hs : job.Steps r r') (h : Merges r) : Merges r' := by
  intro hp hm
  cases hs with
  | scanned hq =>
    cases scan_merges job (h (by simp [hq])) hm with
    | intro hstack herr ho => exact .intro hstack herr ho
  | shifted | reduced => cases hm
  | shiftedEnd => exact absurd rfl hp
  | recovered hq hr =>
    cases hr with
    | supplied => cases hm
    | wrapped _ _ hs => exact onOpen_wrapped hs
    | gaveUp => exact absurd rfl hp
    | skipped => exact (skips (h (by simp [hq]))).onOpen
  | ended => exact h hp hm

theorem Reachable.merges (h : job.Reachable r) : Merges r := by
  induction h with
  | initial => exact fun _ hm => nomatch hm
  | step h ih => exact h.steps.merges ih

/-- Recovery that skips the lookahead grows the newest error or makes one. -/
theorem Reachable.skips (h : job.Reachable r) (hp : r.phase = .recovering) :
    job.Skips r (job.skipLookahead r) :=
  Job.skips (h.merges (by simp [hp]))

/-! ## Where nodes come from -/

theorem forall_nodes_reduced {P : Node → Prop} (h : ∀ n ∈ r.stack.nodes, P n)
    (hp : P (job.parent r p)) : ∀ n ∈ (job.reduced r p state).stack.nodes, P n := by
  rw [← nodes_taken r p, List.forall_mem_append, List.forall_mem_append] at h
  rw [nodes_reduced, List.forall_mem_append, List.forall_mem_append, List.forall_mem_singleton]
  exact ⟨⟨h.1.1, hp⟩, h.2⟩

/-- Every node on the stack that is not an extra was put there by the table. -/
def Made (job : Job) (r : Run) : Prop :=
  ∀ n ∈ r.stack.nodes, n.extra = false → job.table.Makes n

theorem Made.pushExtra {n : Node} (h : job.Made r) : job.Made (r.pushExtra n) := by
  intro m hm hx
  rw [Run.pushExtra, Stack.nodes_pushExtra, List.mem_append, List.mem_singleton] at hm
  obtain hm | rfl := hm
  · exact h m hm hx
  · cases hx

theorem Made.reduced {id : ProductionId} (hp : job.table.production? id = some p)
    (h : job.Made r) : job.Made (job.reduced r p state) := by
  refine forall_nodes_reduced h fun _ => .parent hp fun hc => ?_
  rw [hc]
  exact Nat.le_refl _

theorem Made.replays (hr : job.Replays s k r last) (h : job.Made r) : job.Made last := by
  induction hr with
  | nil => exact h
  | cons _ hprod _ _ ih => exact ih (h.reduced hprod)

/-- What an action stands on is a terminal. -/
theorem isTerminal_of_actionOn (hl : job.grammar = l.grammar) {path : List StateId} {act : Action}
    (h : job.table.actionOn? s path = some act) : job.table.isTerminal s = true := by
  cases path with
  | nil => cases h
  | cons top rest => exact GrammarTable.isTerminal_of_action? (table_fault hl) h

theorem made_shift {n : Node} {next : StateId} {stack : Stack}
    (h : ∀ n ∈ stack.nodes, n.extra = false → job.table.Makes n) (hn : job.table.Makes n) :
    ∀ m ∈ (stack.shift next n).nodes, m.extra = false → job.table.Makes m := by
  rw [Stack.nodes_shift, List.forall_mem_append, List.forall_mem_singleton]
  exact ⟨h, fun _ => hn⟩

theorem Made.of_suffix {rest : Stack} (hs : rest <:+ r.stack) (h : job.Made r) :
    ∀ n ∈ rest.nodes, n.extra = false → job.table.Makes n := by
  obtain ⟨front, hs⟩ := hs
  intro n hn
  apply h
  rw [← hs]
  simp only [Stack.nodes, List.mem_reverse, List.mem_map, List.mem_append] at hn ⊢
  obtain ⟨e, he, rfl⟩ := hn
  exact ⟨e, .inr he, rfl⟩

theorem made_pushExtra {n : Node} {rest : Stack} (hs : rest <:+ r.stack) (h : job.Made r) :
    ∀ m ∈ (rest.pushExtra n).nodes, m.extra = false → job.table.Makes m := by
  rw [Stack.nodes_pushExtra, List.forall_mem_append, List.forall_mem_singleton]
  exact ⟨h.of_suffix hs, fun hx => nomatch hx⟩

theorem Made.skips (hs : job.Skips r r') (h : job.Made r) : job.Made r' := by
  cases hs with
  | @grown e rest err errs hstack _ ho =>
    have hrest : rest <:+ r.stack := ⟨[e], hstack.symm⟩
    intro n hn hx
    simp only [grown, Stack.nodes_cons, List.mem_append, List.mem_singleton] at hn
    obtain hn | rfl := hn
    · exact h.of_suffix hrest n hn hx
    · exact absurd hx (ne_false_of_eq_true ho.extra)
  | opened => exact made_pushExtra (List.suffix_refl _) h

theorem Steps.made (hl : job.grammar = l.grammar) (hs : job.Steps r r')
    (hlex : job.Lexed r.lookahead) (hm : Merges r) (h : job.Made r) : job.Made r' := by
  cases hs with
  | scanned =>
    obtain ⟨_, hr, ⟨_, hs⟩ | ⟨_, _, _, hs⟩⟩ := job.scan_cases (P := job.Made)
      (fun _ _ _ _ h => h.pushExtra) (fun r _ _ h => Made.pushExtra (r := r.report _) h) h
    all_goals
      rw [hs]
      exact hr
  | shifted _ _ he =>
    have ht := (Bool.and_eq_true_iff.mp (hlex he).1).2
    exact made_shift h (.token ht)
  | shiftedEnd | ended => exact h
  | reduced _ _ hp => exact Made.reduced hp h
  | recovered hq hr =>
    cases hr with
    | supplied _ _ ha hr =>
      exact made_shift (h.replays hr) (.supplied (isTerminal_of_actionOn hl ha.settled.1))
    | wrapped _ _ hs => exact made_pushExtra (Stack.suffix_of_splitWhere hs) h
    | gaveUp => exact h
    | skipped => exact h.skips (skips (hm (by simp [hq])))

theorem Reachable.made (hl : job.grammar = l.grammar) (h : job.Reachable r) : job.Made r := by
  induction h with
  | initial => exact fun n hn => nomatch hn
  | step h ih => exact h.steps.made hl (h.lexed hl) h.merges ih

end Job

end TableParsing
