import TableParsing.Proofs.Acceptance
import TableParsing.Proofs.Coverage
import TableParsing.Proofs.Origins
import TableParsing.Proofs.Pruning
import TableParsing.Proofs.Spelling

/-!
# Parsing without noise

A parse that meets no error but unlexable bytes goes the way that it would go without them and
without extras: both are put on the stack while scanning, and every reduction leaves them where they
do not count. So another text in which the same tokens are found gives the same tree without them.
-/
namespace TableParsing

open Node

/-- The symbols of what stands between the tokens of a program. -/
def GrammarTable.isNoise (t : GrammarTable) (s : Symbol) : Bool := s == Symbol.error || t.isExtra s

/-- No rule makes noise, and every hidden rule has children. -/
structure GrammarTable.Quiet (t : GrammarTable) : Prop where
  endOfInput : t.isNoise Symbol.endOfInput = false
  lhs : ∀ p ∈ t.productions, t.isNoise p.lhs = false
  hidden : ∀ p ∈ t.productions, t.isHiddenRule p.lhs = true → p.childCount.toNat ≠ 0

/-- Only unlexable bytes were reported. -/
def Lexical (errors : List SyntaxError) : Prop := ∀ e ∈ errors, e.kind = .lexical

theorem Lexical.of_subset {errors errors' : List SyntaxError} (h : Lexical errors')
    (hs : ∀ e ∈ errors, e ∈ errors') : Lexical errors :=
  fun e he => h e (hs e he)

namespace Stack

variable {drop : Symbol → Bool} {s : Stack}

theorem marked_iff : Marked drop s ↔ ∀ n ∈ s.nodes, n.extra = drop n.symbol := by
  simp [Marked, nodes]

end Stack

/-! ## Texts in which the same tokens are found -/

namespace Grammar

variable {g : Grammar} {text text' : Text} {valid : List Bool} {pos pos' : Nat}

theorem lexemeAt_congr (h : g.skipSeparators text pos = g.skipSeparators text pos') :
    g.lexemeAt text valid pos = g.lexemeAt text valid pos' := by
  simp only [lexemeAt, h]

/-- In the other text noise separates tokens, and the other lexemes are found where they were. -/
structure Rereads (g : Grammar) (text text' : Text) (lexemes : List Lexeme) : Prop where
  size : text'.size = text.size
  noise : ∀ valid pos lexeme token, g.lexemeAt text valid pos = lexeme → lexeme ∈ lexemes →
    lexeme.token? = some token → g.table.isNoise token.symbol = true →
    g.skipSeparators text' pos = g.skipSeparators text' token.span.stop
  token : ∀ valid pos token, g.lexemeAt text valid pos = .token token → .token token ∈ lexemes →
    g.table.isNoise token.symbol = false → g.lexemeAt text' valid pos = .token token
  endOfText : ∀ valid pos, g.lexemeAt text valid pos = .endOfText →
    g.lexemeAt text' valid pos = .endOfText

end Grammar

namespace Job

variable {job : Job} {r r' last : Run} {p : Production} {state : StateId} {id : ProductionId}
  {l : Language} {text : Text} {seen : List Lexeme} {lexemes : List Lexeme} {steps : Nat}

/-! ## Parses with lexical errors -/

theorem scan_errors_subset (job : Job) (r : Run) : ∀ e ∈ r.errors, e ∈ (job.scan r).errors := by
  obtain ⟨r', hr, ⟨_, hs⟩ | ⟨_, _, _, hs⟩⟩ := job.scan_cases
    (P := fun r' => ∀ e ∈ r.errors, e ∈ r'.errors) (fun _ _ _ _ h => h)
    (fun _ _ _ h e he => List.mem_cons_of_mem _ (h e he)) (fun _ he => he)
  all_goals
    rw [hs]
    exact hr

theorem Recovers.not_lexical (h : job.Recovers r r') (hm : r.mergeSkips = true → OnOpen r) :
    ¬ Lexical r'.errors := by
  intro hl
  cases h with
  | supplied | wrapped | gaveUp => exact nomatch hl _ List.mem_cons_self
  | skipped =>
    have hs := job.skips hm
    revert hl hs
    generalize job.skipLookahead r = r'
    intro hl hs
    cases hs with
    | grown _ _ ho =>
      have hkind := (List.forall_mem_cons.mp hl).1
      exact absurd (ho.kind.symm.trans hkind) (by decide)
    | opened => exact nomatch hl _ List.mem_cons_self

/-- The steps of a parse that reports unlexable bytes only. -/
inductive Passes (job : Job) (r : Run) : Run → Prop
  | scanned : r.phase = .scanning →
      Passes job r { job.scan r with phase := job.dispatch (job.scan r) }
  | shifted {next : StateId} : r.phase = .shifting → job.currentAction? r = some (.shift next) →
      r.lookahead.symbol ≠ Symbol.endOfInput →
      Passes job r { r.advance r.lookahead.span.stop with
        stack := r.stack.shift next (job.leaf r.lookahead)
        phase := .scanning }
  | reduced {id : ProductionId} {p : Production} {state : StateId} : r.phase = .reducing →
      job.currentAction? r = some (.reduce id) → job.table.production? id = some p →
      job.Performs r p state → Passes job r (job.continued r p state)
  | ended : r.phase.isFinal = true → Passes job r r

theorem Reachable.passes (h : job.Reachable r) (hl : Lexical (job.step r).errors) :
    job.Passes r (job.step r) := by
  have hs := h.steps
  have hm := h.merges
  revert hl hs
  generalize job.step r = r'
  intro hl hs
  cases hs with
  | scanned hp => exact .scanned hp
  | shifted hp ha he => exact .shifted hp ha he
  | shiftedEnd => exact nomatch hl _ List.mem_cons_self
  | reduced hp ha hprod hperf _ => exact .reduced hp ha hprod hperf
  | recovered hp hr => exact absurd hl (hr.not_lexical (hm (by simp [hp])))
  | ended hf => exact .ended hf

theorem Passes.errors_subset (h : job.Passes r r') : ∀ e ∈ r.errors, e ∈ r'.errors := by
  cases h with
  | scanned => exact job.scan_errors_subset r
  | shifted | reduced | ended => exact fun _ he => he

theorem Reachable.lexical (h : job.Reachable r) (hl : Lexical (job.runFor steps r).errors) :
    Lexical r.errors := by
  induction steps generalizing r with
  | zero => exact hl
  | succ steps ih =>
    rw [Job.runFor] at hl
    split at hl
    · exact hl
    · have hstep := ih h.step hl
      exact hstep.of_subset (h.passes hstep).errors_subset

/-! ## Stacks with noise -/

/-- Noise is marked as extra and never looked ahead at, and hidden rules on the stack can be replaced
by their children. -/
structure Tidy (job : Job) (r : Run) : Prop where
  lookahead : job.table.isNoise r.lookahead.symbol = false
  marked : r.stack.Marked job.table.isNoise
  presentable : ∀ n ∈ r.stack.nodes, job.table.Presentable job.table.isNoise n

theorem Tidy.of_stack (h : job.Tidy r) (hs : r'.stack = r.stack)
    (hn : job.table.isNoise r'.lookahead.symbol = false) : job.Tidy r' :=
  ⟨hn, hs ▸ h.marked, hs ▸ h.presentable⟩

theorem presentable_of_terminal {n : Node} (h : job.table.isTerminal n.symbol = true) :
    job.table.Presentable job.table.isNoise n :=
  fun hh => absurd (h.symm.trans (GrammarTable.isTerminal_of_isHiddenRule hh)) (by decide)

theorem presentable_error (hl : job.grammar = l.grammar) (span : Span) :
    job.table.Presentable job.table.isNoise (Node.error span []) := by
  intro hh
  rw [Node.error, GrammarTable.isHiddenRule_error (table_fault hl)] at hh
  cases hh

theorem Tidy.push {e : Entry} (h : job.Tidy r)
    (he : e.node.extra = job.table.isNoise e.node.symbol)
    (hp : job.table.Presentable job.table.isNoise e.node) (hs : r'.stack = e :: r.stack)
    (hn : r'.lookahead = r.lookahead) : job.Tidy r' := by
  refine ⟨hn ▸ h.lookahead, ?_, ?_⟩
  · rw [hs]
    exact List.forall_mem_cons.mpr ⟨he, h.marked⟩
  · rw [hs, Stack.nodes_cons]
    exact forall_mem_push h.presentable hp

theorem isNoise_of_extra {s : Symbol} (h : job.table.isExtra s = true) :
    job.table.isNoise s = true := by
  rw [GrammarTable.isNoise, h, Bool.or_true]

theorem isNoise_error : job.table.isNoise Symbol.error = true := rfl

theorem isNoise_of_nextLexeme (hl : job.grammar = l.grammar) {token : Token}
    (hn : job.nextLexeme r = .token token) :
    job.table.isNoise token.symbol = job.table.isExtra token.symbol := by
  rw [GrammarTable.isNoise, beq_eq_false_iff_ne.mpr (nextLexeme_ne_error hl hn), Bool.false_or]

theorem Tidy.pushExtra (hl : job.grammar = l.grammar) {token : Token}
    (hn : job.nextLexeme r = .token token) (hx : job.table.isExtra token.symbol = true)
    (h : job.Tidy r) : job.Tidy (r.pushExtra (job.leaf token)) := by
  have ht := (Bool.and_eq_true_iff.mp (lexed_of_nextLexeme hl hn).1).2
  exact h.push (isNoise_of_extra hx).symm (presentable_of_terminal ht) rfl rfl

theorem Tidy.pushError (hl : job.grammar = l.grammar) (span : Span) (e : SyntaxError)
    (h : job.Tidy r) : job.Tidy ((r.report e).pushExtra (Node.error span [])) :=
  h.push isNoise_error.symm (presentable_error hl span) rfl rfl

theorem Tidy.scan (hl : job.grammar = l.grammar) (hq : job.table.Quiet) (h : job.Tidy r) :
    job.Tidy (job.scan r) := by
  obtain ⟨r', hr, ⟨_, hs⟩ | ⟨token, hn, hx, hs⟩⟩ := job.scan_cases (P := job.Tidy)
    (fun _ _ hn hx h => h.pushExtra hl hn hx) (fun _ span _ h => h.pushError hl span _) h
  · rw [hs]
    exact hr.of_stack rfl hq.endOfInput
  · rw [hs]
    refine hr.of_stack rfl ?_
    rw [isNoise_of_nextLexeme hl hn]
    exact hx

theorem mem_of_mem_taken {n : Node} (h : n ∈ r.taken p) : n ∈ r.stack.nodes := by
  rw [← nodes_taken r p]
  exact List.mem_append_left _ (List.mem_append_right _ h)

theorem Tidy.taken_extra (h : job.Tidy r) :
    ∀ n ∈ r.taken p, n.extra = job.table.isNoise n.symbol :=
  fun n hn => Stack.marked_iff.mp h.marked n (mem_of_mem_taken hn)

/-- A parent of at least one real node begins and ends with real children. -/
theorem Tidy.parent_framed (h : job.Tidy r) (hp : job.Performs r p state)
    (hcount : p.childCount.toNat ≠ 0) : (job.parent r p).children ≠ [] ∧
      Framed job.table.isNoise (job.parent r p).children := by
  have hcomplete := hp.complete
  have hne : r.taken p ≠ [] := by
    intro hnil
    rw [hnil] at hcomplete
    exact hcount hcomplete.symm
  refine job.table.collectChildren_framed p 0 hne h.taken_extra
    (fun n hn => h.presentable n (mem_of_mem_taken hn)) ?_ ?_
  · exact Stack.popChildren_first hcount hcomplete
  · exact Stack.popChildren_last r.stack

theorem Tidy.trailing_noise (h : job.Tidy r) :
    ∀ n ∈ r.stack.popExtras.1, job.table.isNoise n.symbol = true := by
  intro n hn
  have hnodes : n ∈ r.stack.nodes := by
    rw [← Stack.nodes_popExtras]
    exact List.mem_append_right _ hn
  rw [← Stack.marked_iff.mp h.marked n hnodes]
  exact Stack.popExtras_extra r.stack n hn

theorem Tidy.shift_parent (hq : job.table.Quiet) (hprod : job.table.production? id = some p)
    (h : job.Tidy r) :
    ((r.below p).shift state (job.parent r p)).Marked job.table.isNoise := by
  have hlhs := hq.lhs p (Array.mem_of_getElem? hprod)
  exact List.forall_mem_cons.mpr ⟨hlhs.symm, h.marked.of_suffix (below_suffix r p)⟩

theorem Tidy.reduced (hq : job.table.Quiet) (hprod : job.table.production? id = some p)
    (hp : job.Performs r p state) (h : job.Tidy r) : job.Tidy (job.reduced r p state) := by
  refine ⟨h.lookahead, ?_, ?_⟩
  · exact (Stack.pushExtras_marked (h.shift_parent hq hprod) h.trailing_noise).1
  · refine forall_nodes_reduced h.presentable fun hh => ?_
    exact h.parent_framed hp (hq.hidden p (Array.mem_of_getElem? hprod) hh)

theorem Tidy.passes (hl : job.grammar = l.grammar) (hq : job.table.Quiet) (hs : job.Passes r r')
    (hlex : job.Lexed r.lookahead) (h : job.Tidy r) : job.Tidy r' := by
  cases hs with
  | scanned => exact (h.scan hl hq).of_stack rfl (h.scan hl hq).lookahead
  | shifted _ _ he =>
    have ht := (Bool.and_eq_true_iff.mp (hlex he).1).2
    exact h.push h.lookahead.symm (presentable_of_terminal ht) rfl rfl
  | reduced _ _ hprod hp => exact (h.reduced hq hprod hp).of_stack rfl h.lookahead
  | ended => exact h

theorem Reachable.tidy (hl : job.grammar = l.grammar) (hq : job.table.Quiet)
    (h : job.Reachable r) (hlex : Lexical r.errors) : job.Tidy r := by
  induction h with
  | initial => exact ⟨hq.endOfInput, List.forall_mem_nil _, List.forall_mem_nil _⟩
  | step h ih =>
    have hs := h.passes hlex
    exact (ih (hlex.of_subset hs.errors_subset)).passes hl hq hs (h.lexed hl)

/-! ## Runs without noise -/

/-- The parse of another text with the same grammar and options. -/
def on (job : Job) (text : Text) : Job := { job with text := text }

/-- A run that has gone the same way through `text` without noise. -/
structure Shadows (job : Job) (text : Text) (r r' : Run) : Prop where
  stack : r'.stack = r.stack.prune job.table.isNoise
  phase : r'.phase = r.phase
  lookahead : r'.lookahead = r.lookahead
  position : r.phase = .scanning → job.grammar.skipSeparators text r'.position =
    job.grammar.skipSeparators text r.position
  errors : r'.errors = []

theorem Shadows.path (h : job.Shadows text r r') (ht : job.Tidy r) :
    r'.stack.path = r.stack.path := by
  rw [h.stack, Stack.path_prune ht.marked]

theorem Shadows.topState (h : job.Shadows text r r') (ht : job.Tidy r) (hc : r.stack.Coherent) :
    r'.stack.topState = r.stack.topState := by
  rw [h.stack, Stack.topState_prune ht.marked hc]

theorem Shadows.currentAction? (h : job.Shadows text r r') (ht : job.Tidy r)
    (hc : r.stack.Coherent) : (job.on text).currentAction? r' = job.currentAction? r := by
  rw [Job.currentAction?, Job.currentAction?, h.topState ht hc, h.lookahead]
  rfl

theorem Shadows.phaseForLookahead (h : job.Shadows text r r') (ht : job.Tidy r)
    (hc : r.stack.Coherent) : (job.on text).phaseForLookahead r' = job.phaseForLookahead r := by
  rw [Job.phaseForLookahead, Job.phaseForLookahead, h.currentAction? ht hc]

theorem Shadows.dispatch (h : job.Shadows text r r') (ht : job.Tidy r) (hc : r.stack.Coherent) :
    (job.on text).dispatch r' = job.dispatch r := by
  rw [Job.dispatch, Job.dispatch, h.currentAction? ht hc, h.phaseForLookahead ht hc, h.path ht,
    h.lookahead]
  rfl

/-- Only how the other text is read depends on the text. -/
theorem Shadows.nextLexeme (h : job.Shadows text r r') (ht : job.Tidy r) (hc : r.stack.Coherent)
    (hp : r.phase = .scanning) : (job.on text).nextLexeme r' =
      job.grammar.lexemeAt text (job.validExternals r) r.position := by
  have hvalid : (job.on text).validExternals r' = job.validExternals r := by
    rw [Job.validExternals, Job.validExternals, h.topState ht hc]
    rfl
  rw [Job.nextLexeme, hvalid]
  exact Grammar.lexemeAt_congr (h.position hp)

/-- What is pushed as noise is passed over. -/
theorem Shadows.pushExtra {lexeme : Lexeme} {token : Token} {n : Node} {e : List SyntaxError}
    (hre : job.grammar.Rereads job.text text lexemes) (hn : job.nextLexeme r = lexeme)
    (hmem : lexeme ∈ lexemes) (ht : lexeme.token? = some token)
    (hnoise : job.table.isNoise token.symbol = true) (hsym : n.symbol = token.symbol)
    (hspan : n.span = token.span) (hp : r.phase = .scanning) (h : job.Shadows text r r') :
    job.Shadows text ({ r with errors := e }.pushExtra n) r' := by
  refine ⟨?_, h.phase, h.lookahead, fun _ => ?_, h.errors⟩
  · rw [h.stack]
    change _ = Stack.prune _ ((⟨_, { n with extra := true }⟩ : Entry) :: r.stack)
    rw [Stack.prune, hsym, hnoise, if_pos rfl]
  · rw [h.position hp, hre.noise _ _ _ _ hn hmem ht hnoise, ← hspan]
    rfl

theorem subset_recordScan (job : Job) (seen : List Lexeme) (r : Run) :
    ∀ lexeme ∈ seen, lexeme ∈ (job.recordScan seen r).1 := by
  intro lexeme hmem
  fun_induction recordScan job seen r with
  | case1 => exact List.mem_cons_of_mem _ hmem
  | case2 seen r token hn hx ih => exact ih (List.mem_cons_of_mem _ hmem)
  | case3 => exact List.mem_cons_of_mem _ hmem
  | case4 seen r span hn ih => exact ih (List.mem_cons_of_mem _ hmem)

/-- A scan finds the same lookahead in the other text, without the noise before it. -/
theorem Shadows.scan (hl : job.grammar = l.grammar)
    (hre : job.grammar.Rereads job.text text lexemes)
    (hsub : ∀ lexeme ∈ (job.recordScan seen r).1, lexeme ∈ lexemes) (hc : r.stack.Coherent)
    (ht : job.Tidy r) (hp : r.phase = .scanning) (h : job.Shadows text r r') :
    job.Shadows text (job.scan r) ((job.on text).scan r') := by
  rw [← recordScan_snd job seen r]
  fun_induction recordScan job seen r with
  | case1 seen r hn =>
    have hn' : (job.on text).nextLexeme r' = .endOfText :=
      (h.nextLexeme ht hc hp).trans (hre.endOfText _ _ hn)
    rw [scan_of_endOfText hn']
    exact ⟨h.stack, h.phase, by simp only [on, hre.size], h.position, h.errors⟩
  | case2 seen r token hn hx ih =>
    have hmem := hsub _ (job.subset_recordScan _ _ _ List.mem_cons_self)
    exact ih hsub (hc.pushExtra _) (ht.pushExtra hl hn hx) hp
      (h.pushExtra hre hn hmem rfl (isNoise_of_extra hx) rfl rfl hp)
  | case3 seen r token hn hx =>
    have hquiet : job.table.isNoise token.symbol = false := by
      rw [isNoise_of_nextLexeme hl hn]
      simpa using hx
    have hn' : (job.on text).nextLexeme r' = .token token :=
      (h.nextLexeme ht hc hp).trans (hre.token _ _ _ hn (hsub _ List.mem_cons_self) hquiet)
    have hx' : (job.on text).table.isExtra token.symbol = false := (Bool.not_eq_true _).mp hx
    rw [scan_of_token hn' hx']
    exact ⟨h.stack, h.phase, rfl, h.position, h.errors⟩
  | case4 seen r span hn ih =>
    have hmem := hsub _ (job.subset_recordScan _ _ _ List.mem_cons_self)
    exact ih hsub (hc.pushExtra _) (ht.pushError hl span _) hp
      (h.pushExtra hre hn hmem rfl isNoise_error rfl rfl hp)

/-! ## Reductions without noise -/

theorem popped_prune (h : job.Shadows text r r') (ht : job.Tidy r) (p : Production) :
    r'.taken p = pruneAll job.table.isNoise (r.taken p) ∧
      r'.below p = (r.below p).prune job.table.isNoise := by
  have hmarked := ht.marked.of_suffix (Stack.popExtras_suffix r.stack)
  have hpop := Stack.popChildren_prune hmarked p.childCount.toNat []
  rw [pruneAll, Stack.prune_popExtras ht.marked] at hpop
  rw [Run.taken, Run.below, h.stack, Stack.popExtras_prune ht.marked]
  simp only [hpop, Run.taken, Run.below, and_self]

theorem coveringSpan_of_ne_nil {ns : List Node} (h : ns ≠ []) (offset offset' : Nat) :
    coveringSpan offset ns = coveringSpan offset' ns := by
  rw [coveringSpan, coveringSpan, List.head?_eq_some_head h, List.getLast?_eq_some_getLast h]

theorem Shadows.parent (h : job.Shadows text r r') (ht : job.Tidy r)
    (hp : job.Performs r p state) :
    (job.on text).parent r' p = (job.parent r p).prune job.table.isNoise := by
  obtain ⟨htaken, hbelow⟩ := popped_prune h ht p
  have hchildren := job.table.pruneAll_collectChildren p 0 (ht.taken_extra (p := p))
  rw [Job.parent, Job.parent, prune_branch, htaken, hbelow]
  change branch p.lhs (coveringSpan _ (job.table.collectChildren p 0 _)) _
    (job.table.collectChildren p 0 _) = _
  rw [← hchildren]
  congr 1
  by_cases hcount : p.childCount.toNat = 0
  · have hnone : r.taken p = [] := by
      rw [Run.taken, hcount, Stack.popChildren_zero]
    have hhead : r.below p = r.stack.popExtras.2 := by
      rw [Run.below, hcount, Stack.popChildren_zero]
    have hmarked := ht.marked.of_suffix (below_suffix r p)
    rw [Stack.endOffset_prune hmarked (hhead ▸ Stack.head?_popExtras r.stack), hnone]
    rfl
  · obtain ⟨hne, hframed⟩ := ht.parent_framed hp hcount
    change (job.table.collectChildren p 0 (r.taken p)) ≠ [] at hne
    rw [coveringSpan_of_ne_nil hne _ (Stack.endOffset ((r.below p).prune job.table.isNoise))]
    exact hframed.coveringSpan _

theorem Shadows.reduced (ht : job.Tidy r) (hp : job.Performs r p state)
    (hq : job.table.Quiet) (hprod : job.table.production? id = some p)
    (hphase : r.phase ≠ .scanning) (h : job.Shadows text r r') :
    job.Shadows text (job.reduced r p state) ((job.on text).reduced r' p state) := by
  refine ⟨?_, h.phase, h.lookahead, fun hs => absurd hs hphase, h.errors⟩
  have hshift : ((r.below p).shift state (job.parent r p)).Marked job.table.isNoise :=
    ht.shift_parent hq hprod
  rw [Job.reduced, Job.reduced, (Stack.pushExtras_marked hshift ht.trailing_noise).2, h.stack,
    Stack.popExtras_prune ht.marked, (popped_prune h ht p).2, h.parent ht hp]
  change _ = Stack.prune _ (_ :: _)
  rw [Stack.prune_cons_of_real hshift rfl]
  rfl

theorem Shadows.reduceStep (hq : job.table.Quiet) (hc : r.stack.Coherent) (ht : job.Tidy r)
    (hprod : job.table.production? id = some p) (ha : job.currentAction? r = some (.reduce id))
    (hp : job.Performs r p state) (hphase : r.phase ≠ .scanning) (h : job.Shadows text r r') :
    job.Shadows text (job.continued r p state) ((job.on text).reduceStep r') := by
  have hgoto : (job.on text).table.goto? (r'.below p).topState p.lhs = some state := by
    rw [(popped_prune h ht p).2, Stack.topState_prune (ht.marked.of_suffix (below_suffix r p))
      (hc.of_suffix (below_suffix r p))]
    exact hp.goto
  have hstep : (job.on text).reduceStep r' = (job.on text).continued r' p state := by
    have ha' : (job.on text).currentAction? r' = some (.reduce id) :=
      (h.currentAction? ht hc).trans ha
    have hprod' : (job.on text).table.production? id = some p := hprod
    simp only [Job.reduceStep, ha', hprod', Option.getD_some, reduce_of_goto hgoto, ite_true,
      continued]
  have hreduced := h.reduced ht hp hq hprod hphase
  have hnext := hreduced.phaseForLookahead (ht.reduced hq hprod hp)
    (coherent_reduced hc)
  rw [hstep]
  exact ⟨hreduced.stack, hnext, hreduced.lookahead,
    fun hs => absurd hs (job.phaseForLookahead_ne_scanning _), hreduced.errors⟩

/-! ## The run -/

theorem Shadows.step (hl : job.grammar = l.grammar) (hq : job.table.Quiet)
    (hre : job.grammar.Rereads job.text text lexemes)
    (hsub : ∀ lexeme ∈ (job.recordStep seen r).1, lexeme ∈ lexemes) (hr : job.Reachable r)
    (hlex : Lexical (job.step r).errors) (h : job.Shadows text r r') :
    job.Shadows text (job.step r) ((job.on text).step r') := by
  have hc := hr.steady.coherent
  have hs := hr.passes hlex
  have ht := hr.tidy hl hq (hlex.of_subset hs.errors_subset)
  revert hs
  generalize hlast : job.step r = last
  intro hs
  cases hs with
  | scanned hp =>
    rw [recordStep, hp] at hsub
    have hscan := h.scan hl hre hsub hc ht hp
    rw [step_of_scanning (h.phase.trans hp)]
    exact ⟨hscan.stack, hscan.dispatch (ht.scan hl hq) (job.scan_coherent hc), hscan.lookahead,
      fun hs => absurd hs (job.dispatch_ne_scanning _), hscan.errors⟩
  | shifted hp ha he =>
    have ha' := (h.currentAction? ht hc).trans ha
    simp only [Job.step, h.phase, hp, shift, ha', h.lookahead, if_neg he]
    refine ⟨?_, rfl, h.lookahead, fun _ => rfl, h.errors⟩
    rw [h.stack]
    change _ = Stack.prune _ ((⟨_, job.leaf r.lookahead⟩ : Entry) :: _)
    rw [Stack.prune, if_neg]
    · rfl
    · exact ne_true_of_eq_false ht.lookahead
  | reduced hp ha hprod hperf =>
    simp only [Job.step, h.phase, hp]
    exact h.reduceStep hq hc ht hprod ha hperf (by simp [hp])
  | ended hf =>
    rw [step_of_final (h.phase.symm ▸ hf)]
    exact h

theorem subset_recordStep (job : Job) (seen : List Lexeme) (r : Run) :
    ∀ lexeme ∈ seen, lexeme ∈ (job.recordStep seen r).1 := by
  unfold recordStep
  split
  · exact job.subset_recordScan seen r
  · exact fun _ hm => hm

theorem subset_record (job : Job) (steps : Nat) (seen : List Lexeme) (r : Run) :
    ∀ lexeme ∈ seen, lexeme ∈ (job.record steps seen r).1 := by
  induction steps generalizing seen r with
  | zero => exact fun _ hm => hm
  | succ steps ih =>
    rw [record]
    split
    · exact fun _ hm => hm
    · exact fun lexeme hm => ih _ _ _ (job.subset_recordStep seen r lexeme hm)

theorem Shadows.runFor (hl : job.grammar = l.grammar) (hq : job.table.Quiet)
    (hre : job.grammar.Rereads job.text text lexemes)
    (hsub : ∀ lexeme ∈ (job.record steps seen r).1, lexeme ∈ lexemes) (hr : job.Reachable r)
    (hlex : Lexical (job.runFor steps r).errors) (h : job.Shadows text r r') :
    job.Shadows text (job.runFor steps r) ((job.on text).runFor steps r') := by
  induction steps generalizing seen r r' with
  | zero => exact h
  | succ steps ih =>
    rw [Job.runFor] at hlex
    rw [record] at hsub
    rw [Job.runFor, Job.runFor, h.phase]
    split
    · exact h
    · rename_i hf
      rw [if_neg hf] at hlex hsub
      have hstep : job.Shadows text (job.step r) ((job.on text).step r') :=
        h.step hl hq hre (fun x hx => hsub x (job.subset_record _ _ _ x hx)) hr
          (hr.step.lexical hlex)
      rw [← recordStep_snd job seen r] at hlex hstep ⊢
      exact ih hsub (recordStep_snd job seen r ▸ hr.step) hlex hstep

theorem finish_shadows (hl : job.grammar = l.grammar) (hq : job.table.Quiet)
    (hre : job.grammar.Rereads job.text text lexemes)
    (hsub : ∀ lexeme ∈ (job.record job.stepBound [] Run.initial).1, lexeme ∈ lexemes)
    (hlex : Lexical job.finish.errors) :
    job.Shadows text job.finish (job.on text).finish := by
  have hbound : (job.on text).stepBound = job.stepBound := by
    simp only [stepBound, on, hre.size]
  have hinitial : job.Shadows text Run.initial Run.initial := ⟨rfl, rfl, rfl, fun _ => rfl, rfl⟩
  rw [finish, finish, hbound]
  exact hinitial.runFor hl hq hre hsub .initial hlex

/-! ## The tree -/

/-- Pruning a tree and making it of pruned nodes is the same. -/
theorem assembleRoot_prune (job : Job) (phase : Phase) {nodes : List Node}
    (hsize : text.size = job.text.size) (h : ∀ n ∈ nodes, n.extra = job.table.isNoise n.symbol) :
    (job.on text).assembleRoot phase (pruneAll job.table.isNoise nodes) =
      (job.assembleRoot phase nodes).prune job.table.isNoise := by
  have hwhole : (job.on text).text.size = job.text.size := hsize
  have hleading : pruneAll job.table.isNoise (nodes.takeWhile (·.extra)) = [] := by
    refine pruneAll_of_drop fun n hn => ?_
    rw [← h n (List.takeWhile_subset _ hn)]
    exact List.all_eq_true.mp List.all_takeWhile n hn
  unfold assembleRoot
  simp only [hwhole]
  split
  · cases hd : nodes.dropWhile (·.extra) with
    | nil =>
      have hnodes : nodes = nodes.takeWhile (·.extra) := by
        have hsplit := List.takeWhile_append_dropWhile (p := (·.extra)) (l := nodes)
        rw [hd, List.append_nil] at hsplit
        exact hsplit.symm
      rw [← hnodes] at hleading
      rw [hleading, prune_branch, hleading]
      rfl
    | cons root trailing =>
      obtain ⟨hx, hnodes⟩ := Stack.root_of_dropWhile hd
      have hroot : job.table.isNoise root.symbol = false := by
        rw [← h root (by rw [hnodes]; simp), hx]
      have hpruned : pruneAll job.table.isNoise nodes =
          root.prune job.table.isNoise :: pruneAll job.table.isNoise trailing := by
        rw [hnodes, pruneAll_append, hleading, pruneAll_cons_of_keep hroot, List.nil_append]
      have hkeep : ¬(root.prune job.table.isNoise).extra = true := by
        rw [prune_extra, hx]
        exact Bool.false_ne_true
      rw [hpruned, List.dropWhile_cons_of_neg hkeep, List.takeWhile_cons_of_neg hkeep]
      simp only [prune_eq, pruneAll_append, hleading]
  · rw [prune_branch]

end Job

namespace Parser

open Job

/-- Where just the noise of a text is replaced by separators, the tree has the same nodes without
noise, and nothing is wrong any more. -/
theorem parse_of_rereads (p : Parser) {text text' : Text} (hq : p.language.table.Quiet)
    (hlex : Lexical (p.parse text).errors)
    (hre : p.language.grammar.Rereads text text' (p.lexemes text)) :
    (p.parse text').errors = [] ∧
      (p.parse text').root = (p.parse text).root.prune p.language.table.isNoise := by
  have hlex : Lexical (p.job text).finish.errors := fun e he => hlex e (List.mem_reverse.mpr he)
  have hsub : ∀ lexeme ∈ ((p.job text).record (p.job text).stepBound [] Run.initial).1,
      lexeme ∈ p.lexemes text := fun _ hm => List.mem_reverse.mpr hm
  have h : (p.job text).Shadows text' (p.job text).finish (p.job text').finish :=
    finish_shadows (l := p.language) rfl hq hre hsub hlex
  have ht : (p.job text).Tidy (p.job text).finish :=
    (p.job text).finish_reachable.tidy (l := p.language) rfl hq hlex
  refine ⟨List.reverse_eq_nil_iff.mpr h.errors, ?_⟩
  change (p.job text').assembleRoot (p.job text').finish.phase (p.job text').finish.stack.nodes = _
  rw [h.phase, h.stack, Stack.nodes_prune]
  exact (p.job text).assembleRoot_prune _ hre.size (Stack.marked_iff.mp ht.marked)

end Parser

end TableParsing
