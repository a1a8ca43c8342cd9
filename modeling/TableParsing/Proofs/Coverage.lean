import TableParsing.Proofs.Lexemes
import TableParsing.Proofs.Spans
import TableParsing.Proofs.StackNodes

/-!
# No input is lost

The leaves of a tree that have bytes are the lexemes of the parse, each once and in their order, and
all bytes between them are separators. On the way, what the stack spells and the lookahead that is
still to be shifted or skipped make up what the lexer has returned.
-/
namespace TableParsing

/-- Every action that accepts stands on the end. -/
def GrammarTable.AcceptsOnlyEnd (t : GrammarTable) : Prop :=
  ∀ st ∈ t.states.toList, ∀ entry ∈ st.actions.toList,
    entry.2 = .accept → entry.1 = Symbol.endOfInput

instance (t : GrammarTable) : Decidable t.AcceptsOnlyEnd :=
  inferInstanceAs (Decidable (∀ st ∈ t.states.toList, ∀ entry ∈ st.actions.toList,
    entry.2 = .accept → entry.1 = Symbol.endOfInput))

namespace Job

open Node

variable {job : Job} {r r' last : Run} {s : Symbol} {p : Production} {state : StateId} {k : Nat}
  {l : Language} {seen : List Lexeme}

/-! ## What the stack spells -/

theorem parent_filled (r : Run) (p : Production) : (job.parent r p).Filled := by
  intro hc
  change (coveringSpan _ (job.parent r p).children).stop ≤
    (coveringSpan _ (job.parent r p).children).start
  rw [hc]
  exact Nat.le_refl _

theorem Made.spelled_reduced (h : job.Made r) :
    spelled (job.reduced r p state).stack.nodes = spelled r.stack.nodes := by
  have hparent : spelled [job.parent r p] = spelled (r.taken p) := by
    rw [(parent_filled r p).spelled]
    apply GrammarTable.spelled_collectChildren
    intro n hn hx hh
    refine (h n ?_ hx).filled (GrammarTable.isTerminal_of_isHiddenRule hh)
    rw [← nodes_taken r p]
    exact List.mem_append_left _ (List.mem_append_right _ hn)
  rw [nodes_reduced, ← nodes_taken r p, spelled_append, spelled_append, hparent, spelled_append,
    spelled_append]

theorem Made.spelled_replays (hr : job.Replays s k r last) (h : job.Made r) :
    spelled last.stack.nodes = spelled r.stack.nodes := by
  induction hr with
  | nil => rfl
  | cons _ hprod _ _ ih => rw [ih (h.reduced hprod), h.spelled_reduced]

theorem spelled_pushExtra (stack : Stack) (n : Node) :
    spelled (stack.pushExtra n).nodes = spelled stack.nodes ++ spelled [n] := by
  have hn : spelled [{ n with extra := true }] = spelled [n] := spelled_congr rfl rfl rfl
  rw [Stack.nodes_pushExtra, spelled_append, hn]

theorem spelled_supplied (last : Run) (next : StateId) :
    spelled (job.supplied last s next).stack.nodes = spelled last.stack.nodes := by
  have hn : spelled [Node.supplied s last.lastEnd (job.table.isNamed s)] = [] :=
    spelled_of_empty rfl (Nat.le_refl _)
  simp only [supplied, Run.report, Stack.nodes_shift, spelled_append, hn, List.append_nil]

theorem spelled_wrapped {removed : List Entry} {rest : Stack} {q : List StateId → Bool}
    (h : Stack.splitWhere q [] r.stack = some (removed, rest)) :
    spelled (job.wrapped r removed rest).stack.nodes = spelled r.stack.nodes := by
  obtain ⟨hne, hnodes⟩ := Stack.nodes_of_splitWhere h
  rw [hnodes, spelled_append]
  simp only [wrapped, Run.report, spelled_pushExtra]
  rw [spelled_of_children (by simpa [Node.error] using hne)]
  rfl

theorem spelled_leaf_of_lexed {token : Token} (h : job.Lexed token)
    (he : token.symbol ≠ Symbol.endOfInput) : spelled [job.leaf token] = [token] :=
  spelled_leaf _ _ (h he).2

theorem Skips.spelled (hs : job.Skips r r') (h : spelled [job.leaf r.lookahead] = [r.lookahead]) :
    spelled r'.stack.nodes = spelled r.stack.nodes ++ [r.lookahead] := by
  cases hs with
  | @grown e rest _ _ hstack _ ho =>
    rw [hstack]
    have hnode : spelled [job.grownNode r e.node] = spelled [e.node] ++ [r.lookahead] := by
      have hc : (job.grownNode r e.node).children = e.node.children ++ [job.leaf r.lookahead] := rfl
      rw [spelled_of_children (by simp [hc]), spelled_of_children ho.children, hc, spelled_append, h]
    simp only [Job.grown, Stack.nodes_cons, spelled_append, hnode, List.append_assoc]
  | opened =>
    simp only [Job.opened, spelled_pushExtra]
    rw [spelled_of_children (by simp [Node.error])]
    exact congrArg _ h

theorem phaseForLookahead_ne_scanning (job : Job) (r : Run) : job.phaseForLookahead r ≠ .scanning := by
  unfold phaseForLookahead
  split <;> simp

theorem dispatch_ne_scanning (job : Job) (r : Run) : job.dispatch r ≠ .scanning := by
  unfold dispatch
  split
  · split <;> simp
  · exact job.phaseForLookahead_ne_scanning r

/-- A step other than a scan keeps the lookahead and what the stack spells, or puts the lookahead
on the stack and scans behind it. -/
theorem Reachable.spells (hl : job.grammar = l.grammar) (h : job.Reachable r)
    (hq : r.phase ≠ .scanning) :
    (job.step r).phase ≠ .scanning ∧ (job.step r).lookahead = r.lookahead ∧
        spelled (job.step r).stack.nodes = spelled r.stack.nodes ∨
      (job.step r).phase = .scanning ∧ r.lookahead.symbol ≠ Symbol.endOfInput ∧
        (job.step r).position = r.lookahead.span.stop ∧
        spelled (job.step r).stack.nodes = spelled r.stack.nodes ++ [r.lookahead] := by
  have hmade := h.made hl
  have hlex := h.lexed hl
  have hs := h.steps
  revert hs
  generalize job.step r = r'
  intro hs
  cases hs with
  | scanned hp => exact absurd hp hq
  | shifted _ _ he =>
    refine .inr ⟨rfl, he, rfl, ?_⟩
    simp only [Stack.nodes_shift, spelled_append, spelled_leaf_of_lexed hlex he]
  | shiftedEnd => exact .inl ⟨by simp, rfl, rfl⟩
  | reduced _ _ _ _ _ =>
    exact .inl ⟨job.phaseForLookahead_ne_scanning _, rfl, hmade.spelled_reduced⟩
  | recovered hp hr =>
    have hlook := hr.lookahead
    cases hr with
    | supplied _ _ _ hr =>
      refine .inl ⟨job.phaseForLookahead_ne_scanning _, hlook, ?_⟩
      rw [spelled_supplied, hmade.spelled_replays hr]
    | wrapped _ _ hs => exact .inl ⟨job.phaseForLookahead_ne_scanning _, rfl, spelled_wrapped hs⟩
    | gaveUp => exact .inl ⟨by simp, rfl, rfl⟩
    | skipped _ he =>
      have hsk := h.skips hp
      exact .inr ⟨hsk.scanning.1, he, hsk.scanning.2, hsk.spelled (spelled_leaf_of_lexed hlex he)⟩
  | ended => exact .inl ⟨hq, rfl, rfl⟩

/-! ## What the lexer has returned -/

/-- The tokens of a record, oldest first. -/
def tokensOf (seen : List Lexeme) : List Token := seen.reverse.filterMap Lexeme.token?

theorem tokensOf_cons (lexeme : Lexeme) (seen : List Lexeme) :
    tokensOf (lexeme :: seen) = tokensOf seen ++ lexeme.token?.toList := by
  rw [tokensOf, List.reverse_cons, List.filterMap_append, tokensOf]
  cases lexeme <;> rfl

/-- Up to `stop` every byte outside these tokens separates tokens. -/
def Separated (job : Job) (stop : Nat) (tokens : List Token) : Prop :=
  ∀ i < stop, (∀ t ∈ tokens, ¬(t.span.start ≤ i ∧ i < t.span.stop)) →
    job.grammar.SeparatorAt job.text i

theorem Separated.snoc {tokens : List Token} {token : Token} {lexeme : Lexeme}
    (hn : job.nextLexeme r = lexeme) (ht : lexeme.token? = some token)
    (h : job.Separated r.position tokens) : job.Separated token.span.stop (tokens ++ [token]) := by
  intro i hi ho
  obtain ⟨ho, hlast⟩ := List.forall_mem_append.mp ho
  have hout := List.forall_mem_singleton.mp hlast
  by_cases hpos : i < r.position
  · exact h i hpos ho
  · exact Grammar.separatorAt_before hn ht (by omega) (by omega)

theorem Separated.ended {tokens : List Token} (hn : job.nextLexeme r = .endOfText)
    (h : job.Separated r.position tokens) : job.Separated job.text.size tokens := by
  intro i hi ho
  by_cases hpos : i < r.position
  · exact h i hpos ho
  · exact Grammar.separatorAt_end hn (by omega) hi

/-- While scanning, the stack is what the lexer has returned. -/
structure Stacked (job : Job) (seen : List Lexeme) (r : Run) : Prop where
  tokens : tokensOf seen = spelled r.stack.nodes
  separated : job.Separated r.position (tokensOf seen)

theorem Stacked.pushExtra {n : Node} {token : Token} {lexeme : Lexeme}
    (hn : job.nextLexeme r = lexeme) (ht : lexeme.token? = some token)
    (hs : spelled [n] = [token]) (hspan : n.span = token.span) (h : job.Stacked seen r) :
    job.Stacked (lexeme :: seen) (r.pushExtra n) := by
  have htokens : tokensOf (lexeme :: seen) = tokensOf seen ++ [token] := by
    rw [tokensOf_cons, ht, Option.toList_some]
  constructor
  · rw [htokens, h.tokens, Run.pushExtra, spelled_pushExtra, hs]
  · rw [htokens]
    change job.Separated n.span.stop _
    rw [hspan]
    exact h.separated.snoc hn ht

/-- The lookahead, if it has been scanned and is not the end. -/
def pending (r : Run) : List Token :=
  if r.phase = .scanning ∨ r.lookahead.symbol = Symbol.endOfInput then [] else [r.lookahead]

/-- How far the lexer has come. -/
def front (job : Job) (r : Run) : Nat :=
  if r.phase = .scanning then r.position
  else if r.lookahead.symbol = Symbol.endOfInput then job.text.size
  else r.lookahead.span.stop

/-- Only a scan brings the lexer further. -/
theorem Reachable.front_step (hl : job.grammar = l.grammar) (h : job.Reachable r)
    (hq : r.phase ≠ .scanning) : job.front (job.step r) = job.front r := by
  obtain ⟨hp, hlook, _⟩ | ⟨hp, he, hpos, _⟩ := h.spells hl hq
  · rw [front, front, if_neg hq, if_neg hp, hlook]
  · rw [front, front, if_neg hq, if_pos hp, if_neg he, hpos]

/-- The stack and the pending lookahead are what the lexer has returned. -/
structure Covers (job : Job) (seen : List Lexeme) (r : Run) : Prop where
  tokens : tokensOf seen = spelled r.stack.nodes ++ pending r
  separated : job.Separated (job.front r) (tokensOf seen)

theorem covers_iff_stacked (h : r.phase = .scanning) :
    job.Covers seen r ↔ job.Stacked seen r := by
  have hpending : pending r = [] := if_pos (.inl h)
  have hfront : job.front r = r.position := if_pos h
  constructor
  · intro hc
    exact ⟨by rw [hc.tokens, hpending, List.append_nil], hfront ▸ hc.separated⟩
  · intro hs
    exact ⟨by rw [hs.tokens, hpending, List.append_nil], hfront ▸ hs.separated⟩

/-- A scan stacks extras and unlexable runs and leaves the lookahead pending. -/
theorem Stacked.scanned (hl : job.grammar = l.grammar) (hp : r.phase = .scanning)
    (h : job.Stacked seen r) : job.Covers (job.recordStep seen r).1 (job.recordStep seen r).2 := by
  have extra (seen : List Lexeme) (r : Run) (token : Token) (hn : job.nextLexeme r = .token token)
      (h : job.Stacked seen r) :
      job.Stacked (.token token :: seen) (r.pushExtra (job.leaf token)) :=
    h.pushExtra hn rfl (spelled_leaf _ _ (lexed_of_nextLexeme hl hn).2) rfl
  have unlexable (seen : List Lexeme) (r : Run) (span : Span)
      (hn : job.nextLexeme r = .unlexable span) (h : job.Stacked seen r) :
      job.Stacked (.unlexable span :: seen) ((r.report
        (.unrecognized (job.text.slice span) span)).pushExtra (Node.error span [])) := by
    have hs : spelled [Node.error span []] = [⟨Symbol.error, span⟩] := by
      have hb := Grammar.unlexable_bounds hn
      simp [spelled, leaves, walkPending, Node.error, hb.2.1]
    exact Stacked.pushExtra (r := r.report _) hn rfl hs rfl ⟨h.tokens, h.separated⟩
  obtain ⟨seen', r', hr, ⟨hn, hs⟩ | ⟨token, hn, hs⟩⟩ := recordScan_cases extra unlexable h
  · simp only [recordStep, hp, hs]
    have htokens : tokensOf (.endOfText :: seen') = tokensOf seen' := by
      rw [tokensOf_cons]
      exact List.append_nil _
    constructor
    · rw [htokens, hr.tokens, pending, if_pos (.inr rfl), List.append_nil]
    · rw [htokens, front, if_neg (job.dispatch_ne_scanning _), if_pos rfl]
      exact hr.separated.ended hn
  · have he : token.symbol ≠ Symbol.endOfInput := by
      have ht := (lexed_of_nextLexeme hl hn).1
      simpa using (Bool.and_eq_true_iff.mp ht).1
    have hd := job.dispatch_ne_scanning { r' with lookahead := token }
    simp only [recordStep, hp, hs]
    constructor
    · rw [tokensOf_cons, hr.tokens, pending, if_neg (not_or.mpr ⟨hd, he⟩)]
      rfl
    · rw [tokensOf_cons, front, if_neg hd, if_neg he]
      exact hr.separated.snoc hn rfl

theorem Recorded.covers (hl : job.grammar = l.grammar) (h : job.Recorded seen r) :
    job.Covers seen r := by
  induction h with
  | initial =>
    refine (covers_iff_stacked rfl).mpr ⟨spelled_nil.symm, ?_⟩
    exact fun i hi => absurd hi (Nat.not_lt_zero i)
  | @step seen r h ih =>
    by_cases hp : r.phase = .scanning
    · rw [← recordStep_snd job seen]
      exact ((covers_iff_stacked hp).mp ih).scanned hl hp
    · rw [recordStep_fst hp]
      refine ⟨?_, h.reachable.front_step hl hp ▸ ih.separated⟩
      obtain ⟨hp', hlook, hs⟩ | ⟨hp', he, _, hs⟩ := h.reachable.spells hl hp
      · have hpending : pending (job.step r) = pending r := by simp only [pending, hp, hp', hlook]
        rw [hs, hpending, ih.tokens]
      · have hpending : pending r = [r.lookahead] := if_neg (not_or.mpr ⟨hp, he⟩)
        have hscanning : pending (job.step r) = [] := if_pos (.inl hp')
        rw [hs, hscanning, ih.tokens, hpending, List.append_nil]

/-! ## The tree -/

/-- A parse gives up at the end only. -/
theorem Reachable.lookahead_of_gaveUp (h : job.Reachable r) (hp : r.phase = .gaveUp) :
    r.lookahead.symbol = Symbol.endOfInput := by
  induction h with
  | initial => cases hp
  | @step r h ih =>
    have hs := h.steps
    revert hs hp
    generalize job.step r = r'
    intro hp hs
    cases hs with
    | scanned => exact absurd hp (job.dispatch_ne_gaveUp _)
    | shifted => cases hp
    | shiftedEnd _ _ he => exact he
    | reduced => exact absurd hp (job.phaseForLookahead_ne_gaveUp _)
    | recovered hq hr =>
      cases hr with
      | supplied | wrapped => exact absurd hp (job.phaseForLookahead_ne_gaveUp _)
      | gaveUp _ he => exact he
      | skipped =>
        have hsk := (h.skips hq).scanning.1
        rw [hp] at hsk
        cases hsk
    | ended => exact ih hp

/-- Where only the end can be accepted, a parse ends at the end. -/
theorem lookahead_finish (hl : job.grammar = l.grammar) (haccept : l.table.AcceptsOnlyEnd) :
    job.finish.lookahead.symbol = Symbol.endOfInput := by
  have hr := job.finish_reachable
  have hfin := job.finish_final
  cases hp : job.finish.phase with
  | accepting =>
    have ha := hr.steady.accepting hp
    rw [currentAction?, table, hl] at ha
    obtain ⟨st, hst, hm⟩ := (GrammarTable.action?_iff l.table_fault).mp ha
    exact haccept st (Array.mem_toList_iff.mpr (Array.mem_of_getElem? hst)) _ hm rfl
  | gaveUp => exact hr.lookahead_of_gaveUp hp
  | scanning | shifting | reducing | recovering =>
    rw [hp] at hfin
    cases hfin

theorem front_finish (job : Job) (h : job.finish.lookahead.symbol = Symbol.endOfInput) :
    job.front job.finish = job.text.size := by
  have hfin := job.finish_final
  have hp : job.finish.phase ≠ .scanning := by
    intro hp
    rw [hp] at hfin
    cases hfin
  rw [front, if_neg hp, if_pos h]

/-- The children of the root spell what the stack does, unless a token is made the root. -/
theorem spelled_assembleRoot (job : Job) (phase : Phase) {nodes : List Node}
    (hmade : ∀ n ∈ nodes, n.extra = false → job.table.Makes n)
    (hroot : job.table.isTerminal (job.assembleRoot phase nodes).symbol = false) :
    spelled (job.assembleRoot phase nodes).children = spelled nodes := by
  unfold assembleRoot at hroot ⊢
  simp only at hroot ⊢
  split
  · rename_i hp
    rw [if_pos hp] at hroot
    split
    · rename_i root trailing hd
      rw [hd] at hroot
      obtain ⟨hx, hsplit⟩ := Stack.root_of_dropWhile hd
      have hmem : root ∈ nodes := by
        rw [hsplit]
        simp
      have hfilled := (hmade root hmem hx).filled hroot
      conv_rhs => rw [hsplit, spelled_append, spelled_cons, hfilled.spelled]
      simp only [spelled_append, List.append_assoc]
    · rfl
  · rfl

end Job

/-- The childless nodes other than the root, in the order of a walk. -/
def SyntaxTree.childless (t : SyntaxTree) : List Node := t.walk.tail.filter (·.children.isEmpty)

namespace Parser

open Node

/-- The childless nodes lie in order. Those with bytes are what the lexer has returned, each lexeme
once and in its turn, and every byte outside them separates tokens. -/
structure Lossless (p : Parser) (text : Text) : Prop where
  forward : ∀ n ∈ (p.parse text).childless, n.span.start ≤ n.span.stop
  disjoint : (p.parse text).childless.Pairwise fun a b => a.span.stop ≤ b.span.start
  lexemes : ((p.parse text).childless.filter fun n => n.span.start < n.span.stop).map
      (fun n => (⟨n.symbol, n.span⟩ : Token)) = (p.lexemes text).filterMap Lexeme.token?
  separated : ∀ i < text.size,
    (∀ n ∈ (p.parse text).childless, ¬(n.span.start ≤ i ∧ i < n.span.stop)) →
      p.language.grammar.SeparatorAt text i

theorem childless_eq (p : Parser) (text : Text) :
    (p.parse text).childless = leaves (p.parse text).root.children := by
  rw [SyntaxTree.childless, SyntaxTree.walk, walk_eq, List.tail_cons, leaves]

theorem spelled_root (p : Parser) (text : Text) (haccept : p.language.table.AcceptsOnlyEnd)
    (hroot : p.language.table.isTerminal (p.parse text).root.symbol = false) :
    spelled (p.parse text).root.children = (p.lexemes text).filterMap Lexeme.token? := by
  have htokens := ((p.recorded_finish text).covers (l := p.language) rfl).tokens
  have hend := (p.job text).lookahead_finish (l := p.language) rfl haccept
  have hmade := (p.job text).finish_reachable.made (l := p.language) rfl
  rw [Job.tokensOf, List.reverse_reverse, Job.pending, if_pos (.inr hend), List.append_nil]
    at htokens
  rw [htokens]
  exact (p.job text).spelled_assembleRoot _ hmade hroot

theorem lossless (p : Parser) (text : Text) (haccept : p.language.table.AcceptsOnlyEnd)
    (hroot : p.language.table.isTerminal (p.parse text).root.symbol = false) : p.Lossless text := by
  have hleaves := p.childless_eq text
  have hspelled := p.spelled_root text haccept hroot
  have hbetween := between_leaves (nested_iff.mp (p.parse_root_nested text).2)
  rw [← hleaves] at hbetween
  constructor
  · intro n hn
    exact (hbetween.bounds hn).2.1
  · exact hbetween.pairwise
  · rw [← hspelled, hleaves, spelled]
  · intro i hi hout
    have hsep := ((p.recorded_finish text).covers (l := p.language) rfl).separated
    have hend := (p.job text).lookahead_finish (l := p.language) rfl haccept
    rw [Job.tokensOf, List.reverse_reverse, ← hspelled, (p.job text).front_finish hend] at hsep
    refine hsep i hi fun t ht => ?_
    obtain ⟨n, hn, rfl⟩ := List.mem_map.mp ht
    rw [← hleaves] at hn
    exact hout n (List.mem_of_mem_filter hn)

end Parser

end TableParsing
