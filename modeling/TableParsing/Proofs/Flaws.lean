import Mathlib.Data.List.FinRange
import Mathlib.Data.List.NodupEquivFin
import Mathlib.Data.List.Perm.Basic
import TableParsing.Proofs.StackNodes

/-!
# Errors and error nodes

The errors that a parse reports and the errors and supplied tokens of its tree correspond one to one,
in kind and span. On the way the reports are those of the nodes on the stack in some order; only when
the parse gives up, one more is made, for the root.
-/
namespace TableParsing

namespace Node

variable {m n : Node} {ms ns : List Node}

/-- What a node is an error of. Below the root an error without nodes of its own is unlexable. -/
def flawKind? (isRoot : Bool) (n : Node) : Option SyntaxErrorKind :=
  if n.isError then some (if n.children.isEmpty && !isRoot then .lexical else .syntactic)
  else if n.missing then some .missing
  else none

/-- The flaw of a node below the root, with its place. -/
def flaw? (n : Node) : Option (SyntaxErrorKind × Span) :=
  (n.flawKind? false).map fun kind => (kind, n.span)

/-- The flaws among these nodes and below them, in the order of a walk. -/
def flaws (ns : List Node) : List (SyntaxErrorKind × Span) := (walkPending ns).filterMap flaw?

theorem flaws_nil : flaws [] = [] := gather_nil flaw?

theorem flaws_append (ms ns : List Node) : flaws (ms ++ ns) = flaws ms ++ flaws ns :=
  gather_append flaw? ms ns

theorem flaws_singleton (n : Node) : flaws [n] = n.flaw?.toList ++ flaws n.children :=
  gather_singleton flaw? n

theorem flaws_cons (n : Node) (ns : List Node) :
    flaws (n :: ns) = n.flaw?.toList ++ flaws n.children ++ flaws ns := by
  rw [← flaws_singleton, ← flaws_append, List.singleton_append]

theorem flaw?_of_sound (hs : n.symbol ≠ Symbol.error) (hm : n.missing = false) : n.flaw? = none := by
  simp [flaw?, flawKind?, isError, hs, hm]

theorem flaw?_of_missing (hs : n.symbol ≠ Symbol.error) (hm : n.missing = true) :
    n.flaw? = some (.missing, n.span) := by
  simp [flaw?, flawKind?, isError, hs, hm]

theorem flaw?_of_error (he : n.isError = true) (hc : n.children ≠ []) :
    n.flaw? = some (.syntactic, n.span) := by
  simp [flaw?, flawKind?, he, hc]

theorem flaw?_congr (hs : m.symbol = n.symbol) (hp : m.span = n.span) (hc : m.children = n.children)
    (hm : m.missing = n.missing) : m.flaw? = n.flaw? := by
  unfold flaw? flawKind? isError
  rw [hs, hp, hc, hm]

theorem flaws_congr (hs : m.symbol = n.symbol) (hp : m.span = n.span) (hc : m.children = n.children)
    (hm : m.missing = n.missing) : flaws [m] = flaws [n] :=
  gather_congr (flaw?_congr hs hp hc hm) hc

end Node

open Node

namespace GrammarTable

variable (t : GrammarTable) (p : Production)

/-- Children have the flaws of the nodes that they are made of. -/
theorem flaws_collectChildren (index : Nat) {ns : List Node}
    (h : ∀ n ∈ ns, n.extra = false → t.isHiddenRule n.symbol = true → n.missing = false) :
    flaws (t.collectChildren p index ns) = flaws ns := by
  apply t.gather_collectChildren p fun _ _ _ => rfl
  intro n hn hx he hh
  exact flaw?_of_sound (by simpa [isError] using he) (h n hn hx hh)

/-- Only terminals are supplied. -/
theorem Makes.missing {t : GrammarTable} {n : Node} (h : t.Makes n)
    (hs : t.isHiddenRule n.symbol = true) : n.missing = false := by
  cases h with
  | token | parent => rfl
  | supplied ht =>
    have hf := isTerminal_of_isHiddenRule hs
    exact absurd (ht.symm.trans hf) (by decide)

theorem ne_error_of_isTerminal {t : GrammarTable} (hf : t.fault? = none) {s : Symbol}
    (h : t.isTerminal s = true) : s ≠ Symbol.error := by
  rcases (Option.any_eq_true _ _).mp h with ⟨m, hm, _⟩
  exact ne_error_of_metadata hf hm

theorem Makes.ne_error {t : GrammarTable} (hf : t.fault? = none) {n : Node} (h : t.Makes n) :
    n.symbol ≠ Symbol.error := by
  cases h with
  | token ht | supplied ht => exact ne_error_of_isTerminal hf ht
  | parent hp _ => exact lhs_ne_error hf hp

end GrammarTable

namespace Job

variable {job : Job} {r r' last : Run} {s : Symbol} {p : Production} {state : StateId} {k : Nat}
  {l : Language}

/-- Kind and place of an error. -/
def place (e : SyntaxError) : SyntaxErrorKind × Span := (e.kind, e.span)

/-- The errors reported are those of the nodes on the stack. -/
def Balanced (r : Run) : Prop := (r.errors.map place).Perm (flaws r.stack.nodes)

theorem flaws_pushExtra (stack : Stack) (n : Node) :
    flaws (stack.pushExtra n).nodes = flaws stack.nodes ++ flaws [n] := by
  have hn : flaws [{ n with extra := true }] = flaws [n] := flaws_congr rfl rfl rfl rfl
  rw [Stack.nodes_pushExtra, flaws_append, hn]

theorem flaws_leaf {token : Token} (h : token.symbol ≠ Symbol.error) : flaws [job.leaf token] = [] := by
  rw [flaws_singleton, flaw?_of_sound h rfl]
  exact flaws_nil

theorem ne_error_of_lexed (hl : job.grammar = l.grammar) {token : Token} (h : job.Lexed token)
    (he : token.symbol ≠ Symbol.endOfInput) : token.symbol ≠ Symbol.error := by
  have ht := (h he).1
  rw [table, hl] at ht
  exact GrammarTable.ne_error_of_isToken l.table_fault ht

/-- A report on a node that is put on the stack. -/
theorem Balanced.push {errs : List SyntaxError} {err : SyntaxError} {ns : List Node} {n : Node}
    (h : (errs.map place).Perm (flaws ns)) (hn : flaws [n] = [place err]) :
    ((err :: errs).map place).Perm (flaws (ns ++ [n])) := by
  rw [flaws_append, hn, List.map_cons]
  exact (h.cons _).trans (List.perm_append_singleton _ _).symm

theorem Balanced.scan (hl : job.grammar = l.grammar) (h : Balanced r) : Balanced (job.scan r) := by
  have extra (r : Run) (token : Token) (hn : job.nextLexeme r = .token token)
      (_ : job.table.isExtra token.symbol = true) (h : Balanced r) :
      Balanced (r.pushExtra (job.leaf token)) := by
    have he : token.symbol ≠ Symbol.error := by
      rw [nextLexeme, hl] at hn
      exact Language.lexemeAt_ne_error hn
    rw [Balanced, Run.pushExtra, flaws_pushExtra, flaws_leaf he, List.append_nil]
    exact h
  have unlexable (r : Run) (span : Span) (_ : job.nextLexeme r = .unlexable span)
      (h : Balanced r) : Balanced ((r.report
        (.unrecognized (job.text.slice span) span)).pushExtra (Node.error span [])) := by
    have hn : flaws [Node.error span []] = [(.lexical, span)] := by
      rw [flaws_singleton]
      exact congrArg _ flaws_nil
    rw [Balanced, Run.pushExtra, Stack.nodes_pushExtra]
    exact Balanced.push h hn
  rcases job.scan_cases extra unlexable h with ⟨r', hr, ⟨_, hs⟩ | ⟨_, _, _, hs⟩⟩
  all_goals
    rw [hs]
    exact hr

theorem flaws_parent (hl : job.grammar = l.grammar) {id : ProductionId}
    (hp : job.table.production? id = some p) (h : job.Made r) :
    flaws [job.parent r p] = flaws (r.taken p) := by
  have hlhs : p.lhs ≠ Symbol.error := by
    rw [table, hl] at hp
    exact GrammarTable.lhs_ne_error l.table_fault hp
  rw [flaws_singleton, flaw?_of_sound hlhs rfl]
  apply GrammarTable.flaws_collectChildren
  intro n hn hx hh
  refine (h n ?_ hx).missing hh
  rw [← nodes_taken r p]
  exact List.mem_append_left _ (List.mem_append_right _ hn)

theorem Balanced.reduced (hl : job.grammar = l.grammar) {id : ProductionId}
    (hp : job.table.production? id = some p) (hm : job.Made r) (h : Balanced r) :
    Balanced (job.reduced r p state) := by
  rw [Balanced, ← nodes_taken r p, flaws_append, flaws_append] at h
  rw [Balanced, nodes_reduced, flaws_append, flaws_append, flaws_parent hl hp hm]
  exact h

theorem Balanced.replays (hl : job.grammar = l.grammar) (hr : job.Replays s k r last)
    (hm : job.Made r) (h : Balanced r) : Balanced last := by
  induction hr with
  | nil => exact h
  | cons _ hprod _ _ ih => exact ih (hm.reduced hprod) (h.reduced hl hprod hm)

theorem Balanced.supplied {next : StateId} (hs : s ≠ Symbol.error) (h : Balanced r) :
    Balanced (job.supplied r s next) := by
  have hn : flaws [Node.supplied s r.lastEnd (job.table.isNamed s)] =
      [place (.absent (job.table.displayName s) r.lastEnd)] := by
    rw [flaws_singleton, flaw?_of_missing hs rfl]
    exact congrArg _ flaws_nil
  simp only [Balanced, Job.supplied, Run.report, Stack.nodes_shift]
  exact Balanced.push h hn

theorem Balanced.wrapped {removed : List Entry} {rest : Stack} {q : List StateId → Bool}
    (hsp : Stack.splitWhere q [] r.stack = some (removed, rest)) (h : Balanced r) :
    Balanced (job.wrapped r removed rest) := by
  rcases Stack.nodes_of_splitWhere hsp with ⟨hne, hnodes⟩
  rw [Balanced, hnodes, flaws_append] at h
  simp only [Balanced, Job.wrapped, Run.report, flaws_pushExtra, List.map_cons]
  rw [flaws_singleton, flaw?_of_error rfl (by simpa [Node.error] using hne)]
  exact (h.cons _).trans List.perm_middle.symm

/-- Growing an error changes its span in the tree and in the report. -/
theorem Balanced.skips (hs : job.Skips r r') (hl : r.lookahead.symbol ≠ Symbol.error)
    (h : Balanced r) : Balanced r' := by
  have hleaf : flaws [job.leaf r.lookahead] = [] := flaws_leaf hl
  cases hs with
  | @grown e rest err errs hstack herr ho =>
    have hplace : place err = (.syntactic, e.node.span) := by rw [place, ho.kind, ho.span]
    have hold : flaws [e.node] = (.syntactic, e.node.span) :: flaws e.node.children := by
      rw [flaws_singleton, flaw?_of_error ho.isError ho.children]
      rfl
    rw [Balanced, herr, hstack, Stack.nodes_cons, flaws_append, hold, List.map_cons, hplace] at h
    have hrest := (h.trans List.perm_middle).cons_inv
    have hnew : flaws [job.grownNode r e.node] =
        (.syntactic, (job.grownNode r e.node).span) :: flaws e.node.children := by
      have hc : (job.grownNode r e.node).children = e.node.children ++ [job.leaf r.lookahead] := rfl
      rw [flaws_singleton, flaw?_of_error (n := job.grownNode r e.node) ho.isError (by simp [hc]),
        hc, flaws_append, hleaf, List.append_nil]
      rfl
    simp only [Balanced, Job.grown, Stack.nodes_cons, flaws_append, List.map_cons, hnew]
    rw [place, ho.kind, ho.span]
    exact (hrest.cons _).trans List.perm_middle.symm
  | opened =>
    have hn : flaws [Node.error r.lookahead.span [job.leaf r.lookahead]] =
        [(.syntactic, r.lookahead.span)] := by
      rw [flaws_singleton, flaw?_of_error rfl (List.cons_ne_nil _ _)]
      exact congrArg _ hleaf
    simp only [Balanced, Job.opened, Stack.nodes_pushExtra]
    exact Balanced.push h hn

/-- While a parse goes on, its reports are those of the stack; when it gives up, the newest is that of
the root. -/
inductive Matched (r : Run) : Prop
  | going : r.phase ≠ .gaveUp → Balanced r → Matched r
  | gaveUp {err : SyntaxError} {errs : List SyntaxError} : r.phase = .gaveUp →
      r.errors = err :: errs → err.kind = .syntactic →
      (errs.map place).Perm (flaws r.stack.nodes) → Matched r

theorem Matched.balanced (h : Matched r) (hp : r.phase ≠ .gaveUp) : Balanced r := by
  cases h with
  | going _ h => exact h
  | gaveUp hg => exact absurd hg hp

theorem Recovers.matched (hl : job.grammar = l.grammar) (hr : job.Recovers r r')
    (hlex : job.Lexed r.lookahead) (hmade : job.Made r) (hm : r.mergeSkips = true → OnOpen r)
    (h : Balanced r) : Matched r' := by
  cases hr with
  | supplied _ _ ha hr =>
    have ht := isTerminal_of_actionOn hl ha.settled.1
    have he := GrammarTable.ne_error_of_isTerminal (table_fault hl) ht
    exact .going (job.phaseForLookahead_ne_gaveUp _) ((h.replays hl hr hmade).supplied he)
  | wrapped _ _ hs => exact .going (job.phaseForLookahead_ne_gaveUp _) (h.wrapped hs)
  | gaveUp => exact .gaveUp rfl rfl rfl h
  | skipped _ he =>
    have hsk : job.Skips r (job.skipLookahead r) := skips hm
    exact .going (by simp [hsk.scanning.1]) (h.skips hsk (ne_error_of_lexed hl hlex he))

theorem Steps.matched (hl : job.grammar = l.grammar) (hs : job.Steps r r')
    (hlex : job.Lexed r.lookahead) (hmade : job.Made r) (hm : Merges r) (h : Matched r) :
    Matched r' := by
  cases hs with
  | scanned hp =>
    have hb := (h.balanced (by simp [hp])).scan hl
    exact .going (job.dispatch_ne_gaveUp _) hb
  | shifted hp _ he =>
    have hb := h.balanced (by simp [hp])
    refine .going (by simp) ?_
    simp only [Balanced, Run.advance, Stack.nodes_shift, flaws_append]
    rw [flaws_leaf (ne_error_of_lexed hl hlex he), List.append_nil]
    exact hb
  | shiftedEnd hp => exact .gaveUp rfl rfl rfl (h.balanced (by simp [hp]))
  | reduced hp _ hprod =>
    have hb := h.balanced (by simp [hp])
    exact .going (job.phaseForLookahead_ne_gaveUp _) (hb.reduced hl hprod hmade)
  | recovered hp hr =>
    exact hr.matched hl hlex hmade (hm (by simp [hp])) (h.balanced (by simp [hp]))
  | ended => exact h

theorem Reachable.matched (hl : job.grammar = l.grammar) (h : job.Reachable r) : Matched r := by
  induction h with
  | initial =>
    refine .going (by simp [Run.initial]) ?_
    simp [Balanced, Run.initial, Stack.nodes, flaws_nil]
  | step h ih => exact h.steps.matched hl (h.lexed hl) (h.made hl) h.merges ih

/-! ## The tree -/

/-- On a stack without a real node nothing was accepted, unless the start state accepts. -/
theorem Reachable.exists_root (h : job.Reachable r) (hp : r.phase = .accepting)
    (hstart : ∀ s, job.table.action? startState s ≠ some .accept) :
    ∃ root trailing, r.stack.nodes.dropWhile (·.extra) = root :: trailing := by
  rcases hd : r.stack.nodes.dropWhile (·.extra) with _ | ⟨root, trailing⟩
  · have hall := List.dropWhile_eq_nil_iff.mp hd
    have hpath := Stack.path_of_extras hall
    have ha := h.steady.accepting hp
    rw [currentAction?_eq _ h.steady.coherent, hpath] at ha
    exact absurd ha (hstart _)
  · exact ⟨root, trailing, hd⟩

/-- The reports are those of the nodes below the root and of the root, whose own may lie anywhere. -/
theorem perm_assembleRoot (hl : job.grammar = l.grammar)
    (hstart : ∀ s, job.table.action? startState s ≠ some .accept) :
    let root := job.assembleRoot job.finish.phase job.finish.stack.nodes
    ∃ span, (job.finish.errors.map place).Perm
      (((root.flawKind? true).map fun kind => (kind, span)).toList ++ flaws root.children) := by
  have hr := job.finish_reachable
  have hm := hr.matched hl
  have hfin := job.finish_final
  cases hp : job.finish.phase with
  | accepting =>
    rcases hr.exists_root hp hstart with ⟨root, trailing, hd⟩
    rcases Stack.root_of_dropWhile hd with ⟨hx, hsplit⟩
    have hb := hm.balanced (by simp [hp])
    have hmem : root ∈ job.finish.stack.nodes := by
      rw [hsplit]
      simp
    have hsound := (hr.made hl root hmem hx).ne_error (table_fault hl)
    have hflaw (span : Span) (children : List Node) :
        ((flawKind? true { root with span := span, children := children }).map
          fun kind => (kind, root.span)) = root.flaw? := by
      simp [flaw?, flawKind?, isError, hsound]
    refine ⟨root.span, ?_⟩
    rw [Balanced, hsplit, flaws_append, flaws_cons] at hb
    simp only [assembleRoot, ite_true, hd, hflaw, flaws_append]
    simp only [List.append_assoc] at hb ⊢
    exact hb.trans (List.perm_append_comm_assoc _ _ _)
  | gaveUp =>
    cases hm with
    | going hg => exact absurd hp hg
    | @gaveUp err errs _ herr hkind hperm =>
      have hroot : flawKind? true (Node.branch Symbol.error ⟨0, job.text.size⟩ true
          job.finish.stack.nodes) = some .syntactic := by
        simp [flawKind?, isError, branch]
      refine ⟨err.span, ?_⟩
      rw [herr, List.map_cons, place, hkind]
      simp only [assembleRoot, reduceCtorEq, ite_false, hroot]
      exact hperm.cons _
  | scanning | shifting | reducing | recovering =>
    rw [hp] at hfin
    cases hfin

end Job

/-! ## One to one -/

/-- Lists with the same images, the second without duplicates, match one to one. -/
theorem exists_equiv_of_perm {α β γ : Type} [DecidableEq β] {as : List α} {bs : List β}
    {f : α → γ} {g : β → γ} (hb : bs.Nodup) (h : (as.map f).Perm (bs.map g)) :
    ∃ e : Fin as.length ≃ {b // b ∈ bs}, ∀ k, f as[k] = g (e k) := by
  have hcomp := congrFun (congrFun (List.eq_map_comp_perm g) (as.map f)) bs
  rcases hcomp.mpr h with ⟨cs, hcs, hperm⟩
  have hlength : as.length = cs.length := by
    simpa using congrArg List.length hcs
  have hnodup : cs.Nodup := hperm.nodup_iff.mpr hb
  refine ⟨(finCongr hlength).trans ((hnodup.getEquiv cs).trans
    (Equiv.subtypeEquivRight fun b => hperm.mem_iff)), fun k => ?_⟩
  have hlt : k.val < cs.length := hlength ▸ k.isLt
  have hk : (as.map f)[k.val]? = (cs.map g)[k.val]? := by rw [hcs]
  rw [List.getElem?_map, List.getElem?_map, List.getElem?_eq_getElem k.isLt,
    List.getElem?_eq_getElem hlt] at hk
  exact Option.some.inj hk

namespace Node

variable {n : Node}

/-- An error or a supplied token. -/
def isFlawed (n : Node) : Bool := n.isError || n.missing

theorem flawKind?_isSome (isRoot : Bool) (n : Node) : (n.flawKind? isRoot).isSome = n.isFlawed := by
  unfold flawKind? isFlawed
  split
  · rename_i he
    simp [he]
  · rename_i he
    split <;> simp_all

theorem map_filter_isFlawed (ns : List Node) :
    (ns.filter (·.isFlawed)).map (fun n => (n.flawKind? false, n.span)) =
      (ns.filterMap flaw?).map fun flaw => (some flaw.1, flaw.2) := by
  induction ns with
  | nil => rfl
  | cons n ns ih =>
    rw [List.filter_cons, List.filterMap_cons, ← flawKind?_isSome false, flaw?]
    cases hk : n.flawKind? false with
    | none => exact ih
    | some kind => simp [hk, ih]

/-- The places of the flawed nodes in a list. -/
def flawedAt (ns : List Node) : List (Fin ns.length) :=
  (List.finRange ns.length).filter fun i => ns[i].isFlawed

theorem mem_flawedAt {ns : List Node} {i : Fin ns.length} :
    i ∈ flawedAt ns ↔ ns[i].isFlawed = true := by
  simp [flawedAt]

theorem flawedAt_nodup (ns : List Node) : (flawedAt ns).Nodup :=
  (List.nodup_finRange _).filter _

theorem map_flawedAt {β : Type} (ns : List Node) (g : Node → β) :
    (flawedAt ns).map (fun i => g ns[i]) = (ns.filter (·.isFlawed)).map g := by
  conv_rhs => rw [← List.map_get_finRange ns]
  rw [List.filter_map, List.map_map]
  rfl

theorem flawedAt_cons (n : Node) (ns : List Node) : flawedAt (n :: ns) =
    (if n.isFlawed then [0] else []) ++ (flawedAt ns).map Fin.succ := by
  have hhead : (n :: ns)[(0 : Fin (ns.length + 1))] = n := rfl
  simp only [flawedAt, List.length_cons, List.finRange_succ, List.filter_cons, List.filter_map, hhead]
  by_cases hn : n.isFlawed = true
  · rw [if_pos hn, if_pos hn]
    rfl
  · rw [if_neg hn, if_neg hn]
    rfl

theorem map_flawedAt_cons (n : Node) (ns : List Node) (span : Span) :
    (flawedAt (n :: ns)).map (fun i => ((n :: ns)[i].flawKind? (i.val == 0),
        if i.val = 0 then span else (n :: ns)[i].span)) =
      ((n.flawKind? true).map fun kind => (some kind, span)).toList ++
        (ns.filterMap flaw?).map fun flaw => (some flaw.1, flaw.2) := by
  rw [flawedAt_cons, List.map_append, List.map_map, ← map_filter_isFlawed, ← map_flawedAt]
  congr 1
  rw [← flawKind?_isSome true]
  cases hk : n.flawKind? true with
  | none => rfl
  | some kind => simp [hk]

/-- The errors of a tree match the flawed nodes of its walk, if they do so in kind and place, except
for the place of the root. -/
theorem exists_match {errors : List SyntaxError} {root : Node} {walk : List Node} {span : Span}
    (hw : walk = root :: walkPending root.children)
    (h : (errors.map Job.place).Perm
      (((root.flawKind? true).map fun kind => (kind, span)).toList ++ flaws root.children)) :
    ∃ f : Fin errors.length ≃ {i : Fin walk.length // walk[i].isFlawed = true}, ∀ k,
      walk[(f k).val].flawKind? ((f k).val.val == 0) = some errors[k].kind ∧
        ((f k).val.val ≠ 0 → walk[(f k).val].span = errors[k].span) := by
  subst hw
  have hperm := h.map fun flaw => (some flaw.1, flaw.2)
  have hroot : ((root.flawKind? true).map fun kind => (kind, span)).toList.map
      (fun flaw => (some flaw.1, flaw.2)) =
      ((root.flawKind? true).map fun kind => (some kind, span)).toList := by
    cases root.flawKind? true <;> rfl
  rw [List.map_map, List.map_append, hroot, flaws, ← map_flawedAt_cons] at hperm
  rcases exists_equiv_of_perm (flawedAt_nodup _) hperm with ⟨e, he⟩
  refine ⟨e.trans (Equiv.subtypeEquivRight fun i => mem_flawedAt), fun k => ?_⟩
  rcases Prod.mk.inj (he k) with ⟨hkind, hspan⟩
  constructor
  · exact hkind.symm
  · intro hk
    exact ((if_neg hk).symm.trans hspan.symm)

theorem nil_iff_of_equiv {errors : List SyntaxError} {walk : List Node}
    (f : Fin errors.length ≃ {i : Fin walk.length // walk[i].isFlawed = true}) :
    errors = [] ↔ ∀ n ∈ walk, n.isFlawed = false := by
  rw [← List.length_eq_zero_iff]
  constructor
  · intro he n hn
    rcases List.mem_iff_getElem.mp hn with ⟨i, hi, rfl⟩
    by_contra hflaw
    have hk := (f.symm ⟨⟨i, hi⟩, by simpa using hflaw⟩).isLt
    omega
  · intro hall
    by_contra hne
    have hlt : 0 < errors.length := by omega
    have hflaw := (f ⟨0, hlt⟩).2
    have hsound := hall _ (List.getElem_mem (f ⟨0, hlt⟩).1.isLt)
    exact absurd (hflaw.symm.trans hsound) (by decide)

end Node

namespace Parser

open Node

/-- If nothing is accepted on the start state, the errors of a tree match its errors and supplied
tokens one to one: lexical ones the childless errors below the root, syntactic ones the other errors,
and the missing ones the supplied tokens, all but the root with the same span. -/
theorem errors_match (p : Parser) (text : Text)
    (hstart : ∀ s, p.language.table.action? startState s ≠ some .accept) :
    let tree := p.parse text
    (∃ f : Fin tree.errors.length ≃ {i : Fin tree.walk.length // tree.walk[i].isFlawed = true}, ∀ k,
      tree.walk[(f k).val].flawKind? ((f k).val.val == 0) = some tree.errors[k].kind ∧
        ((f k).val.val ≠ 0 → tree.walk[(f k).val].span = tree.errors[k].span)) ∧
    (tree.errors = [] ↔ ∀ n ∈ tree.walk, n.isError = false ∧ n.missing = false) := by
  intro tree
  rcases (p.job text).perm_assembleRoot (l := p.language) rfl hstart with ⟨span, hperm⟩
  have hreverse : (tree.errors.map Job.place).Perm ((p.job text).finish.errors.map Job.place) :=
    (List.reverse_perm _).map _
  rcases exists_match (walk_eq tree.root) (hreverse.trans hperm) with ⟨f, hf⟩
  refine ⟨⟨f, hf⟩, ?_⟩
  rw [nil_iff_of_equiv f]
  simp only [isFlawed, Bool.or_eq_false_iff]
  rfl

/-- In the empty text the word is missing; the supplied one answers for an error. -/
theorem errors_match_word :
    (∀ s, Word.language.table.action? startState s ≠ some .accept) ∧
      (Word.parser.parse #[]).errors ≠ [] := by
  have hstart (s : Symbol) : Word.language.table.action? startState s ≠ some .accept := by
    intro ha
    rcases (GrammarTable.action?_iff Word.language.table_fault).mp ha with ⟨st, hst, hm⟩
    cases hst
    change (s, Action.accept) ∈ [(Word.word, Action.shift 2)] at hm
    simp at hm
  have hmem : Node.supplied Word.word 0 true ∈ (Word.parser.parse #[]).walk := by
    rw [SyntaxTree.walk, Word.parse_empty, walk_eq, Node.branch, walkPending]
    exact List.mem_cons_of_mem _ List.mem_cons_self
  refine ⟨hstart, fun he => ?_⟩
  have hmissing := ((Word.parser.errors_match #[] hstart).2.mp he _ hmem).2
  exact absurd hmissing (by decide)

end Parser

end TableParsing
