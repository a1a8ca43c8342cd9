import Mathlib.Computability.Language
import Mathlib.Order.CompletePartialOrder
import TableParsing.Proofs.Spelling
import TableParsing.Proofs.Subtrees

/-!
# Shapes of nodes

The children of a node that are not extras, as a list of symbols with fields, and languages of such
lists. A reduction pops the symbols of a rule, and the parent gets for each of them the symbol itself
or, for a hidden rule, what that has for children. So languages that the rules comply with hold of
every node of a parse.
-/
namespace TableParsing

/-- What a node has of a child: its symbol, and the part it plays. -/
abbrev Part := Symbol × Option FieldId

/-- A field for a part that has none. -/
def Part.under (field : Option FieldId) (part : Part) : Part := (part.1, part.2.or field)

end TableParsing

/-- Languages of lists of parts. -/
abbrev PartLanguage := Language TableParsing.Part

namespace TableParsing

/-- The parts that are not extras. -/
def partsOf (ns : List Node) : List Part := (ns.filter (!·.extra)).map fun n => (n.symbol, n.field)

/-- The symbols of the nodes that are not extras. -/
def symbolsOf (ns : List Node) : List Symbol := (ns.filter (!·.extra)).map (·.symbol)

namespace Node

variable {n : Node}

def parts (n : Node) : List Part := partsOf n.children

/-- A node that is no extra has the parts that its symbol demands. -/
def Shaped (content : Symbol → PartLanguage) (n : Node) : Prop :=
  n.extra = false → n.parts ∈ content n.symbol

/-- All nodes of the tree are shaped, and it plays no part in a parent yet. -/
structure Pending (content : Symbol → PartLanguage) (n : Node) : Prop where
  shaped : n.All (Node.Shaped content)
  fieldless : n.extra = false → n.field = none

end Node

open Node

variable {m n : Node} {ns : List Node} {t : GrammarTable} {content : Symbol → PartLanguage}

theorem partsOf_append (ms ns : List Node) : partsOf (ms ++ ns) = partsOf ms ++ partsOf ns := by
  simp only [partsOf, List.filter_append, List.map_append]

theorem symbolsOf_append (ms ns : List Node) :
    symbolsOf (ms ++ ns) = symbolsOf ms ++ symbolsOf ns := by
  simp only [symbolsOf, List.filter_append, List.map_append]

theorem partsOf_cons_of_extra (h : n.extra = true) (ns : List Node) :
    partsOf (n :: ns) = partsOf ns := by
  simp [partsOf, h]

theorem partsOf_of_extras (h : ∀ n ∈ ns, n.extra = true) : partsOf ns = [] := by
  rw [partsOf, List.filter_eq_nil_iff.mpr fun n hn => by simp [h n hn], List.map_nil]

theorem partsOf_inherit (field : Option FieldId) (ns : List Node) :
    partsOf (ns.map (inherit field)) = (partsOf ns).map (Part.under field) := by
  induction ns with
  | nil => rfl
  | cons n ns ih =>
    have happend (n : Node) (ns : List Node) : partsOf (n :: ns) = partsOf [n] ++ partsOf ns :=
      partsOf_append [n] ns
    have hone : partsOf [n.inherit field] = (partsOf [n]).map (Part.under field) := by
      unfold inherit
      cases hx : n.extra <;> cases hf : n.field <;> cases field <;>
        simp [partsOf, hx, hf, Part.under]
    rw [List.map_cons, happend, happend n, List.map_append, hone, ih]

theorem partsOf_withField (field : Option FieldId) (hx : n.extra = false) (hf : n.field = none) :
    partsOf [n.withField field] = [(n.symbol, field)] := by
  unfold withField
  cases field <;> simp [partsOf, hx, hf]

/-! ## What a rule makes of shapes -/

namespace GrammarTable

variable (t) (content)

/-- What stands for a symbol of a rule among the children of the parent. -/
def offered (field : Option FieldId) (s : Symbol) : PartLanguage :=
  if t.isHiddenRule s then Language.map (Part.under field) (content s) else {[(s, field)]}

/-- What the symbols of a rule make for children, the first one being child `index`. -/
def offeredFrom (p : Production) (index : Nat) : List Symbol → PartLanguage
  | [] => 1
  | s :: rest => offered t content (p.fieldFor index) s * offeredFrom p (index + 1) rest

variable {t content}

theorem partsOf_spliced (hf : t.fault? = none) (field : Option FieldId) (hx : n.extra = false)
    (hfield : n.field = none) (h : n.Shaped content) :
    partsOf (t.spliced field n) ∈ t.offered content field n.symbol := by
  unfold spliced offered
  by_cases hh : t.isHiddenRule n.symbol = true
  · have he : n.isError = false := by
      by_contra he
      rw [beq_iff_eq.mp ((Bool.not_eq_false _).mp he), isHiddenRule_error hf] at hh
      cases hh
    have hboth : (!n.isError && t.isHiddenRule n.symbol) = true := by simp [he, hh]
    rw [if_pos hboth, if_pos hh, partsOf_inherit]
    exact ⟨n.parts, h hx, rfl⟩
  · have hnot : ¬(!n.isError && t.isHiddenRule n.symbol) = true := by simp [hh]
    rw [if_neg hnot, if_neg hh, partsOf_withField field hx hfield]
    rfl

theorem partsOf_collectChildren (hf : t.fault? = none) (p : Production) (index : Nat)
    (h : ∀ n ∈ ns, n.Pending content) :
    partsOf (t.collectChildren p index ns) ∈ t.offeredFrom content p index (symbolsOf ns) := by
  induction ns generalizing index with
  | nil => exact Language.nil_mem_one
  | cons n ns ih =>
    obtain ⟨hn, hns⟩ := List.forall_mem_cons.mp h
    rw [collectChildren]
    cases hx : n.extra with
    | true =>
      have hsymbols : symbolsOf (n :: ns) = symbolsOf ns := by simp [symbolsOf, hx]
      rw [if_pos rfl, partsOf_cons_of_extra hx, hsymbols]
      exact ih index hns
    | false =>
      have hsymbols : symbolsOf (n :: ns) = n.symbol :: symbolsOf ns := by simp [symbolsOf, hx]
      rw [if_neg Bool.false_ne_true, partsOf_append, hsymbols, offeredFrom]
      exact Language.append_mem_mul (partsOf_spliced hf _ hx (hn.fieldless hx) hn.shaped.here)
        (ih _ hns)

/-- Tokens have no parts, and every rule makes its left-hand side what that demands. -/
structure Complies (t : GrammarTable) (rules : Rules) (content : Symbol → PartLanguage) : Prop where
  token : ∀ s, t.isTerminal s = true → [] ∈ content s
  rule : ∀ {id : ProductionId} {r p}, rules[id.toNat]? = some r → t.production? id = some p →
    t.offeredFrom content p 0 r.rhs ≤ content p.lhs

end GrammarTable

/-! ## Shapes on the stack -/

namespace Job

open GrammarTable

variable {job : Job} {r r' last : Run} {s : Symbol} {p : Production} {id : ProductionId}
  {state : StateId} {k : Nat} {c : Certificate} {l : Language}

def Shaped (content : Symbol → PartLanguage) (r : Run) : Prop :=
  ∀ n ∈ r.stack.nodes, n.Pending content

/-- A reduction pops the symbols of its rule. -/
theorem Performs.symbols_taken (hfit : c.Fits job.table) (hprod : job.table.production? id = some p)
    (ha : job.table.action? r.stack.topState s = some (.reduce id)) (hc : r.stack.Coherent)
    (hs : r.stack.Spelt job.table) (h : job.Performs r p state) :
    ∃ rule, c.rules[id.toNat]? = some rule ∧ symbolsOf (r.taken p) = rule.rhs := by
  obtain ⟨rule, hrule, _, hlength⟩ := hfit.rule_of_production hprod
  refine ⟨rule, hrule, ?_⟩
  -- The certificate has the rule among the newest symbols below the state, and they are the stack's.
  obtain ⟨below, hpath⟩ := hc.path_eq
  have hspelt := hs
  rw [Stack.Spelt, hpath] at hspelt
  have hfits := hfit.action ha
  simp only [Certificate.actionFits, hrule, Option.any_some, List.isPrefixOf_iff_prefix] at hfits
  have hsuffix := List.reverse_suffix.mpr (hfits.trans (hfit.spelling_prefix hspelt))
  have hextras : symbolsOf r.stack.popExtras.1 = [] := by
    rw [symbolsOf, List.filter_eq_nil_iff.mpr, List.map_nil]
    intro n hn
    simp [Stack.popExtras_extra r.stack n hn]
  have hnodes : r.stack.symbols.reverse = symbolsOf (r.below p).nodes ++ symbolsOf (r.taken p) := by
    have hall : r.stack.symbols.reverse = symbolsOf r.stack.nodes := Stack.symbols_reverse _
    rw [hall, ← nodes_taken r p, symbolsOf_append, symbolsOf_append, hextras, List.append_nil]
  rw [List.reverse_reverse, hnodes] at hsuffix
  obtain ⟨front, hfront⟩ := hsuffix
  have hcount : (symbolsOf (r.taken p)).length = rule.rhs.length := by
    rw [hlength, ← h.complete, symbolsOf, List.length_map, List.countP_eq_length_filter]
  exact (List.append_inj' hfront hcount.symm).2.symm

theorem Shaped.reduced (hf : job.table.fault? = none) (hfit : c.Fits job.table)
    (hcomplies : job.table.Complies c.rules content)
    (hprod : job.table.production? id = some p)
    (ha : job.table.action? r.stack.topState s = some (.reduce id)) (hc : r.stack.Coherent)
    (hs : r.stack.Spelt job.table) (hp : job.Performs r p state) (h : Shaped content r) :
    Shaped content (job.reduced r p state) := by
  have hnodes := h
  rw [Shaped, ← nodes_taken r p, List.forall_mem_append, List.forall_mem_append] at hnodes
  obtain ⟨rule, hrule, hsymbols⟩ := hp.symbols_taken hfit hprod ha hc hs
  refine forall_nodes_reduced h ⟨?_, fun _ => rfl⟩
  refine all_iff.mpr ⟨fun _ => ?_, ?_⟩
  · refine hcomplies.rule hrule hprod ?_
    rw [← hsymbols]
    exact partsOf_collectChildren hf p 0 hnodes.1.2
  · exact all_collectChildren (fun _ _ h => h) fun n hn => (hnodes.1.2 n hn).shaped

theorem Shaped.replays (hf : job.table.fault? = none) (hfit : c.Fits job.table)
    (hcomplies : job.table.Complies c.rules content) (hr : job.Replays s k r last)
    (hc : r.stack.Coherent) (hs : r.stack.Spelt job.table) (h : Shaped content r) :
    Shaped content last := by
  induction hr with
  | nil => exact h
  | cons ha hprod hp _ ih =>
    exact ih (coherent_reduced hc) (hp.spelt hc hs) (h.reduced hf hfit hcomplies hprod ha hc hs hp)

theorem pending_token (hs : [] ∈ content n.symbol) (hn : n.children = []) (hfield : n.field = none) :
    n.Pending content := by
  refine ⟨all_iff.mpr ⟨fun _ => ?_, fun c hc => ?_⟩, fun _ => hfield⟩
  · rw [parts, hn]
    exact hs
  · rw [hn] at hc
    cases hc

/-- Nothing is asked of an extra but what is asked of the nodes below it. -/
theorem pending_extra (hx : n.extra = true) (h : ∀ c ∈ n.children, c.All (Node.Shaped content)) :
    n.Pending content := by
  have hnot : n.extra ≠ false := by simp [hx]
  exact ⟨all_iff.mpr ⟨fun hn => absurd hn hnot, h⟩, fun hn => absurd hn hnot⟩

theorem Shaped.pushExtra (h : Shaped content r) (hn : ∀ c ∈ n.children, c.All (Node.Shaped content)) :
    Shaped content (r.pushExtra n) := by
  rw [Shaped, Run.pushExtra, Stack.nodes_pushExtra]
  exact forall_mem_push h (pending_extra rfl hn)

theorem Shaped.supplied (ht : [] ∈ content s) {next : StateId} (h : Shaped content r) :
    Shaped content (job.supplied r s next) := by
  rw [Shaped, Job.supplied, Stack.nodes_shift]
  exact forall_mem_push h (pending_token ht rfl rfl)

theorem Shaped.wrapped {removed : List Entry} {rest : Stack} {q : List StateId → Bool}
    (hs : Stack.splitWhere q [] r.stack = some (removed, rest)) (h : Shaped content r) :
    Shaped content (job.wrapped r removed rest) := by
  rw [Shaped, (Stack.nodes_of_splitWhere hs).2, List.forall_mem_append] at h
  rw [Shaped, Job.wrapped, Run.report, Stack.nodes_pushExtra]
  exact forall_mem_push h.1 (pending_extra rfl fun c hc => (h.2 c hc).shaped)

theorem Shaped.skips (hs : job.Skips r r') (hl : (job.leaf r.lookahead).Pending content)
    (h : Shaped content r) : Shaped content r' := by
  cases hs with
  | @grown e rest _ _ hstack _ ho =>
    rw [Shaped, hstack, Stack.nodes_cons, List.forall_mem_append, List.forall_mem_singleton] at h
    rw [Shaped, Job.grown, Stack.nodes_cons]
    refine forall_mem_push h.1 (pending_extra ho.extra ?_)
    exact forall_mem_push (fun c hc => h.2.shaped.child hc) hl.shaped
  | opened =>
    rw [Shaped, Job.opened, Stack.nodes_pushExtra]
    exact forall_mem_push h (pending_extra rfl (List.forall_mem_singleton.mpr hl.shaped))

/-- Each step but a reduction pushes tokens or extras. -/
theorem Steps.shaped (hl : job.grammar = l.grammar) (hfit : c.Fits job.table)
    (hcomplies : job.table.Complies c.rules content) (hr : job.Reachable r)
    (hs : job.Steps r r') (h : Shaped content r) : Shaped content r' := by
  have hc := hr.steady.coherent
  have hf := table_fault hl
  have hahead (he : r.lookahead.symbol ≠ Symbol.endOfInput) :
      (job.leaf r.lookahead).Pending content :=
    pending_token (hcomplies.token _ (Bool.and_eq_true_iff.mp (hr.lexed hl he).1).2) rfl rfl
  cases hs with
  | scanned =>
    obtain ⟨_, hr, ⟨_, hs⟩ | ⟨_, _, _, hs⟩⟩ := job.scan_cases (P := Shaped content)
      (fun _ _ _ _ h => h.pushExtra (List.forall_mem_nil _))
      (fun r _ _ h => Shaped.pushExtra (r := r.report _) h (List.forall_mem_nil _)) h
    all_goals
      rw [hs]
      exact hr
  | shifted _ _ he =>
    rw [Shaped, Stack.nodes_shift]
    exact forall_mem_push h (hahead he)
  | shiftedEnd | ended => exact h
  | reduced _ ha hprod hp => exact h.reduced hf hfit hcomplies hprod ha hc hr.spelt hp
  | recovered hq hrec =>
    cases hrec with
    | supplied _ _ ha hreplays =>
      have ht := hcomplies.token _ (isTerminal_of_actionOn hl ha.settled.1)
      exact (h.replays hf hfit hcomplies hreplays hc hr.spelt).supplied ht
    | wrapped _ _ hsp => exact h.wrapped hsp
    | gaveUp => exact h
    | skipped _ he => exact h.skips (hr.skips hq) (hahead he)

theorem Reachable.shaped (hl : job.grammar = l.grammar) (hfit : c.Fits job.table)
    (hcomplies : job.table.Complies c.rules content) (h : job.Reachable r) : Shaped content r := by
  induction h with
  | initial => exact List.forall_mem_nil _
  | step h ih => exact h.steps.shaped hl hfit hcomplies h ih

/-- The accepted node takes in nothing but extras. -/
theorem assembleRoot_shaped (hsingle : Single r) (h : Shaped content r)
    (he : (job.assembleRoot .accepting r.stack.nodes).isError = false) :
    (job.assembleRoot .accepting r.stack.nodes).All (Node.Shaped content) ∧
      (job.assembleRoot .accepting r.stack.nodes).extra = false := by
  have hchildren : ∀ c ∈ (job.assembleRoot .accepting r.stack.nodes).children,
      c.All (Node.Shaped content) := by
    intro c hc
    rcases mem_assembleRoot hc with hc | ⟨n, hn, hc⟩
    · exact (h c hc).shaped
    · exact (h n hn).shaped.child hc
  revert he hchildren
  unfold assembleRoot
  rw [if_pos rfl]
  split
  · rename_i root trailing hd
    intro _ hchildren
    obtain ⟨hx, hsplit⟩ := Stack.root_of_dropWhile hd
    have hroot : root ∈ r.stack.nodes := by
      rw [hsplit]
      exact List.mem_append_right _ List.mem_cons_self
    have hleading : ∀ n ∈ r.stack.nodes.takeWhile (·.extra), n.extra = true := fun n hn =>
      List.all_eq_true.mp List.all_takeWhile n hn
    refine ⟨all_iff.mpr ⟨fun _ => ?_, hchildren⟩, hx⟩
    have hparts : partsOf (r.stack.nodes.takeWhile (·.extra) ++ root.children ++ trailing) =
        root.parts := by
      rw [partsOf_append, partsOf_append, partsOf_of_extras hleading,
        partsOf_of_extras (hsingle root trailing hd), List.nil_append, List.append_nil, parts]
    rw [parts, hparts]
    exact (h root hroot).shaped.here hx
  · intro he
    cases he

end Job

namespace Parser

theorem errors_finish_of_hasError (p : Parser) (text : Text)
    (herr : (p.parse text).hasError = false) : (p.job text).finish.errors = [] := by
  have hempty := (Bool.or_eq_false_iff.mp herr).1
  rw [Bool.not_eq_false', List.isEmpty_iff] at hempty
  exact List.reverse_eq_nil_iff.mp hempty

/-- All nodes of a tree without errors are shaped. -/
theorem root_shaped (p : Parser) (text : Text) (herr : (p.parse text).hasError = false)
    (hsingle : Job.Single (p.job text).finish) {c : Certificate} (hfit : c.Fits p.language.table)
    {content : Symbol → PartLanguage} (hcomplies : p.language.table.Complies c.rules content) :
    (p.parse text).root.All (Node.Shaped content) ∧ (p.parse text).root.extra = false := by
  have hphase := Job.finish_accepting (p.errors_finish_of_hasError text herr)
  have hroot : (p.parse text).root =
      (p.job text).assembleRoot .accepting (p.job text).finish.stack.nodes := by
    rw [← hphase]
    rfl
  have hsymbol := (Node.hasError_eq_false.mp (Bool.or_eq_false_iff.mp herr).2).1
  have he : (p.parse text).root.isError = false := beq_eq_false_iff_ne.mpr hsymbol
  have hcomplies : (p.job text).table.Complies c.rules content := hcomplies
  have hshaped := (p.job text).finish_reachable.shaped (l := p.language) rfl hfit hcomplies
  rw [hroot] at he ⊢
  exact Job.assembleRoot_shaped hsingle hshaped he

end Parser

end TableParsing
