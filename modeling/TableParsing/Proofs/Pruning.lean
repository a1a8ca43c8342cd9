import TableParsing.Proofs.Children
import TableParsing.Proofs.Reduction

/-!
# Pruned trees

A tree without the nodes of some symbols. Making a parent and pruning it is the same as pruning the
children and making a parent of those that are left, as long as exactly the extras are dropped; and
the span of the parent is the same if the first and the last of its children stay.
-/
namespace TableParsing

namespace Node

variable {drop : Symbol → Bool} {n : Node} {ms ns : List Node}

mutual

/-- The node without the nodes below it whose symbols are dropped. -/
def prune (drop : Symbol → Bool) : Node → Node
  | ⟨s, span, children, field, named, extra, missing⟩ =>
    ⟨s, span, pruneAll drop children, field, named, extra, missing⟩

def pruneAll (drop : Symbol → Bool) : List Node → List Node
  | [] => []
  | n :: rest => if drop n.symbol then pruneAll drop rest else n.prune drop :: pruneAll drop rest

end

theorem prune_eq (drop : Symbol → Bool) (n : Node) :
    n.prune drop = { n with children := pruneAll drop n.children } := by
  cases n
  rfl

@[simp] theorem prune_span (n : Node) : (n.prune drop).span = n.span := by rw [prune_eq]

@[simp] theorem prune_extra (n : Node) : (n.prune drop).extra = n.extra := by rw [prune_eq]

theorem prune_branch (s : Symbol) (span : Span) (named : Bool) (children : List Node) :
    (branch s span named children).prune drop = branch s span named (pruneAll drop children) :=
  prune_eq drop _

theorem pruneAll_eq (drop : Symbol → Bool) (ns : List Node) :
    pruneAll drop ns = (ns.filter fun n => !drop n.symbol).map (prune drop) := by
  induction ns with
  | nil => rfl
  | cons n ns ih =>
    rw [pruneAll]
    cases hd : drop n.symbol <;> simp [hd, ih]

theorem thins_pruneAll (drop : Symbol → Bool) :
    Thins (fun n => !drop n.symbol) (prune drop) (pruneAll drop) :=
  ⟨pruneAll_eq drop, prune_eq drop, fun _ _ => rfl⟩

theorem pruneAll_append (ms ns : List Node) :
    pruneAll drop (ms ++ ns) = pruneAll drop ms ++ pruneAll drop ns :=
  (thins_pruneAll drop).append ms ns

theorem pruneAll_cons_of_drop (h : drop n.symbol = true) (ns : List Node) :
    pruneAll drop (n :: ns) = pruneAll drop ns :=
  (thins_pruneAll drop).cons_of_drop (by rw [h, Bool.not_true]) ns

theorem pruneAll_cons_of_keep (h : drop n.symbol = false) (ns : List Node) :
    pruneAll drop (n :: ns) = n.prune drop :: pruneAll drop ns :=
  (thins_pruneAll drop).cons_of_keep (by rw [h, Bool.not_false]) ns

theorem pruneAll_of_drop (h : ∀ n ∈ ns, drop n.symbol = true) : pruneAll drop ns = [] := by
  rw [pruneAll_eq, List.filter_eq_nil_iff.mpr fun n hn => by simp [h n hn], List.map_nil]

/-! ## Ends that stay -/

/-- Neither the first nor the last of the nodes is dropped. -/
structure Framed (drop : Symbol → Bool) (ns : List Node) : Prop where
  first : ∀ n ∈ ns.head?, drop n.symbol = false
  last : ∀ n ∈ ns.getLast?, drop n.symbol = false

theorem head?_pruneAll (h : ∀ n ∈ ns.head?, drop n.symbol = false) :
    (pruneAll drop ns).head? = ns.head?.map (prune drop) := by
  cases ns with
  | nil => rfl
  | cons n ns =>
    rw [pruneAll_cons_of_keep (h n rfl)]
    rfl

theorem getLast?_pruneAll (h : ∀ n ∈ ns.getLast?, drop n.symbol = false) :
    (pruneAll drop ns).getLast? = ns.getLast?.map (prune drop) := by
  rcases ns.eq_nil_or_concat with rfl | ⟨ns, n, rfl⟩
  · rfl
  · have hn : drop n.symbol = false := h n (by simp)
    rw [List.concat_eq_append, pruneAll_append, pruneAll_cons_of_keep hn, pruneAll]
    simp

theorem Framed.coveringSpan (h : Framed drop ns) (offset : Nat) :
    coveringSpan offset (pruneAll drop ns) = TableParsing.coveringSpan offset ns := by
  rw [TableParsing.coveringSpan, TableParsing.coveringSpan, head?_pruneAll h.first,
    getLast?_pruneAll h.last]
  cases ns.head? <;> cases ns.getLast? <;> simp

theorem framed_singleton (h : drop n.symbol = false) : Framed drop [n] :=
  ⟨fun _ hm => Option.some.inj hm ▸ h, fun _ hm => Option.some.inj hm ▸ h⟩

theorem Framed.map {f : Node → Node} (hs : ∀ n, (f n).symbol = n.symbol) (h : Framed drop ns) :
    Framed drop (ns.map f) := by
  constructor
  · intro m hm
    rw [List.head?_map] at hm
    obtain ⟨n, hn, rfl⟩ := Option.map_eq_some_iff.mp hm
    rw [hs]
    exact h.first n hn
  · intro m hm
    rw [List.getLast?_map] at hm
    obtain ⟨n, hn, rfl⟩ := Option.map_eq_some_iff.mp hm
    rw [hs]
    exact h.last n hn

theorem head?_append (h : ms ≠ []) (ns : List Node) : (ms ++ ns).head? = ms.head? := by
  cases ms with
  | nil => exact absurd rfl h
  | cons m ms => rfl

theorem getLast?_append (ms : List Node) (h : ns ≠ []) : (ms ++ ns).getLast? = ns.getLast? := by
  rw [List.getLast?_append, List.getLast?_eq_some_getLast h, Option.some_or]

end Node

open Node

namespace GrammarTable

variable (t : GrammarTable) (p : Production) {drop : Symbol → Bool} {n : Node} {ns : List Node}

/-- If just the extras are dropped, they can be dropped before or after making a parent. -/
theorem pruneAll_collectChildren (index : Nat) (h : ∀ n ∈ ns, n.extra = drop n.symbol) :
    pruneAll drop (t.collectChildren p index ns) =
      t.collectChildren p index (pruneAll drop ns) :=
  (thins_pruneAll drop).collectChildren t p index fun n hn => by rw [h n hn]

/-- The children of a hidden rule can stand for it among the children of its parent. -/
def Presentable (drop : Symbol → Bool) (n : Node) : Prop :=
  t.isHiddenRule n.symbol = true → n.children ≠ [] ∧ Framed drop n.children

theorem spliced_framed (field : Option FieldId) (hn : drop n.symbol = false)
    (h : t.Presentable drop n) :
    t.spliced field n ≠ [] ∧ Framed drop (t.spliced field n) := by
  unfold spliced
  split
  · rename_i hh
    obtain ⟨hne, hframed⟩ := h (Bool.and_eq_true_iff.mp hh).2
    exact ⟨by simpa using hne, hframed.map (inherit_symbol field)⟩
  · exact ⟨List.cons_ne_nil _ _, framed_singleton (by rwa [withField_symbol])⟩

theorem collectChildren_last (index : Nat) (hne : ns ≠ [])
    (hdrop : ∀ n ∈ ns, n.extra = drop n.symbol) (hns : ∀ n ∈ ns, t.Presentable drop n)
    (hlast : ∀ n ∈ ns.getLast?, n.extra = false) : t.collectChildren p index ns ≠ [] ∧
      ∀ c ∈ (t.collectChildren p index ns).getLast?, drop c.symbol = false := by
  induction ns generalizing index with
  | nil => exact absurd rfl hne
  | cons n ns ih =>
    obtain ⟨hn, hrest⟩ := List.forall_mem_cons.mp hdrop
    obtain ⟨hpn, hprest⟩ := List.forall_mem_cons.mp hns
    rw [collectChildren]
    by_cases hempty : ns = []
    · subst hempty
      have hx : n.extra = false := hlast n rfl
      obtain ⟨hspliced, hframed⟩ :=
        t.spliced_framed (p.fieldFor index) (hn ▸ hx) hpn
      rw [hx, if_neg Bool.false_ne_true, collectChildren, List.append_nil]
      exact ⟨hspliced, hframed.last⟩
    · rw [List.getLast?_cons_of_ne_nil hempty] at hlast
      have hrec (index : Nat) := ih index hempty hrest hprest hlast
      split
      · refine ⟨List.cons_ne_nil _ _, ?_⟩
        rw [List.getLast?_cons_of_ne_nil (hrec index).1]
        exact (hrec index).2
      · refine ⟨List.append_ne_nil_of_right_ne_nil _ (hrec (index + 1)).1, ?_⟩
        rw [Node.getLast?_append _ (hrec (index + 1)).1]
        exact (hrec (index + 1)).2

/-- Between real nodes at both ends, real children are made at both ends. -/
theorem collectChildren_framed (index : Nat) (hne : ns ≠ [])
    (hdrop : ∀ n ∈ ns, n.extra = drop n.symbol) (hns : ∀ n ∈ ns, t.Presentable drop n)
    (hfirst : ∀ n ∈ ns.head?, n.extra = false) (hlast : ∀ n ∈ ns.getLast?, n.extra = false) :
    t.collectChildren p index ns ≠ [] ∧ Framed drop (t.collectChildren p index ns) := by
  obtain ⟨hcne, hclast⟩ := t.collectChildren_last p index hne hdrop hns hlast
  refine ⟨hcne, ?_, hclast⟩
  cases ns with
  | nil => exact absurd rfl hne
  | cons n ns =>
    have hx : n.extra = false := hfirst n rfl
    have hn : drop n.symbol = false := by rw [← hdrop n List.mem_cons_self, hx]
    obtain ⟨hspliced, hframed⟩ :=
      t.spliced_framed (p.fieldFor index) hn (hns n List.mem_cons_self)
    rw [collectChildren, hx, if_neg Bool.false_ne_true, Node.head?_append hspliced]
    exact hframed.first

end GrammarTable

namespace Stack

variable {drop : Symbol → Bool} {s : Stack}

/-- The entries whose symbols are not dropped, with pruned nodes. -/
def prune (drop : Symbol → Bool) : Stack → Stack
  | [] => []
  | e :: s =>
    if drop e.node.symbol then prune drop s else ⟨e.state, e.node.prune drop⟩ :: prune drop s

/-- Just the extras are dropped. -/
def Marked (drop : Symbol → Bool) (s : Stack) : Prop := ∀ e ∈ s, e.node.extra = drop e.node.symbol

theorem Marked.of_suffix {rest : Stack} (h : Marked drop s) (hs : rest <:+ s) : Marked drop rest :=
  fun e he => h e (hs.subset he)

theorem prune_cons_of_extra {e : Entry} (h : Marked drop (e :: s)) (hx : e.node.extra = true) :
    prune drop (e :: s) = prune drop s := by
  rw [prune, ← h e List.mem_cons_self, hx, if_pos rfl]

theorem prune_cons_of_real {e : Entry} (h : Marked drop (e :: s)) (hx : e.node.extra = false) :
    prune drop (e :: s) = ⟨e.state, e.node.prune drop⟩ :: prune drop s := by
  rw [prune, ← h e List.mem_cons_self, hx, if_neg Bool.false_ne_true]

theorem nodes_prune (drop : Symbol → Bool) (s : Stack) :
    nodes (prune drop s) = pruneAll drop s.nodes := by
  induction s with
  | nil => rfl
  | cons e s ih =>
    rw [nodes_cons, pruneAll_append, prune]
    split
    · rename_i hd
      rw [ih, pruneAll_cons_of_drop hd, pruneAll, List.append_nil]
    · rename_i hd
      rw [nodes_cons, ih, pruneAll_cons_of_keep (by simpa using hd), pruneAll]

theorem path_prune (h : Marked drop s) : path (prune drop s) = s.path := by
  induction s with
  | nil => rfl
  | cons e s ih =>
    have hs := h.of_suffix (List.suffix_cons e s)
    cases hx : e.node.extra with
    | true => rw [prune_cons_of_extra h hx, ih hs, path, if_pos hx]
    | false =>
      rw [prune_cons_of_real h hx, path, path, prune_extra, hx, if_neg Bool.false_ne_true,
        if_neg Bool.false_ne_true, ih hs]

/-- Nothing that is left is an extra, so the stack is coherent whatever it was before. -/
theorem prune_extra (h : Marked drop s) : ∀ e ∈ prune drop s, e.node.extra = false := by
  induction s with
  | nil => exact List.forall_mem_nil _
  | cons e s ih =>
    have hs := h.of_suffix (List.suffix_cons e s)
    cases hx : e.node.extra with
    | true =>
      rw [prune_cons_of_extra h hx]
      exact ih hs
    | false =>
      rw [prune_cons_of_real h hx, List.forall_mem_cons]
      exact ⟨(Node.prune_extra _).trans hx, ih hs⟩

theorem prune_coherent (h : Marked drop s) : Coherent (prune drop s) := by
  have hx := prune_extra h
  generalize prune drop s = s' at hx
  induction s' with
  | nil => trivial
  | cons e s' ih =>
    obtain ⟨he, hs⟩ := List.forall_mem_cons.mp hx
    exact ⟨fun hextra => absurd (he.symm.trans hextra) (by decide), ih hs⟩

theorem topState_prune (h : Marked drop s) (hc : Coherent s) :
    topState (prune drop s) = topState s := by
  obtain ⟨below, hpath⟩ := hc.path_eq
  obtain ⟨below', hpath'⟩ := (prune_coherent h).path_eq
  rw [path_prune h, hpath] at hpath'
  exact (List.cons.inj hpath').1.symm

theorem prune_popExtras (h : Marked drop s) : prune drop s.popExtras.2 = prune drop s := by
  induction s with
  | nil => rfl
  | cons e s ih =>
    cases hx : e.node.extra with
    | true =>
      have hpop : (popExtras (e :: s)).2 = (popExtras s).2 := by simp [popExtras, hx]
      rw [hpop, ih (h.of_suffix (List.suffix_cons e s)), prune_cons_of_extra h hx]
    | false =>
      have hpop : (popExtras (e :: s)).2 = e :: s := by simp [popExtras, hx]
      rw [hpop]

theorem popExtras_prune (h : Marked drop s) : popExtras (prune drop s) = ([], prune drop s) := by
  have hx := prune_extra h
  generalize prune drop s = s' at hx
  cases s' with
  | nil => rfl
  | cons e s' => simp [popExtras, hx e List.mem_cons_self, nodes]

/-- The same real entries are popped from a pruned stack. -/
theorem popChildren_prune (h : Marked drop s) (count : Nat) (popped : List Node) :
    popChildren count (prune drop s) (pruneAll drop popped) =
      (pruneAll drop (popChildren count s popped).1,
        prune drop (popChildren count s popped).2) := by
  induction s generalizing count popped with
  | nil => cases count <;> rfl
  | cons e s ih =>
    have hs := h.of_suffix (List.suffix_cons e s)
    have he : e.node.extra = drop e.node.symbol := h e List.mem_cons_self
    cases count with
    | zero => rw [popChildren_zero, popChildren_zero]
    | succ count =>
      cases hx : e.node.extra with
      | true =>
        rw [prune_cons_of_extra h hx, popChildren, hx, if_pos rfl, ← ih hs,
          pruneAll_cons_of_drop (he ▸ hx)]
      | false =>
        rw [prune_cons_of_real h hx, popChildren, popChildren, Node.prune_extra, hx,
          if_neg Bool.false_ne_true, ← ih hs, pruneAll_cons_of_keep (he ▸ hx)]

theorem pushExtras_marked (h : Marked drop s) {extras : List Node}
    (hextras : ∀ n ∈ extras, drop n.symbol = true) : Marked drop (s.pushExtras extras) ∧
      prune drop (s.pushExtras extras) = prune drop s := by
  induction extras generalizing s with
  | nil => exact ⟨h, rfl⟩
  | cons n extras ih =>
    obtain ⟨hn, hrest⟩ := List.forall_mem_cons.mp hextras
    have hpush : Marked drop (s.pushExtra n) := List.forall_mem_cons.mpr ⟨hn.symm, h⟩
    obtain ⟨hmarked, hprune⟩ := ih hpush hrest
    exact ⟨hmarked, hprune.trans (prune_cons_of_extra hpush rfl)⟩

/-! ## Ends of what is popped -/

theorem head?_popExtras (s : Stack) : ∀ e ∈ s.popExtras.2.head?, e.node.extra = false := by
  intro e he
  have hnot := List.head?_dropWhile_not (p := fun e : Entry => e.node.extra) s
  rw [popExtras] at he
  rw [he] at hnot
  simpa using hnot

/-- Behind the extras the newest real node is the last of the popped ones. -/
theorem popChildren_last {count : Nat} (s : Stack) :
    ∀ n ∈ (popChildren count s.popExtras.2 []).1.getLast?, n.extra = false := by
  intro n hn
  have hnodes := nodes_popChildren count s.popExtras.2 []
  rw [List.append_nil] at hnodes
  have hne : (popChildren count s.popExtras.2 []).1 ≠ [] := by
    rintro h
    rw [h] at hn
    cases hn
  rw [← Node.getLast?_append _ hne, hnodes, nodes, List.getLast?_reverse, List.head?_map] at hn
  obtain ⟨e, he, rfl⟩ := Option.map_eq_some_iff.mp hn
  exact head?_popExtras s e he

theorem endOffset_prune (h : Marked drop s) (hx : ∀ e ∈ s.head?, e.node.extra = false) :
    endOffset (prune drop s) = endOffset s := by
  cases s with
  | nil => rfl
  | cons e s =>
    rw [prune_cons_of_real h (hx e rfl), endOffset, endOffset, prune_span]

end Stack

end TableParsing
