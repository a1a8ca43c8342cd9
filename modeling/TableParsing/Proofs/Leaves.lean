import TableParsing.Proofs.Nesting
import TableParsing.Tree.Walk

/-!
# Leaves

What is read off some nodes and the nodes below them, in the order of a walk: above all the childless
nodes, and the tokens that those with bytes spell. Leaves of nested nodes lie in order. Making a parent
of nodes keeps what is read off them, if nothing is read off the hidden rules that are replaced by
their children, nor from fields.
-/
namespace TableParsing

namespace Node

variable {lo hi : Nat} {m n : Node} {ms ns : List Node}

/-! ## What is read off nodes -/

section

variable {β : Type} {g : Node → Option β}

/-- What is read off these nodes and the nodes below them, in the order of a walk. -/
def gather (g : Node → Option β) (ns : List Node) : List β := (walkPending ns).filterMap g

/-- Off a node that is no extra the same is read whatever its field. -/
def IgnoresFields (g : Node → Option β) : Prop :=
  ∀ n field, n.extra = false → g { n with field := field } = g n

theorem gather_nil (g : Node → Option β) : gather g [] = [] := by simp [gather, walkPending]

theorem gather_append (g : Node → Option β) (ms ns : List Node) :
    gather g (ms ++ ns) = gather g ms ++ gather g ns := by
  rw [gather, walkPending_append, List.filterMap_append, gather, gather]

theorem gather_singleton (g : Node → Option β) (n : Node) :
    gather g [n] = (g n).toList ++ gather g n.children := by
  rw [gather, walkPending, List.append_nil, List.filterMap_cons, gather]
  cases g n <;> rfl

theorem gather_cons (g : Node → Option β) (n : Node) (ns : List Node) :
    gather g (n :: ns) = gather g [n] ++ gather g ns := gather_append g [n] ns

theorem gather_congr (hg : g m = g n) (hc : m.children = n.children) :
    gather g [m] = gather g [n] := by
  rw [gather_singleton, gather_singleton, hg, hc]

theorem gather_map {f : Node → Node} (hf : ∀ n, gather g [f n] = gather g [n]) (ns : List Node) :
    gather g (ns.map f) = gather g ns := by
  induction ns with
  | nil => rfl
  | cons n ns ih => rw [List.map_cons, gather_cons, hf, ih, ← gather_cons]

theorem IgnoresFields.inherit (hg : IgnoresFields g) (field : Option FieldId) (n : Node) :
    gather g [n.inherit field] = gather g [n] := by
  unfold Node.inherit
  split
  · rename_i hn
    have hx : n.extra = false := by simpa using (Bool.and_eq_true_iff.mp hn).2
    exact gather_congr (hg n field hx) rfl
  · rfl

theorem IgnoresFields.withField (hg : IgnoresFields g) (field : Option FieldId)
    (hx : n.extra = false) : gather g [n.withField field] = gather g [n] := by
  unfold Node.withField
  split
  · exact gather_congr (hg n field hx) rfl
  · rfl

end

/-! ## Leaves and what they spell -/

/-- The childless nodes among these and below them, in the order of a walk. -/
def leaves (ns : List Node) : List Node := (walkPending ns).filter (·.children.isEmpty)

/-- The leaves that have bytes, as tokens. -/
def spelled (ns : List Node) : List Token :=
  ((leaves ns).filter fun n => n.span.start < n.span.stop).map fun n => ⟨n.symbol, n.span⟩

theorem leaves_of_childless (h : n.children = []) : leaves [n] = [n] := by
  simp [leaves, walkPending, h]

theorem leaves_of_children (h : n.children ≠ []) : leaves [n] = leaves n.children := by
  simp [leaves, walkPending, h]

theorem map_filter_leaves {β : Type} (keep : Node → Bool) (f : Node → β) (ns : List Node) :
    ((leaves ns).filter keep).map f =
      gather (fun n => if keep n && n.children.isEmpty then some (f n) else none) ns := by
  rw [leaves, List.filter_filter, gather, ← List.filterMap_eq_map, List.filterMap_filter]
  rfl

/-- The token that a childless node with bytes spells. -/
def token? (n : Node) : Option Token :=
  if decide (n.span.start < n.span.stop) && n.children.isEmpty then some ⟨n.symbol, n.span⟩ else none

theorem spelled_eq_gather (ns : List Node) : spelled ns = gather token? ns :=
  map_filter_leaves _ _ ns

theorem spelled_append (ms ns : List Node) : spelled (ms ++ ns) = spelled ms ++ spelled ns := by
  simp only [spelled_eq_gather, gather_append]

theorem spelled_cons (n : Node) (ns : List Node) : spelled (n :: ns) = spelled [n] ++ spelled ns :=
  spelled_append [n] ns

theorem spelled_nil : spelled [] = [] := by rw [spelled_eq_gather, gather_nil]

theorem spelled_leaf (s : Symbol) {span : Span} (named : Bool) (h : span.start < span.stop) :
    spelled [leaf s span named] = [⟨s, span⟩] := by
  rw [spelled, leaves_of_childless rfl]
  simp [leaf, branch, h]

theorem spelled_of_empty (h : n.children = []) (hs : n.span.stop ≤ n.span.start) :
    spelled [n] = [] := by
  rw [spelled, leaves_of_childless h]
  simp [hs]

theorem spelled_of_children (h : n.children ≠ []) : spelled [n] = spelled n.children := by
  rw [spelled, leaves_of_children h, spelled]

/-- What a node spells is a matter of its symbol, span and children. -/
theorem spelled_congr (hs : m.symbol = n.symbol) (hp : m.span = n.span)
    (hc : m.children = n.children) : spelled [m] = spelled [n] := by
  have ht : m.token? = n.token? := by rw [token?, token?, hs, hp, hc]
  rw [spelled_eq_gather, spelled_eq_gather, gather_congr ht hc]

/-- A node has children, or no bytes. -/
def Filled (n : Node) : Prop := n.children = [] → n.span.stop ≤ n.span.start

theorem Filled.token? (h : n.Filled) : n.token? = none := by
  have hnot : ¬(decide (n.span.start < n.span.stop) && n.children.isEmpty) = true := by
    intro hn
    obtain ⟨hlt, hempty⟩ := Bool.and_eq_true_iff.mp hn
    exact Nat.not_lt.mpr (h (List.isEmpty_iff.mp hempty)) (of_decide_eq_true hlt)
  exact if_neg hnot

theorem Filled.spelled (h : n.Filled) : spelled [n] = spelled n.children := by
  rw [spelled_eq_gather, gather_singleton, h.token?, spelled_eq_gather]
  rfl

/-- The leaves of nodes laid in order lie in order. -/
theorem between_leaves (h : Laid lo hi ns) : Between lo hi (leaves ns) := by
  fun_induction walkPending ns generalizing lo with
  | case1 =>
    rw [leaves, walkPending]
    exact h.1
  | case2 n ns ih =>
    obtain ⟨h1, h2, hn, hr⟩ := laid_cons.mp h
    have hc := nested_iff.mp hn
    have hlaid : Laid n.span.start hi (n.children ++ ns) := laid_append.mpr ⟨n.span.stop, hc, hr⟩
    have hleaves := ih hlaid
    rw [leaves, walkPending, List.filter_cons]
    split
    · rename_i hempty
      have hempty : n.children = [] := List.isEmpty_iff.mp hempty
      rw [hempty, List.nil_append] at ih hleaves ⊢
      exact ⟨h1, h2, ih hr⟩
    · exact hleaves.mono_left h1

theorem Between.pairwise (h : Between lo hi ns) :
    ns.Pairwise fun a b => a.span.stop ≤ b.span.start := by
  induction ns generalizing lo with
  | nil => exact .nil
  | cons n ns ih =>
    exact List.pairwise_cons.mpr ⟨fun m hm => (h.2.2.bounds hm).1, ih h.2.2⟩

theorem inherit_symbol (field : Option FieldId) (n : Node) : (n.inherit field).symbol = n.symbol :=
  inherit_congr (fun _ _ => rfl) field n

theorem withField_symbol (field : Option FieldId) (n : Node) :
    (n.withField field).symbol = n.symbol :=
  withField_congr (fun _ _ => rfl) field n

end Node

open Node

namespace GrammarTable

variable (t : GrammarTable) (p : Production)

theorem gather_spliced {β : Type} {g : Node → Option β} (hg : IgnoresFields g)
    (field : Option FieldId) {n : Node} (hx : n.extra = false)
    (h : n.isError = false → t.isHiddenRule n.symbol = true → g n = none) :
    gather g (t.spliced field n) = gather g [n] := by
  unfold spliced
  split
  · rename_i hh
    obtain ⟨he, hh⟩ := Bool.and_eq_true_iff.mp hh
    rw [gather_map (hg.inherit field), gather_singleton, h (by simpa using he) hh]
    rfl
  · exact hg.withField field hx

/-- Off children the same is read as off the nodes that they are made of. -/
theorem gather_collectChildren {β : Type} {g : Node → Option β} (hg : IgnoresFields g) (index : Nat)
    {ns : List Node} (h : ∀ n ∈ ns, n.extra = false → n.isError = false →
      t.isHiddenRule n.symbol = true → g n = none) :
    gather g (t.collectChildren p index ns) = gather g ns := by
  induction ns generalizing index with
  | nil => rfl
  | cons n ns ih =>
    obtain ⟨hn, hns⟩ := List.forall_mem_cons.mp h
    rw [collectChildren]
    split
    · rw [gather_cons, ih index hns, ← gather_cons]
    · rename_i hx
      have hx : n.extra = false := by simpa using hx
      rw [gather_append, ih (index + 1) hns, t.gather_spliced hg _ hx (hn hx), ← gather_cons]

/-- Children spell what the nodes that they are made of spell. -/
theorem spelled_collectChildren (index : Nat) {ns : List Node}
    (h : ∀ n ∈ ns, n.extra = false → t.isHiddenRule n.symbol = true → n.Filled) :
    spelled (t.collectChildren p index ns) = spelled ns := by
  rw [spelled_eq_gather, spelled_eq_gather]
  apply t.gather_collectChildren p fun _ _ _ => rfl
  intro n hn hx _ hh
  exact (h n hn hx hh).token?

end GrammarTable

end TableParsing
