import Mathlib.Tactic.Common
import TableParsing.Parser.Children
import TableParsing.Parser.Stack

/-!
# Nested spans

Nodes in order between two offsets, each with its children in order within its own span. Splicing
hidden rules, covering, and marking as extra keep nodes so.
-/
namespace TableParsing

namespace Node

variable {lo hi mid : Nat} {n m : Node} {ns as bs : List Node}

/-- Nodes in order from `lo` to `hi`, none of which ends before it begins. -/
def Between (lo hi : Nat) : List Node → Prop
  | [] => lo ≤ hi
  | n :: rest => lo ≤ n.span.start ∧ n.span.start ≤ n.span.stop ∧ Between n.span.stop hi rest

inductive Nested : Node → Prop
  | intro {n : Node} : Between n.span.start n.span.stop n.children →
      (∀ c ∈ n.children, Nested c) → Nested n

/-- The nodes of a tree: its root and, again and again, the children of its nodes. -/
inductive Holds (root : Node) : Node → Prop
  | root : Holds root root
  | child {n c : Node} : Holds root n → c ∈ n.children → Holds root c

/-- Nested nodes in order. -/
def Laid (lo hi : Nat) (ns : List Node) : Prop := Between lo hi ns ∧ ∀ n ∈ ns, n.Nested

theorem Between.le (h : Between lo hi ns) : lo ≤ hi := by
  induction ns generalizing lo with
  | nil => exact h
  | cons n rest ih =>
    have := ih h.2.2
    have := h.1
    have := h.2.1
    omega

theorem Between.mono_right (h : Between lo hi ns) (hle : hi ≤ mid) : Between lo mid ns := by
  induction ns generalizing lo with
  | nil => exact Nat.le_trans h hle
  | cons n rest ih => exact ⟨h.1, h.2.1, ih h.2.2⟩

theorem Between.mono_left (h : Between mid hi ns) (hle : lo ≤ mid) : Between lo hi ns := by
  cases ns with
  | nil => exact Nat.le_trans hle h
  | cons n rest => exact ⟨Nat.le_trans hle h.1, h.2⟩

theorem between_append : Between lo hi (as ++ bs) ↔ ∃ mid, Between lo mid as ∧ Between mid hi bs := by
  induction as generalizing lo with
  | nil =>
    constructor
    · intro h
      exact ⟨lo, Nat.le_refl lo, h⟩
    · rintro ⟨mid, hle, h⟩
      exact h.mono_left hle
  | cons n rest ih =>
    simp only [List.cons_append, Between, ih]
    constructor
    · rintro ⟨h1, h2, mid, h3, h4⟩
      exact ⟨mid, ⟨h1, h2, h3⟩, h4⟩
    · rintro ⟨mid, ⟨h1, h2, h3⟩, h4⟩
      exact ⟨h1, h2, mid, h3, h4⟩

theorem Between.bounds (h : Between lo hi ns) (hn : n ∈ ns) :
    lo ≤ n.span.start ∧ n.span.start ≤ n.span.stop ∧ n.span.stop ≤ hi := by
  obtain ⟨as, bs, rfl⟩ := List.append_of_mem hn
  obtain ⟨mid, ha, h1, h2, hb⟩ := between_append.mp h
  have := ha.le
  have := hb.le
  omega

theorem Between.chain (h : Between lo hi ns) :
    ns.IsChain fun a b => a.span.stop ≤ b.span.start := by
  induction ns generalizing lo with
  | nil => exact .nil
  | cons n rest ih =>
    cases rest with
    | nil => exact .singleton n
    | cons m rest => exact .cons_cons h.2.2.1 (ih h.2.2)

theorem Laid.le (h : Laid lo hi ns) : lo ≤ hi := h.1.le

theorem Laid.mono_right (h : Laid lo hi ns) (hle : hi ≤ mid) : Laid lo mid ns :=
  ⟨h.1.mono_right hle, h.2⟩

theorem laid_nil (h : lo ≤ hi) : Laid lo hi [] := ⟨h, List.forall_mem_nil _⟩

theorem laid_append : Laid lo hi (as ++ bs) ↔ ∃ mid, Laid lo mid as ∧ Laid mid hi bs := by
  simp only [Laid, between_append, List.forall_mem_append]
  constructor
  · rintro ⟨⟨mid, ha, hb⟩, hna, hnb⟩
    exact ⟨mid, ⟨ha, hna⟩, hb, hnb⟩
  · rintro ⟨mid, ⟨ha, hna⟩, hb, hnb⟩
    exact ⟨⟨mid, ha, hb⟩, hna, hnb⟩

theorem laid_cons : Laid lo hi (n :: ns) ↔
    lo ≤ n.span.start ∧ n.span.start ≤ n.span.stop ∧ n.Nested ∧ Laid n.span.stop hi ns := by
  simp only [Laid, Between, List.forall_mem_cons]
  tauto

theorem laid_singleton : Laid lo hi [n] ↔
    lo ≤ n.span.start ∧ n.span.start ≤ n.span.stop ∧ n.span.stop ≤ hi ∧ n.Nested := by
  simp only [Laid, Between, List.forall_mem_singleton]
  tauto

/-- Nodes end no later than the last of them. -/
theorem Laid.upTo_last (h : Laid lo hi ns) (hm : ns.getLast? = some m) :
    m.span.stop ≤ hi ∧ Laid lo m.span.stop ns := by
  obtain ⟨as, rfl⟩ := List.getLast?_eq_some_iff.mp hm
  obtain ⟨mid, ha, hm⟩ := laid_append.mp h
  obtain ⟨h1, h2, h3, hn⟩ := laid_singleton.mp hm
  exact ⟨h3, laid_append.mpr ⟨mid, ha, laid_singleton.mpr ⟨h1, h2, Nat.le_refl _, hn⟩⟩⟩

theorem nested_iff : n.Nested ↔ Laid n.span.start n.span.stop n.children :=
  ⟨fun ⟨h, hc⟩ => ⟨h, hc⟩, fun ⟨h, hc⟩ => ⟨h, hc⟩⟩

theorem Nested.of_holds (h : n.Nested) (hm : n.Holds m) : m.Nested := by
  induction hm with
  | root => exact h
  | child _ hc ih => exact (nested_iff.mp ih).2 _ hc

/-- Nesting is a matter of spans and children alone. -/
theorem Nested.congr (h : n.Nested) (hs : m.span = n.span) (hc : m.children = n.children) :
    m.Nested := by
  rw [nested_iff, hs, hc]
  exact nested_iff.mp h

theorem nested_leaf {s : Symbol} {span : Span} {named : Bool} (h : span.start ≤ span.stop) :
    (leaf s span named).Nested :=
  nested_iff.mpr (laid_nil h)

/-- Changing anything but spans and children keeps nodes laid. -/
theorem Laid.map {f : Node → Node} (hs : ∀ n, (f n).span = n.span)
    (hc : ∀ n, (f n).children = n.children) (h : Laid lo hi ns) : Laid lo hi (ns.map f) := by
  induction ns generalizing lo with
  | nil => exact h
  | cons n rest ih =>
    obtain ⟨h1, h2, hn, hr⟩ := laid_cons.mp h
    rw [List.map_cons, laid_cons, hs]
    exact ⟨h1, h2, hn.congr (hs n) (hc n), ih hr⟩

theorem inherit_span (field : Option FieldId) (n : Node) : (n.inherit field).span = n.span :=
  inherit_congr (fun _ _ => rfl) field n

theorem inherit_children (field : Option FieldId) (n : Node) :
    (n.inherit field).children = n.children :=
  inherit_congr (fun _ _ => rfl) field n

theorem withField_span (field : Option FieldId) (n : Node) : (n.withField field).span = n.span :=
  withField_congr (fun _ _ => rfl) field n

theorem withField_children (field : Option FieldId) (n : Node) :
    (n.withField field).children = n.children :=
  withField_congr (fun _ _ => rfl) field n

end Node

open Node

variable {lo hi : Nat} {ns : List Node}

/-- A hidden rule is replaced by nodes within its span. -/
theorem GrammarTable.spliced_laid (t : GrammarTable) (field : Option FieldId) {n : Node}
    (h : n.Nested) : Laid n.span.start n.span.stop (t.spliced field n) := by
  have hl := nested_iff.mp h
  unfold spliced
  split
  · exact hl.map (inherit_span field) (inherit_children field)
  · rw [laid_singleton, withField_span]
    exact ⟨Nat.le_refl _, hl.le, Nat.le_refl _,
      h.congr (withField_span field n) (withField_children field n)⟩

theorem GrammarTable.collectChildren_laid (t : GrammarTable) (p : Production) (index : Nat)
    (h : Laid lo hi ns) : Laid lo hi (t.collectChildren p index ns) := by
  induction ns generalizing lo index with
  | nil => exact h
  | cons n rest ih =>
    obtain ⟨h1, h2, hn, hr⟩ := laid_cons.mp h
    rw [collectChildren]
    split
    · rw [laid_cons]
      exact ⟨h1, h2, hn, ih index hr⟩
    · obtain ⟨hb, hm⟩ := t.spliced_laid (p.fieldFor index) hn
      exact laid_append.mpr ⟨n.span.stop, ⟨hb.mono_left h1, hm⟩, ih (index + 1) hr⟩

/-- The span over nodes in order, or the empty one where they begin, holds them all. -/
theorem laid_coveringSpan (h : Laid lo hi ns) :
    lo ≤ (coveringSpan lo ns).start ∧ (coveringSpan lo ns).stop ≤ hi ∧
      Laid (coveringSpan lo ns).start (coveringSpan lo ns).stop ns := by
  cases ns with
  | nil => exact ⟨Nat.le_refl lo, h.le, laid_nil (Nat.le_refl lo)⟩
  | cons n rest =>
    obtain ⟨m, hm⟩ : ∃ m, (n :: rest).getLast? = some m := ⟨_, List.getLast?_cons⟩
    obtain ⟨hle, hl⟩ := h.upTo_last hm
    obtain ⟨h1, h2, hn, hr⟩ := laid_cons.mp hl
    simp only [coveringSpan, List.head?_cons, hm]
    exact ⟨h1, hle, laid_cons.mpr ⟨Nat.le_refl _, h2, hn, hr⟩⟩

/-! ## Nodes on the stack -/

namespace Stack

variable {s : Stack}

/-- The nodes of a stack end where its newest node does. -/
theorem laid_endOffset (h : Laid 0 hi s.nodes) :
    s.endOffset ≤ hi ∧ Laid 0 s.endOffset s.nodes := by
  cases s with
  | nil => exact ⟨Nat.zero_le hi, laid_nil (Nat.le_refl 0)⟩
  | cons e s =>
    refine h.upTo_last (List.getLast?_eq_some_iff.mpr ⟨nodes s, ?_⟩)
    simp [nodes]

theorem laid_shift {state : StateId} {n : Node} (h : Laid 0 lo s.nodes) (hn : Laid lo hi [n]) :
    Laid 0 hi (s.shift state n).nodes := by
  rw [nodes_shift]
  exact laid_append.mpr ⟨lo, h, hn⟩

theorem laid_pushExtra {n : Node} (h : Laid 0 lo s.nodes) (hn : Laid lo hi [n]) :
    Laid 0 hi (s.pushExtra n).nodes := by
  rw [nodes_pushExtra]
  refine laid_append.mpr ⟨lo, h, ?_⟩
  obtain ⟨h1, h2, h3, hn⟩ := laid_singleton.mp hn
  exact laid_singleton.mpr ⟨h1, h2, h3, hn.congr rfl rfl⟩

end Stack

end TableParsing
