import TableParsing.Proofs.Origins

/-!
# Properties of whole trees

A property of every node of a tree is one of its root and of the trees of its children. Making a
parent keeps it for the children, if it does not look at fields.
-/
namespace TableParsing

namespace Node

variable {P Q : Node → Prop} {m n c : Node} {ns : List Node}

theorem holds_iff : n.Holds m ↔ m = n ∨ ∃ c ∈ n.children, c.Holds m := by
  constructor
  · intro h
    induction h with
    | root => exact .inl rfl
    | child _ hc ih =>
      rcases ih with rfl | ⟨c, hm, ih⟩
      · exact .inr ⟨_, hc, .root⟩
      · exact .inr ⟨c, hm, .child ih hc⟩
  · rintro (rfl | ⟨c, hc, h⟩)
    · exact .root
    · exact h.of_child hc

/-- The property holds of every node of the tree. -/
def All (Q : Node → Prop) (n : Node) : Prop := ∀ m, n.Holds m → Q m

theorem all_iff : n.All Q ↔ Q n ∧ ∀ c ∈ n.children, c.All Q := by
  constructor
  · exact fun h => ⟨h n .root, fun c hc m hm => h m (hm.of_child hc)⟩
  · rintro ⟨hn, hc⟩ m hm
    rcases holds_iff.mp hm with rfl | ⟨c, hmem, hm⟩
    · exact hn
    · exact hc c hmem m hm

theorem All.here (h : n.All Q) : Q n := h n .root

theorem All.child (h : n.All Q) (hc : c ∈ n.children) : c.All Q := (all_iff.mp h).2 c hc

theorem All.congr (hc : m.children = n.children) (hm : Q m) (h : n.All Q) : m.All Q :=
  all_iff.mpr ⟨hm, hc ▸ (all_iff.mp h).2⟩

theorem mem_walkPending_of_mem (h : n ∈ ns) : n ∈ walkPending ns := by
  obtain ⟨before, after, rfl⟩ := List.append_of_mem h
  rw [walkPending_append, walkPending]
  exact List.mem_append_right _ List.mem_cons_self

theorem mem_walkPending_of_child (hm : m ∈ walkPending ns) (hc : c ∈ m.children) :
    c ∈ walkPending ns := by
  fun_induction walkPending ns with
  | case1 => cases hm
  | case2 n ns ih =>
    rcases List.mem_cons.mp hm with rfl | hm
    · exact List.mem_cons_of_mem _ (mem_walkPending_of_mem (List.mem_append_left _ hc))
    · exact List.mem_cons_of_mem _ (ih hm)

/-- A walk meets exactly the nodes of the tree. -/
theorem mem_walk_iff : m ∈ n.walk ↔ n.Holds m := by
  constructor
  · intro h
    obtain ⟨root, hroot, hm⟩ := exists_holds_of_mem_walkPending h
    rw [List.mem_singleton] at hroot
    exact hroot ▸ hm
  · intro h
    induction h with
    | root => exact mem_walkPending_of_mem (List.mem_singleton.mpr rfl)
    | child _ hc ih => exact mem_walkPending_of_child ih hc

theorem All.of_mem_walk (h : n.All Q) (hm : m ∈ n.walk) : Q m := h m (mem_walk_iff.mp hm)

/-- The property is one that fields do not matter for. -/
def Fieldless (Q : Node → Prop) : Prop := ∀ n field, Q n → Q { n with field := field }

theorem All.inherit (hQ : Fieldless Q) (field : Option FieldId) (h : n.All Q) :
    (n.inherit field).All Q := by
  unfold Node.inherit
  split
  · exact All.congr (n := n) rfl (hQ n field h.here) h
  · exact h

theorem All.withField (hQ : Fieldless Q) (field : Option FieldId) (h : n.All Q) :
    (n.withField field).All Q := by
  unfold Node.withField
  split
  · exact All.congr (n := n) rfl (hQ n field h.here) h
  · exact h

theorem all_collectChildren {t : GrammarTable} {p : Production} {index : Nat} (hQ : Fieldless Q)
    (h : ∀ n ∈ ns, n.All Q) : ∀ c ∈ t.collectChildren p index ns, c.All Q := by
  intro c hc
  obtain ⟨n, hn, ⟨_, rfl⟩ | ⟨_, i, hc⟩⟩ := GrammarTable.mem_collectChildren hc
  · exact h c hn
  · rcases GrammarTable.mem_spliced hc with ⟨_, _, g, hg, rfl⟩ | ⟨_, rfl⟩
    · exact ((h n hn).child hg).inherit hQ _
    · exact (h n hn).withField hQ _

end Node

end TableParsing
