import TableParsing.Proofs.Subtrees

/-!
# Walks

A walk meets the nodes of a tree in the order of their paths from the root, each once, and then ends.
So it finds what a recursion over the tree finds.
-/
namespace TableParsing

namespace Walk

variable {w : Walk} {ms ns : List Node}

/-- The walk meets exactly these nodes, one after the other, and ends. -/
inductive Yields : Walk → List Node → Prop
  | done {w : Walk} : w.next? = none → Yields w []
  | next {w w' : Walk} {n : Node} {ns : List Node} : w.next? = some (n, w') → Yields w' ns →
      Yields w (n :: ns)

theorem Yields.unique (h : w.Yields ms) (h' : w.Yields ns) : ms = ns := by
  induction h generalizing ns with
  | done hnone =>
    cases h' with
    | done => rfl
    | next hsome => simp [hnone] at hsome
  | next hsome _ ih =>
    cases h' with
    | done hnone => simp [hsome] at hnone
    | next hsome' h' =>
      obtain ⟨rfl, rfl⟩ := Prod.mk.inj (Option.some.inj (hsome.symm.trans hsome'))
      rw [ih h']

/-- The walk that has these nodes to come. -/
def ofPending (pending : List Node) : Walk := ⟨pending.reverse.toArray⟩

theorem next?_ofPending_nil : (ofPending []).next? = none := rfl

theorem next?_ofPending_cons (n : Node) (pending : List Node) :
    (ofPending (n :: pending)).next? = some (n, ofPending (n.children ++ pending)) := by
  have hstack : (n :: pending).reverse.toArray = pending.reverse.toArray.push n := by simp
  have hrest : pending.reverse.toArray ++ n.children.reverse =
      (n.children ++ pending).reverse.toArray := by simp
  rw [next?, ofPending, hstack, Array.back?_push, Option.map_some, Array.pop_push, hrest, ofPending]

theorem yields_ofPending (pending : List Node) :
    (ofPending pending).Yields (Node.walkPending pending) := by
  fun_induction Node.walkPending pending with
  | case1 => exact .done next?_ofPending_nil
  | case2 n pending ih => exact .next (next?_ofPending_cons n pending) ih

end Walk

namespace Node

variable {n : Node} {ns : List Node} {path : List Nat}

/-! ## Walks by recursion -/

theorem walkPending_eq_flatMap (ns : List Node) : walkPending ns = ns.flatMap walk := by
  induction ns with
  | nil => simp [walkPending]
  | cons n ns ih => rw [← List.singleton_append, walkPending_append, ih]; rfl

theorem walk_eq_flatMap (n : Node) : n.walk = n :: n.children.flatMap walk := by
  rw [walk_eq, walkPending_eq_flatMap]

theorem length_walk (n : Node) : n.walk.length = n.size := by
  rw [walk, length_walkPending]
  rfl

theorem preorders_eq_flatMap (depth : Nat) (ns : List Node) :
    preorders depth ns = ns.flatMap (preorder depth) := by
  induction ns with
  | nil => rfl
  | cons n ns ih => rw [preorders, ih, List.flatMap_cons]

theorem preorder_eq (depth : Nat) (n : Node) :
    n.preorder depth = (depth, n) :: n.children.flatMap (preorder (depth + 1)) := by
  cases n
  rw [preorder, preorders_eq_flatMap]

theorem map_snd_preorder (depth : Nat) (n : Node) : (n.preorder depth).map (·.2) = n.walk := by
  induction n using induction_children generalizing depth with
  | parent n ih =>
    rw [preorder_eq, List.map_cons, List.map_flatMap, walk_eq_flatMap]
    exact congrArg (n :: ·) (List.flatMap_congr fun c hc => ih c hc (depth + 1))

theorem anyHasError_eq_true : anyHasError ns = true ↔ ∃ n ∈ ns, n.hasError = true := by
  induction ns with
  | nil => simp [anyHasError]
  | cons n ns ih => simp [anyHasError, ih]

theorem hasError_iff (n : Node) :
    n.hasError = true ↔ ∃ m ∈ n.walk, m.isError = true ∨ m.missing = true := by
  induction n using induction_children with
  | parent n ih =>
    rw [hasError_eq, Bool.or_eq_true, Bool.or_eq_true, anyHasError_eq_true, walk_eq_flatMap]
    simp only [List.mem_cons, exists_eq_or_imp]
    refine or_congr_right ⟨?_, ?_⟩
    · rintro ⟨c, hc, herr⟩
      obtain ⟨m, hm, hflaw⟩ := (ih c hc).mp herr
      exact ⟨m, List.mem_flatMap.mpr ⟨c, hc, hm⟩, hflaw⟩
    · rintro ⟨m, hm, hflaw⟩
      obtain ⟨c, hc, hm⟩ := List.mem_flatMap.mp hm
      exact ⟨c, hc, (ih c hc).mpr ⟨m, hm, hflaw⟩⟩

/-! ## Paths -/

mutual

/-- The paths to the node and its descendants, parents before children. -/
def paths : Node → List (List Nat)
  | ⟨_, _, children, _, _, _, _⟩ => [] :: pathsFrom 0 children

/-- The paths that begin with these siblings, the first being child `index`. -/
def pathsFrom (index : Nat) : List Node → List (List Nat)
  | [] => []
  | n :: rest => n.paths.map (index :: ·) ++ pathsFrom (index + 1) rest

end

theorem paths_eq (n : Node) : n.paths = [] :: pathsFrom 0 n.children := by
  cases n
  rfl

theorem pathsFrom_eq (index : Nat) (ns : List Node) :
    pathsFrom index ns = (ns.zipIdx index).flatMap fun (n, i) => n.paths.map (i :: ·) := by
  induction ns generalizing index with
  | nil => rfl
  | cons n ns ih => rw [pathsFrom, ih, List.zipIdx_cons, List.flatMap_cons]

theorem mem_pathsFrom {index : Nat} : path ∈ pathsFrom index ns ↔
    ∃ n i below, (n, i) ∈ ns.zipIdx index ∧ below ∈ n.paths ∧ path = i :: below := by
  rw [pathsFrom_eq, List.mem_flatMap]
  constructor
  · rintro ⟨⟨n, i⟩, hn, hpath⟩
    obtain ⟨below, hbelow, rfl⟩ := List.mem_map.mp hpath
    exact ⟨n, i, below, hn, hbelow, rfl⟩
  · rintro ⟨n, i, below, hn, hbelow, rfl⟩
    exact ⟨(n, i), hn, List.mem_map_of_mem hbelow⟩

/-- The paths are those that lead to a node. -/
theorem mem_paths_iff : path ∈ n.paths ↔ (n.descendant? path).isSome = true := by
  induction n using induction_children generalizing path with
  | parent n ih =>
    rw [paths_eq, List.mem_cons, mem_pathsFrom]
    cases path with
    | nil => simp [descendant?]
    | cons i below =>
      simp only [reduceCtorEq, false_or, List.cons.injEq, descendant?]
      constructor
      · rintro ⟨c, _, _, hc, hbelow, rfl, rfl⟩
        have hc := List.mk_mem_zipIdx_iff_getElem?.mp hc
        rw [hc]
        exact (ih c (List.mem_of_getElem? hc)).mp hbelow
      · intro h
        obtain ⟨m, hm⟩ := Option.isSome_iff_exists.mp h
        obtain ⟨c, hc, hm⟩ := Option.bind_eq_some_iff.mp hm
        have hbelow := (ih c (List.mem_of_getElem? hc)).mpr (Option.isSome_iff_exists.mpr ⟨m, hm⟩)
        exact ⟨c, i, below, List.mk_mem_zipIdx_iff_getElem?.mpr hc, hbelow, rfl, rfl⟩

/-- What is below one sibling comes before what is below the next. -/
theorem pairwise_pathsFrom {index : Nat} (h : ∀ n ∈ ns, n.paths.Pairwise (· < ·)) :
    (pathsFrom index ns).Pairwise (· < ·) := by
  induction ns generalizing index with
  | nil => exact .nil
  | cons n ns ih =>
    obtain ⟨hn, hns⟩ := List.forall_mem_cons.mp h
    rw [pathsFrom, List.pairwise_append]
    refine ⟨?_, ih hns, ?_⟩
    · exact hn.map _ fun _ _ hlt => List.cons_lt_cons_iff.mpr (.inr ⟨rfl, hlt⟩)
    · rintro _ hfirst _ hlater
      obtain ⟨_, _, rfl⟩ := List.mem_map.mp hfirst
      obtain ⟨_, i, _, hi, _, rfl⟩ := mem_pathsFrom.mp hlater
      exact List.cons_lt_cons_iff.mpr (.inl (List.le_snd_of_mem_zipIdx hi))

/-- Paths come in the order of their first different indices, parents before children. -/
theorem pairwise_paths (n : Node) : n.paths.Pairwise (· < ·) := by
  induction n using induction_children with
  | parent n ih =>
    rw [paths_eq, List.pairwise_cons]
    refine ⟨fun path hpath => ?_, pairwise_pathsFrom ih⟩
    obtain ⟨_, _, _, _, _, rfl⟩ := mem_pathsFrom.mp hpath
    exact List.nil_lt_cons _ _

/-- Nodes in pre-order are those at the paths, and they are as deep as their paths are long. -/
theorem map_preorder (depth : Nat) (n : Node) :
    (n.preorder depth).map (fun (d, m) => (d, some m)) =
      n.paths.map fun path => (depth + path.length, n.descendant? path) := by
  induction n using induction_children generalizing depth with
  | parent n ih =>
    -- The recursion only counts depths; paths need the index of each child.
    have hchildren : n.children.flatMap (preorder (depth + 1)) =
        n.children.zipIdx.flatMap fun (c, _) => c.preorder (depth + 1) := by
      conv_lhs => rw [← List.zipIdx_map_fst 0 n.children, List.flatMap_map]
    rw [preorder_eq, paths_eq, List.map_cons, List.map_cons, hchildren, pathsFrom_eq,
      List.map_flatMap, List.map_flatMap]
    refine congrArg ((depth, some n) :: ·) (List.flatMap_congr ?_)
    rintro ⟨c, i⟩ hc
    have hc := List.mk_mem_zipIdx_iff_getElem?.mp hc
    rw [ih c (List.mem_of_getElem? hc), List.map_map]
    apply List.map_congr_left
    intro path _
    simp [descendant?, hc, Nat.add_assoc, Nat.add_comm 1]

/-- A walk meets the node at each path once, in the order of the paths. -/
theorem map_walk (n : Node) : n.walk.map some = n.paths.map n.descendant? := by
  have h := congrArg (List.map (·.2)) (map_preorder 0 n)
  rw [List.map_map, List.map_map] at h
  rw [← map_snd_preorder 0, List.map_map]
  exact h

/-- The walk that starts at a node meets the node and then what walks from its children meet, one
child after the other, and ends. That is every node of the tree, at each path once, in the order of
the paths. There is a flaw in the tree exactly if the walk meets one. -/
theorem walk_meets_each_once (n : Node) :
    (∀ ns, (Walk.start n).Yields ns ↔ ns = n.walk) ∧
    n.walk = n :: n.children.flatMap walk ∧
    n.walk.length = n.size ∧
    n.walk.map some = n.paths.map n.descendant? ∧
    n.paths.Pairwise (· < ·) ∧
    (∀ path, path ∈ n.paths ↔ (n.descendant? path).isSome = true) ∧
    (n.hasError = true ↔ ∃ m ∈ n.walk, m.isError = true ∨ m.missing = true) := by
  have hyields : (Walk.start n).Yields n.walk := Walk.yields_ofPending [n]
  refine ⟨fun ns => ⟨fun h => h.unique hyields, ?_⟩, walk_eq_flatMap n, length_walk n, map_walk n,
    pairwise_paths n, fun _ => mem_paths_iff, hasError_iff n⟩
  rintro rfl
  exact hyields

end Node

end TableParsing
