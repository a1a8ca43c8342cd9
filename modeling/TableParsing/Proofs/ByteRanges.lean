import TableParsing.Proofs.Leaves
import TableParsing.Proofs.Spans

/-!
# Nodes around a byte range

The nodes of a nested tree that reach around a range lie on one way down from the root, because a
node reaches as far as its children and no two siblings reach beyond the same offset. So the descent,
which takes the first child that reaches around the range and never turns back, ends at the innermost
of them.
-/
namespace TableParsing

namespace Node

variable {lo hi start stop : Nat} {m n c : Node} {ns : List Node} {path : List Nat}

structure Around (start stop : Nat) (n : Node) : Prop where
  start_le : n.span.start ≤ start
  le_stop : stop ≤ n.span.stop
  lt_stop : start < n.span.stop

theorem reachesAround_iff : n.reachesAround start stop = true ↔ n.Around start stop := by
  simp only [reachesAround, Bool.and_eq_true, decide_eq_true_eq]
  exact ⟨fun ⟨⟨h1, h2⟩, h3⟩ => ⟨h1, h2, h3⟩, fun ⟨h1, h2, h3⟩ => ⟨⟨h1, h2⟩, h3⟩⟩

theorem Around.parent (h : n.Nested) (hc : c ∈ n.children) (hr : c.Around start stop) :
    n.Around start stop := by
  obtain ⟨h1, _, h3⟩ := (nested_iff.mp h).1.bounds hc
  exact ⟨Nat.le_trans h1 hr.start_le, Nat.le_trans hr.le_stop h3, Nat.lt_of_lt_of_le hr.lt_stop h3⟩

theorem Around.above (h : n.Nested) (hm : n.descendant? path = some m)
    (hr : m.Around start stop) : n.Around start stop := by
  induction path generalizing n with
  | nil =>
    cases hm
    exact hr
  | cons i path ih =>
    obtain ⟨c, hc, hm⟩ := Option.bind_eq_some_iff.mp hm
    have hmem := List.mem_of_getElem? hc
    exact .parent h hmem (ih ((nested_iff.mp h).2 c hmem) hm)

/-- Of nodes in order only one reaches beyond an offset from before it. -/
theorem Between.index_unique (h : Between lo hi ns) {i j : Nat} (hm : ns[i]? = some m)
    (hn : ns[j]? = some n) (hrm : m.Around start stop) (hrn : n.Around start stop) : i = j := by
  have apart {i j : Nat} {m n : Node} (hij : i < j) (hm : ns[i]? = some m) (hn : ns[j]? = some n) :
      m.span.stop ≤ n.span.start := by
    obtain ⟨hi, rfl⟩ := List.getElem?_eq_some_iff.mp hm
    obtain ⟨hj, rfl⟩ := List.getElem?_eq_some_iff.mp hn
    exact List.pairwise_iff_getElem.mp h.pairwise i j hi hj hij
  rcases Nat.lt_trichotomy i j with hij | hij | hij
  · have := apart hij hm hn
    have := hrm.lt_stop
    have := hrn.start_le
    omega
  · exact hij
  · have := apart hij hn hm
    have := hrn.lt_stop
    have := hrm.start_le
    omega

/-- The way that the descent takes leads past every node around the range. -/
theorem exists_descent (h : n.Nested) (start stop : Nat) : ∃ path,
    n.descendant? path = some (n.descendantForByteRange start stop) ∧
      (path ≠ [] → (n.descendantForByteRange start stop).Around start stop) ∧
      ∀ path' m, n.descendant? path' = some m → m.Around start stop → path' <+: path := by
  induction h with
  | @intro n hb hc ih =>
    have hbelow {i : Nat} {path' : List Nat} {m : Node} (hm : n.descendant? (i :: path') = some m)
        (hr : m.Around start stop) : ∃ c, n.children[i]? = some c ∧
          c.descendant? path' = some m ∧ c.Around start stop := by
      obtain ⟨c, hi, hm⟩ := Option.bind_eq_some_iff.mp hm
      exact ⟨c, hi, hm, hr.above (hc c (List.mem_of_getElem? hi)) hm⟩
    unfold descendantForByteRange
    split
    · rename_i child hfind
      have hchild := List.mem_of_find?_eq_some hfind
      have hfound := List.find?_some hfind
      have haround := reachesAround_iff.mp hfound
      obtain ⟨path, hpath, hdeep, hall⟩ := ih child hchild
      obtain ⟨i, hi⟩ := List.mem_iff_getElem?.mp hchild
      refine ⟨i :: path, Option.bind_eq_some_iff.mpr ⟨child, hi, hpath⟩, fun _ => ?_,
        fun path' m hm hr => ?_⟩
      · by_cases hp : path = []
        · subst hp
          exact Option.some.inj hpath ▸ haround
        · exact hdeep hp
      · cases path' with
        | nil => exact List.nil_prefix
        | cons j path' =>
          obtain ⟨c, hj, hm, hrc⟩ := hbelow hm hr
          obtain rfl := hb.index_unique hj hi hrc haround
          obtain rfl := Option.some.inj (hj.symm.trans hi)
          exact List.cons_prefix_cons.mpr ⟨rfl, hall path' m hm hr⟩
    · rename_i hfind
      refine ⟨[], rfl, fun hp => absurd rfl hp, fun path' m hm hr => ?_⟩
      cases path' with
      | nil => exact List.nil_prefix
      | cons j path' =>
        obtain ⟨c, hj, _, hrc⟩ := hbelow hm hr
        have hnone := List.find?_eq_none.mp hfind c (List.mem_of_getElem? hj)
        exact absurd (reachesAround_iff.mpr hrc) hnone

end Node

namespace Parser

/-- The nodes of a tree around a range all stand on the way from the root to the node that the descent
finds, and that one is around the range too, unless the descent stays at the root. -/
theorem parse_descendantForByteRange (p : Parser) (text : Text) (start stop : Nat) :
    let root := (p.parse text).root
    ∃ path, root.descendant? path = some (root.descendantForByteRange start stop) ∧
      (path ≠ [] → (root.descendantForByteRange start stop).Around start stop) ∧
      ∀ path' m, root.descendant? path' = some m → m.Around start stop → path' <+: path :=
  Node.exists_descent (p.parse_root_nested text).2 start stop

/-- In a text that is one word the descent leads past the program to the word. -/
theorem parse_descendantForByteRange_word :
    let root := (Word.parser.parse #[0x61]).root
    let word := Node.leaf Word.word ⟨0, 1⟩ true
    root.descendant? [0] = some word ∧ word.Around 0 1 ∧
      ∃ path, root.descendant? path = some (root.descendantForByteRange 0 1) ∧ [0] <+: path := by
  intro root word
  have hword : root.descendant? [0] = some word := by
    simp only [root, Word.parse_letter]
    rfl
  have haround : word.Around 0 1 := ⟨by decide, by decide, by decide⟩
  obtain ⟨path, hpath, _, hall⟩ := Word.parser.parse_descendantForByteRange #[0x61] 0 1
  exact ⟨hword, haround, path, hpath, hall [0] word hword haround⟩

end Parser

end TableParsing
