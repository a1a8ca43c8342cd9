import Mathlib.Tactic.Common
import TableParsing.Parser.Stack

/-!
# The two views of a stack

Simulations read the path of the real entries, the parser reads the state of the newest entry.
Extras that bear the state of what is below them keep the two in step.
-/
namespace TableParsing.Stack

variable {s rest : Stack} {n : Node} {count : Nat}

/-- Every extra bears the state of what is below it. -/
def Coherent : Stack → Prop
  | [] => True
  | e :: s => (e.node.extra = true → e.state = topState s) ∧ Coherent s

theorem Coherent.path_eq (h : Coherent s) : ∃ below, s.path = s.topState :: below := by
  induction s with
  | nil => exact ⟨[], rfl⟩
  | cons e s ih =>
    obtain ⟨he, hs⟩ := h
    cases hx : e.node.extra with
    | false => exact ⟨path s, by simp [path, hx, topState]⟩
    | true =>
      obtain ⟨below, hb⟩ := ih hs
      exact ⟨below, by simp [path, hx, topState, he hx, hb]⟩

theorem Coherent.of_suffix (hs : rest <:+ s) (h : Coherent s) : Coherent rest := by
  obtain ⟨front, rfl⟩ := hs
  induction front with
  | nil => exact h
  | cons e front ih => exact ih h.2

theorem Coherent.shift (h : Coherent s) (state : StateId) (hn : n.extra = false) :
    Coherent (s.shift state n) := by
  refine ⟨fun hx => ?_, h⟩
  rw [hn] at hx
  cases hx

theorem Coherent.pushExtra (h : Coherent s) (n : Node) : Coherent (s.pushExtra n) :=
  ⟨fun _ => rfl, h⟩

theorem Coherent.pushExtras (h : Coherent s) (extras : List Node) :
    Coherent (s.pushExtras extras) := by
  induction extras generalizing s with
  | nil => exact h
  | cons n rest ih => exact ih (h.pushExtra n)

theorem nodes_cons (e : Entry) (s : Stack) : nodes (e :: s) = s.nodes ++ [e.node] := by
  simp [nodes]

theorem popExtras_suffix (s : Stack) : s.popExtras.2 <:+ s := List.dropWhile_suffix _

theorem popExtras_extra (s : Stack) : ∀ n ∈ s.popExtras.1, n.extra = true := by
  intro n hn
  simp only [popExtras, nodes, List.mem_reverse, List.mem_map] at hn
  obtain ⟨e, he, rfl⟩ := hn
  exact List.all_eq_true.mp (List.all_takeWhile) e he

/-- An extra stays as it is when it is pushed. -/
theorem with_extra (h : n.extra = true) : { n with extra := true } = n := by
  cases n
  cases h
  rfl

/-- Extras pushed back after a pop are the nodes that they were. -/
theorem nodes_pushExtras {extras : List Node} (h : ∀ n ∈ extras, n.extra = true) (s : Stack) :
    (s.pushExtras extras).nodes = s.nodes ++ extras := by
  induction extras generalizing s with
  | nil => simp [pushExtras]
  | cons n extras ih =>
    have hn := with_extra (h n List.mem_cons_self)
    change ((s.pushExtra n).pushExtras extras).nodes = _
    rw [ih (fun m hm => h m (List.mem_cons_of_mem _ hm)), nodes_pushExtra, hn,
      List.append_assoc, List.singleton_append]

theorem popExtras_shift (s : Stack) (state : StateId) (h : n.extra = false) :
    (s.shift state n).popExtras.1 = [] := by
  simp [popExtras, shift, h, nodes]

/-- Extras are pushed above those that are there. -/
theorem popExtras_pushExtras {extras : List Node} (h : ∀ n ∈ extras, n.extra = true) (s : Stack) :
    (s.pushExtras extras).popExtras.1 = s.popExtras.1 ++ extras := by
  induction extras generalizing s with
  | nil => simp [pushExtras]
  | cons n extras ih =>
    have hx : n.extra = true := h n List.mem_cons_self
    have hpush : (s.pushExtra n).popExtras.1 = s.popExtras.1 ++ [n] := by
      have htake : (⟨topState s, n⟩ :: s : Stack).takeWhile (·.node.extra) =
          ⟨topState s, n⟩ :: s.takeWhile (·.node.extra) :=
        List.takeWhile_cons_of_pos hx
      rw [pushExtra, with_extra hx, popExtras, htake]
      exact nodes_cons _ _
    change ((s.pushExtra n).pushExtras extras).popExtras.1 = _
    rw [ih (fun m hm => h m (List.mem_cons_of_mem _ hm)), hpush, List.append_assoc,
      List.singleton_append]

theorem popChildren_zero (s : Stack) (popped : List Node) :
    popChildren 0 s popped = (popped, s) := by
  cases s <;> rfl

theorem popChildren_suffix (count : Nat) (s : Stack) (popped : List Node) :
    (popChildren count s popped).2 <:+ s := by
  induction s generalizing count popped with
  | nil => cases count <;> exact List.suffix_rfl
  | cons e s ih =>
    cases count with
    | zero => exact List.suffix_rfl
    | succ count => exact (ih _ _).trans (List.suffix_cons e s)

/-- Popping children removes as many states, if one remains. -/
theorem path_popChildren (h : count < s.path.length) (popped : List Node) :
    path (popChildren count s popped).2 = s.path.drop count := by
  induction s generalizing count popped with
  | nil =>
    obtain rfl : count = 0 := by simp only [path, List.length_singleton] at h; omega
    rfl
  | cons e s ih =>
    cases count with
    | zero => rfl
    | succ count =>
      cases hx : e.node.extra with
      | true =>
        simp only [path, hx, ite_true] at h ⊢
        simp only [popChildren, hx, ite_true]
        exact ih h _
      | false =>
        simp only [path, hx, Bool.false_eq_true, ite_false, List.length_cons,
          List.drop_succ_cons] at h ⊢
        simp only [popChildren, hx, Bool.false_eq_true, ite_false]
        exact ih (by omega) _

theorem countP_popChildren (h : count < s.path.length) (popped : List Node) :
    (popChildren count s popped).1.countP (!·.extra) = count + popped.countP (!·.extra) := by
  induction s generalizing count popped with
  | nil =>
    obtain rfl : count = 0 := by simp only [path, List.length_singleton] at h; omega
    simp [popChildren]
  | cons e s ih =>
    cases count with
    | zero => simp [popChildren]
    | succ count =>
      cases hx : e.node.extra with
      | true =>
        simp only [path, hx, ite_true] at h
        simp only [popChildren, hx, ite_true]
        rw [ih h]
        simp [hx]
      | false =>
        simp only [path, hx, Bool.false_eq_true, ite_false, List.length_cons] at h
        simp only [popChildren, hx, Bool.false_eq_true, ite_false]
        rw [ih (by omega)]
        simp only [List.countP_cons, hx, Bool.not_false, ite_true]
        omega

/-- The first of the popped nodes is real. -/
theorem popChildren_first {popped : List Node} (hcount : count ≠ 0)
    (h : (popChildren count s popped).1.countP (!·.extra) = count + popped.countP (!·.extra)) :
    ∀ n ∈ (popChildren count s popped).1.head?, n.extra = false := by
  induction s generalizing count popped with
  | nil =>
    cases count with
    | zero => exact absurd rfl hcount
    | succ count =>
      simp only [popChildren] at h
      omega
  | cons e s ih =>
    cases count with
    | zero => exact absurd rfl hcount
    | succ count =>
      rw [popChildren] at h ⊢
      cases hx : e.node.extra with
      | true =>
        rw [hx, if_pos rfl] at h
        exact ih hcount (by rw [if_pos rfl, h]; simp [hx])
      | false =>
        rw [hx, if_neg Bool.false_ne_true] at h
        rw [if_neg Bool.false_ne_true]
        by_cases hzero : count = 0
        · subst hzero
          rw [popChildren_zero]
          exact fun n hn => Option.some.inj hn ▸ hx
        · refine ih hzero (h.trans ?_)
          simp only [List.countP_cons, hx, Bool.not_false, ite_true]
          omega

/-- What a split removes and keeps, and what holds of the kept path. -/
theorem splitWhere_eq_some {p : List StateId → Bool} {removed out : List Entry}
    (h : splitWhere p removed s = some (out, rest)) :
    p rest.path = true ∧ ∃ front, front ≠ [] ∧ s = front ++ rest ∧ out = front.reverse ++ removed := by
  induction s generalizing removed with
  | nil => cases h
  | cons e s ih =>
    rw [splitWhere] at h
    split at h
    · rename_i hp
      cases h
      exact ⟨hp, [e], by simp, rfl, rfl⟩
    · obtain ⟨hp, front, _, rfl, rfl⟩ := ih h
      exact ⟨hp, e :: front, by simp, rfl, by simp⟩

/-- Of the splits that leave a path with the property, the one made removes the fewest entries. -/
theorem splitWhere_fewest {p : List StateId → Bool} {removed out front : List Entry} {below : Stack}
    (h : splitWhere p removed s = some (out, rest)) (hs : s = front ++ below) (hf : front ≠ [])
    (hp : p below.path = true) : below.length ≤ rest.length := by
  induction s generalizing removed front with
  | nil => cases h
  | cons e s ih =>
    obtain ⟨rfl, _⟩ | ⟨front, rfl, hb⟩ := List.cons_eq_append_iff.mp hs
    · exact absurd rfl hf
    rw [splitWhere] at h
    split at h
    · cases h
      simp [hb]
    · rename_i hns
      refine ih h hb ?_
      rintro rfl
      exact hns (hb ▸ hp)

/-- No split is made exactly if none leaves a path with the property. -/
theorem splitWhere_eq_none_iff {p : List StateId → Bool} {removed : List Entry} :
    splitWhere p removed s = none ↔
      ∀ front below, s = front ++ below → front ≠ [] → ¬p (path below) = true := by
  induction s generalizing removed with
  | nil =>
    refine iff_of_true rfl fun front below hs hf => ?_
    exact absurd (List.append_eq_nil_iff.mp hs.symm).1 hf
  | cons e s ih =>
    rw [splitWhere]
    split
    · rename_i hp
      refine iff_of_false (fun h => by cases h) fun h => ?_
      exact h [e] s rfl (List.cons_ne_nil _ _) hp
    · rename_i hp
      rw [ih]
      constructor
      · intro h front below hs hf
        obtain ⟨rfl, _⟩ | ⟨front, rfl, hb⟩ := List.cons_eq_append_iff.mp hs
        · exact absurd rfl hf
        · cases front with
          | nil =>
            obtain rfl : s = below := hb
            exact hp
          | cons => exact h _ below hb (List.cons_ne_nil _ _)
      · intro h front below hs _
        exact h (e :: front) below (by rw [hs, List.cons_append]) (List.cons_ne_nil _ _)

theorem suffix_of_splitWhere {p : List StateId → Bool} {removed out : List Entry}
    (h : splitWhere p removed s = some (out, rest)) : rest <:+ s := by
  obtain ⟨_, front, _, hs, _⟩ := splitWhere_eq_some h
  exact ⟨front, hs.symm⟩

/-- The nodes that a split removes stood behind those that it keeps. -/
theorem nodes_of_splitWhere {p : List StateId → Bool} {removed : List Entry}
    (h : splitWhere p [] s = some (removed, rest)) :
    removed ≠ [] ∧ s.nodes = rest.nodes ++ removed.map (·.node) := by
  obtain ⟨_, front, hne, rfl, rfl⟩ := splitWhere_eq_some h
  exact ⟨by simpa using hne, by simp [nodes]⟩

end TableParsing.Stack
