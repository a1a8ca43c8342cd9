import Mathlib.Data.List.Chain
import Mathlib.Tactic.Common
import TableParsing.Table.Row

/-!
# Lookups in a row

In a row whose entries stand in the strict order of their symbols, halving finds exactly the entry
that is there.
-/
namespace TableParsing.Row

variable {α : Type} {row : Row α} {s : Symbol} {a : α}

/-- The entries stand in the order of their symbols, and no symbol has two. -/
def Sorted (row : Row α) : Prop := row.toList.Pairwise fun a b => a.1.id < b.1.id

theorem sorted_iff_isChain : row.Sorted ↔ row.toList.IsChain fun a b => a.1.id < b.1.id := by
  have : Trans (fun a b : Symbol × α => a.1.id < b.1.id) (fun a b : Symbol × α => a.1.id < b.1.id)
      (fun a b : Symbol × α => a.1.id < b.1.id) := ⟨UInt16.lt_trans⟩
  exact List.isChain_iff_pairwise.symm

theorem Sorted.lt (h : row.Sorted) {i j : Nat} (hij : i < j) (hj : j < row.size) :
    row[i].1.id < row[j].1.id := by
  have hp := List.pairwise_iff_getElem.mp h i j (by simpa using Nat.lt_trans hij hj)
    (by simpa using hj) hij
  simpa using hp

/-- Halving keeps the entry in view until it is the only one. -/
theorem Sorted.seek_eq (h : row.Sorted) {j : Nat} (hj : j < row.size) (hs : row[j].1 = s)
    {steps base size : Nat} (hsteps : size ≤ steps + 1) (hlow : base ≤ j) (hhigh : j < base + size)
    (hsize : base + size ≤ row.size) : seek row s steps base size = j := by
  induction steps generalizing base size with
  | zero =>
    simp only [seek]
    omega
  | succ steps ih =>
    simp only [seek]
    split
    · omega
    · rename_i hgt
      have hm : base + size / 2 < row.size := by omega
      rw [Array.getElem?_eq_getElem hm]
      dsimp only
      split
      · rename_i hlt
        have hjm : j < base + size / 2 := by
          by_contra hge
          rcases Nat.eq_or_lt_of_le (Nat.le_of_not_lt hge) with he | hl
          · simp only [he, hs] at hlt
            exact absurd hlt (UInt16.lt_irrefl _)
          · have := h.lt hl hj
            rw [hs] at this
            exact absurd (UInt16.lt_trans hlt this) (UInt16.lt_irrefl _)
        apply ih <;> omega
      · rename_i hnlt
        have hmj : base + size / 2 ≤ j := by
          by_contra hlt
          have := h.lt (Nat.lt_of_not_le hlt) hm
          rw [hs] at this
          exact hnlt this
        change seek row s steps (base + size / 2) (size - size / 2) = j
        apply ih <;> omega

theorem mem_of_find? (h : find? row s = some a) : (s, a) ∈ row.toList := by
  unfold find? at h
  split at h
  · rename_i entry he
    split at h
    · rename_i hs
      cases h
      subst hs
      exact Array.mem_toList_iff.mpr (Array.mem_of_getElem? he)
    · cases h
  · cases h

/-- A lookup gives exactly the entry of the symbol. -/
theorem Sorted.find?_iff (h : row.Sorted) : find? row s = some a ↔ (s, a) ∈ row.toList := by
  refine ⟨mem_of_find?, fun hm => ?_⟩
  obtain ⟨j, hj, he⟩ := List.mem_iff_getElem.mp hm
  have hj' : j < row.size := by simpa using hj
  have he' : row[j] = (s, a) := by simpa using he
  have hseek : seek row s row.size 0 row.size = j :=
    h.seek_eq hj' (by rw [he']) (by omega) (Nat.zero_le _) (by omega) (by omega)
  simp only [find?, hseek, Array.getElem?_eq_getElem hj', he', ite_true]

/-- Of the symbols of a row the first one with a property is the lowest. -/
theorem Sorted.le_of_find?_keys {p : Symbol → Bool} {other : Symbol} (h : row.Sorted)
    (hf : row.keys.find? p = some s) (hmem : other ∈ row.keys) (hp : p other = true) :
    s.id ≤ other.id := by
  have hkeys : row.keys.Pairwise fun a b => a.id < b.id := List.pairwise_map.mpr h
  obtain ⟨_, before, behind, heq, hbefore⟩ := List.find?_eq_some_iff_append.mp hf
  rw [heq] at hmem hkeys
  rcases List.mem_append.mp hmem with hmem | hmem
  · have hnot := hbefore other hmem
    rw [hp] at hnot
    cases hnot
  · rcases List.mem_cons.mp hmem with rfl | hmem
    · exact UInt16.le_refl _
    · have hbehind := (List.pairwise_append.mp hkeys).2.1
      exact UInt16.le_of_lt (List.rel_of_pairwise_cons hbehind hmem)

/-- The entry of a symbol is the first one. -/
theorem Sorted.lookup_of_find? (h : row.Sorted) (hf : find? row s = some a) :
    lookup s row.toList = some a := by
  have hm := mem_of_find? hf
  unfold Sorted at h
  generalize row.toList = entries at h hm
  induction entries with
  | nil => cases hm
  | cons entry rest ih =>
    rcases List.pairwise_cons.mp h with ⟨hlt, hrest⟩
    rw [lookup]
    rcases List.mem_cons.mp hm with rfl | hm
    · simp
    · have hne : entry.1 ≠ s := by
        rintro rfl
        exact UInt16.lt_irrefl _ (hlt (entry.1, a) hm)
      rw [if_neg hne]
      exact ih hrest hm

theorem mem_of_lookup {entries : List (Symbol × α)} (h : lookup s entries = some a) :
    (s, a) ∈ entries := by
  induction entries with
  | nil => cases h
  | cons entry rest ih =>
    rw [lookup] at h
    split at h
    · rename_i hs
      cases h
      exact hs ▸ List.mem_cons_self
    · exact List.mem_cons_of_mem _ (ih h)

/-- Halving finds what a search from the front finds. -/
theorem Sorted.find?_eq_lookup (h : row.Sorted) (s : Symbol) :
    find? row s = lookup s row.toList :=
  Option.ext fun _ => ⟨h.lookup_of_find?, fun hl => h.find?_iff.mpr (mem_of_lookup hl)⟩

/-! ## Rows built by insertion -/

/-- The entries of a row are those that were added, in the order of their symbols; those of one
symbol stand in the order in which they were added. -/
structure Collects (row : Row α) (added : List (Symbol × α)) : Prop where
  perm : row.toList.Perm added
  ordered : row.toList.Pairwise fun a b => a.1.id ≤ b.1.id
  stable : ∀ s, row.toList.filter (·.1 = s) = added.filter (·.1 = s)

variable {entry : Symbol × α} {entries added : List (Symbol × α)}

theorem insertInto_perm (entry : Symbol × α) (entries : List (Symbol × α)) :
    (insertInto entry entries).Perm (entries ++ [entry]) := by
  induction entries with
  | nil => exact .refl _
  | cons other rest ih =>
    rw [insertInto]
    split
    · exact ih.cons other
    · exact (List.perm_append_singleton entry (other :: rest)).symm

theorem insertInto_ordered (h : entries.Pairwise fun a b => a.1.id ≤ b.1.id) :
    (insertInto entry entries).Pairwise fun a b => a.1.id ≤ b.1.id := by
  induction entries with
  | nil => exact List.pairwise_singleton _ _
  | cons other rest ih =>
    obtain ⟨hother, hrest⟩ := List.pairwise_cons.mp h
    rw [insertInto]
    split
    · rename_i hle
      refine List.pairwise_cons.mpr ⟨fun e he => ?_, ih hrest⟩
      rcases mem_insertInto.mp he with rfl | he
      · exact hle
      · exact hother e he
    · rename_i hnle
      have hlt := UInt16.le_of_lt (UInt16.not_le.mp hnle)
      refine List.pairwise_cons.mpr ⟨fun e he => ?_, h⟩
      rcases List.mem_cons.mp he with rfl | he
      · exact hlt
      · exact UInt16.le_trans hlt (hother e he)

/-- An entry is put behind all those of its symbol, and in an ordered row behind them stand only
entries of greater symbols. -/
theorem filter_insertInto (h : entries.Pairwise fun a b => a.1.id ≤ b.1.id) (s : Symbol) :
    (insertInto entry entries).filter (·.1 = s) = (entries ++ [entry]).filter (·.1 = s) := by
  induction entries with
  | nil => rfl
  | cons other rest ih =>
    obtain ⟨hother, hrest⟩ := List.pairwise_cons.mp h
    rw [insertInto]
    split
    · rw [List.cons_append, List.filter_cons, List.filter_cons, ih hrest]
    · rename_i hnle
      have hne : ∀ e ∈ other :: rest, e.1 ≠ entry.1 := by
        intro e he heq
        rw [← heq] at hnle
        rcases List.mem_cons.mp he with rfl | he
        · exact hnle (UInt16.le_refl _)
        · exact hnle (hother e he)
      rw [List.filter_append]
      by_cases hs : entry.1 = s
      · subst hs
        have hnone : (other :: rest).filter (·.1 = entry.1) = [] :=
          List.filter_eq_nil_iff.mpr fun e he => by simpa using hne e he
        rw [List.filter_cons_of_pos (by simp), hnone, List.filter_cons_of_pos (by simp)]
        rfl
      · have hskip : (entry :: other :: rest).filter (·.1 = s) = (other :: rest).filter (·.1 = s) :=
          List.filter_cons_of_neg (by simpa using hs)
        have hnone : [entry].filter (·.1 = s) = [] := List.filter_cons_of_neg (by simpa using hs)
        rw [hskip, hnone, List.append_nil]

theorem collects_empty : Collects (#[] : Row α) [] := ⟨.nil, .nil, fun _ => rfl⟩

theorem Collects.insert (h : row.Collects added) (s : Symbol) (a : α) :
    (row.insert s a).Collects (added ++ [(s, a)]) where
  perm := (insertInto_perm _ _).trans (h.perm.append_right _)
  ordered := insertInto_ordered h.ordered
  stable s' := by
    rw [List.filter_append, ← h.stable s', ← List.filter_append]
    exact filter_insertInto h.ordered s'

theorem mem_of_filter_eq {other : List (Symbol × α)}
    (hf : ∀ s, entries.filter (·.1 = s) = other.filter (·.1 = s)) (h : entry ∈ entries) :
    entry ∈ other := by
  have he : entry ∈ entries.filter (·.1 = entry.1) := List.mem_filter.mpr ⟨h, by simp⟩
  rw [hf] at he
  exact List.mem_of_mem_filter he

theorem le_of_ordered {first : Symbol × α}
    (h : (first :: entries).Pairwise fun a b => a.1.id ≤ b.1.id) (he : entry ∈ first :: entries) :
    first.1.id ≤ entry.1.id := by
  rcases List.mem_cons.mp he with rfl | he
  · exact UInt16.le_refl _
  · exact (List.pairwise_cons.mp h).1 entry he

/-- Order and stability leave no choice. -/
theorem eq_of_ordered {other : List (Symbol × α)} (h : entries.Pairwise fun a b => a.1.id ≤ b.1.id)
    (ho : other.Pairwise fun a b => a.1.id ≤ b.1.id)
    (hf : ∀ s, entries.filter (·.1 = s) = other.filter (·.1 = s)) : entries = other := by
  induction entries generalizing other with
  | nil =>
    cases other with
    | nil => rfl
    | cons e' _ => cases mem_of_filter_eq (fun s => (hf s).symm) (List.mem_cons_self (a := e'))
  | cons e rest ih =>
    cases other with
    | nil => cases mem_of_filter_eq hf (List.mem_cons_self (a := e))
    | cons e' rest' =>
      have hle := le_of_ordered h (mem_of_filter_eq (fun s => (hf s).symm) List.mem_cons_self)
      have hge := le_of_ordered ho (mem_of_filter_eq hf List.mem_cons_self)
      have hkey : e'.1 = e.1 := congrArg Symbol.mk (UInt16.le_antisymm hge hle)
      have hhead := hf e.1
      rw [List.filter_cons_of_pos (by simp), List.filter_cons_of_pos (by simpa using hkey)] at hhead
      obtain ⟨rfl, _⟩ := List.cons.inj hhead
      rw [ih (List.pairwise_cons.mp h).2 (List.pairwise_cons.mp ho).2 fun s => ?_]
      have hs := hf s
      simp only [List.filter_cons] at hs
      split at hs
      · exact (List.cons.inj hs).2
      · exact hs

/-- Sorting by symbol, where entries of one symbol keep their order. -/
def sortEntries (entries : List (Symbol × α)) : List (Symbol × α) :=
  entries.mergeSort fun a b => decide (a.1.id ≤ b.1.id)

theorem sortEntries_ordered (entries : List (Symbol × α)) :
    (sortEntries entries).Pairwise fun a b => a.1.id ≤ b.1.id := by
  have h : (sortEntries entries).Pairwise fun a b => decide (a.1.id ≤ b.1.id) = true :=
    List.pairwise_mergeSort (fun a b c => by simpa using UInt16.le_trans)
      (fun a b => by simpa using UInt16.le_total _ _) entries
  exact h.imp of_decide_eq_true

theorem filter_sortEntries (entries : List (Symbol × α)) (s : Symbol) :
    (sortEntries entries).filter (·.1 = s) = entries.filter (·.1 = s) := by
  have hsame : (entries.filter (·.1 = s)).Pairwise fun a b => decide (a.1.id ≤ b.1.id) = true := by
    refine List.pairwise_of_forall_mem_list fun a ha b hb => ?_
    have hab : a.1 = b.1 := by
      rw [of_decide_eq_true (List.mem_filter.mp ha).2, of_decide_eq_true (List.mem_filter.mp hb).2]
    rw [hab]
    exact decide_eq_true (UInt16.le_refl _)
  have hsub : (entries.filter (·.1 = s)).Sublist (sortEntries entries) :=
    List.sublist_mergeSort (fun a b c => by simpa using UInt16.le_trans)
      (fun a b => by simpa using UInt16.le_total _ _) hsame List.filter_sublist
  have hfilter := hsub.filter (·.1 = s)
  rw [List.filter_filter] at hfilter
  simp only [Bool.and_self] at hfilter
  exact (hfilter.eq_of_length ((List.mergeSort_perm entries _).filter _).length_eq.symm).symm

/-- On a row in order, inserting an entry comes to appending it and sorting the row. -/
theorem insert_eq_sortEntries (h : row.toList.Pairwise fun a b => a.1.id ≤ b.1.id) (s : Symbol)
    (a : α) : row.insert s a = (sortEntries (row.toList ++ [(s, a)])).toArray := by
  refine congrArg List.toArray (eq_of_ordered (insertInto_ordered h) (sortEntries_ordered _) ?_)
  intro s'
  rw [filter_insertInto h, filter_sortEntries]

theorem sorted_iff_keys : row.Sorted ↔ row.keys.Pairwise fun a b => a.id < b.id := by
  rw [keys, List.pairwise_map]
  rfl

theorem Sorted.nodup_keys (h : row.Sorted) : row.keys.Nodup :=
  (sorted_iff_keys.mp h).imp fun hlt => by
    rintro rfl
    exact UInt16.lt_irrefl _ hlt

/-- Without repeated symbols the order is strict. -/
theorem Collects.sorted (h : row.Collects added) (hd : row.keys.Nodup) : row.Sorted := by
  have hle : row.keys.Pairwise fun a b => a.id ≤ b.id := List.pairwise_map.mpr h.ordered
  refine sorted_iff_keys.mpr ((hle.and hd).imp ?_)
  rintro ⟨i⟩ ⟨j⟩ ⟨hle, hne⟩
  exact UInt16.lt_of_le_of_ne hle fun he => hne (congrArg Symbol.mk he)

end TableParsing.Row
