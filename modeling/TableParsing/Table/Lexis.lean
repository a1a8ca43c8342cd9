import TableParsing.Table.Symbol

/-!
# Lexer states

Byte ranges and the states of the automaton that recognises tokens.
-/
namespace TableParsing

/-- Both ends belong to the range. -/
structure ByteRange where
  lo : UInt8
  hi : UInt8
deriving DecidableEq, Inhabited

namespace ByteRange

def single (b : UInt8) : ByteRange := ⟨b, b⟩

def contains (r : ByteRange) (b : UInt8) : Bool := decide (r.lo ≤ b) && decide (b ≤ r.hi)

theorem contains_eq_true_iff {r : ByteRange} {b : UInt8} :
    r.contains b = true ↔ r.lo ≤ b ∧ b ≤ r.hi := by
  simp [contains]

end ByteRange

structure LexState where
  accept : Option Symbol
  transitions : List (ByteRange × LexStateId)
deriving DecidableEq, Inhabited

namespace LexState

def empty : LexState := ⟨none, []⟩

def accepting (s : Symbol) : LexState := ⟨some s, []⟩

def on (st : LexState) (lo hi : UInt8) (next : LexStateId) : LexState :=
  { st with transitions := st.transitions ++ [(⟨lo, hi⟩, next)] }

def onByte (st : LexState) (b : UInt8) (next : LexStateId) : LexState := st.on b b next

/-- Covers the bytes from `lo` on that are not excluded, gap by gap. -/
def allExceptFrom (next : LexStateId) (lo : Nat) : List UInt8 → LexState → LexState
  | [], st => if lo ≤ 0xFF then st.on (UInt8.ofNat lo) 0xFF next else st
  | b :: rest, st =>
    allExceptFrom next (b.toNat + 1) rest
      (if lo < b.toNat then st.on (UInt8.ofNat lo) (b - 1) next else st)

/-- Moves to `next` on every byte that is not excluded and has no transition yet; the excluded bytes
are sorted. -/
def allExcept (st : LexState) (excluded : List UInt8) (next : LexStateId) : LexState :=
  allExceptFrom next 0 excluded st

/-- The first range that contains the byte decides. -/
def next? (st : LexState) (b : UInt8) : Option LexStateId :=
  (st.transitions.find? (·.1.contains b)).map (·.2)

/-- A new range decides only where no older one does. -/
theorem next?_on (st : LexState) (lo hi : UInt8) (next : LexStateId) (b : UInt8) :
    (st.on lo hi next).next? b =
      (st.next? b).or (if ByteRange.contains ⟨lo, hi⟩ b then some next else none) := by
  simp only [next?, on, List.find?_append, List.find?_singleton]
  cases st.transitions.find? (·.1.contains b) with
  | some t => rfl
  | none => cases ByteRange.contains ⟨lo, hi⟩ b <;> rfl

/-- A new range up to the byte before `e` or, if `lo` is not below `e`, none. -/
theorem next?_gap (st : LexState) (next : LexStateId) (b e : UInt8) (lo : Nat) :
    (if lo < e.toNat then st.on (UInt8.ofNat lo) (e - 1) next else st).next? b =
      (st.next? b).or (if lo ≤ b.toNat ∧ b < e then some next else none) := by
  have he := e.toNat_lt
  by_cases hlt : lo < e.toNat
  · have hnat : (UInt8.ofNat lo).toNat = lo := UInt8.toNat_ofNat_of_lt' (Nat.lt_trans hlt he)
    have hone : (1 : UInt8) ≤ e := UInt8.le_iff_toNat_le.mpr (Nat.lt_of_le_of_lt (Nat.zero_le lo) hlt)
    have hbefore : (e - 1).toNat = e.toNat - 1 := UInt8.toNat_sub_of_le _ _ hone
    have hcontains : ByteRange.contains ⟨UInt8.ofNat lo, e - 1⟩ b = true ↔ lo ≤ b.toNat ∧ b < e := by
      rw [ByteRange.contains_eq_true_iff, UInt8.le_iff_toNat_le, UInt8.le_iff_toNat_le,
        UInt8.lt_iff_toNat_lt, hnat, hbefore]
      omega
    simp only [if_pos hlt, next?_on, hcontains]
  · have hempty : ¬(lo ≤ b.toNat ∧ b < e) := by
      rw [UInt8.lt_iff_toNat_lt]
      omega
    rw [if_neg hlt, if_neg hempty, Option.or_none]

/-- Of a repeated byte the second leaves no gap, so `lo` may already stand behind the first byte. -/
theorem next?_allExceptFrom (st : LexState) (next : LexStateId) (b : UInt8) {lo : Nat}
    {excluded : List UInt8} (hsorted : excluded.Pairwise (· ≤ ·))
    (hlo : ∀ e ∈ excluded, lo ≤ e.toNat + 1) : (allExceptFrom next lo excluded st).next? b =
      (st.next? b).or (if lo ≤ b.toNat ∧ b ∉ excluded then some next else none) := by
  induction excluded generalizing lo st with
  | nil =>
    have hb := b.toNat_lt
    rw [allExceptFrom]
    by_cases hle : lo ≤ 0xFF
    · have hnat : (UInt8.ofNat lo).toNat = lo := UInt8.toNat_ofNat_of_lt' (Nat.lt_succ_of_le hle)
      have hcontains : ByteRange.contains ⟨UInt8.ofNat lo, 0xFF⟩ b = true ↔ lo ≤ b.toNat := by
        rw [ByteRange.contains_eq_true_iff, UInt8.le_iff_toNat_le, UInt8.le_iff_toNat_le, hnat]
        exact and_iff_left (Nat.le_of_lt_succ hb)
      simp only [if_pos hle, next?_on, hcontains, List.not_mem_nil, not_false_eq_true, and_true]
    · rw [if_neg hle, if_neg (by omega), Option.or_none]
  | cons e excluded ih =>
    obtain ⟨hhead, htail⟩ := List.pairwise_cons.mp hsorted
    have hbehind (x : UInt8) (hx : x ∈ excluded) : e.toNat + 1 ≤ x.toNat + 1 :=
      Nat.succ_le_succ (UInt8.le_iff_toNat_le.mp (hhead x hx))
    have hle : lo ≤ e.toNat + 1 := hlo e List.mem_cons_self
    rw [allExceptFrom, ih _ htail hbehind, next?_gap, Option.or_assoc]
    congr 1
    -- The byte stands before, at or behind the excluded one.
    rcases Nat.lt_trichotomy b.toNat e.toNat with hlt | heq | hgt
    · have hbefore : b ∉ e :: excluded := by
        intro hmem
        rcases List.mem_cons.mp hmem with rfl | hmem
        · omega
        · have := hbehind b hmem
          omega
      have hnot : ¬(e.toNat + 1 ≤ b.toNat ∧ b ∉ excluded) := fun h => by omega
      rw [if_neg hnot, Option.or_none]
      simp only [UInt8.lt_iff_toNat_lt, hlt, hbefore, not_false_eq_true, and_true]
    · obtain rfl := UInt8.toNat_inj.mp heq
      have hnot : ¬(b.toNat + 1 ≤ b.toNat ∧ b ∉ excluded) := fun h => by omega
      rw [if_neg hnot, Option.or_none]
      simp
    · have hne : b ≠ e := by
        rintro rfl
        omega
      have hnot : ¬ b < e := by
        rw [UInt8.lt_iff_toNat_lt]
        omega
      simp only [hnot, and_false, if_false, Option.none_or, List.mem_cons, hne, false_or,
        Nat.succ_le_of_lt hgt, Nat.le_trans hle hgt, true_and]

/-- Every byte that is not excluded leads to `next`, unless it leads elsewhere already. -/
theorem next?_allExcept (st : LexState) (next : LexStateId) (b : UInt8) {excluded : List UInt8}
    (hsorted : excluded.Pairwise (· ≤ ·)) : (st.allExcept excluded next).next? b =
      (st.next? b).or (if b ∉ excluded then some next else none) := by
  have hlo (e : UInt8) (_ : e ∈ excluded) : 0 ≤ e.toNat + 1 := Nat.zero_le _
  simp only [allExcept, next?_allExceptFrom st next b hsorted hlo, Nat.zero_le, true_and]

end LexState

end TableParsing
