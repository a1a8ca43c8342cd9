import TableParsing.Proofs.Safety.Machine

/-!
# All bytes but some

A lexer state can be made to move on every byte but some. The excluded bytes are sorted, and the gaps
before, between and behind them are covered one by one. The state then moves exactly on the bytes
that are not excluded, except that its older transitions still decide first. No range is empty, and a
machine that keeps the lower bound in 16 bits and the ends of a range in bytes loses nothing.
-/
namespace TableParsing

/-- A byte is below this. -/
def byteBound : Nat := UInt8.size

/-- A number as a byte, if it is one. -/
def checkedByte (n : Nat) : Option UInt8 := if n < byteBound then some (UInt8.ofNat n) else none

theorem checkedByte_eq {n : Nat} (h : n < byteBound) : checkedByte n = some (UInt8.ofNat n) :=
  if_pos h

namespace LexState

variable {st st' : LexState} {next : LexStateId} {lo : Nat} {excluded : List UInt8}

/-! ## The ranges that are added -/

/-- Behind the transitions of `st` there are only ranges to `next`, and each has a byte. -/
structure Adds (next : LexStateId) (st st' : LexState) : Prop where
  accept : st'.accept = st.accept
  transitions : ∃ added, st'.transitions = st.transitions ++ added ∧
    ∀ t ∈ added, t.1.lo ≤ t.1.hi ∧ t.2 = next

theorem Adds.refl (next : LexStateId) (st : LexState) : Adds next st st :=
  ⟨rfl, [], (List.append_nil _).symm, List.forall_mem_nil _⟩

theorem Adds.on (h : Adds next st st') {first last : UInt8} (hle : first ≤ last) :
    Adds next st (st'.on first last next) := by
  obtain ⟨added, htransitions, hadded⟩ := h.transitions
  refine ⟨h.accept, added ++ [(⟨first, last⟩, next)], ?_, ?_⟩
  · rw [LexState.on, htransitions, List.append_assoc]
  · exact List.forall_mem_append.mpr ⟨hadded, List.forall_mem_singleton.mpr ⟨hle, rfl⟩⟩

/-- A gap before `e` has a byte if it begins before `e`. -/
theorem le_before {e : UInt8} (h : lo < e.toNat) : UInt8.ofNat lo ≤ e - 1 := by
  have hlo : (UInt8.ofNat lo).toNat = lo := UInt8.toNat_ofNat_of_lt' (Nat.lt_trans h e.toNat_lt)
  have hone : (1 : UInt8) ≤ e := UInt8.le_iff_toNat_le.mpr (Nat.lt_of_le_of_lt (Nat.zero_le lo) h)
  rw [UInt8.le_iff_toNat_le, hlo, UInt8.toNat_sub_of_le _ _ hone]
  exact Nat.le_sub_one_of_lt h

theorem Adds.allExceptFrom (h : Adds next st st') (lo : Nat) (excluded : List UInt8) :
    Adds next st (allExceptFrom next lo excluded st') := by
  induction excluded generalizing lo st' with
  | nil =>
    rw [LexState.allExceptFrom]
    split
    · exact h.on (UInt8.le_iff_toNat_le.mpr (Nat.le_of_lt_succ (UInt8.toNat_lt _)))
    · exact h
  | cons e excluded ih =>
    rw [LexState.allExceptFrom]
    apply ih
    split
    · rename_i hlt
      exact h.on (le_before hlt)
    · exact h

/-! ## The checks of a machine -/

/-- Covers the bytes from `lo` up to the one before `e`. -/
def checkedGap (next : LexStateId) (lo : Nat) (e : UInt8) (st : LexState) : Option LexState :=
  if lo < e.toNat then do
    let first ← checkedByte lo
    let last ← checkedByte (← checkedSub e.toNat 1)
    some (st.on first last next)
  else some st

def checkedExceptFrom (next : LexStateId) (lo : Nat) :
    List UInt8 → LexState → Option LexState
  | [], st =>
    if lo ≤ 0xFF then do
      let first ← checkedByte lo
      some (st.on first 0xFF next)
    else some st
  | e :: rest, st => do
    let st ← checkedGap next lo e st
    let lo ← checkedAdd shortBound e.toNat 1
    checkedExceptFrom next lo rest st

def checkedExcept (st : LexState) (excluded : List UInt8) (next : LexStateId) : Option LexState :=
  checkedExceptFrom next 0 excluded st

theorem checkedGap_eq (next : LexStateId) (lo : Nat) (e : UInt8) (st : LexState) :
    checkedGap next lo e st =
      some (if lo < e.toNat then st.on (UInt8.ofNat lo) (e - 1) next else st) := by
  unfold checkedGap
  split
  · rename_i hlt
    have he : e.toNat < byteBound := e.toNat_lt
    have hpos : 1 ≤ e.toNat := Nat.lt_of_le_of_lt (Nat.zero_le lo) hlt
    have hbefore : UInt8.ofNat (e.toNat - 1) = e - 1 := by
      rw [UInt8.ofNat_sub hpos, UInt8.ofNat_toNat]
      rfl
    rw [checkedByte_eq (Nat.lt_trans hlt he), checkedSub_eq hpos]
    simp only [Option.bind_eq_bind, Option.bind_some]
    rw [checkedByte_eq (Nat.lt_of_le_of_lt (Nat.sub_le _ _) he), hbefore, Option.bind_some]
  · rfl

theorem checkedExceptFrom_eq (next : LexStateId) (lo : Nat) (excluded : List UInt8)
    (st : LexState) :
    checkedExceptFrom next lo excluded st = some (allExceptFrom next lo excluded st) := by
  induction excluded generalizing lo st with
  | nil =>
    rw [checkedExceptFrom, allExceptFrom]
    split
    · rename_i hle
      rw [checkedByte_eq (Nat.lt_succ_of_le hle)]
      rfl
    · rfl
  | cons e excluded ih =>
    have hadd : checkedAdd shortBound e.toNat 1 = some (e.toNat + 1) :=
      checkedAdd_eq (Nat.lt_trans (Nat.succ_lt_succ e.toNat_lt) (by decide))
    rw [checkedExceptFrom, allExceptFrom, checkedGap_eq, hadd]
    exact ih _ _

/-- On a byte the state moves as it did before or, if it did not, to `next` unless the byte is
excluded. The ranges added for that all have bytes, and no check of a machine fails. -/
theorem allExcept_exact (st : LexState) (next : LexStateId) {excluded : List UInt8}
    (hsorted : excluded.Pairwise (· ≤ ·)) :
    (∀ b, (st.allExcept excluded next).next? b =
      (st.next? b).or (if b ∈ excluded then none else some next)) ∧
    Adds next st (st.allExcept excluded next) ∧
    st.checkedExcept excluded next = some (st.allExcept excluded next) := by
  refine ⟨fun b => ?_, ?_, checkedExceptFrom_eq next 0 excluded st⟩
  · rw [next?_allExcept st next b hsorted]
    by_cases hb : b ∈ excluded <;> simp [hb]
  · exact (Adds.refl next st).allExceptFrom 0 excluded

/-- A state that leads elsewhere on a quote, with both ends of the bytes, two neighbours and a
repeated byte excluded. -/
theorem allExcept_exact_quote :
    let st := LexState.empty.onByte 0x22 7
    let excluded : List UInt8 := [0x00, 0x09, 0x0A, 0x0A, 0x5C, 0xFF]
    excluded.Pairwise (· ≤ ·) ∧
      [0x00, 0x01, 0x09, 0x0A, 0x0B, 0x22, 0xFE, 0xFF].map (st.allExcept excluded 3).next? =
        [none, some 3, none, none, some 3, some 7, some 3, none] ∧
      Adds 3 st (st.allExcept excluded 3) ∧
      (st.checkedExcept excluded 3).map (·.transitions.length) = some 4 := by
  intro st excluded
  have hsorted : excluded.Pairwise (· ≤ ·) := by decide
  obtain ⟨hnext, hadds, hchecked⟩ := st.allExcept_exact 3 hsorted
  refine ⟨hsorted, ?_, hadds, ?_⟩
  · simp only [List.map_cons, List.map_nil, hnext]
    decide
  · rw [hchecked]
    rfl

end LexState

end TableParsing
