import Mathlib.Computability.Language
import TableParsing.Text.Utf8

/-!
# Languages of bytes

Languages put together from single bytes, and which of their words begin with a byte.
-/

abbrev ByteLanguage := Language UInt8

namespace TableParsing

open scoped Computability

variable {b : UInt8} {word : Bytes} {p : UInt8 → Bool} {c : Char} {L : ByteLanguage}

/-- The words of one byte that has a property. -/
def oneOf (p : UInt8 → Bool) : ByteLanguage := {word | ∃ b, p b = true ∧ word = [b]}

/-- The byte of a character as the only word. -/
def byteOf (c : Char) : ByteLanguage := oneOf (· == c.toUInt8)

/-- Any byte but those of these characters. -/
def noneOf (excluded : List Char) : ByteLanguage :=
  oneOf fun b => !(excluded.map Char.toUInt8).contains b

@[simp] theorem nil_notMem_oneOf : [] ∉ oneOf p := by
  rintro ⟨b, _, hb⟩
  cases hb

@[simp] theorem cons_mem_oneOf : b :: word ∈ oneOf p ↔ p b = true ∧ word = [] := by
  constructor
  · rintro ⟨_, hb, h⟩
    cases h
    exact ⟨hb, rfl⟩
  · rintro ⟨hb, rfl⟩
    exact ⟨b, hb, rfl⟩

@[simp] theorem nil_mem_mul {K : ByteLanguage} : [] ∈ K * L ↔ [] ∈ K ∧ [] ∈ L := by
  rw [Language.mem_mul]
  constructor
  · rintro ⟨start, hstart, rest, hrest, h⟩
    obtain ⟨rfl, rfl⟩ := List.append_eq_nil_iff.mp h
    exact ⟨hstart, hrest⟩
  · rintro ⟨hstart, hrest⟩
    exact ⟨[], hstart, [], hrest, rfl⟩

@[simp] theorem cons_mem_oneOf_mul : b :: word ∈ oneOf p * L ↔ p b = true ∧ word ∈ L := by
  rw [Language.mem_mul]
  constructor
  · rintro ⟨_, ⟨_, hb, rfl⟩, _, hw, h⟩
    cases h
    exact ⟨hb, hw⟩
  · rintro ⟨hb, hw⟩
    exact ⟨[b], ⟨b, hb, rfl⟩, word, hw, rfl⟩

/-- What may stand behind the byte. -/
def after (b : UInt8) (L : ByteLanguage) : ByteLanguage := {word | b :: word ∈ L}

theorem mem_after : word ∈ after b L ↔ b :: word ∈ L := Iff.rfl

/-! ## Characters -/

@[simp] theorem nil_notMem_byteOf : [] ∉ byteOf c := nil_notMem_oneOf

@[simp] theorem cons_mem_byteOf : b :: word ∈ byteOf c ↔ b = c.toUInt8 ∧ word = [] := by
  rw [byteOf, cons_mem_oneOf, beq_iff_eq]

@[simp] theorem cons_mem_byteOf_mul : b :: word ∈ byteOf c * L ↔ b = c.toUInt8 ∧ word ∈ L := by
  rw [byteOf, cons_mem_oneOf_mul, beq_iff_eq]

@[simp] theorem nil_notMem_noneOf {excluded : List Char} : [] ∉ noneOf excluded :=
  nil_notMem_oneOf

@[simp] theorem cons_mem_noneOf_mul {excluded : List Char} :
    b :: word ∈ noneOf excluded * L ↔ b ∉ excluded.map Char.toUInt8 ∧ word ∈ L := by
  simp [noneOf]

theorem after_byteOf_mul (b : UInt8) (c : Char) (L : ByteLanguage) :
    after b (byteOf c * L) = if b = c.toUInt8 then L else 0 := by
  ext word
  rw [mem_after, cons_mem_byteOf_mul]
  split_ifs with hb
  · exact and_iff_right hb
  · exact iff_of_false (fun h => hb h.1) (Language.notMem_zero word)

/-! ## Repetitions -/

/-- A repetition ends or goes through its language once more. -/
theorem kstar_mul (K L : ByteLanguage) : K∗ * L = L + K * (K∗ * L) := by
  conv_lhs => rw [← Language.one_add_self_mul_kstar_eq_kstar]
  rw [add_mul, one_mul, mul_assoc]

@[simp] theorem cons_mem_oneOf_kstar_mul :
    b :: word ∈ (oneOf p)∗ * L ↔ b :: word ∈ L ∨ p b = true ∧ word ∈ (oneOf p)∗ * L := by
  conv_lhs => rw [kstar_mul]
  rw [Language.mem_add, cons_mem_oneOf_mul]

@[simp] theorem cons_mem_oneOf_kstar :
    b :: word ∈ (oneOf p)∗ ↔ p b = true ∧ word ∈ (oneOf p)∗ := by
  rw [← mul_one (oneOf p)∗, cons_mem_oneOf_kstar_mul]
  simp

/-! ## Words without a beginning -/

/-- The words of `L` that do not begin with a word of `K`. -/
def withoutStart (K L : ByteLanguage) : ByteLanguage :=
  {word | word ∈ L ∧ ∀ start, start <+: word → start ∉ K}

theorem nil_mem_withoutStart {K : ByteLanguage} : [] ∈ withoutStart K L ↔ [] ∈ L ∧ [] ∉ K := by
  refine and_congr_right fun _ => ⟨fun h => h [] List.nil_prefix, fun h start hs => ?_⟩
  rw [List.prefix_nil.mp hs]
  exact h

theorem after_withoutStart {K : ByteLanguage} (hnil : [] ∉ K) (b : UInt8) (L : ByteLanguage) :
    after b (withoutStart K L) = withoutStart (after b K) (after b L) := by
  ext word
  constructor
  · rintro ⟨hword, hstart⟩
    exact ⟨hword, fun start hs => hstart (b :: start) (List.cons_prefix_cons.mpr ⟨rfl, hs⟩)⟩
  · rintro ⟨hword, hstart⟩
    refine ⟨hword, fun start hs => ?_⟩
    cases start with
    | nil => exact hnil
    | cons b' start =>
      obtain ⟨rfl, htail⟩ := List.cons_prefix_cons.mp hs
      exact hstart start htail

@[simp] theorem withoutStart_zero (L : ByteLanguage) : withoutStart 0 L = L := by
  ext word
  exact and_iff_left fun start _ => Language.notMem_zero start

@[simp] theorem withoutStart_of_zero (K : ByteLanguage) : withoutStart K 0 = 0 := by
  ext word
  exact iff_of_false (fun h => Language.notMem_zero word h.1) (Language.notMem_zero word)

@[simp] theorem withoutStart_one (L : ByteLanguage) : withoutStart 1 L = 0 := by
  ext word
  refine iff_of_false ?_ (Language.notMem_zero word)
  rintro ⟨_, hstart⟩
  exact hstart [] List.nil_prefix Language.nil_mem_one

end TableParsing
