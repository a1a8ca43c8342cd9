import TableParsing.Artifact.Codec
import TableParsing.Proofs.Artifact.Utf8

/-!
# Codecs read back what they write

A codec is lawful when every value takes at least one byte and is read back from its bytes, whatever
bytes follow. Lengths are written as 64-bit numbers, so only values of fewer than 2^64 bytes count;
a list is never longer than its bytes.
-/
namespace TableParsing.Codec

variable {α β : Type} {c : Codec α} {d : Codec β} {a : α} {b : β}

/-- The value is read back in front of any bytes. -/
def ReadsBack (c : Codec α) (a : α) : Prop :=
  ∀ rest, c.decode (c.encode a ++ rest) = some (a, rest)

/-- More bytes than a length can count. -/
def tooMany : Nat := 0x10000000000000000

/-- That every value takes a byte bounds the length of a list by its bytes. -/
structure Lawful (c : Codec α) : Prop where
  pos : ∀ a, 0 < (c.encode a).length
  readsBack : ∀ a, (c.encode a).length < tooMany → c.ReadsBack a

/-! ## Numbers -/

theorem readFixed_littleEndian {n count : Nat} (h : n < Nat.pow 256 count) (rest : Bytes) :
    readFixed count (littleEndian n count ++ rest) = some (n, rest) := by
  have hlen := length_littleEndian n count
  have htake : (littleEndian n count ++ rest).take count = littleEndian n count := by
    rw [List.take_append_of_le_length (by omega), List.take_of_length_le (by omega)]
  have hdrop : (littleEndian n count ++ rest).drop count = rest := by
    rw [List.drop_append_of_le_length (by omega), List.drop_of_length_le (by omega),
      List.nil_append]
  simp only [readFixed, htake, hdrop, hlen, ite_true, ofLittleEndian_littleEndian]
  rw [Nat.mod_eq_of_lt h]

theorem writeVarint_pos (n : Nat) : 0 < (writeVarint n).length := by
  unfold writeVarint
  split_ifs <;> simp

/-- A number is read back if its type is as wide as its form. -/
theorem varint_readsBack {width n : Nat} (h2 : 250 < n → 2 ≤ width) (h4 : 0x10000 ≤ n → 4 ≤ width)
    (h8 : 0x100000000 ≤ n → 8 ≤ width) (h : n < tooMany) : (varint width).ReadsBack n := by
  intro rest
  have hpow2 : Nat.pow 256 2 = 0x10000 := rfl
  have hpow4 : Nat.pow 256 4 = 0x100000000 := rfl
  have hpow8 : Nat.pow 256 8 = tooMany := rfl
  change readVarint width (writeVarint n ++ rest) = some (n, rest)
  unfold writeVarint
  by_cases h1 : n ≤ 250
  · have hn : (UInt8.ofNat n).toNat = n := Utf8.toNat_byte (by omega)
    have hle : UInt8.ofNat n ≤ 250 := by
      rw [UInt8.le_iff_toNat_le, hn]
      exact h1
    rw [if_pos h1, List.singleton_append, readVarint, if_pos hle, hn]
  by_cases hn2 : n < 0x10000
  · rw [if_neg h1, if_pos hn2, List.cons_append, readVarint, if_neg (by decide),
      if_pos ⟨rfl, h2 (by omega)⟩, readFixed_littleEndian (by omega)]
  by_cases hn4 : n < 0x100000000
  · rw [if_neg h1, if_neg hn2, if_pos hn4, List.cons_append, readVarint, if_neg (by decide),
      if_neg (fun h => absurd h.1 (by decide)), if_pos ⟨rfl, h4 (by omega)⟩,
      readFixed_littleEndian (by omega)]
  · rw [if_neg h1, if_neg hn2, if_neg hn4, List.cons_append, readVarint, if_neg (by decide),
      if_neg (fun h => absurd h.1 (by decide)), if_neg (fun h => absurd h.1 (by decide)),
      if_pos ⟨rfl, h8 (by omega)⟩, readFixed_littleEndian (by omega)]

theorem size_readsBack {n : Nat} (h : n < tooMany) : size.ReadsBack n :=
  varint_readsBack (by omega) (by omega) (by omega) h

/-! ## Combinations -/

theorem ReadsBack.partialMap {toBase : β → α} {ofBase? : α → Option β} (h : c.ReadsBack (toBase b))
    (hb : ofBase? (toBase b) = some b) : (c.partialMap toBase ofBase?).ReadsBack b := by
  intro rest
  simp only [Codec.partialMap, h rest, hb, Option.bind_eq_bind, Option.bind_some]

theorem ReadsBack.map {toBase : β → α} {ofBase : α → β} (h : c.ReadsBack (toBase b))
    (hb : ofBase (toBase b) = b) : (c.map toBase ofBase).ReadsBack b :=
  h.partialMap (congrArg some hb)

theorem Lawful.partialMap {toBase : β → α} {ofBase? : α → Option β} (h : c.Lawful)
    (hb : ∀ b, ofBase? (toBase b) = some b) : (c.partialMap toBase ofBase?).Lawful :=
  ⟨fun b => h.pos (toBase b), fun b hlen => (h.readsBack (toBase b) hlen).partialMap (hb b)⟩

theorem Lawful.map {toBase : β → α} {ofBase : α → β} (h : c.Lawful)
    (hb : ∀ b, ofBase (toBase b) = b) : (c.map toBase ofBase).Lawful :=
  h.partialMap fun b => congrArg some (hb b)

/-- What follows the first value is the second one with the rest. -/
theorem Lawful.pair (hc : c.Lawful) (hd : d.Lawful) : (c.pair d).Lawful := by
  constructor
  · intro p
    simp only [Codec.pair, List.length_append]
    exact Nat.add_pos_left (hc.pos p.1) _
  · intro p hlen rest
    simp only [Codec.pair, List.length_append] at hlen
    have ha := hc.readsBack p.1 (by omega) (d.encode p.2 ++ rest)
    have hb := hd.readsBack p.2 (by omega) rest
    simp only [Codec.pair, List.append_assoc, ha, hb, Option.bind_eq_bind, Option.bind_some]

theorem Lawful.option (h : c.Lawful) : c.option.Lawful := by
  constructor
  · intro o
    cases o <;> simp [Codec.option]
  · intro o hlen rest
    cases o with
    | none => rfl
    | some a =>
      simp only [Codec.option, List.length_cons] at hlen
      simp [Codec.option, h.readsBack a (by omega) rest]

/-- The values read so far stand in front, reversed. -/
theorem Lawful.decodeMany (h : c.Lawful) {as : List α}
    (hlen : (as.flatMap c.encode).length < tooMany) (read : List α) (rest : Bytes) :
    c.decodeMany as.length read (as.flatMap c.encode ++ rest) = some (read.reverse ++ as, rest) := by
  induction as generalizing read with
  | nil => simp [Codec.decodeMany]
  | cons a as ih =>
    rw [List.flatMap_cons, List.length_append] at hlen
    have ha := h.readsBack a (by omega) (as.flatMap c.encode ++ rest)
    simp only [List.length_cons, Codec.decodeMany, List.flatMap_cons, List.append_assoc, ha]
    rw [ih (by omega)]
    simp

theorem Lawful.length_le (h : c.Lawful) (as : List α) :
    as.length ≤ (as.flatMap c.encode).length := by
  induction as with
  | nil => exact Nat.le_refl 0
  | cons a as ih =>
    have := h.pos a
    rw [List.flatMap_cons, List.length_append, List.length_cons]
    omega

/-- The length fits its word, because the list is no longer than its bytes. -/
theorem Lawful.list (h : c.Lawful) : c.list.Lawful := by
  constructor
  · intro as
    have := writeVarint_pos as.length
    simp only [Codec.list, size, varint, List.length_append]
    omega
  · intro as hlen rest
    simp only [Codec.list, List.length_append] at hlen
    have hcount := h.length_le as
    have hsize := size_readsBack (n := as.length) (by omega) (as.flatMap c.encode ++ rest)
    have hpayload : (as.flatMap c.encode).length < tooMany := by omega
    have hmany := h.decodeMany hpayload [] rest
    simp only [Codec.list, List.append_assoc, hsize, hmany, Option.bind_eq_bind, Option.bind_some,
      List.reverse_nil, List.nil_append]

theorem Lawful.array (h : c.Lawful) : c.array.Lawful :=
  h.list.map fun _ => Array.toArray_toList

/-! ## Basic codecs -/

theorem uint16_lawful : uint16.Lawful := by
  constructor
  · intro n
    exact writeVarint_pos n.toNat
  · intro n _
    have := n.toNat_lt
    exact (varint_readsBack (by omega) (by omega) (by omega)
      (show n.toNat < tooMany by unfold tooMany; omega)).map UInt16.ofNat_toNat

theorem uint32_lawful : uint32.Lawful := by
  constructor
  · intro n
    exact writeVarint_pos n.toNat
  · intro n _
    have := n.toNat_lt
    exact (varint_readsBack (by omega) (by omega) (by omega)
      (show n.toNat < tooMany by unfold tooMany; omega)).map UInt32.ofNat_toNat

theorem byte_lawful : byte.Lawful := ⟨fun _ => Nat.one_pos, fun _ _ _ => rfl⟩

theorem bool_lawful : bool.Lawful := byte_lawful.partialMap (by decide)

theorem bytes_lawful : bytes.Lawful := by
  constructor
  · intro bs
    have := writeVarint_pos bs.length
    simp only [bytes, size, varint, List.length_append]
    omega
  · intro bs hlen rest
    simp only [bytes, List.length_append] at hlen
    have hsize := size_readsBack (n := bs.length) (by omega) (bs ++ rest)
    simp [bytes, hsize]

theorem string_lawful : string.Lawful := bytes_lawful.partialMap Utf8.decode?_encode

end TableParsing.Codec
