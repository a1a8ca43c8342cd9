import TableParsing.Artifact.Payload
import TableParsing.Proofs.Artifact.Codec

/-!
# Numbers in their shortest form

A number may be written in more bytes than it needs, and a reader accepts that. Beside each codec
stand the forms of the numbers that it reads. A value that was read is never written in more bytes
than it was read from, and in the same bytes exactly when all these forms are the shortest ones.
-/
namespace TableParsing

namespace Codec

variable {α β : Type} {c : Codec α} {d : Codec β}

/-- The form of a number that no shorter bytes read as. -/
def IsShortest (form : Bytes) : Prop :=
  ∃ n, readVarint 8 form = some (n, []) ∧
    ∀ other, readVarint 8 other = some (n, []) → form.length ≤ other.length

/-! ## The numbers read by a codec -/

/-- The forms of the numbers that a codec reads from the front of some bytes, in their order. -/
structure Numbers (c : Codec α) where
  forms : Bytes → List Bytes

/-- The numbers in the bytes behind a value. -/
def behind (c : Codec α) (forms : Bytes → List Bytes) (bytes : Bytes) : List Bytes :=
  match c.decode bytes with
  | some (_, rest) => forms rest
  | none => []

/-- The bytes taken from the front when these are left. -/
def taken (bytes rest : Bytes) : Bytes := bytes.take (bytes.length - rest.length)

namespace Numbers

/-- A codec that reads no number. -/
def none : c.Numbers := ⟨fun _ => []⟩

def varint (width : Nat) : (varint width).Numbers where
  forms bytes :=
    match readVarint width bytes with
    | some (_, rest) => [taken bytes rest]
    | Option.none => []

def partialMap (f : c.Numbers) {toBase : β → α} {ofBase? : α → Option β} :
    (c.partialMap toBase ofBase?).Numbers := ⟨f.forms⟩

def map (f : c.Numbers) {toBase : β → α} {ofBase : α → β} : (c.map toBase ofBase).Numbers :=
  f.partialMap

def pair (f : c.Numbers) (g : d.Numbers) : (c.pair d).Numbers :=
  ⟨fun bytes => f.forms bytes ++ c.behind g.forms bytes⟩

def option (f : c.Numbers) : c.option.Numbers where
  forms
    | [] => []
    | tag :: rest => if tag = 1 then f.forms rest else []

/-- The numbers of `count` values. -/
def many (f : c.Numbers) : (count : Nat) → Bytes → List Bytes
  | 0, _ => []
  | count + 1, bytes => f.forms bytes ++ c.behind (f.many count) bytes

/-- The number of values comes first. -/
def list (f : c.Numbers) : c.list.Numbers where
  forms bytes :=
    (Numbers.varint 8).forms bytes ++
      match size.decode bytes with
      | some (count, rest) => f.many count rest
      | Option.none => []

def array (f : c.Numbers) : c.array.Numbers := f.list.map

def uint16 : uint16.Numbers := (varint 2).map

def uint32 : uint32.Numbers := (varint 4).map

def bool : bool.Numbers := none.partialMap

/-- Only the number of bytes is a number. -/
def string : string.Numbers := partialMap ⟨(varint 8).forms⟩

end Numbers

/-! ## What was read and what is written -/

/-- Written bytes against those that were read, with the numbers in them. -/
structure Condenses (written read : Bytes) (forms : List Bytes) : Prop where
  length_le : written.length ≤ read.length
  eq_iff : written = read ↔ ∀ form ∈ forms, IsShortest form

theorem Condenses.same (bytes : Bytes) : Condenses bytes bytes [] :=
  ⟨Nat.le_refl _, by simp⟩

theorem Condenses.append {written read written' read' : Bytes} {forms forms' : List Bytes}
    (h : Condenses written read forms) (h' : Condenses written' read' forms') :
    Condenses (written ++ written') (read ++ read') (forms ++ forms') := by
  have hle := h.length_le
  have hle' := h'.length_le
  constructor
  · rw [List.length_append, List.length_append]
    omega
  · rw [List.forall_mem_append, ← h.eq_iff, ← h'.eq_iff]
    constructor
    · intro he
      have hlen := congrArg List.length he
      rw [List.length_append, List.length_append] at hlen
      -- Neither part is longer than what was read, so both have the same length.
      exact List.append_inj he (by omega)
    · rintro ⟨rfl, rfl⟩
      rfl

/-- Values are written in no more bytes than they are read from. -/
def Numbers.Condensed (f : c.Numbers) : Prop :=
  ∀ ⦃bytes a rest⦄, c.decode bytes = some (a, rest) →
    ∃ read, bytes = read ++ rest ∧ Condenses (c.encode a) read (f.forms bytes)

/-! ## Forms of a number -/

theorem littleEndian_ofLittleEndian (bytes : Bytes) :
    littleEndian (ofLittleEndian bytes) bytes.length = bytes := by
  induction bytes with
  | nil => rfl
  | cons b rest ih =>
    have hb := b.toNat_lt
    have hdiv : (b.toNat + 256 * ofLittleEndian rest) / 256 = ofLittleEndian rest := by omega
    have hbyte : UInt8.ofNat (b.toNat + 256 * ofLittleEndian rest) = b := by
      apply UInt8.toNat_inj.mp
      rw [UInt8.toNat_ofNat']
      omega
    rw [ofLittleEndian, List.length_cons, littleEndian, hdiv, hbyte, ih]

theorem ofLittleEndian_lt (bytes : Bytes) : ofLittleEndian bytes < Nat.pow 256 bytes.length := by
  induction bytes with
  | nil => exact Nat.one_pos
  | cons b rest ih =>
    have hb := b.toNat_lt
    have hpow : Nat.pow 256 (rest.length + 1) = Nat.pow 256 rest.length * 256 := rfl
    rw [ofLittleEndian, List.length_cons, hpow]
    omega

/-- A number of fixed width is read from the bytes that write it. -/
theorem readFixed_eq_some {count n : Nat} {bytes rest : Bytes}
    (h : readFixed count bytes = some (n, rest)) :
    n < Nat.pow 256 count ∧ bytes = littleEndian n count ++ rest := by
  simp only [readFixed, Option.ite_none_right_eq_some, Option.some.injEq, Prod.mk.injEq] at h
  obtain ⟨hlen, rfl, rfl⟩ := h
  have hlt := ofLittleEndian_lt (bytes.take count)
  have hbytes := littleEndian_ofLittleEndian (bytes.take count)
  rw [hlen] at hlt hbytes
  exact ⟨hlt, by rw [hbytes, List.take_append_drop]⟩

/-- The forms in which a number may be written. -/
inductive FormOf (n : Nat) : Bytes → Prop
  | one : n ≤ 250 → FormOf n [UInt8.ofNat n]
  | two : n < 0x10000 → FormOf n (251 :: littleEndian n 2)
  | four : n < 0x100000000 → FormOf n (252 :: littleEndian n 4)
  | eight : n < tooMany → FormOf n (253 :: littleEndian n 8)

theorem readVarint_eq_some {width n : Nat} {bytes rest : Bytes} (hw : 2 ≤ width)
    (h : readVarint width bytes = some (n, rest)) :
    n < Nat.pow 256 width ∧ ∃ form, FormOf n form ∧ bytes = form ++ rest := by
  have hpow2 : Nat.pow 256 2 = 0x10000 := rfl
  have hpow4 : Nat.pow 256 4 = 0x100000000 := rfl
  have hpow8 : Nat.pow 256 8 = tooMany := rfl
  have hmono {count : Nat} (hc : count ≤ width) : Nat.pow 256 count ≤ Nat.pow 256 width :=
    Nat.pow_le_pow_right (by decide) hc
  cases bytes with
  | nil => cases h
  | cons marker bytes =>
    rw [readVarint] at h
    split_ifs at h with h1 h2 h4 h8
    · cases h
      have hmarker : marker.toNat ≤ 250 := UInt8.le_iff_toNat_le.mp h1
      have hform : FormOf marker.toNat [marker] := by
        have hone := FormOf.one hmarker
        rwa [UInt8.ofNat_toNat] at hone
      have := hmono hw
      exact ⟨by omega, _, hform, rfl⟩
    · obtain ⟨hlt, rfl⟩ := readFixed_eq_some h
      obtain ⟨rfl, hle⟩ := h2
      exact ⟨Nat.lt_of_lt_of_le hlt (hmono hle), _, .two hlt, rfl⟩
    · obtain ⟨hlt, rfl⟩ := readFixed_eq_some h
      obtain ⟨rfl, hle⟩ := h4
      exact ⟨Nat.lt_of_lt_of_le hlt (hmono hle), _, .four hlt, rfl⟩
    · obtain ⟨hlt, rfl⟩ := readFixed_eq_some h
      obtain ⟨rfl, hle⟩ := h8
      exact ⟨Nat.lt_of_lt_of_le hlt (hmono hle), _, .eight hlt, rfl⟩

/-- What is written is one of the forms, and the only one as short as that. -/
theorem FormOf.length_le {n : Nat} {form : Bytes} (h : FormOf n form) :
    (writeVarint n).length ≤ form.length ∧
      (form.length ≤ (writeVarint n).length → writeVarint n = form) := by
  unfold writeVarint
  cases h <;> split_ifs <;> simp_all

theorem FormOf.lt {n : Nat} {form : Bytes} (h : FormOf n form) : n < tooMany := by
  unfold tooMany
  cases h with
  | one h | two h | four h => omega
  | eight h => exact h

theorem FormOf.read {n : Nat} {form : Bytes} (h : FormOf n form) :
    readVarint 8 form = some (n, []) := by
  have hfixed (count : Nat) (hlt : n < Nat.pow 256 count) :
      readFixed count (littleEndian n count) = some (n, []) := by
    have hread := readFixed_littleEndian hlt []
    rwa [List.append_nil] at hread
  cases h with
  | one h =>
    have hn : (UInt8.ofNat n).toNat = n := Utf8.toNat_byte (by omega)
    have hle : UInt8.ofNat n ≤ 250 := by
      rw [UInt8.le_iff_toNat_le, hn]
      exact h
    rw [readVarint, if_pos hle, hn]
  | two h => exact hfixed 2 h
  | four h => exact hfixed 4 h
  | eight h => exact hfixed 8 h

theorem FormOf.condenses {n : Nat} {form : Bytes} (h : FormOf n form) :
    Condenses (writeVarint n) form [form] := by
  refine ⟨h.length_le.1, ?_⟩
  rw [List.forall_mem_singleton]
  constructor
  · rintro rfl
    refine ⟨n, h.read, fun other ho => ?_⟩
    obtain ⟨_, form, hform, rfl⟩ := readVarint_eq_some (by decide) ho
    rw [List.append_nil]
    exact hform.length_le.1
  · rintro ⟨m, hm, hshort⟩
    rw [h.read] at hm
    cases hm
    have hread := size_readsBack h.lt []
    rw [List.append_nil] at hread
    exact h.length_le.2 (hshort _ hread)

/-! ## Combinations -/

theorem taken_append (read rest : Bytes) : taken (read ++ rest) rest = read := by
  rw [taken, List.length_append, Nat.add_sub_cancel, List.take_left]

theorem behind_of_decode {bytes rest : Bytes} {a : α} (h : c.decode bytes = some (a, rest))
    (forms : Bytes → List Bytes) : c.behind forms bytes = forms rest := by
  simp only [behind, h]

namespace Numbers

theorem varint_condensed {width : Nat} (hw : 2 ≤ width) : (varint width).Condensed := by
  intro bytes n rest h
  change readVarint width bytes = some (n, rest) at h
  obtain ⟨_, form, hform, rfl⟩ := readVarint_eq_some hw h
  have hforms : (varint width).forms (form ++ rest) = [form] := by
    simp only [varint, h, taken_append]
  exact ⟨form, rfl, hforms ▸ hform.condenses⟩

theorem byte_condensed : (none (c := byte)).Condensed := by
  intro bytes b rest h
  cases bytes with
  | nil => cases h
  | cons b' bytes =>
    cases h
    exact ⟨[b], rfl, .same [b]⟩

/-- A value that is turned back into what it was read as is written as that. -/
theorem Condensed.partialMap {f : c.Numbers} (h : f.Condensed) {toBase : β → α}
    {ofBase? : α → Option β}
    (hb : ∀ bytes a rest b, c.decode bytes = some (a, rest) → ofBase? a = some b → toBase b = a) :
    (f.partialMap : (c.partialMap toBase ofBase?).Numbers).Condensed := by
  intro bytes b rest hd
  simp only [Codec.partialMap, Option.bind_eq_bind, Option.bind_eq_some_iff, Prod.exists,
    Option.some.injEq, Prod.mk.injEq] at hd
  obtain ⟨a, _, ha, b', hb', rfl, rfl⟩ := hd
  obtain ⟨read, hread, hc⟩ := h ha
  refine ⟨read, hread, ?_⟩
  rw [← hb _ _ _ _ ha hb'] at hc
  exact hc

theorem Condensed.map {f : c.Numbers} (h : f.Condensed) {toBase : β → α} {ofBase : α → β}
    (hb : ∀ bytes a rest, c.decode bytes = some (a, rest) → toBase (ofBase a) = a) :
    (f.map : (c.map toBase ofBase).Numbers).Condensed := by
  refine h.partialMap fun bytes a rest b ha hab => ?_
  cases hab
  exact hb bytes a rest ha

theorem Condensed.pair {f : c.Numbers} {g : d.Numbers} (hf : f.Condensed) (hg : g.Condensed) :
    (f.pair g).Condensed := by
  rintro bytes ⟨a, b⟩ rest h
  simp only [Codec.pair, Option.bind_eq_bind, Option.bind_eq_some_iff, Prod.exists,
    Option.some.injEq, Prod.mk.injEq] at h
  obtain ⟨_, mid, ha, _, _, hb, ⟨rfl, rfl⟩, rfl⟩ := h
  obtain ⟨read, rfl, hca⟩ := hf ha
  obtain ⟨read', rfl, hcb⟩ := hg hb
  refine ⟨read ++ read', (List.append_assoc _ _ _).symm, ?_⟩
  simp only [Numbers.pair, behind_of_decode ha]
  exact hca.append hcb

theorem Condensed.option {f : c.Numbers} (h : f.Condensed) : f.option.Condensed := by
  intro bytes o rest hd
  cases bytes with
  | nil => cases hd
  | cons tag bytes =>
    simp only [Codec.option] at hd
    split_ifs at hd with h0 h1
    · cases hd
      subst h0
      exact ⟨[0], rfl, .same [0]⟩
    · subst h1
      obtain ⟨⟨a, _⟩, ha, hd⟩ := Option.map_eq_some_iff.mp hd
      cases hd
      obtain ⟨read, rfl, hc⟩ := h ha
      exact ⟨1 :: read, rfl, (Condenses.same [1]).append hc⟩

theorem Condensed.many {f : c.Numbers} (h : f.Condensed) {count : Nat} {before as : List α}
    {bytes rest : Bytes} (hd : c.decodeMany count before bytes = some (as, rest)) :
    ∃ read new, bytes = read ++ rest ∧ as = before.reverse ++ new ∧ new.length = count ∧
      Condenses (new.flatMap c.encode) read (f.many count bytes) := by
  induction count generalizing before bytes with
  | zero =>
    cases hd
    exact ⟨[], [], rfl, (List.append_nil _).symm, rfl, .same []⟩
  | succ count ih =>
    rw [decodeMany] at hd
    split at hd
    · cases hd
    · rename_i a mid ha
      obtain ⟨read, rfl, hc⟩ := h ha
      obtain ⟨read', new, rfl, rfl, hlen, hcs⟩ := ih hd
      refine ⟨read ++ read', a :: new, (List.append_assoc _ _ _).symm, by simp,
        congrArg Nat.succ hlen, ?_⟩
      simp only [Numbers.many, behind_of_decode ha]
      exact hc.append hcs

theorem Condensed.list {f : c.Numbers} (h : f.Condensed) : f.list.Condensed := by
  intro bytes as rest hd
  simp only [Codec.list, Option.bind_eq_bind, Option.bind_eq_some_iff, Prod.exists] at hd
  obtain ⟨count, mid, hcount, hmany⟩ := hd
  obtain ⟨read, rfl, hc⟩ := varint_condensed (by decide) hcount
  obtain ⟨read', new, rfl, rfl, rfl, hcs⟩ := h.many hmany
  refine ⟨read ++ read', (List.append_assoc _ _ _).symm, ?_⟩
  simp only [Numbers.list, hcount]
  exact hc.append hcs

theorem Condensed.array {f : c.Numbers} (h : f.Condensed) : f.array.Condensed :=
  h.list.map fun _ _ _ _ => rfl

theorem uint16_condensed : uint16.Condensed := by
  refine (varint_condensed (by decide)).map fun bytes n rest h => ?_
  exact UInt16.toNat_ofNat_of_lt' (readVarint_eq_some (by decide) h).1

theorem uint32_condensed : uint32.Condensed := by
  refine (varint_condensed (by decide)).map fun bytes n rest h => ?_
  exact UInt32.toNat_ofNat_of_lt' (readVarint_eq_some (by decide) h).1

theorem bool_condensed : bool.Condensed := by
  refine byte_condensed.partialMap fun _ b _ v _ hv => ?_
  split_ifs at hv with h0 h1
  · cases hv
    exact h0.symm
  · cases hv
    exact h1.symm

theorem string_condensed : string.Condensed := by
  have hbytes : (⟨(varint 8).forms⟩ : bytes.Numbers).Condensed := by
    intro input bs rest h
    simp only [bytes, Option.bind_eq_bind, Option.bind_eq_some_iff, Prod.exists,
      Option.ite_none_right_eq_some, Option.some.injEq, Prod.mk.injEq] at h
    obtain ⟨count, mid, hcount, hlen, rfl, rfl⟩ := h
    obtain ⟨read, rfl, hc⟩ := varint_condensed (by decide) hcount
    refine ⟨read ++ mid.take count, by simp, ?_⟩
    have happ := hc.append (.same (mid.take count))
    rw [List.append_nil] at happ
    change Condenses ((Codec.varint 8).encode (mid.take count).length ++ mid.take count) _ _
    rw [hlen]
    exact happ
  exact hbytes.partialMap fun _ _ _ _ _ => Utf8.encode_of_decode?

end Numbers

end Codec

namespace Payload

open Codec Numbers

/-! ## The numbers of a payload -/

def symbolNumbers : symbol.Numbers := uint16.map

def fieldIdNumbers : fieldId.Numbers := uint16.map

def variantNumbers : variant.Numbers := Numbers.varint 4

def symbolKindNumbers : symbolKind.Numbers := variantNumbers.partialMap

def symbolMetadataNumbers : symbolMetadata.Numbers :=
  (string.pair (symbolKindNumbers.pair (bool.pair (bool.pair bool)))).map

def productionNumbers : production.Numbers :=
  (symbolNumbers.pair (uint16.pair (uint16.pair fieldIdNumbers).list)).map

/-- Shifts and reductions have a number behind that of the alternative. -/
def actionNumbers : action.Numbers where
  forms bytes :=
    variantNumbers.forms bytes ++
      match variant.decode bytes with
      | some (0, rest) => uint16.forms rest
      | some (1, rest) => uint16.forms rest
      | _ => []

def parseStateNumbers : parseState.Numbers :=
  ((symbolNumbers.pair actionNumbers).array.pair (symbolNumbers.pair uint16).array).map

def byteRangeNumbers : byteRange.Numbers := (none.pair none).map

def lexStateNumbers : lexState.Numbers :=
  (symbolNumbers.option.pair (byteRangeNumbers.pair uint16).list).map

def tableNumbers : table.Numbers :=
  (string.pair (uint32.pair (symbolMetadataNumbers.array.pair (string.array.pair
    (productionNumbers.array.pair (parseStateNumbers.array.pair (lexStateNumbers.array.pair
      (byteRangeNumbers.list.pair (symbolNumbers.option.pair
        ((string.pair symbolNumbers).list.pair symbolNumbers.list)))))))))).map

theorem symbol_condensed : symbolNumbers.Condensed := uint16_condensed.map fun _ _ _ _ => rfl

theorem fieldId_condensed : fieldIdNumbers.Condensed := uint16_condensed.map fun _ _ _ _ => rfl

theorem variant_condensed : variantNumbers.Condensed := varint_condensed (by decide)

theorem symbolKind_condensed : symbolKindNumbers.Condensed := by
  refine variant_condensed.partialMap fun _ n _ k _ hk => ?_
  split at hk <;> cases hk <;> rfl

theorem symbolMetadata_condensed : symbolMetadataNumbers.Condensed :=
  (string_condensed.pair (symbolKind_condensed.pair (bool_condensed.pair
    (bool_condensed.pair bool_condensed)))).map fun _ _ _ _ => rfl

theorem production_condensed : productionNumbers.Condensed :=
  (symbol_condensed.pair (uint16_condensed.pair
    (uint16_condensed.pair fieldId_condensed).list)).map fun _ _ _ _ => rfl

theorem action_condensed : actionNumbers.Condensed := by
  intro bytes act rest h
  have hid {tag : Nat} {mid : Bytes} {id : UInt16} (hv : variant.decode bytes = some (tag, mid))
      (hid : uint16.decode mid = some (id, rest)) :
      ∃ read, bytes = read ++ rest ∧ Condenses (variant.encode tag ++ uint16.encode id) read
        (variantNumbers.forms bytes ++ uint16.forms mid) := by
    obtain ⟨read, rfl, hc⟩ := variant_condensed hv
    obtain ⟨read', rfl, hc'⟩ := uint16_condensed hid
    exact ⟨read ++ read', (List.append_assoc _ _ _).symm, hc.append hc'⟩
  simp only [action] at h
  split at h
  · rename_i mid hv
    obtain ⟨⟨next, _⟩, hn, h⟩ := Option.map_eq_some_iff.mp h
    cases h
    simp only [actionNumbers, hv]
    exact hid hv hn
  · rename_i mid hv
    obtain ⟨⟨p, _⟩, hp, h⟩ := Option.map_eq_some_iff.mp h
    cases h
    simp only [actionNumbers, hv]
    exact hid hv hp
  · rename_i mid hv
    cases h
    simp only [actionNumbers, hv, List.append_nil]
    exact variant_condensed hv
  · cases h

theorem parseState_condensed : parseStateNumbers.Condensed :=
  ((symbol_condensed.pair action_condensed).array.pair
    (symbol_condensed.pair uint16_condensed).array).map fun _ _ _ _ => rfl

theorem byteRange_condensed : byteRangeNumbers.Condensed :=
  (byte_condensed.pair byte_condensed).map fun _ _ _ _ => rfl

theorem lexState_condensed : lexStateNumbers.Condensed :=
  (symbol_condensed.option.pair (byteRange_condensed.pair uint16_condensed).list).map
    fun _ _ _ _ => rfl

theorem table_condensed : tableNumbers.Condensed :=
  (string_condensed.pair (uint32_condensed.pair (symbolMetadata_condensed.array.pair
    (string_condensed.array.pair (production_condensed.array.pair (parseState_condensed.array.pair
      (lexState_condensed.array.pair (byteRange_condensed.list.pair (symbol_condensed.option.pair
        ((string_condensed.pair symbol_condensed).list.pair symbol_condensed.list)))))))))).map
    fun _ _ _ _ => rfl

end Payload

end TableParsing
