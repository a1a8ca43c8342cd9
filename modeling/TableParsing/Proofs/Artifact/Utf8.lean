import Mathlib.Tactic.Common
import TableParsing.Text.Utf8

/-!
# Reading back UTF-8

The bytes of a string decode to its characters, one piece each, whatever bytes follow. The payload
bits of a character are divided among its bytes by the number of bits of its code. Conversely the
bytes that decode to a string are its own, since longer forms of a character are malformed.
-/
namespace TableParsing.Utf8

theorem toList_loop_eq (bs : ByteArray) (i : Nat) (read : Bytes) :
    ByteArray.toList.loop bs i read = read.reverse ++ bs.data.toList.drop i := by
  fun_induction ByteArray.toList.loop bs i read with
  | case1 i read h ih =>
    have hi : i < bs.data.toList.length := by simpa using h
    rw [ih, List.drop_eq_getElem_cons hi]
    simp [ByteArray.get!, h]
  | case2 i read h =>
    rw [List.drop_eq_nil_of_le (by simpa using Nat.le_of_not_lt h), List.append_nil]

/-- The bytes of a string are those of its characters. -/
theorem encode_eq (s : String) : encode s = s.toList.flatMap String.utf8EncodeChar := by
  have hs : s.toUTF8 = (s.toList.flatMap String.utf8EncodeChar).toByteArray :=
    congrArg String.toByteArray (String.ofList_toList (s := s)).symm
  rw [encode, hs, ByteArray.toList, toList_loop_eq]
  simp

theorem width_eq (b : UInt8) : width b =
    if b.toNat ≤ 127 then 1
    else if 194 ≤ b.toNat ∧ b.toNat ≤ 223 then 2
    else if 224 ≤ b.toNat ∧ b.toNat ≤ 239 then 3
    else if 240 ≤ b.toNat ∧ b.toNat ≤ 244 then 4
    else 0 := by
  simp [width, UInt8.le_iff_toNat_le]

theorem isContinuation_iff (b : UInt8) :
    isContinuation b = true ↔ 128 ≤ b.toNat ∧ b.toNat ≤ 191 := by
  simp [isContinuation, UInt8.le_iff_toNat_le]

theorem isSecond_iff (lead b : UInt8) : isSecond lead b = true ↔
    128 ≤ b.toNat ∧ b.toNat ≤ 191 ∧ (lead.toNat = 224 → 160 ≤ b.toNat) ∧
      (lead.toNat = 237 → b.toNat ≤ 159) ∧ (lead.toNat = 240 → 144 ≤ b.toNat) ∧
      (lead.toNat = 244 → b.toNat ≤ 143) := by
  have heq (c : UInt8) : lead = c ↔ lead.toNat = c.toNat := UInt8.toNat_inj.symm
  unfold isSecond
  simp only [beq_iff_eq, heq]
  split_ifs <;>
    simp_all [UInt8.le_iff_toNat_le, isContinuation_iff] <;> omega

theorem toNat_byte {n : Nat} (h : n < 256) : (UInt8.ofNat n).toNat = n := by
  rw [UInt8.toNat_ofNat']
  omega

/-- A character whose code the payload bits spell. -/
theorem char_of_code {c : Char} {n : Nat} (h : n = c.toNat) : Piece.char (Char.ofNat n) = .char c := by
  rw [h, Char.ofNat_toNat]

theorem firstPiece_one {c : Char} (h : c.toNat ≤ 127) (rest : Bytes) :
    firstPiece (UInt8.ofNat c.toNat) rest = (.char c, 0) := by
  have hb := toNat_byte (n := c.toNat) (by omega)
  have hw : width (UInt8.ofNat c.toNat) = 1 := by rw [width_eq, hb, if_pos h]
  simp only [firstPiece, hw]
  rw [char_of_code hb]

theorem firstPiece_two {c : Char} (h1 : 127 < c.toNat) (h2 : c.toNat ≤ 2047) (rest : Bytes) :
    firstPiece (UInt8.ofNat (c.toNat / 64 % 32 + 192))
      (UInt8.ofNat (c.toNat % 64 + 128) :: rest) = (.char c, 1) := by
  have ha := toNat_byte (n := c.toNat / 64 % 32 + 192) (by omega)
  have hb := toNat_byte (n := c.toNat % 64 + 128) (by omega)
  have hw : width (UInt8.ofNat (c.toNat / 64 % 32 + 192)) = 2 := by
    rw [width_eq, ha, if_neg (by omega), if_pos (by omega)]
  have hs : isSecond (UInt8.ofNat (c.toNat / 64 % 32 + 192))
      (UInt8.ofNat (c.toNat % 64 + 128)) = true := by
    rw [isSecond_iff, ha, hb]
    omega
  simp only [firstPiece, hw, hs, ite_true]
  rw [char_of_code (c := c) (by rw [payload, ha, hb]; omega)]

theorem firstPiece_three {c : Char} (h2 : 2047 < c.toNat) (h3 : c.toNat ≤ 65535) (rest : Bytes) :
    firstPiece (UInt8.ofNat (c.toNat / 4096 % 16 + 224))
      (UInt8.ofNat (c.toNat / 64 % 64 + 128) :: UInt8.ofNat (c.toNat % 64 + 128) :: rest) =
      (.char c, 2) := by
  have ha := toNat_byte (n := c.toNat / 4096 % 16 + 224) (by omega)
  have hb := toNat_byte (n := c.toNat / 64 % 64 + 128) (by omega)
  have hd := toNat_byte (n := c.toNat % 64 + 128) (by omega)
  have hvalid : c.toNat < 55296 ∨ 57343 < c.toNat ∧ c.toNat < 1114112 := c.valid
  have hw : width (UInt8.ofNat (c.toNat / 4096 % 16 + 224)) = 3 := by
    rw [width_eq, ha, if_neg (by omega), if_neg (by omega), if_pos (by omega)]
  have hs : isSecond (UInt8.ofNat (c.toNat / 4096 % 16 + 224))
      (UInt8.ofNat (c.toNat / 64 % 64 + 128)) = true := by
    rw [isSecond_iff, ha, hb]
    omega
  have hc : isContinuation (UInt8.ofNat (c.toNat % 64 + 128)) = true := by
    rw [isContinuation_iff, hd]
    omega
  simp only [firstPiece, hw, hs, hc, ite_true]
  rw [char_of_code (c := c) (by rw [payload, payload, ha, hb, hd]; omega)]

theorem firstPiece_four {c : Char} (h3 : 65535 < c.toNat) (rest : Bytes) :
    firstPiece (UInt8.ofNat (c.toNat / 262144 % 8 + 240))
      (UInt8.ofNat (c.toNat / 4096 % 64 + 128) :: UInt8.ofNat (c.toNat / 64 % 64 + 128) ::
        UInt8.ofNat (c.toNat % 64 + 128) :: rest) = (.char c, 3) := by
  have ha := toNat_byte (n := c.toNat / 262144 % 8 + 240) (by omega)
  have hb := toNat_byte (n := c.toNat / 4096 % 64 + 128) (by omega)
  have hd := toNat_byte (n := c.toNat / 64 % 64 + 128) (by omega)
  have he := toNat_byte (n := c.toNat % 64 + 128) (by omega)
  have hvalid : c.toNat < 55296 ∨ 57343 < c.toNat ∧ c.toNat < 1114112 := c.valid
  have hw : width (UInt8.ofNat (c.toNat / 262144 % 8 + 240)) = 4 := by
    rw [width_eq, ha, if_neg (by omega), if_neg (by omega), if_neg (by omega), if_pos (by omega)]
  have hs : isSecond (UInt8.ofNat (c.toNat / 262144 % 8 + 240))
      (UInt8.ofNat (c.toNat / 4096 % 64 + 128)) = true := by
    rw [isSecond_iff, ha, hb]
    omega
  have hc : isContinuation (UInt8.ofNat (c.toNat / 64 % 64 + 128)) = true := by
    rw [isContinuation_iff, hd]
    omega
  have hc' : isContinuation (UInt8.ofNat (c.toNat % 64 + 128)) = true := by
    rw [isContinuation_iff, he]
    omega
  simp only [firstPiece, hw, hs, hc, hc', ite_true]
  rw [char_of_code (c := c) (by rw [payload, payload, payload, ha, hb, hd, he]; omega)]

/-- The bytes of a character form one piece. -/
theorem pieces_char (c : Char) (rest : Bytes) :
    pieces (String.utf8EncodeChar c ++ rest) = .char c :: pieces rest := by
  have hv : c.val.toNat = c.toNat := rfl
  unfold String.utf8EncodeChar
  dsimp only
  rw [hv]
  by_cases h1 : c.toNat ≤ 127
  · rw [if_pos h1]
    simp only [List.cons_append, List.nil_append, pieces, firstPiece_one h1, List.drop_zero]
  by_cases h2 : c.toNat ≤ 2047
  · rw [if_neg h1, if_pos h2]
    simp only [List.cons_append, List.nil_append, pieces, firstPiece_two (by omega) h2,
      List.drop_succ_cons, List.drop_zero]
  by_cases h3 : c.toNat ≤ 65535
  · rw [if_neg h1, if_neg h2, if_pos h3]
    simp only [List.cons_append, List.nil_append, pieces, firstPiece_three (by omega) h3,
      List.drop_succ_cons, List.drop_zero]
  · rw [if_neg h1, if_neg h2, if_neg h3]
    simp only [List.cons_append, List.nil_append, pieces, firstPiece_four (c := c) (by omega),
      List.drop_succ_cons, List.drop_zero]

theorem pieces_flatMap (cs : List Char) :
    pieces (cs.flatMap String.utf8EncodeChar) = cs.map .char := by
  induction cs with
  | nil => simp [pieces]
  | cons c cs ih => rw [List.flatMap_cons, pieces_char, ih, List.map_cons]

theorem check_chars (index : Nat) (cs : List Char) : check index (cs.map .char) = .ok cs := by
  induction cs generalizing index with
  | nil => rfl
  | cons c cs ih => simp only [List.map_cons, check, ih, Except.map]

/-- Every string is read back from its bytes. -/
theorem decode_encode (s : String) : decode (encode s) = .ok s := by
  simp only [decode, encode_eq, pieces_flatMap, check_chars, Except.map, String.ofList_toList]

theorem decode?_encode (s : String) : decode? (encode s) = some s := by
  rw [decode?, decode_encode, Except.toOption]

/-! ## No other bytes decode -/

theorem toNat_ofNat {n : Nat} (h : n.isValidChar) : (Char.ofNat n).toNat = n := by
  rw [Char.ofNat, dif_pos h]
  rfl

/-- A byte by its number. -/
theorem byte_of_toNat {b : UInt8} {n : Nat} (h : n = b.toNat) : UInt8.ofNat n = b := by
  rw [h, UInt8.ofNat_toNat]

theorem encodeChar_one {a : UInt8} (ha : a.toNat ≤ 127) :
    String.utf8EncodeChar (Char.ofNat a.toNat) = [a] := by
  have hc : (Char.ofNat a.toNat).val.toNat = a.toNat := toNat_ofNat (.inl (by omega))
  unfold String.utf8EncodeChar
  dsimp only
  rw [hc, if_pos ha, UInt8.ofNat_toNat]

theorem encodeChar_two {a b : UInt8} (ha : 194 ≤ a.toNat ∧ a.toNat ≤ 223)
    (hb : isSecond a b = true) :
    String.utf8EncodeChar (Char.ofNat (a.toNat % 32 * 64 + payload b)) = [a, b] := by
  rw [isSecond_iff] at hb
  have hc : (Char.ofNat (a.toNat % 32 * 64 + payload b)).val.toNat = a.toNat % 32 * 64 + payload b :=
    toNat_ofNat (.inl (by rw [payload]; omega))
  unfold String.utf8EncodeChar
  dsimp only
  rw [hc, payload, if_neg (by omega), if_pos (by omega), byte_of_toNat (b := a) (by omega),
    byte_of_toNat (b := b) (by omega)]

theorem encodeChar_three {a b c : UInt8} (ha : 224 ≤ a.toNat ∧ a.toNat ≤ 239)
    (hb : isSecond a b = true) (hc : isContinuation c = true) :
    String.utf8EncodeChar (Char.ofNat ((a.toNat % 16 * 64 + payload b) * 64 + payload c)) =
      [a, b, c] := by
  rw [isSecond_iff] at hb
  rw [isContinuation_iff] at hc
  have hn : (Char.ofNat ((a.toNat % 16 * 64 + payload b) * 64 + payload c)).val.toNat =
      (a.toNat % 16 * 64 + payload b) * 64 + payload c := by
    apply toNat_ofNat
    rw [payload, payload, Nat.isValidChar]
    omega
  unfold String.utf8EncodeChar
  dsimp only
  rw [hn, payload, payload, if_neg (by omega), if_neg (by omega), if_pos (by omega),
    byte_of_toNat (b := a) (by omega), byte_of_toNat (b := b) (by omega),
    byte_of_toNat (b := c) (by omega)]

theorem encodeChar_four {a b c d : UInt8} (ha : 240 ≤ a.toNat ∧ a.toNat ≤ 244)
    (hb : isSecond a b = true) (hc : isContinuation c = true) (hd : isContinuation d = true) :
    String.utf8EncodeChar (Char.ofNat
      (((a.toNat % 8 * 64 + payload b) * 64 + payload c) * 64 + payload d)) = [a, b, c, d] := by
  rw [isSecond_iff] at hb
  rw [isContinuation_iff] at hc hd
  have hn : (Char.ofNat
      (((a.toNat % 8 * 64 + payload b) * 64 + payload c) * 64 + payload d)).val.toNat =
      ((a.toNat % 8 * 64 + payload b) * 64 + payload c) * 64 + payload d := by
    apply toNat_ofNat
    rw [payload, payload, payload, Nat.isValidChar]
    omega
  unfold String.utf8EncodeChar
  dsimp only
  rw [hn, payload, payload, payload, if_neg (by omega), if_neg (by omega), if_neg (by omega),
    byte_of_toNat (b := a) (by omega), byte_of_toNat (b := b) (by omega),
    byte_of_toNat (b := c) (by omega), byte_of_toNat (b := d) (by omega)]

/-- A character is read from its own bytes only. -/
theorem encodeChar_of_firstPiece {lead : UInt8} {rest : Bytes} {c : Char} {taken : Nat}
    (h : firstPiece lead rest = (.char c, taken)) :
    String.utf8EncodeChar c ++ rest.drop taken = lead :: rest := by
  have hw := width_eq lead
  unfold firstPiece at h
  split at h
  · cases h
    have hlead : lead.toNat ≤ 127 := by split_ifs at hw <;> omega
    rw [encodeChar_one hlead]
    rfl
  · cases h
  · split at h <;> cases h
    rename_i hb
    have hlead : 194 ≤ lead.toNat ∧ lead.toNat ≤ 223 := by split_ifs at hw <;> omega
    rw [encodeChar_two hlead hb]
    rfl
  · cases h
  · split at h <;> try cases h
    rename_i hb
    split at h <;> try cases h
    split at h <;> cases h
    rename_i hc
    have hlead : 224 ≤ lead.toNat ∧ lead.toNat ≤ 239 := by split_ifs at hw <;> omega
    rw [encodeChar_three hlead hb hc]
    rfl
  · cases h
  · split at h <;> try cases h
    rename_i hb
    split at h <;> try cases h
    split at h <;> try cases h
    rename_i hc
    split at h <;> try cases h
    split at h <;> cases h
    rename_i hd
    have hlead : 240 ≤ lead.toNat ∧ lead.toNat ≤ 244 := by split_ifs at hw <;> omega
    rw [encodeChar_four hlead hb hc hd]
    rfl
  · cases h

theorem flatMap_of_pieces {bytes : Bytes} {cs : List Char} (h : pieces bytes = cs.map .char) :
    cs.flatMap String.utf8EncodeChar = bytes := by
  fun_induction pieces bytes generalizing cs with
  | case1 =>
    obtain rfl := List.map_eq_nil_iff.mp h.symm
    rfl
  | case2 lead rest ih =>
    obtain ⟨c, cs, rfl, hc, hcs⟩ := List.map_eq_cons_iff.mp h.symm
    rw [List.flatMap_cons, ih hcs.symm]
    exact encodeChar_of_firstPiece (Prod.ext hc.symm rfl)

theorem chars_of_check {index : Nat} {ps : List Piece} {cs : List Char}
    (h : check index ps = .ok cs) : ps = cs.map .char := by
  fun_induction check index ps generalizing cs with
  | case1 => cases h; rfl
  | case2 index c rest ih =>
    cases hr : check (index + c.utf8Size) rest with
    | error fault => rw [hr] at h; cases h
    | ok read =>
      rw [hr] at h
      cases h
      rw [ih hr, List.map_cons]
  | case3 => cases h

/-- A string is read from its own bytes only. -/
theorem encode_of_decode? {bytes : Bytes} {s : String} (h : decode? bytes = some s) :
    encode s = bytes := by
  cases hc : check 0 (pieces bytes) with
  | error fault => simp [decode?, decode, hc, Except.map, Except.toOption] at h
  | ok cs =>
    obtain rfl : String.ofList cs = s := by
      simpa [decode?, decode, hc, Except.map, Except.toOption] using h
    rw [encode_eq, String.toList_ofList, flatMap_of_pieces (chars_of_check hc)]

end TableParsing.Utf8
