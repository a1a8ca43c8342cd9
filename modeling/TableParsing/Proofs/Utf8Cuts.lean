import Mathlib.Algebra.GroupWithZero.Nat
import TableParsing.Proofs.AcceptedWords
import TableParsing.Proofs.Artifact.Utf8

/-!
# Cuts through UTF-8

Bytes are cut cleanly next to an ASCII character: the parts decode to the pieces of the whole. So a
clean cut of a string falls between characters, and in bytes of any kind it is found again among the
characters that they read as, unless pieces before it are malformed and shorter than U+FFFD.
-/
namespace TableParsing.Utf8

variable {xs ys rest : Bytes} {lead b : UInt8} {s : String}

def isAscii (b : UInt8) : Bool := b < 0x80

theorem isAscii_of_le {hi : UInt8} (h : b ≤ hi) (hhi : isAscii hi = true) : isAscii b = true := by
  simp only [isAscii, decide_eq_true_eq] at hhi ⊢
  exact UInt8.lt_of_le_of_lt h hhi

theorem toNat_of_ascii (h : isAscii b = true) : b.toNat ≤ 127 := by
  simp only [isAscii, decide_eq_true_eq, UInt8.lt_iff_toNat_lt, UInt8.toNat_ofNat] at h
  omega

theorem width_of_ascii (h : isAscii b = true) : width b = 1 := by
  rw [width_eq, if_pos (toNat_of_ascii h)]

theorem isContinuation_of_ascii (h : isAscii b = true) : isContinuation b = false := by
  have := toNat_of_ascii h
  rw [Bool.eq_false_iff, ne_eq, isContinuation_iff]
  omega

theorem isSecond_of_ascii (lead : UInt8) (h : isAscii b = true) : isSecond lead b = false := by
  have := toNat_of_ascii h
  rw [Bool.eq_false_iff, ne_eq, isSecond_iff]
  omega

theorem width_cases (b : UInt8) :
    width b = 0 ∨ width b = 1 ∨ width b = 2 ∨ width b = 3 ∨ width b = 4 := by
  rw [width_eq]
  split_ifs <;> simp

/-- Next to the cut there is an ASCII character or an end of the bytes. -/
def CleanCut (xs ys : Bytes) : Prop :=
  (∀ b ∈ xs.getLast?, isAscii b = true) ∨ ∀ b ∈ ys.head?, isAscii b = true

theorem CleanCut.of_suffix {front : Bytes} (h : CleanCut (front ++ xs) ys) : CleanCut xs ys := by
  refine h.imp_left fun h b hb => h b ?_
  rw [List.getLast?_append, Option.mem_def.mp hb]
  rfl

theorem CleanCut.of_prefix (h : CleanCut xs (ys ++ rest)) : CleanCut xs ys := by
  refine h.imp_right fun h b hb => h b ?_
  rw [List.head?_append, Option.mem_def.mp hb]
  rfl

/-! ## Pieces -/

/-- The piece, whatever is to blame for it. -/
def Piece.uncut : Piece → Piece
  | .char c => .char c
  | .malformed n _ => .malformed n false

@[simp] theorem Piece.toChar_uncut (p : Piece) : p.uncut.toChar = p.toChar := by
  cases p <;> rfl

theorem eq_chars_of_uncut {ps : List Piece} {cs : List Char}
    (h : ps.map Piece.uncut = cs.map .char) : ps = cs.map .char := by
  induction ps generalizing cs with
  | nil => exact h
  | cons p ps ih =>
    obtain ⟨c, cs, rfl, hp, hps⟩ := List.map_eq_cons_iff.mp h.symm
    rw [List.map_cons, ih hps.symm]
    cases p with
    | char c => rw [hp]; rfl
    | malformed n cut => cases hp

/-- The bytes behind a clean cut belong to no piece that begins before it. -/
theorem firstPiece_append (h : CleanCut (lead :: rest) ys) :
    (firstPiece lead (rest ++ ys)).1.uncut = (firstPiece lead rest).1.uncut ∧
      (firstPiece lead (rest ++ ys)).2 = (firstPiece lead rest).2 := by
  have hw := width_of_ascii (b := lead)
  have hs (b : UInt8) := isSecond_of_ascii (b := b) lead
  have hc (b : UInt8) := isContinuation_of_ascii (b := b)
  cases ys with
  | nil => simp
  | cons y ys =>
    have hcases := width_cases lead
    unfold firstPiece
    generalize width lead = w at *
    -- Only where the bytes before the cut end within a character does the next one matter.
    rcases hcases with rfl | rfl | rfl | rfl | rfl
    · exact ⟨rfl, rfl⟩
    · exact ⟨rfl, rfl⟩
    · match rest with
      | [] => grind [CleanCut, Piece.uncut]
      | b :: rest => exact ⟨rfl, rfl⟩
    · match rest with
      | [] => grind [CleanCut, Piece.uncut]
      | [b] => grind [CleanCut, Piece.uncut]
      | b :: c :: rest => exact ⟨rfl, rfl⟩
    · match rest with
      | [] => grind [CleanCut, Piece.uncut]
      | [b] => grind [CleanCut, Piece.uncut]
      | [b, c] => grind [CleanCut, Piece.uncut]
      | b :: c :: d :: rest => exact ⟨rfl, rfl⟩

theorem firstPiece_taken_le (lead : UInt8) (rest : Bytes) :
    (firstPiece lead rest).2 ≤ rest.length := by
  fun_cases firstPiece lead rest <;> simp

/-- A piece has one byte more than it takes behind its first. -/
theorem firstPiece_length (lead : UInt8) (rest : Bytes) :
    (firstPiece lead rest).1.length = (firstPiece lead rest).2 + 1 := by
  have hle := firstPiece_taken_le lead rest
  cases hp : firstPiece lead rest with
  | mk p taken =>
    rw [hp] at hle
    cases p with
    | char c =>
      have hbytes := congrArg List.length (encodeChar_of_firstPiece hp)
      simp only [List.length_append, List.length_drop, String.length_utf8EncodeChar,
        List.length_cons] at hbytes
      simp only [Piece.length]
      omega
    | malformed n cut =>
      revert hp
      fun_cases firstPiece lead rest <;> rintro ⟨⟩ <;> rfl

theorem pieces_append (h : CleanCut xs ys) :
    (pieces (xs ++ ys)).map Piece.uncut =
      (pieces xs).map Piece.uncut ++ (pieces ys).map Piece.uncut := by
  fun_induction pieces xs with
  | case1 => rfl
  | case2 lead rest ih =>
    obtain ⟨hpiece, htaken⟩ := firstPiece_append h
    have hle := firstPiece_taken_le lead rest
    have hrest : CleanCut (rest.drop (firstPiece lead rest).2) ys := by
      rw [← List.take_append_drop (firstPiece lead rest).2 rest, ← List.cons_append] at h
      exact h.of_suffix
    rw [List.cons_append, pieces, htaken, List.drop_append_of_le_length hle, List.map_cons,
      ih hrest, hpiece]
    rfl

theorem lossyChars_append (h : CleanCut xs ys) :
    lossyChars (xs ++ ys) = lossyChars xs ++ lossyChars ys := by
  have hmap := congrArg (List.map Piece.toChar) (pieces_append h)
  simp only [List.map_append, List.map_map, Function.comp_def, Piece.toChar_uncut] at hmap
  exact hmap

theorem sum_length_pieces (bytes : Bytes) :
    ((pieces bytes).map Piece.length).sum = bytes.length := by
  fun_induction pieces bytes with
  | case1 => rfl
  | case2 lead rest ih =>
    have hle := firstPiece_taken_le lead rest
    rw [List.map_cons, List.sum_cons, ih, firstPiece_length, List.length_drop, List.length_cons]
    omega

/-- No piece is longer than the character that it reads as. -/
theorem length_le_of_mem_pieces {p : Piece} {bytes : Bytes} (h : p ∈ pieces bytes) :
    p.length ≤ p.toChar.utf8Size := by
  fun_induction pieces bytes with
  | case1 => cases h
  | case2 lead rest ih =>
    rcases List.mem_cons.mp h with rfl | h
    · have hsize : (Char.ofNat 0xFFFD).utf8Size = 3 := by decide
      fun_cases firstPiece lead rest <;> simp [Piece.length, Piece.toChar, hsize]
    · exact ih h

/-! ## Cuts of strings -/

theorem length_encode (s : String) : (encode s).length = s.utf8ByteSize := by
  rw [encode, ByteArray.toList, toList_loop_eq]
  exact Array.length_toList

/-- A clean cut of a string divides its characters. -/
theorem exists_of_encode_eq_append (h : encode s = xs ++ ys) (hc : CleanCut xs ys) :
    ∃ s₁ s₂, s = s₁ ++ s₂ ∧ encode s₁ = xs ∧ encode s₂ = ys := by
  have hpieces := pieces_append hc
  rw [← h, encode_eq, pieces_flatMap, List.map_map] at hpieces
  obtain ⟨cs, ds, hs, hcs, hds⟩ := List.map_eq_append_iff.mp hpieces
  have hchars (bytes : Bytes) (cs : List Char)
      (h : cs.map (Piece.uncut ∘ Piece.char) = (pieces bytes).map Piece.uncut) :
      encode (String.ofList cs) = bytes := by
    rw [encode_eq, String.toList_ofList]
    exact flatMap_of_pieces (eq_chars_of_uncut h.symm)
  refine ⟨String.ofList cs, String.ofList ds, ?_, hchars xs cs hcs, hchars ys ds hds⟩
  rw [← String.ofList_append, ← hs, String.ofList_toList]

theorem isValid_of_cleanCut (h : encode s = xs ++ ys) (hc : CleanCut xs ys) :
    (⟨xs.length⟩ : String.Pos.Raw).IsValid s := by
  obtain ⟨s₁, s₂, hs, h₁, _⟩ := exists_of_encode_eq_append h hc
  refine String.Pos.Raw.isValid_iff_exists_append.mpr ⟨s₁, s₂, hs, ?_⟩
  rw [← h₁, length_encode]
  rfl

/-! ## Character offsets -/

theorem charOffset_zero (cs : List Char) : charOffset cs 0 = 0 := by
  cases cs with
  | nil => rfl
  | cons c cs => rw [charOffset, if_neg (Nat.not_le.mpr c.utf8Size_pos)]

theorem charOffset_append (cs ds : List Char) :
    charOffset (cs ++ ds) (cs.map Char.utf8Size).sum = cs.length := by
  induction cs with
  | nil => exact charOffset_zero ds
  | cons c cs ih =>
    rw [List.cons_append, charOffset, List.map_cons, List.sum_cons, if_pos (Nat.le_add_right _ _),
      Nat.add_sub_cancel_left, ih, List.length_cons]

theorem charOffset_lt {n : Nat} (cs ds : List Char) (h : n < (cs.map Char.utf8Size).sum) :
    charOffset (cs ++ ds) n < cs.length := by
  induction cs generalizing n with
  | nil => cases h
  | cons c cs ih =>
    rw [List.map_cons, List.sum_cons] at h
    rw [List.cons_append, charOffset, List.length_cons]
    split
    · have := ih (n := n - c.utf8Size) (by omega)
      omega
    · omega

theorem sum_length_le {ps : List Piece} (h : ∀ p ∈ ps, p.length ≤ p.toChar.utf8Size) :
    (ps.map Piece.length).sum ≤ ((ps.map Piece.toChar).map Char.utf8Size).sum ∧
      ((ps.map Piece.length).sum = ((ps.map Piece.toChar).map Char.utf8Size).sum ↔
        ∀ p ∈ ps, p.length = p.toChar.utf8Size) := by
  induction ps with
  | nil => simp
  | cons p ps ih =>
    rw [List.forall_mem_cons] at h
    obtain ⟨hle, hiff⟩ := ih h.2
    rw [List.forall_mem_cons, ← hiff]
    simp only [List.map_cons, List.sum_cons]
    omega

/-- Behind a clean cut the lossy text is never counted too far, and it is counted right exactly if
every piece before the cut has as many bytes as the character that it reads as. -/
theorem charOffset_lossyChars (h : CleanCut xs ys) :
    charOffset (lossyChars (xs ++ ys)) xs.length ≤ (lossyChars xs).length ∧
      (charOffset (lossyChars (xs ++ ys)) xs.length = (lossyChars xs).length ↔
        ∀ p ∈ pieces xs, p.length = p.toChar.utf8Size) := by
  have hlengths : ∀ p ∈ pieces xs, p.length ≤ p.toChar.utf8Size := fun p hp =>
    length_le_of_mem_pieces hp
  obtain ⟨hle, hiff⟩ := sum_length_le hlengths
  rw [sum_length_pieces] at hle hiff
  rw [lossyChars_append h, ← hiff]
  rcases Nat.eq_or_lt_of_le hle with heq | hlt
  · have hright := charOffset_append (lossyChars xs) (lossyChars ys)
    rw [heq]
    exact ⟨Nat.le_of_eq hright, iff_of_true hright rfl⟩
  · have hshort := charOffset_lt (lossyChars xs) (lossyChars ys) hlt
    exact ⟨Nat.le_of_lt hshort, iff_of_false (Nat.ne_of_lt hshort) (Nat.ne_of_lt hlt)⟩

end TableParsing.Utf8

/-! ## Offsets of a text -/

namespace TableParsing.Text

open Utf8

variable {text : Text} {pos : Nat} {b : UInt8}

/-- At the offset the text is cut cleanly. -/
def CleanAt (text : Text) (pos : Nat) : Prop :=
  pos ≤ text.size ∧ CleanCut (text.slice ⟨0, pos⟩) (text.slice ⟨pos, text.size⟩)

theorem cleanAt_zero (text : Text) : CleanAt text 0 := by
  refine ⟨Nat.zero_le _, .inl ?_⟩
  rw [slice_self]
  intro b hb
  cases hb

theorem cleanAt_size (text : Text) : CleanAt text text.size := by
  refine ⟨Nat.le_refl _, .inr ?_⟩
  rw [slice_self]
  intro b hb
  cases hb

theorem cleanAt_before (hb : text[pos]? = some b) (h : isAscii b = true) : CleanAt text pos := by
  have hlt := (Array.getElem?_eq_some_iff.mp hb).1
  refine ⟨Nat.le_of_lt hlt, .inr ?_⟩
  rw [slice_eq_cons hb hlt]
  rintro _ ⟨⟩
  exact h

theorem cleanAt_behind (hb : text[pos]? = some b) (h : isAscii b = true) :
    CleanAt text (pos + 1) := by
  refine ⟨(Array.getElem?_eq_some_iff.mp hb).1, .inl ?_⟩
  rw [slice_succ (Nat.zero_le _) hb, List.getLast?_concat]
  rintro _ ⟨⟩
  exact h

theorem CleanAt.slice_append (h : CleanAt text pos) :
    text.slice ⟨0, pos⟩ ++ text.slice ⟨pos, text.size⟩ = text.slice ⟨0, text.size⟩ :=
  (Text.slice_append (Nat.zero_le _) h.1).symm

/-- Up to a later offset the text is cut cleanly as well. -/
theorem CleanAt.between {stop : Nat} (h : CleanAt text pos) (hle : pos ≤ stop)
    (hstop : stop ≤ text.size) : CleanCut (text.slice ⟨0, pos⟩) (text.slice ⟨pos, stop⟩) := by
  have hcut := h.2
  rw [Text.slice_append hle hstop] at hcut
  exact hcut.of_prefix

theorem slice_zero (text : Text) (pos : Nat) : text.slice ⟨0, pos⟩ = text.toList.take pos := by
  rw [slice_eq, List.drop_zero, Nat.sub_zero]

theorem slice_all (text : Text) : text.slice ⟨0, text.size⟩ = text.toList := by
  rw [slice_zero, List.take_of_length_le (Nat.le_of_eq Array.length_toList)]

theorem length_slice_zero (h : pos ≤ text.size) : (text.slice ⟨0, pos⟩).length = pos := by
  rw [slice_zero, List.length_take, Array.length_toList, Nat.min_eq_left h]

theorem toList_ofString (s : String) : (ofString s).toList = encode s := by
  rw [encode, ByteArray.toList, toList_loop_eq]
  rfl

/-! ### Texts of strings -/

variable {s : String} {start stop : Nat}

theorem encode_eq_append (h : CleanAt (ofString s) pos) : encode s =
    (ofString s).slice ⟨0, pos⟩ ++ (ofString s).slice ⟨pos, (ofString s).size⟩ := by
  rw [h.slice_append, slice_all, toList_ofString]

theorem CleanAt.isValid (h : CleanAt (ofString s) pos) : (⟨pos⟩ : String.Pos.Raw).IsValid s := by
  have hvalid := isValid_of_cleanCut (encode_eq_append h) h.2
  rwa [length_slice_zero h.1] at hvalid

/-- Between two clean cuts there is a part of the string. -/
theorem CleanAt.exists_part (h1 : CleanAt (ofString s) start) (h2 : CleanAt (ofString s) stop)
    (hle : start ≤ stop) : ∃ before part after, s = before ++ part ++ after ∧
      before.utf8ByteSize = start ∧ encode part = (ofString s).slice ⟨start, stop⟩ := by
  obtain ⟨front, after, hs, hfront, _⟩ := exists_of_encode_eq_append (encode_eq_append h2) h2.2
  rw [Text.slice_append (Nat.zero_le _) hle] at hfront
  obtain ⟨before, part, rfl, hbefore, hpart⟩ :=
    exists_of_encode_eq_append hfront (h1.between hle h2.1)
  refine ⟨before, part, after, hs, ?_, hpart⟩
  rw [← length_encode, hbefore, length_slice_zero h1.1]

end TableParsing.Text
