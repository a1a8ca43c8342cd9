import TableParsing.Span

/-!
# UTF-8 text

Decoding of arbitrary bytes into characters and malformed pieces. A malformed piece is the longest
run of bytes that begins some character, or one byte if no character begins so.
-/
namespace TableParsing

abbrev Bytes := List UInt8

/-- A source text: bytes of any kind, with constant-time access. -/
abbrev Text := Array UInt8

namespace Utf8

/-- One unit of decoded text. -/
inductive Piece where
  | char (c : Char)
  /-- `length` bytes that form no character; `cut` when only the end of the bytes is to blame. -/
  | malformed (length : Nat) (cut : Bool)
deriving DecidableEq

def isContinuation (b : UInt8) : Bool := 0x80 ≤ b && b ≤ 0xBF

/-- Number of bytes of a character that begins with this byte; 0 if none does. -/
def width (lead : UInt8) : Nat :=
  if lead ≤ 0x7F then 1
  else if 0xC2 ≤ lead && lead ≤ 0xDF then 2
  else if 0xE0 ≤ lead && lead ≤ 0xEF then 3
  else if 0xF0 ≤ lead && lead ≤ 0xF4 then 4
  else 0

/-- The second byte excludes overlong forms, surrogates and code points above U+10FFFF. -/
def isSecond (lead second : UInt8) : Bool :=
  if lead == 0xE0 then 0xA0 ≤ second && second ≤ 0xBF
  else if lead == 0xED then 0x80 ≤ second && second ≤ 0x9F
  else if lead == 0xF0 then 0x90 ≤ second && second ≤ 0xBF
  else if lead == 0xF4 then 0x80 ≤ second && second ≤ 0x8F
  else isContinuation second

/-- The six payload bits of a continuation byte. -/
def payload (b : UInt8) : Nat := b.toNat % 64

/-- The first piece of a non-empty byte string and the number of bytes it takes after the first. -/
def firstPiece (lead : UInt8) (rest : Bytes) : Piece × Nat :=
  match width lead, rest with
  | 1, _ => (.char (Char.ofNat lead.toNat), 0)
  | 2, [] => (.malformed 1 true, 0)
  | 2, b :: _ =>
    if isSecond lead b then (.char (Char.ofNat (lead.toNat % 32 * 64 + payload b)), 1)
    else (.malformed 1 false, 0)
  | 3, [] => (.malformed 1 true, 0)
  | 3, b :: rest =>
    if isSecond lead b then
      match rest with
      | [] => (.malformed 2 true, 1)
      | c :: _ =>
        if isContinuation c then
          (.char (Char.ofNat ((lead.toNat % 16 * 64 + payload b) * 64 + payload c)), 2)
        else (.malformed 2 false, 1)
    else (.malformed 1 false, 0)
  | 4, [] => (.malformed 1 true, 0)
  | 4, b :: rest =>
    if isSecond lead b then
      match rest with
      | [] => (.malformed 2 true, 1)
      | c :: rest =>
        if isContinuation c then
          match rest with
          | [] => (.malformed 3 true, 2)
          | d :: _ =>
            if isContinuation d then
              (.char (Char.ofNat
                (((lead.toNat % 8 * 64 + payload b) * 64 + payload c) * 64 + payload d)), 3)
            else (.malformed 3 false, 2)
        else (.malformed 2 false, 1)
    else (.malformed 1 false, 0)
  | _, _ => (.malformed 1 false, 0)

def pieces : Bytes → List Piece
  | [] => []
  | b :: rest => (firstPiece b rest).1 :: pieces (rest.drop (firstPiece b rest).2)
termination_by bytes => bytes.length
decreasing_by simp only [List.length_drop, List.length_cons]; omega

def Piece.length : Piece → Nat
  | .char c => c.utf8Size
  | .malformed n _ => n

/-- Malformed pieces read as the replacement character. -/
def Piece.toChar : Piece → Char
  | .char c => c
  | .malformed .. => Char.ofNat 0xFFFD

/-- Every byte string read as text, each malformed piece as one U+FFFD. -/
def lossyChars (bytes : Bytes) : List Char := (pieces bytes).map Piece.toChar

def lossy (bytes : Bytes) : String := String.ofList (lossyChars bytes)

/-- Where and why a byte string is not UTF-8. -/
structure Fault where
  index : Nat
  length : Nat
  cut : Bool
deriving DecidableEq

def Fault.message (f : Fault) : String :=
  if f.cut then s!"incomplete utf-8 byte sequence from index {f.index}"
  else s!"invalid utf-8 sequence of {f.length} bytes from index {f.index}"

/-- The characters read so far, or the first malformed piece; `index` counts the bytes passed. -/
def check (index : Nat) : List Piece → Except Fault (List Char)
  | [] => .ok []
  | .char c :: rest => (check (index + c.utf8Size) rest).map (c :: ·)
  | .malformed n cut :: _ => .error ⟨index, n, cut⟩

def decode (bytes : Bytes) : Except Fault String :=
  (check 0 (pieces bytes)).map String.ofList

def decode? (bytes : Bytes) : Option String := (decode bytes).toOption

def encode (s : String) : Bytes := s.toUTF8.toList

/-- Number of whole characters among the first `offset` bytes. -/
def charOffset : List Char → Nat → Nat
  | [], _ => 0
  | c :: rest, offset =>
    if c.utf8Size ≤ offset then charOffset rest (offset - c.utf8Size) + 1 else 0

end Utf8

namespace Text

def ofString (s : String) : Text := s.toUTF8.data

/-- The bytes in a span, as far as the text has them. -/
def slice (text : Text) (span : Span) : Bytes := (text.extract span.start span.stop).toList

end Text

/-- The part of `s` in the span, if both ends are character boundaries in order. -/
def Span.slice? (span : Span) (s : String) : Option String :=
  let bytes := Text.ofString s
  if span.start ≤ span.stop ∧ span.stop ≤ bytes.size then
    let isBoundary (i : Nat) : Bool := (bytes[i]?).all (!Utf8.isContinuation ·)
    if isBoundary span.start && isBoundary span.stop then Utf8.decode? (bytes.slice span) else none
  else none

end TableParsing
