import TableParsing.Text.Utf8

/-!
# Codecs

A codec writes a value as bytes and reads one back from the front of a byte string. Unsigned
integers are written in one byte up to 250, else as a marker byte and 2, 4 or 8 bytes, least first;
reading accepts every form that is not wider than the type.
-/
namespace TableParsing

structure Codec (α : Type) where
  encode : α → Bytes
  /-- The value and the unread bytes. -/
  decode : Bytes → Option (α × Bytes)

namespace Codec

variable {α β : Type}

/-- The `count` low bytes of a number, least first. -/
def littleEndian (n : Nat) : (count : Nat) → Bytes
  | 0 => []
  | count + 1 => UInt8.ofNat n :: littleEndian (n / 256) count

/-- The number with these bytes, least first. -/
def ofLittleEndian : Bytes → Nat
  | [] => 0
  | b :: rest => b.toNat + 256 * ofLittleEndian rest

def writeVarint (n : Nat) : Bytes :=
  if n ≤ 250 then [UInt8.ofNat n]
  else if n < 0x10000 then 251 :: littleEndian n 2
  else if n < 0x100000000 then 252 :: littleEndian n 4
  else 253 :: littleEndian n 8

@[simp] theorem length_littleEndian (n count : Nat) : (littleEndian n count).length = count := by
  induction count generalizing n with
  | zero => rfl
  | succ count ih => simp [littleEndian, ih]

theorem ofLittleEndian_littleEndian (n count : Nat) :
    ofLittleEndian (littleEndian n count) = n % Nat.pow 256 count := by
  induction count generalizing n with
  | zero => simp [littleEndian, ofLittleEndian, Nat.mod_one]
  | succ count ih =>
    have h : (UInt8.ofNat n).toNat = n % 256 := UInt8.toNat_ofNat'
    simp only [littleEndian, ofLittleEndian, ih, h]
    have hpow : Nat.pow 256 (count + 1) = 256 * Nat.pow 256 count := Nat.mul_comm _ _
    rw [hpow, Nat.mod_mul]

/-- The next `count` bytes as a number. -/
def readFixed (count : Nat) (bytes : Bytes) : Option (Nat × Bytes) :=
  let taken := bytes.take count
  if taken.length = count then some (ofLittleEndian taken, bytes.drop count) else none

/-- Reads a number written in at most `width` bytes behind its marker. -/
def readVarint (width : Nat) : Bytes → Option (Nat × Bytes)
  | [] => none
  | marker :: rest =>
    if marker ≤ 250 then some (marker.toNat, rest)
    else if marker = 251 ∧ 2 ≤ width then readFixed 2 rest
    else if marker = 252 ∧ 4 ≤ width then readFixed 4 rest
    else if marker = 253 ∧ 8 ≤ width then readFixed 8 rest
    else none

/-- Written through `toBase`, read back through `ofBase?`, which may refuse. -/
def partialMap (c : Codec α) (toBase : β → α) (ofBase? : α → Option β) : Codec β where
  encode b := c.encode (toBase b)
  decode bytes := do
    let (a, rest) ← c.decode bytes
    let b ← ofBase? a
    some (b, rest)

def map (c : Codec α) (toBase : β → α) (ofBase : α → β) : Codec β :=
  c.partialMap toBase (some ∘ ofBase)

/-- A natural number written in at most `width` bytes behind its marker. -/
def varint (width : Nat) : Codec Nat := ⟨writeVarint, readVarint width⟩

def uint16 : Codec UInt16 := (varint 2).map UInt16.toNat UInt16.ofNat

def uint32 : Codec UInt32 := (varint 4).map UInt32.toNat UInt32.ofNat

def size : Codec Nat := varint 8

def byte : Codec UInt8 where
  encode b := [b]
  decode
    | [] => none
    | b :: rest => some (b, rest)

def bool : Codec Bool :=
  byte.partialMap (fun b => if b then 1 else 0)
    fun b => if b = 0 then some false else if b = 1 then some true else none

/-- One codec after another. -/
def pair (c : Codec α) (d : Codec β) : Codec (α × β) where
  encode p := c.encode p.1 ++ d.encode p.2
  decode bytes := do
    let (a, rest) ← c.decode bytes
    let (b, rest) ← d.decode rest
    some ((a, b), rest)

def option (c : Codec α) : Codec (Option α) where
  encode
    | none => [0]
    | some a => 1 :: c.encode a
  decode
    | [] => none
    | tag :: rest =>
      if tag = 0 then some (none, rest)
      else if tag = 1 then (c.decode rest).map fun (a, rest) => (some a, rest)
      else none

/-- `count` values, put in front of the reversed `read`. -/
def decodeMany (c : Codec α) : (count : Nat) → (read : List α) → Bytes → Option (List α × Bytes)
  | 0, read, bytes => some (read.reverse, bytes)
  | count + 1, read, bytes =>
    match c.decode bytes with
    | none => none
    | some (a, rest) => decodeMany c count (a :: read) rest

/-- The number of values, then the values. -/
def list (c : Codec α) : Codec (List α) where
  encode as := size.encode as.length ++ as.flatMap c.encode
  decode bytes := do
    let (count, rest) ← size.decode bytes
    c.decodeMany count [] rest

def array (c : Codec α) : Codec (Array α) := c.list.map Array.toList List.toArray

/-- The number of bytes, then the bytes. -/
def bytes : Codec Bytes where
  encode bs := size.encode bs.length ++ bs
  decode input := do
    let (count, rest) ← size.decode input
    let taken := rest.take count
    if taken.length = count then some (taken, rest.drop count) else none

def string : Codec String := bytes.partialMap Utf8.encode Utf8.decode?

end Codec

end TableParsing
