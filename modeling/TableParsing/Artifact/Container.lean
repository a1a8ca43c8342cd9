import TableParsing.Artifact.Payload
import TableParsing.Artifact.Sha256
import TableParsing.Grammar
import TableParsing.LanguageError

/-!
# Artifacts

A table as a file: four magic bytes, the version, a checksum of the payload, the payload's length,
and the payload. Nothing is read from the payload before the header agrees with it.
-/
namespace TableParsing.Artifact

abbrev Checksum := Vector UInt8 32

/-- The bytes of `PGTB`. -/
def magic : Bytes := [0x50, 0x47, 0x54, 0x42]

def headerSize : Nat := 44

def isArtifact (bytes : Bytes) : Bool := magic.isPrefixOf bytes

def maxPayload : Nat := 0xFFFFFFFF

variable (checksum : Bytes → Checksum)

def header (version : UInt32) (payload : Bytes) : Bytes :=
  magic ++ Codec.littleEndian version.toNat 4 ++ (checksum payload).toList ++
    Codec.littleEndian payload.length 4

def write (t : GrammarTable) : Except LanguageError Bytes :=
  let payload := Payload.table.encode t
  if maxPayload < payload.length then .error (.oversized payload.length)
  else .ok (header checksum t.version payload ++ payload)

/-- The number in the four bytes at `offset`. -/
def wordAt (bytes : Bytes) (offset : Nat) : Nat :=
  Codec.ofLittleEndian ((bytes.drop offset).take 4)

/-- A payload that the header has already vouched for. -/
def readPayload (version : UInt32) (payload : Bytes) : Except LanguageError GrammarTable :=
  match Payload.table.decode payload with
  | none => .error (.undecodable .unreadable)
  | some (t, rest) =>
    if !rest.isEmpty then .error (.undecodable (.trailing rest.length))
    else if t.version ≠ version then
      .error (.inconsistentArtifact (.versionMismatch version t.version))
    else .ok t

def read (bytes : Bytes) : Except LanguageError GrammarTable :=
  if bytes.length < magic.length then .error (.truncated headerSize bytes.length)
  else if !isArtifact bytes then .error .invalidMagic
  else if bytes.length < headerSize then .error (.truncated headerSize bytes.length)
  else
    let version := UInt32.ofNat (wordAt bytes 4)
    let declared := wordAt bytes 40
    let payload := bytes.drop headerSize
    if !isSupported version then .error (.incompatibleVersion version)
    else if payload.length ≠ declared then
      .error (.inconsistentArtifact (.lengthMismatch declared payload.length))
    else if (checksum payload).toList ≠ (bytes.drop 8).take 32 then
      .error (.inconsistentArtifact .checksumMismatch)
    else readPayload version payload

/-- A scanner is code, which an artifact does not carry. -/
def writeGrammar (g : Grammar) : Except LanguageError Bytes := write checksum g.table

def readGrammar (bytes : Bytes) : Except LanguageError Grammar := do
  let t ← read checksum bytes
  .ok t.withoutScanner

end TableParsing.Artifact

namespace TableParsing.GrammarTable

def toArtifact (t : GrammarTable) : Except LanguageError Bytes := Artifact.write Sha256.digest t

def ofArtifact (bytes : Bytes) : Except LanguageError GrammarTable :=
  Artifact.read Sha256.digest bytes

end TableParsing.GrammarTable

namespace TableParsing.Grammar

def toArtifact (g : Grammar) : Except LanguageError Bytes := Artifact.writeGrammar Sha256.digest g

def ofArtifact (bytes : Bytes) : Except LanguageError Grammar :=
  Artifact.readGrammar Sha256.digest bytes

end TableParsing.Grammar
