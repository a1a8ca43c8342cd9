import TableParsing.Table.Fault

/-!
# Errors of loading

Why a grammar table, or the artifact that holds one, is refused.
-/
namespace TableParsing

/-- The table versions this library reads. -/
def oldestVersion : UInt32 := 13

def newestVersion : UInt32 := 15

def isSupported (version : UInt32) : Bool :=
  decide (oldestVersion ≤ version) && decide (version ≤ newestVersion)

/-- Ways in which the parts of an artifact contradict each other. -/
inductive ArtifactFault where
  | lengthMismatch (declared found : Nat)
  | checksumMismatch
  | versionMismatch (header table : UInt32)
deriving DecidableEq

def ArtifactFault.message : ArtifactFault → String
  | lengthMismatch declared found =>
    s!"payload length mismatch: header says {declared} bytes, found {found}"
  | checksumMismatch => "payload checksum mismatch"
  | versionMismatch header table =>
    s!"header version {header} does not match table version {table}"

inductive DecodeFault where
  | unreadable
  | trailing (count : Nat)
deriving DecidableEq

def DecodeFault.message : DecodeFault → String
  | unreadable => "payload is not a table"
  | trailing count => s!"{count} trailing bytes after table"

inductive LanguageError where
  | incompatibleVersion (version : UInt32)
  | inconsistentTable (fault : TableFault)
  | inconsistentArtifact (fault : ArtifactFault)
  | invalidMagic
  | truncated (expected actual : Nat)
  | oversized (length : Nat)
  | undecodable (fault : DecodeFault)
deriving DecidableEq

def LanguageError.message : LanguageError → String
  | incompatibleVersion version =>
    s!"incompatible language version {version}, expected {oldestVersion}..={newestVersion}"
  | inconsistentTable fault => s!"malformed grammar table: {fault.message}"
  | inconsistentArtifact fault => s!"malformed grammar table: {fault.message}"
  | invalidMagic => "invalid magic number: not a grammar table artifact"
  | truncated expected actual =>
    s!"truncated grammar table artifact: need {expected} bytes, got {actual}"
  | oversized length =>
    s!"grammar table encode error: payload of {length} bytes exceeds the 4 GiB limit"
  | undecodable fault => s!"grammar table decode error: {fault.message}"

end TableParsing
