import TableParsing.Parser.Options
import TableParsing.Toml.Document

/-!
# Configuration files

Parse options as a TOML document with one table, `recovery`. The table may also be written as an
array of its values in order; what an array leaves out has its default, and what it has too much is
ignored.
-/
namespace TableParsing

/-- Why a file could not be read as text. -/
inductive ReadFault where
  | notFound
  | notUtf8
  | other (message : String)
deriving DecidableEq

def ReadFault.message : ReadFault → String
  | notFound => "No such file or directory (os error 2)"
  | notUtf8 => "stream did not contain valid UTF-8"
  | other message => message

inductive ConfigFault where
  | unreadable (fault : ReadFault)
  /-- Not TOML, or not the options. -/
  | refused
  | zeroLimit
deriving DecidableEq

def ConfigFault.message (path : String) : ConfigFault → String
  | unreadable fault => s!"could not read {path}: {fault.message}"
  | refused => s!"invalid config {path}: "
  | zeroLimit => s!"invalid config {path}: recovery.reduction_limit must be at least 1"

namespace ParseOptions

def withInsertMissing (o : ParseOptions) : Toml.Value → Option ParseOptions
  | .boolean b => some { o with insertMissing := b }
  | _ => none

def withReductionLimit (o : ParseOptions) : Toml.Value → Option ParseOptions
  | .integer n => if 0 ≤ n then some { o with reductionLimit := n.toNat } else none
  | _ => none

/-- Only known options are accepted. -/
def withMember (o : ParseOptions) : String × Toml.Value → Option ParseOptions
  | ("insert_missing", v) => o.withInsertMissing v
  | ("reduction_limit", v) => o.withReductionLimit v
  | _ => none

def withRecovery (o : ParseOptions) : Toml.Value → Option ParseOptions
  | .table members => members.foldlM withMember o
  | .array [] => some o
  | .array [insertMissing] => o.withInsertMissing insertMissing
  | .array (insertMissing :: reductionLimit :: _) =>
    (o.withInsertMissing insertMissing).bind (·.withReductionLimit reductionLimit)
  | _ => none

def withSection (o : ParseOptions) : String × Toml.Value → Option ParseOptions
  | ("recovery", v) => o.withRecovery v
  | _ => none

/-- The options of a document; a limit of zero would allow no reduction at all. -/
def ofToml (document : String) : Except ConfigFault ParseOptions :=
  match (Toml.parse? document).bind (·.foldlM withSection {}) with
  | none => .error .refused
  | some o => if o.reductionLimit = 0 then .error .zeroLimit else .ok o

end ParseOptions

end TableParsing
