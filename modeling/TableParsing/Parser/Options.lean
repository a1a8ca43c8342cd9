/-!
# Parse options

How far error recovery may go.
-/
namespace TableParsing

/-- Counts and positions are words, and a word is below this. -/
def wordBound : Nat := UInt64.size

structure ParseOptions where
  /-- Whether recovery may supply a missing token. -/
  insertMissing : Bool := true
  /-- Reductions that one simulation may perform before it counts as failed. -/
  reductionLimit : Nat := 100000
deriving DecidableEq, Inhabited

end TableParsing
