import TableParsing.Proofs.Termination

/-!
# What a machine checks

A sum must fit its word, a difference must not be negative, and a slice must lie within its text;
otherwise there is no result.
-/
namespace TableParsing

/-- A 16-bit word is below this. -/
def shortBound : Nat := UInt16.size

/-- The sum of two numbers that are kept below a bound. -/
def checkedAdd (bound m n : Nat) : Option Nat := if m + n < bound then some (m + n) else none

def checkedSub (m n : Nat) : Option Nat := if n ≤ m then some (m - n) else none

def Text.checkedSlice (text : Text) (span : Span) : Option Bytes :=
  if span.start ≤ span.stop ∧ span.stop ≤ text.size then some (text.slice span) else none

theorem checkedAdd_eq {bound m n : Nat} (h : m + n < bound) : checkedAdd bound m n = some (m + n) :=
  if_pos h

theorem checkedSub_eq {m n : Nat} (h : n ≤ m) : checkedSub m n = some (m - n) := if_pos h

theorem Text.checkedSlice_eq {text : Text} {span : Span} (h1 : span.start ≤ span.stop)
    (h2 : span.stop ≤ text.size) : text.checkedSlice span = some (text.slice span) :=
  if_pos ⟨h1, h2⟩

end TableParsing
