/-!
# Byte spans

Half-open ranges of byte offsets into a source text.
-/
namespace TableParsing

/-- The bytes from `start` up to, not including, `stop`. -/
structure Span where
  start : Nat
  stop : Nat
deriving DecidableEq, Inhabited

namespace Span

def empty (offset : Nat) : Span := ⟨offset, offset⟩

def length (s : Span) : Nat := s.stop - s.start

def isEmpty (s : Span) : Bool := s.start == s.stop

/-- Both ends of `t` lie within `s`. -/
def contains (s t : Span) : Bool := decide (s.start ≤ t.start ∧ t.stop ≤ s.stop)

/-- The smallest span that contains both. -/
def cover (s t : Span) : Span := ⟨min s.start t.start, max s.stop t.stop⟩

theorem contains_iff (s t : Span) : s.contains t = true ↔ s.start ≤ t.start ∧ t.stop ≤ s.stop := by
  simp [contains]

theorem cover_contains_left (s t : Span) : (s.cover t).contains s = true := by
  simp only [contains_iff, cover]; omega

theorem cover_contains_right (s t : Span) : (s.cover t).contains t = true := by
  simp only [contains_iff, cover]; omega

end Span

end TableParsing
