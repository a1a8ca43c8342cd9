import TableParsing.Language

/-!
# Handles

Several handles may share one loaded language. Loading numbers are handed out in order, and two
handles share their table exactly if they carry the same number.
-/
namespace TableParsing

structure Handle where
  serial : Nat
  language : Language

namespace Handle

def sameTable (a b : Handle) : Bool := a.serial == b.serial

end Handle

/-- Counts the languages loaded so far. -/
structure Registry where
  count : Nat
deriving Inhabited

namespace Registry

def empty : Registry := ⟨0⟩

def add (r : Registry) (l : Language) : Handle × Registry := (⟨r.count, l⟩, ⟨r.count + 1⟩)

def load (r : Registry) (g : Grammar) : Except LanguageError (Handle × Registry) :=
  (Language.load g).map r.add

theorem add_not_sameTable (r : Registry) (l : Language) (h : Handle) (old : h.serial < r.count) :
    (r.add l).1.sameTable h = false := by
  simp only [add, Handle.sameTable, beq_eq_false_iff_ne]; omega

end Registry

end TableParsing
