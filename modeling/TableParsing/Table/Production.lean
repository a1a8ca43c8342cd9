import TableParsing.Table.Symbol

/-!
# Productions

A production records how many children it takes and which of them bear a field.
-/
namespace TableParsing

structure Production where
  lhs : Symbol
  childCount : UInt16
  /-- Children are counted without extras. -/
  fields : List (UInt16 × FieldId)
deriving DecidableEq, Inhabited

namespace Production

def ofArity (lhs : Symbol) (childCount : UInt16) : Production := ⟨lhs, childCount, []⟩

def withField (p : Production) (child : UInt16) (f : FieldId) : Production :=
  { p with fields := p.fields ++ [(child, f)] }

/-- The first field declared for the child. -/
def fieldFor (p : Production) (child : Nat) : Option FieldId :=
  (p.fields.find? (·.1.toNat == child)).map (·.2)

/-- A new field counts only for a child that has none. -/
theorem fieldFor_withField (p : Production) (child : UInt16) (f : FieldId) (i : Nat) :
    (p.withField child f).fieldFor i =
      (p.fieldFor i).or (if child.toNat = i then some f else none) := by
  simp only [fieldFor, withField, List.find?_append, List.find?_singleton]
  cases p.fields.find? (·.1.toNat == i) with
  | some entry => rfl
  | none => by_cases h : child.toNat = i <;> simp [h]

end Production

end TableParsing
