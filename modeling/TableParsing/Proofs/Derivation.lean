import Mathlib.Tactic.Common
import TableParsing.Table.Symbol

/-!
# Derivations

Context-free rules over the symbols of a table, and the words that a sentential form derives. A
symbol without a rule stands for itself.
-/
namespace TableParsing

structure Rule where
  lhs : Symbol
  rhs : List Symbol
deriving DecidableEq, Inhabited

/-- The rules of a grammar, in the order of its productions. -/
abbrev Rules := List Rule

namespace Rules

/-- Some rule rewrites the symbol. -/
def Rewrites (rules : Rules) (s : Symbol) : Prop := ∃ rule ∈ rules, rule.lhs = s

instance (rules : Rules) (s : Symbol) : Decidable (rules.Rewrites s) :=
  inferInstanceAs (Decidable (∃ rule ∈ rules, rule.lhs = s))

/-- The words that a list of symbols derives. -/
inductive Yields (rules : Rules) : List Symbol → List Symbol → Prop
  | nil : Yields rules [] []
  | terminal {s : Symbol} {form word : List Symbol} : ¬ rules.Rewrites s →
      Yields rules form word → Yields rules (s :: form) (s :: word)
  | rule {rule : Rule} {form front word : List Symbol} : rule ∈ rules →
      Yields rules rule.rhs front → Yields rules form word →
      Yields rules (rule.lhs :: form) (front ++ word)

variable {rules : Rules} {form form' word word' : List Symbol} {s : Symbol} {r : Rule}

theorem Yields.append (h : rules.Yields form word) (h' : rules.Yields form' word') :
    rules.Yields (form ++ form') (word ++ word') := by
  induction h with
  | nil => exact h'
  | terminal hs _ ih => exact .terminal hs ih
  | rule hr hrhs _ _ ih =>
    rw [List.append_assoc]
    exact .rule hr hrhs ih

theorem yields_append : rules.Yields (form ++ form') word ↔
    ∃ front back, word = front ++ back ∧ rules.Yields form front ∧ rules.Yields form' back := by
  constructor
  · induction form generalizing word with
    | nil =>
      intro h
      exact ⟨[], word, rfl, .nil, h⟩
    | cons s form ih =>
      intro h
      cases h with
      | terminal hs h =>
        obtain ⟨front, back, rfl, hf, hb⟩ := ih h
        exact ⟨s :: front, back, rfl, .terminal hs hf, hb⟩
      | @rule _ _ first _ hr hrhs h =>
        obtain ⟨front, back, rfl, hf, hb⟩ := ih h
        exact ⟨first ++ front, back, (List.append_assoc first front back).symm,
          .rule hr hrhs hf, hb⟩
  · rintro ⟨front, back, rfl, hf, hb⟩
    exact hf.append hb

theorem Yields.single (hr : r ∈ rules) (h : rules.Yields r.rhs word) :
    rules.Yields [r.lhs] word := by
  rw [← List.append_nil word]
  exact .rule hr h .nil

theorem yields_singleton (hs : rules.Rewrites s) :
    rules.Yields [s] word ↔ ∃ rule ∈ rules, rule.lhs = s ∧ rules.Yields rule.rhs word := by
  constructor
  · intro h
    cases h with
    | terminal hn _ => exact absurd hs hn
    | rule hr hrhs h =>
      cases h
      exact ⟨_, hr, rfl, by simpa using hrhs⟩
  · rintro ⟨rule, hr, rfl, h⟩
    exact h.single hr

/-- The words that a list of symbols stands for when `meaning` gives those of each symbol. -/
def Reads (meaning : Symbol → List Symbol → Prop) : List Symbol → List Symbol → Prop
  | [], word => word = []
  | s :: form, word => ∃ front back, word = front ++ back ∧ meaning s front ∧ Reads meaning form back

/-- What is closed under the rules holds of every derivation. -/
theorem Yields.reads {meaning : Symbol → List Symbol → Prop}
    (terminal : ∀ s, ¬ rules.Rewrites s → meaning s [s])
    (rule : ∀ rule ∈ rules, ∀ word, Reads meaning rule.rhs word → meaning rule.lhs word)
    (h : rules.Yields form word) : Reads meaning form word := by
  induction h with
  | nil => rfl
  | @terminal s _ word hs _ ih => exact ⟨[s], word, rfl, terminal s hs, ih⟩
  | @rule r _ front word hr _ _ ihrhs ih => exact ⟨front, word, rfl, rule r hr front ihrhs, ih⟩

end Rules

end TableParsing
