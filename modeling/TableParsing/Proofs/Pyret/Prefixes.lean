import TableParsing.Proofs.Prefixes
import TableParsing.Proofs.Pyret.Certificate

/-!
# Prefixes of Pyret programs

The rows of the Pyret automaton offer reductions on whatever may follow a phrase somewhere, so a
single row may let an impossible token pass. Followed up to a shift, as a simulation does, they find
an error on the first token that no program continues with.
-/
namespace TableParsing.Pyret

open PyretSymbol

/-- Height of a lowest tree over a phrase. -/
def depth : PyretSymbol → Nat
  | idExpr | numExpr | stringExpr | boolExpr | nameBinding | binop | checkOp | args | appArgs => 1
  | primExpr | parameters => 2
  | expr => 3
  | binopExpr => 4
  | operands | parenExpr | appExpr | letExpr | funExpr | checkTest => 5
  | stmt | commaBinops => 6
  | statements => 7
  | block => 8
  | _ => 9

def symbolDepth (s : Symbol) : Nat := (ofSymbol? s).elim 0 depth

theorem rules_productive : rules.productive symbolDepth = true := by decide

theorem certificate_goesOn : certificate.goesOn table symbolWeight = true := by decide

/-- Fed with symbols, the automaton shifts exactly the prefixes of programs; behind a prefix the end
is viable if it is a program, and another symbol if with it the prefix still begins a program. -/
theorem errors_detected_at_cause {limit : Nat} (h : 9 ≤ limit) (w : List Symbol) :
    ((table.feed limit [startState] w).isSome = true ↔ ∃ v, Derives sourceFile (w ++ v)) ∧
    ∀ path, table.feed limit [startState] w = some path → ∀ s,
      ((table.simulate s limit path).isSome = true ↔
        if s = Symbol.endOfInput then Derives sourceFile w
        else ∃ v, Derives sourceFile (w ++ s :: v)) := by
  have hlimit : table.ChainsWithin limit := chainsWithin h
  constructor
  · exact Certificate.feed_isSome_iff certificate_fits table_fault rules_productive
      certificate_goesOn hlimit
  · intro path hfeed s
    exact Certificate.simulate_isSome_iff certificate_fits table_fault rules_productive
      certificate_goesOn hlimit hfeed

/-- Behind `x =` a number is viable, and the end is not. -/
theorem errors_detected_at_cause_binding :
    let path : List StateId := [39, 8, 0]
    9 ≤ 9 ∧ table.feed 9 [startState] (word [name, equals]) = some path ∧
      (∃ v, Derives sourceFile (word [name, equals] ++ v)) ∧
      (∃ v, Derives sourceFile (word [name, equals] ++ number.symbol :: v)) ∧
      ¬ Derives sourceFile (word [name, equals]) := by
  intro path
  have hfeed : table.feed 9 [startState] (word [name, equals]) = some path := by decide +kernel
  have hdetect := errors_detected_at_cause (Nat.le_refl 9) (word [name, equals])
  have hnumber := (hdetect.2 path hfeed number).mp (by decide +kernel)
  have hend := hdetect.2 path hfeed endOfInput
  rw [if_neg (by decide)] at hnumber
  rw [if_pos (by decide)] at hend
  refine ⟨Nat.le_refl 9, hfeed, hdetect.1.mp (by rw [hfeed]; rfl), hnumber, fun hd => ?_⟩
  have hviable : (table.simulate endOfInput 9 path).isSome = false := by decide +kernel
  exact absurd (hend.mpr hd) (by simp [hviable])

end TableParsing.Pyret
