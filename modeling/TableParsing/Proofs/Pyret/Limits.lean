import TableParsing.Proofs.Limits
import TableParsing.Proofs.Pyret.HiddenRules

/-!
# Limits of Pyret parses

Every reduction of Pyret lightens the newest symbol of the stack, so nine of them are the most that
one lookahead can trigger. A limit of nine or more is never reached, and makes no difference to any
text, however broken.
-/
namespace TableParsing.Pyret

open PyretSymbol

/-- No simulation makes more than nine reductions, whatever its symbol, its limit and the stack it
begins on, and whether or not it succeeds: neither one of a lookahead, nor of a candidate for a
missing token, nor of the end behind a wrap. Hence a text has the same tree and the same errors
under all limits from nine on. -/
theorem parse_eq_of_nine_le :
    (∀ s limit path, ∃ n ≤ 9, Ends (language.table.simulateBody s limit) (n + 1) (0, path)
      (language.table.simulate s limit path)) ∧
    ∀ (options options' : ParseOptions) (text : Text),
      options.insertMissing = options'.insertMissing → 9 ≤ options.reductionLimit →
      9 ≤ options'.reductionLimit →
      Parser.parse ⟨language, options⟩ text = Parser.parse ⟨language, options'⟩ text :=
  have hnine : language.table.ChainsWithin 9 := chainsWithin (Nat.le_refl 9)
  ⟨hnine.simulate_ends (by decide), fun _ _ text hsame hl hl' =>
    Parser.parse_eq_of_chainsWithin hnine text hsame hl hl'⟩

/-- The open sum is wrapped in the same way when only nine reductions are allowed. -/
theorem parse_eq_of_nine_le_openSum :
    let options : ParseOptions := { reductionLimit := 9 }
    (options.insertMissing = ({} : ParseOptions).insertMissing ∧ 9 ≤ options.reductionLimit ∧
      9 ≤ ({} : ParseOptions).reductionLimit) ∧
    Parser.parse ⟨language, options⟩ OpenSum.text = Parser.parse ⟨language, {}⟩ OpenSum.text ∧
      (Parser.parse ⟨language, options⟩ OpenSum.text).root =
        Node.branch sourceFile ⟨0, 3⟩ true [OpenSum.wrapper] := by
  intro options
  have hlimits : options.insertMissing = ({} : ParseOptions).insertMissing ∧
      9 ≤ options.reductionLimit ∧ 9 ≤ ({} : ParseOptions).reductionLimit := by decide
  have heq := parse_eq_of_nine_le.2 options {} OpenSum.text hlimits.1 hlimits.2.1 hlimits.2.2
  exact ⟨hlimits, heq, (congrArg SyntaxTree.root heq).trans OpenSum.root_parse⟩

/-- Nine are needed: behind `x = 1` the end triggers as many. -/
example : table.simulate endOfInput 8 [19, 39, 8, 0] = none ∧
    table.simulate endOfInput 9 [19, 39, 8, 0] = some (.accept, [1, 0]) := by
  decide

end TableParsing.Pyret
