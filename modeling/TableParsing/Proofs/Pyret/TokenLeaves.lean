import TableParsing.Proofs.Pyret.Conformance
import TableParsing.Proofs.TokenLeaves

/-!
# Leaves of Pyret trees

In Pyret only parentheses depend on the state, and each is found as the same token or not at all. So
the leaves of a tree without errors, comments among them, are the tokens of its text.
-/
namespace TableParsing.Pyret

open PyretSymbol

theorem uniform : grammar.Uniform := fun _ _ _ _ h => lexemeAt_allValid h

/-- Only a program may be empty, and none stands within another. -/
theorem emptyOnly_rules : certificate.rules.EmptyOnly sourceFile where
  filled := by decide
  absent := by decide

theorem acceptsOnlyEnd : language.table.AcceptsOnlyEnd := by decide

/-- The leaves of a text without errors are the tokens that the lexer finds without a parser. -/
theorem parse_leaves_eq_tokens (options : ParseOptions) (text : Text)
    (h : (Parser.parse ⟨language, options⟩ text).errors = []) :
    (Parser.parse ⟨language, options⟩ text).childless.map (fun n => (⟨n.symbol, n.span⟩ : Token)) =
      language.tokens text := by
  have herr : (Parser.parse ⟨language, options⟩ text).hasError = false :=
    (Parser.hasError_eq_false_iff ⟨language, options⟩ text
      fun _ ha => (accept_only_end ha).1 rfl).mpr h
  have hphase := Job.finish_accepting (Parser.errors_finish_of_hasError _ _ herr)
  have hroot : language.table.isTerminal (Parser.parse ⟨language, options⟩ text).root.symbol =
      false := by
    rcases root_symbol options text with hs | hs
    · rw [hs]
      decide
    · rw [hs]
      decide
  exact Parser.childless_eq_tokens herr uniform acceptsOnlyEnd
    (Certificate.fits_of_check certificate_fits) emptyOnly_rules
    (single_of_accepting (Job.finish_reachable _) hphase) hroot

theorem parse_leaves_eq_tokens_binding :
    (Parser.parse ⟨language, {}⟩ Binding.text).errors = [] ∧
      language.tokens Binding.text = [⟨name, 0, 1⟩, ⟨equals, 1, 2⟩, ⟨number, 2, 3⟩,
        ⟨lineComment, 3, 4⟩] := by
  have herrors : (Parser.parse ⟨language, {}⟩ Binding.text).errors = [] := by
    rw [Binding.parse_eq]
  refine ⟨herrors, ?_⟩
  rw [← parse_leaves_eq_tokens {} Binding.text herrors, Parser.childless_eq, Binding.parse_eq]
  simp [Node.leaves, Node.walkPending, Node.branch, Node.leaf, Binding.binding, Binding.bound,
    Binding.value, Binding.comment]

end TableParsing.Pyret
