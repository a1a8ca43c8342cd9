import TableParsing.Proofs.Coverage
import TableParsing.Proofs.Pyret.Certificate
import TableParsing.Proofs.Spelling

/-!
# Trees of Pyret texts

The root of a Pyret tree is a whole program or an error, so no tree of a Pyret text loses input.
-/
namespace TableParsing

namespace Pyret

variable {options : ParseOptions} {text : Text}

/-- The only node on a stack that accepts is a whole program. -/
theorem symbols_of_accepting {r : Run} (h : (Parser.job ⟨language, options⟩ text).Reachable r)
    (hp : r.phase = .accepting) : r.stack.symbols = [PyretSymbol.sourceFile.symbol] := by
  have ha := h.steady.accepting hp
  have hend := (accept_only_end ha).2
  rw [Job.currentAction?_eq _ h.steady.coherent, hend] at ha
  exact (Certificate.fits_of_check certificate_fits).spells_of_accept h.spelt ha

theorem root_symbol (options : ParseOptions) (text : Text) :
    (Parser.parse ⟨language, options⟩ text).root.symbol = Symbol.error ∨
      (Parser.parse ⟨language, options⟩ text).root.symbol = PyretSymbol.sourceFile.symbol := by
  let job := Parser.job ⟨language, options⟩ text
  change (job.assembleRoot job.finish.phase job.finish.stack.nodes).symbol = _ ∨
    (job.assembleRoot job.finish.phase job.finish.stack.nodes).symbol = _
  unfold Job.assembleRoot
  split
  · rename_i hp
    split
    · rename_i root trailing hd
      have hs := symbols_of_accepting job.finish_reachable hp
      have hroot := Stack.symbols_of_dropWhile hd
      rw [hs, List.reverse_singleton] at hroot
      exact .inr (List.cons.inj hroot).1.symm
    · exact .inl rfl
  · exact .inl rfl

end Pyret

open Pyret

/-- No tree loses or doubles input, if only the end can be accepted and no token is made the root; and
the root of a Pyret tree is never a token. -/
theorem Parser.parse_lossless :
    (∀ (p : Parser) (text : Text), p.language.table.AcceptsOnlyEnd →
      p.language.table.isTerminal (p.parse text).root.symbol = false → p.Lossless text) ∧
    ∀ (options : ParseOptions) (text : Text),
      let root := (Parser.parse ⟨Pyret.language, options⟩ text).root
      root.symbol = Symbol.error ∨ Pyret.language.table.isNonTerminal root.symbol = true := by
  constructor
  · intro p text haccept hroot
    exact p.lossless text haccept hroot
  · intro options text root
    rcases root_symbol options text with h | h
    · exact .inl h
    · right
      simp only [root, h]
      decide

/-- A text that is one word: its only leaf is the word. -/
theorem Parser.parse_lossless_word :
    Word.language.table.AcceptsOnlyEnd ∧
      Word.language.table.isTerminal (Word.parser.parse #[0x61]).root.symbol = false ∧
      (Word.parser.lexemes #[0x61]).filterMap Lexeme.token? = [⟨Word.word, 0, 1⟩] := by
  have haccept : Word.language.table.AcceptsOnlyEnd := by decide
  have hroot : Word.language.table.isTerminal (Word.parser.parse #[0x61]).root.symbol = false := by
    rw [Word.parse_letter]
    decide
  have hleaf : (Word.parser.parse #[0x61]).childless = [Node.leaf Word.word ⟨0, 1⟩ true] := by
    rw [Parser.childless_eq, Word.parse_letter]
    exact Node.leaves_of_childless rfl
  have h := (Parser.parse_lossless.1 Word.parser #[0x61] haccept hroot).lexemes
  rw [hleaf] at h
  exact ⟨haccept, hroot, h.symm⟩

end TableParsing
