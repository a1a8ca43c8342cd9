import TableParsing.Proofs.Pyret.Trees
import TableParsing.Proofs.Sexps

/-!
# S-expressions of Pyret texts

All names of the Pyret table are plain and the root is always written, so an S-expression tells the
visible tree, and only that.
-/
namespace TableParsing

namespace Pyret

variable {options : ParseOptions} {text : Text}

theorem plainNames : language.PlainNames where
  named := by decide
  quotable := by decide
  fields := by decide

theorem isWritten_root (options : ParseOptions) (text : Text) :
    language.isWritten (Parser.parse ⟨language, options⟩ text).root = true := by
  have hknown := (Parser.root_known ⟨language, options⟩ text).1
  rcases root_symbol options text with h | h
  · simp [Language.isWritten, Node.isError, h]
  · have hsymbol : language.table.isNamed PyretSymbol.sourceFile.symbol = true := by decide
    have hnamed := hknown.named.mpr (.inr (h ▸ hsymbol))
    have hvisible : language.isVisible PyretSymbol.sourceFile.symbol = true := by decide
    simp [Language.isWritten, hnamed, h, hvisible]

theorem exists_plain_root (options : ParseOptions) (text : Text) :
    let tree := Parser.parse ⟨language, options⟩ text
    ∃ t, language.visible tree.root = [t] ∧ tree.sexp = t.sexp ∧ t.Plain ∧ t.field = none :=
  Parser.exists_plain ⟨language, options⟩ plainNames text (isWritten_root options text)

theorem read?_sexp_root (options : ParseOptions) (text : Text) :
    let tree := Parser.parse ⟨language, options⟩ text
    SexpReader.read? tree.sexp = some (language.visible tree.root) := by
  obtain ⟨t, ht, hsexp, hplain, _⟩ := exists_plain_root options text
  simp only [hsexp, ht, SexpReader.read?_sexp hplain]

end Pyret

open Pyret

/-- The S-expression of a Pyret tree is one balanced list from which the visible tree is read back. So
two trees have the same S-expression exactly if they have the same visible tree. -/
theorem Parser.parse_sexp_faithful :
    (∀ (options : ParseOptions) (text : Text),
      let tree := Parser.parse ⟨Pyret.language, options⟩ text
      IsSexp tree.sexp ∧ (∃ t, Pyret.language.visible tree.root = [t]) ∧
        SexpReader.read? tree.sexp = some (Pyret.language.visible tree.root)) ∧
    ∀ (options options' : ParseOptions) (text text' : Text),
      let tree := Parser.parse ⟨Pyret.language, options⟩ text
      let tree' := Parser.parse ⟨Pyret.language, options'⟩ text'
      tree.sexp = tree'.sexp ↔
        Pyret.language.visible tree.root = Pyret.language.visible tree'.root := by
  constructor
  · intro options text tree
    obtain ⟨t, ht, hsexp, hplain, hfield⟩ := exists_plain_root options text
    exact ⟨hsexp ▸ hplain.isSexp hfield, ⟨t, ht⟩, read?_sexp_root options text⟩
  · intro options options' text text' tree tree'
    constructor
    · intro h
      have hread : SexpReader.read? tree.sexp = some (Pyret.language.visible tree.root) :=
        read?_sexp_root options text
      have hread' : SexpReader.read? tree'.sexp = some (Pyret.language.visible tree'.root) :=
        read?_sexp_root options' text'
      rw [h, hread'] at hread
      exact (Option.some.inj hread).symm
    · intro h
      obtain ⟨t, ht, hsexp, _⟩ := exists_plain_root options text
      obtain ⟨t', ht', hsexp', _⟩ := exists_plain_root options' text'
      obtain rfl : t = t' := List.singleton_inj.mp (ht.symm.trans (h.trans ht'))
      exact hsexp.trans hsexp'.symm

end TableParsing
