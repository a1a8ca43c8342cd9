import TableParsing.Language
import TableParsing.Pyret.Automaton
import TableParsing.Pyret.Lexis
import TableParsing.Pyret.Paren
import TableParsing.Pyret.Productions

/-!
# The Pyret language

The bundled table for a subset of Pyret: bindings, functions, check tests, chains of operators,
applications and literals.
-/
namespace TableParsing.Pyret

def table : GrammarTable :=
  { name := "pyret"
    version := newestVersion
    symbols := (PyretSymbol.all.map PyretSymbol.metadata).toArray
    fields := Field.names
    productions := productions
    states := states
    lexStates := lexStates
    separators := separators
    wordToken := some PyretSymbol.name
    keywords := keywords
    externalTokens := [PyretSymbol.parenNoSpace, PyretSymbol.parenSpace] }

def grammar : Grammar := table.withScanner scanParen

/-- The bundled table passes every check. -/
theorem grammar_consistent : grammar.fault? = none := by decide +kernel

def language : Language := ⟨grammar, by decide, grammar_consistent⟩

end TableParsing.Pyret
