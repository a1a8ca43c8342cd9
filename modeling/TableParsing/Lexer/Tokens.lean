import TableParsing.Language
import TableParsing.Lexer.Lexeme

/-!
# Token lists

A whole text as tokens, without a parser: every external token is valid, extras are listed, and
unlexable runs appear as error tokens.
-/
namespace TableParsing

/-- The tokens from `pos` on. -/
def Grammar.tokensFrom (g : Grammar) (text : Text) (pos : Nat) : List Token :=
  let valid := g.table.externalTokens.map fun _ => true
  match _h : g.lexemeAt text valid pos with
  | .token token => token :: g.tokensFrom text token.span.stop
  | .unlexable span => ⟨Symbol.error, span⟩ :: g.tokensFrom text span.stop
  | .endOfText => []
termination_by text.size - pos
decreasing_by
  · have := Grammar.token_bounds _h; omega
  · have := Grammar.unlexable_bounds _h; omega

def Language.tokens (l : Language) (text : Text) : List Token := l.grammar.tokensFrom text 0

end TableParsing
