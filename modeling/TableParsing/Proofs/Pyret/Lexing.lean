import TableParsing.Proofs.Acceptance
import TableParsing.Pyret.Language

/-!
# Lexing Pyret in a state

Only an opening parenthesis depends on the state of the parser: the scanner decides by the byte
before it which one it is, and the automaton has no transition on it. So every token of the parser is
the token that a lexer without states finds, and conversely as far as the state has a use for it.
-/
namespace TableParsing.Pyret

open PyretSymbol

variable {text : Text} {valid : List Bool} {pos start : Nat} {token : Token}

/-- The external token that the scanner proposes at a parenthesis. -/
def parenIndex (text : Text) (offset : Nat) : Nat :=
  if offset != 0 && text[offset - 1]?.any endsExpression then 0 else 1

def parenToken (text : Text) (offset : Nat) : Token :=
  ⟨if parenIndex text offset = 0 then parenNoSpace else parenSpace, offset, offset + 1⟩

theorem scanExternal_other (h : text[start]? ≠ some 0x28) :
    grammar.scanExternal text start valid = none := by
  have hs : scanParen text start valid = none := by
    rw [scanParen, if_neg h]
  simp [Grammar.scanExternal, grammar, GrammarTable.withScanner, hs]

theorem scanParen_paren (h : text[start]? = some 0x28) : scanParen text start valid =
    if valid[parenIndex text start]? = some true then some ⟨parenIndex text start, 1⟩ else none := by
  rw [scanParen, if_pos h]
  rfl

theorem external_paren (text : Text) (offset : Nat) :
    grammar.table.externalTokens[parenIndex text offset]? = some (parenToken text offset).symbol := by
  unfold parenToken parenIndex
  split <;> rfl

theorem scanExternal_paren (h : text[start]? = some 0x28) :
    grammar.scanExternal text start valid =
      if valid[parenIndex text start]? = some true then some (parenToken text start) else none := by
  have hlt : start < text.size := (Array.getElem?_eq_some_iff.mp h).1
  have hscan : grammar.scanner = some scanParen := rfl
  rw [Grammar.scanExternal, hscan, Option.bind_some, scanParen_paren h]
  by_cases hv : valid[parenIndex text start]? = some true
  · have hany : valid.any id = true := List.any_eq_true.mpr ⟨true, List.mem_of_getElem? hv, rfl⟩
    have hle : start + 1 ≤ text.size := hlt
    simp only [hany, hv, hle, ite_true, Option.bind_some, external_paren, Option.map_some, ne_eq,
      Nat.one_ne_zero, not_false_eq_true, and_self]
    rfl
  · simp only [hv, if_false, Option.bind_none, ite_self]

/-- No token of the automaton begins with a parenthesis. -/
theorem longestMatch_paren (h : text[start]? = some 0x28) :
    (grammar.table.longestMatch text start {}).1 = none := by
  have hstep : grammar.table.lexStep text start 0 = none := by
    rw [GrammarTable.lexStep, h, Option.bind_some]
    decide
  exact GrammarTable.longestMatch_of_stuck hstep

theorem lexemeAt_paren (h : text[grammar.skipSeparators text pos]? = some 0x28) :
    grammar.lexemeAt text valid pos = .token token ↔
      valid[parenIndex text (grammar.skipSeparators text pos)]? = some true ∧
        token = parenToken text (grammar.skipSeparators text pos) := by
  have hlt := (Array.getElem?_eq_some_iff.mp h).1
  have hmatch := longestMatch_paren h
  simp only [Grammar.lexemeAt, if_neg (Nat.not_le.mpr hlt), scanExternal_paren h]
  by_cases hv : valid[parenIndex text (grammar.skipSeparators text pos)]? = some true
  · simp only [hv, ite_true, true_and, Lexeme.token.injEq]
    exact eq_comm
  · simp only [hv, if_false, false_and, iff_false]
    split
    · rename_i m _ hm
      rw [hm] at hmatch
      cases hmatch
    · simp

/-- Apart from parentheses a token does not depend on what is valid. -/
theorem lexemeAt_other (h : text[grammar.skipSeparators text pos]? ≠ some 0x28)
    (valid' : List Bool) : grammar.lexemeAt text valid pos = .token token ↔
      grammar.lexemeAt text valid' pos = .token token := by
  simp only [Grammar.lexemeAt, scanExternal_other h]
  split
  · rfl
  · split <;> simp

/-- Every token of the parser is the token found when both parentheses are valid. -/
theorem lexemeAt_allValid (h : grammar.lexemeAt text valid pos = .token token) :
    grammar.lexemeAt text grammar.allValid pos = .token token := by
  by_cases hp : text[grammar.skipSeparators text pos]? = some 0x28
  · obtain ⟨_, rfl⟩ := (lexemeAt_paren hp).mp h
    refine (lexemeAt_paren hp).mpr ⟨?_, rfl⟩
    unfold parenIndex
    split <;> rfl
  · exact (lexemeAt_other hp _).mp h

/-- A token found without states is found by the parser, if it is valid there. -/
theorem lexemeAt_of_allValid (h : grammar.lexemeAt text grammar.allValid pos = .token token)
    (hv : ∀ i : Nat, grammar.table.externalTokens[i]? = some token.symbol → valid[i]? = some true) :
    grammar.lexemeAt text valid pos = .token token := by
  by_cases hp : text[grammar.skipSeparators text pos]? = some 0x28
  · obtain ⟨_, rfl⟩ := (lexemeAt_paren hp).mp h
    exact (lexemeAt_paren hp).mpr ⟨hv _ (external_paren text _), rfl⟩
  · exact (lexemeAt_other hp _).mp h

/-! ## Behind an opening parenthesis -/

namespace Opening

variable {options : ParseOptions}

def paren : Node := Node.leaf parenSpace ⟨0, 1⟩ false

/-- The run that has shifted a parenthesis. -/
def opened : Run :=
  { Run.initial with
    lookahead := ⟨parenSpace, 0, 1⟩
    stack := [⟨57, paren⟩]
    position := 1
    lastEnd := 1 }

/-- The run that has shifted a number behind it. -/
def counted : Run :=
  { Run.initial with
    lookahead := ⟨number, 1, 2⟩
    stack := [⟨19, Node.leaf number ⟨1, 2⟩ true⟩, ⟨57, paren⟩]
    position := 2
    lastEnd := 2 }

theorem iterate_initial (h : text[0]? = some 0x28) :
    (Parser.job ⟨language, options⟩ text).step^[2] Run.initial = opened := by
  have hskip : grammar.skipSeparators text 0 = 0 := Grammar.skipSeparators_stop (by rw [h]; rfl)
  have hvalid : (Parser.job ⟨language, options⟩ text).validExternals Run.initial = [false, true] := by
    change table.externalTokens.map (fun s => (table.action? startState s).isSome) = _
    decide
  have hn : (Parser.job ⟨language, options⟩ text).nextLexeme Run.initial =
      .token ⟨parenSpace, 0, 1⟩ := by
    rw [Job.nextLexeme, hvalid]
    change grammar.lexemeAt text [false, true] 0 = _
    rw [lexemeAt_paren (by rw [hskip, h]), hskip]
    exact ⟨rfl, rfl⟩
  have hshift : table.action? startState parenSpace = some (.shift 57) := by decide
  exact Job.iterate_shift rfl hn rfl (by decide) hshift

/-- A digit behind the parenthesis, if it stands alone, is shifted. -/
theorem iterate_opened (h : text[1]? = some 0x31)
    (hstop : table.lexStep text 2 LexMode.integer.id = none) :
    (Parser.job ⟨language, options⟩ text).step^[2] opened = counted := by
  have hskip : grammar.skipSeparators text 1 = 1 := Grammar.skipSeparators_stop (by rw [h]; rfl)
  have hdigit : table.lexStep text 1 0 = some LexMode.integer.id := by
    rw [GrammarTable.lexStep, h]
    rfl
  have hother : text[1]? ≠ some 0x28 := by
    rw [h]
    decide
  have hn : (Parser.job ⟨language, options⟩ text).nextLexeme opened = .token ⟨number, 1, 2⟩ :=
    Grammar.lexemeAt_single (s := number) hskip (scanExternal_other hother) hdigit hstop rfl
  have hshift : table.action? 57 number = some (.shift 19) := by decide
  exact Job.iterate_shift rfl hn rfl (by decide) hshift

end Opening

end TableParsing.Pyret
