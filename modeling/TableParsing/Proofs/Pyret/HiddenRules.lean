import TableParsing.Proofs.Origins
import TableParsing.Proofs.Pyret.Lexing
import TableParsing.Proofs.Pyret.Trees

/-!
# Hidden rules in trees of Pyret texts

Recovery at the end of the input wraps entries of the stack as they are, so a hidden rule among them
stays in the tree. This is the only way: everywhere else hidden rules are replaced by their children.
-/
namespace TableParsing.Pyret

/-- A Pyret stack that accepts holds one whole program and extras. -/
theorem single_of_accepting {options : ParseOptions} {text : Text} {r : Run}
    (h : (Parser.job ⟨language, options⟩ text).Reachable r) (hp : r.phase = .accepting) :
    Job.Single r := by
  intro root trailing hd
  have hs := Stack.symbols_of_dropWhile hd
  rw [symbols_of_accepting h hp, List.reverse_singleton] at hs
  have hnone := List.map_eq_nil_iff.mp (List.cons.inj hs).2.symm
  intro n hn
  simpa using List.filter_eq_nil_iff.mp hnone n hn

/-! ## An open sum

On the text `(1+` nothing that could be supplied makes the end viable, so the parenthesis, the
operand and the operator are wrapped, and a program of nothing is accepted below them.
-/

namespace OpenSum

open PyretSymbol Opening

def text : Text := #[0x28, 0x31, 0x2B]

abbrev job : Job := Parser.job ⟨language, {}⟩ text

def operator : Node := Node.leaf plus ⟨2, 3⟩ false

def operand : Node :=
  Node.branch binopExpr ⟨1, 2⟩ false [Node.branch primExpr ⟨1, 2⟩ true
    [Node.branch numExpr ⟨1, 2⟩ true [Node.leaf number ⟨1, 2⟩ true]]]

def wrapper : Node := Node.error ⟨0, 3⟩ [paren, operand, operator]

/-- The run that has shifted the operator. -/
def joined : Run :=
  { Run.initial with
    lookahead := ⟨plus, 2, 3⟩
    stack := [⟨48, operator⟩, ⟨58, operand⟩, ⟨57, paren⟩]
    position := 3
    lastEnd := 3 }

/-- The run that has wrapped everything and accepted. -/
def accepted : Run :=
  { joined with
    lookahead := ⟨Symbol.endOfInput, Span.empty 3⟩
    stack := [⟨1, wrapper⟩, ⟨1, Node.branch sourceFile (Span.empty 0) true []⟩]
    phase := .accepting
    errors := [.unexpectedEnd ⟨0, 3⟩] }

theorem iterate_counted : job.step^[6] counted = joined := by
  have hskip : grammar.skipSeparators text 2 = 2 := Grammar.skipSeparators_stop rfl
  have hn : job.nextLexeme counted = .token ⟨plus, 2, 3⟩ := by
    change grammar.lexemeAt text [true, true] 2 = _
    exact Grammar.lexemeAt_single (s := plus) hskip (scanExternal_other (by decide)) rfl rfl rfl
  rw [Function.iterate_succ_apply, Job.step_of_scanning rfl, Job.scan_of_token hn rfl]
  rfl

theorem iterate_joined : job.step^[3] joined = accepted := by
  have hn : job.nextLexeme joined = .endOfText := Grammar.lexemeAt_of_size_le (Nat.le_refl 3)
  rw [Function.iterate_succ_apply, Job.step_of_scanning rfl, Job.scan_of_endOfText hn]
  rfl

theorem root_parse : (Parser.parse ⟨language, {}⟩ text).root =
    Node.branch sourceFile ⟨0, 3⟩ true [wrapper] := by
  have hrun : job.step^[3 + (6 + (2 + 2))] Run.initial = accepted := by
    rw [Function.iterate_add_apply, Function.iterate_add_apply, Function.iterate_add_apply,
      iterate_initial rfl, iterate_opened rfl rfl, iterate_counted, iterate_joined]
  rw [Parser.parse_of_iterate hrun rfl]
  rfl

theorem mem_walk : wrapper ∈ (Parser.parse ⟨language, {}⟩ text).walk ∧
    operand ∈ (Parser.parse ⟨language, {}⟩ text).walk := by
  rw [SyntaxTree.walk, root_parse]
  simp [Node.walk_eq, Node.walkPending, Node.branch, Node.leaf, Node.error, wrapper, paren]

end OpenSum

/-! ## Where hidden rules stand -/

/-- In a tree of a Pyret text hidden rules stand only directly below errors, and only if the end of
the text was reported as unexpected; the root is never one. -/
theorem parse_hidden_below_error (options : ParseOptions) (text : Text) :
    let tree := Parser.parse ⟨language, options⟩ text
    (∀ n ∈ tree.walk, ∀ c ∈ n.children, language.table.isHiddenRule c.symbol = true →
      n.isError = true ∧ ∃ span, SyntaxError.unexpectedEnd span ∈ tree.errors) ∧
    language.table.isHiddenRule tree.root.symbol = false := by
  intro tree
  let job := Parser.job ⟨language, options⟩ text
  constructor
  · intro n hn c hc hh
    have hr := job.finish_reachable
    obtain ⟨he, span, hspan⟩ := Job.hidden_of_mem_walk (l := language) rfl hr job.finish_final
      (single_of_accepting hr) hn hc hh
    exact ⟨he, span, List.mem_reverse.mpr hspan⟩
  · rcases root_symbol options text with h | h
    · exact h ▸ GrammarTable.isHiddenRule_error language.table_fault
    · exact h ▸ (by decide)

theorem parse_hidden_below_error_openSum :
    (OpenSum.wrapper ∈ (Parser.parse ⟨language, {}⟩ OpenSum.text).walk ∧
      OpenSum.operand ∈ OpenSum.wrapper.children ∧
      language.table.isHiddenRule OpenSum.operand.symbol = true) ∧
    OpenSum.wrapper.isError = true ∧ ∃ span,
      SyntaxError.unexpectedEnd span ∈ (Parser.parse ⟨language, {}⟩ OpenSum.text).errors := by
  have hc : OpenSum.operand ∈ OpenSum.wrapper.children := by simp [OpenSum.wrapper, Node.error]
  have hh : language.table.isHiddenRule OpenSum.operand.symbol = true := by decide
  exact ⟨⟨OpenSum.mem_walk.1, hc, hh⟩, (parse_hidden_below_error {} OpenSum.text).1 _
    OpenSum.mem_walk.1 _ hc hh⟩

/-- The operand of the open sum is a hidden rule, and it stands in the tree. -/
theorem OpenSum.exists_hidden : ∃ n ∈ (Parser.parse ⟨language, {}⟩ text).walk,
    language.table.isHiddenRule n.symbol = true :=
  ⟨operand, mem_walk.2, by decide⟩

end TableParsing.Pyret
