import TableParsing.Proofs.Pyret.HiddenRules
import TableParsing.Proofs.Pyret.NodeTypes

/-!
# Trees of programs

The tree of a text without errors is one of a program: apart from extras all its nodes are visible
rules and tokens, and each has the children, with the fields, that the node types ask for.
-/
namespace TableParsing.Pyret

open PyretSymbol

/-! ## A binding and a comment -/

namespace Binding

def text : Text := #[0x78, 0x3D, 0x31, 0x23]

abbrev job : Job := Parser.job ⟨language, {}⟩ text

def bound : Node := Node.branch nameBinding ⟨0, 1⟩ true [Node.leaf name ⟨0, 1⟩ true]

def comment : Node := { Node.leaf lineComment ⟨3, 4⟩ true with extra := true }

def value : Node :=
  Node.branch primExpr ⟨2, 3⟩ true [Node.branch numExpr ⟨2, 3⟩ true [Node.leaf number ⟨2, 3⟩ true]]

def binding : Node :=
  Node.branch letExpr ⟨0, 3⟩ true
    [{ bound with field := some Field.binding.id }, Node.leaf equals ⟨1, 2⟩ false,
     { value with field := some Field.value.id }]

/-- The run that has shifted the name. -/
def named : Run :=
  { Run.initial with
    lookahead := ⟨name, 0, 1⟩
    stack := [⟨18, Node.leaf name ⟨0, 1⟩ true⟩]
    position := 1
    lastEnd := 1 }

/-- The run that has shifted the equals sign. -/
def joined : Run :=
  { Run.initial with
    lookahead := ⟨equals, 1, 2⟩
    stack := [⟨39, Node.leaf equals ⟨1, 2⟩ false⟩, ⟨8, bound⟩]
    position := 2
    lastEnd := 2 }

/-- The run that has shifted the number. -/
def counted : Run :=
  { Run.initial with
    lookahead := ⟨number, 2, 3⟩
    stack := [⟨19, Node.leaf number ⟨2, 3⟩ true⟩, ⟨39, Node.leaf equals ⟨1, 2⟩ false⟩, ⟨8, bound⟩]
    position := 3
    lastEnd := 3 }

/-- The run that has passed over the comment and accepted. -/
def accepted : Run :=
  { Run.initial with
    lookahead := ⟨Symbol.endOfInput, Span.empty 4⟩
    stack := [⟨1, comment⟩,
      ⟨1, Node.branch sourceFile ⟨0, 3⟩ true [Node.branch block ⟨0, 3⟩ true [binding]]⟩]
    phase := .accepting
    position := 4
    lastEnd := 4 }

theorem iterate_initial : job.step^[2] Run.initial = named := by
  have hskip : grammar.skipSeparators text 0 = 0 := Grammar.skipSeparators_stop rfl
  have hn : job.nextLexeme Run.initial = .token ⟨name, 0, 1⟩ := by
    change grammar.lexemeAt text [false, true] 0 = _
    have hword : grammar.keywordOr text name ⟨0, 1⟩ = name := by decide +kernel
    rw [Grammar.lexemeAt_single (s := name) hskip (scanExternal_other (by decide)) rfl rfl rfl,
      hword]
  rw [Function.iterate_succ_apply, Job.step_of_scanning rfl, Job.scan_of_token hn rfl]
  rfl

theorem iterate_named : job.step^[3] named = joined := by
  have hskip : grammar.skipSeparators text 1 = 1 := Grammar.skipSeparators_stop rfl
  have hn : job.nextLexeme named = .token ⟨equals, 1, 2⟩ :=
    Grammar.lexemeAt_single (s := equals) hskip (scanExternal_other (by decide)) rfl rfl rfl
  rw [Function.iterate_succ_apply, Job.step_of_scanning rfl, Job.scan_of_token hn rfl]
  rfl

theorem iterate_joined : job.step^[2] joined = counted := by
  have hskip : grammar.skipSeparators text 2 = 2 := Grammar.skipSeparators_stop rfl
  have hn : job.nextLexeme joined = .token ⟨number, 2, 3⟩ :=
    Grammar.lexemeAt_single (s := number) hskip (scanExternal_other (by decide)) rfl rfl rfl
  rw [Function.iterate_succ_apply, Job.step_of_scanning rfl, Job.scan_of_token hn rfl]
  rfl

theorem iterate_counted : job.step^[10] counted = accepted := by
  have hcomment : job.nextLexeme counted = .token ⟨lineComment, 3, 4⟩ :=
    Grammar.lexemeAt_single (s := lineComment) (Grammar.skipSeparators_stop rfl)
      (scanExternal_other (by decide)) rfl rfl rfl
  have hend (r : Run) (hr : r.position = 4) : job.nextLexeme r = .endOfText :=
    Grammar.lexemeAt_of_size_le (Nat.le_of_eq hr.symm)
  rw [Function.iterate_succ_apply, Job.step_of_scanning rfl, Job.scan_of_extra hcomment rfl,
    Job.scan_of_endOfText (hend _ rfl)]
  rfl

theorem parse_eq : Parser.parse ⟨language, {}⟩ text =
    ⟨Node.branch sourceFile ⟨0, 4⟩ true [Node.branch block ⟨0, 3⟩ true [binding], comment], text,
      language, []⟩ := by
  have hrun : job.step^[10 + (2 + (3 + 2))] Run.initial = accepted := by
    rw [Function.iterate_add_apply, Function.iterate_add_apply, Function.iterate_add_apply,
      iterate_initial, iterate_named, iterate_joined, iterate_counted]
  exact Parser.parse_of_iterate hrun rfl

theorem hasError_parse : (Parser.parse ⟨language, {}⟩ text).hasError = false := by
  rw [parse_eq]
  rfl

theorem binding_mem_walk : binding ∈ (Parser.parse ⟨language, {}⟩ text).walk := by
  rw [parse_eq, SyntaxTree.walk, Node.mem_walk_iff]
  exact .child (.child .root List.mem_cons_self) List.mem_cons_self

end Binding

/-! ## Shapes without errors -/

variable {options : ParseOptions} {text : Text} {n : Node}

/-- A node of a visible kind with the children that this kind has. -/
def Conforms (n : Node) : Prop :=
  ∃ s : PyretSymbol, n.symbol = s.symbol ∧ table.isHiddenRule s = false ∧ n.parts ∈ content s

theorem conforms_of_shaped (h : n.Shaped contentOf) (hx : n.extra = false)
    (hh : table.isHiddenRule n.symbol = false) : Conforms n := by
  have hparts := h hx
  unfold contentOf at hparts
  cases hs : ofSymbol? n.symbol with
  | none =>
    rw [hs] at hparts
    cases hparts
  | some s =>
    rw [hs] at hparts
    have hsymbol := symbol_of_ofSymbol? hs
    exact ⟨s, hsymbol, hsymbol ▸ hh, hparts⟩

/-- Without errors no hidden rule is left in the tree. -/
theorem visible_of_mem_walk (h : (Parser.parse ⟨language, options⟩ text).hasError = false)
    (hn : n ∈ (Parser.parse ⟨language, options⟩ text).walk) :
    table.isHiddenRule n.symbol = false := by
  let job := Parser.job ⟨language, options⟩ text
  cases Node.mem_walk_iff.mp hn with
  | root =>
    rcases root_symbol options text with hs | hs
    · exact hs ▸ GrammarTable.isHiddenRule_error language.table_fault
    · exact hs ▸ (by decide)
  | @child m _ hm hc =>
    by_contra hh
    have hr := job.finish_reachable
    obtain ⟨_, span, hspan⟩ := Job.hidden_of_mem_walk (l := language) rfl hr job.finish_final
      (single_of_accepting hr) (Node.mem_walk_iff.mpr hm) hc ((Bool.not_eq_false _).mp hh)
    rw [Parser.errors_finish_of_hasError _ _ h] at hspan
    cases hspan

/-- The tree of a text without errors is a whole program, and all its nodes but the extras have the
children that their kinds ask for. -/
theorem parse_conforms (options : ParseOptions) (text : Text)
    (h : (Parser.parse ⟨language, options⟩ text).hasError = false) :
    let tree := Parser.parse ⟨language, options⟩ text
    tree.root.symbol = sourceFile.symbol ∧ tree.root.extra = false ∧
      ∀ n ∈ tree.walk, n.extra = false → Conforms n := by
  intro tree
  have hphase := Job.finish_accepting (Parser.errors_finish_of_hasError _ _ h)
  have hsymbol : tree.root.symbol ≠ Symbol.error :=
    (Node.hasError_eq_false.mp (Bool.or_eq_false_iff.mp h).2).1
  obtain ⟨hall, hextra⟩ := Parser.root_shaped _ _ h (single_of_accepting (Job.finish_reachable _) hphase)
    (Certificate.fits_of_check certificate_fits) complies
  refine ⟨(root_symbol options text).resolve_left hsymbol, hextra, fun n hn hx => ?_⟩
  exact conforms_of_shaped (hall.of_mem_walk hn) hx (visible_of_mem_walk h hn)

theorem parse_conforms_binding :
    (Parser.parse ⟨language, {}⟩ Binding.text).hasError = false ∧
      Binding.binding.parts ∈ content letExpr := by
  obtain ⟨_, _, hall⟩ := parse_conforms {} Binding.text Binding.hasError_parse
  obtain ⟨s, hs, _, hparts⟩ := hall Binding.binding Binding.binding_mem_walk rfl
  have hkind : s = letExpr := by
    have hof := ofSymbol?_symbol s
    rw [← hs] at hof
    exact Option.some.inj (hof.symm.trans (ofSymbol?_symbol letExpr))
  exact ⟨Binding.hasError_parse, hkind ▸ hparts⟩

end TableParsing.Pyret
