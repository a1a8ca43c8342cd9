import TableParsing.Proofs.Pyret.Programs
import TableParsing.Proofs.Shapes

/-!
# Node types of Pyret

The children of each kind of node, extras aside: regular languages of symbols with fields, as a list
of node types would give them. A hidden rule stands for its children, with its field if it has one.
The productions comply with the node types.
-/
namespace TableParsing.Pyret

open PyretSymbol
open scoped Computability

variable {field : Option Field} {kinds kinds' : List PyretSymbol} {s : PyretSymbol}
  {separator item : PartLanguage}

/-- One child of one of these kinds. -/
def oneOf (kinds : List PyretSymbol) (field : Option Field) : PartLanguage :=
  {w | ∃ s ∈ kinds, w = [(s.symbol, field.map Field.id)]}

/-- One item or more, with separators between them. -/
def separated (separator item : PartLanguage) : PartLanguage := item * (separator * item)∗

def operand : Option Field → PartLanguage := oneOf [idExpr, primExpr, parenExpr, appExpr]

/-- Operands with operators between them, each of them with the field. -/
def chain (field : Option Field) : PartLanguage := separated (oneOf [binop] field) (operand field)

def statement (field : Option Field) : PartLanguage :=
  oneOf [letExpr, funExpr, checkTest] field + chain field

def bindings (field : Option Field) : PartLanguage :=
  separated (oneOf [comma] field) (oneOf [nameBinding] field)

/-- Chains with commas between them, as arguments stand. -/
def chains (field : Option Field) : PartLanguage := separated (oneOf [comma] field) (chain field)

/-- The children that a node has. -/
def content : PyretSymbol → PartLanguage
  | sourceFile => 1 + oneOf [block] none
  | block | statements => statement none * (statement none)∗
  | stmt => statement none
  | letExpr => oneOf [nameBinding] (some .binding) * oneOf [equals] none * chain (some .value)
  | nameBinding | idExpr => oneOf [name] none
  | funExpr => oneOf [funWord] none * oneOf [name] (some .name) * oneOf [args] (some .args) *
      oneOf [colon] none * (1 + oneOf [block] (some .body)) * oneOf [endWord] none
  | args => oneOf [parenNoSpace] none * (1 + bindings none) * oneOf [rightParen] none
  | parameters => bindings none
  | checkTest => chain (some .left) * oneOf [checkOp] (some .op) * chain (some .right)
  | checkOp => oneOf checkOperators none
  | binopExpr => chain none
  | binop => oneOf operators none
  | expr => operand none
  | primExpr => oneOf [numExpr, stringExpr, boolExpr] none
  | numExpr => oneOf [number] none
  | stringExpr => oneOf [string] none
  | boolExpr => oneOf [trueWord, falseWord] none
  | parenExpr => oneOf [parenSpace] none * chain none * oneOf [rightParen] none
  | appExpr => operand (some .function) * oneOf [appArgs] (some .args)
  | appArgs => oneOf [parenNoSpace] none * (1 + oneOf [commaBinops] none) *
      oneOf [rightParen] none
  | commaBinops | operands => chains none
  | _ => 1

/-- The same for symbols as the table numbers them. -/
def contentOf (s : Symbol) : PartLanguage := (ofSymbol? s).elim 0 content

theorem contentOf_symbol (s : PyretSymbol) : contentOf s = content s := by
  rw [contentOf, ofSymbol?_symbol, Option.elim_some]

/-! ## Laws of the languages -/

theorem oneOf_mono (h : kinds ⊆ kinds') : oneOf kinds field ≤ oneOf kinds' field := by
  rintro w ⟨s, hs, rfl⟩
  exact ⟨s, h hs, rfl⟩

theorem item_le_separated : item ≤ separated separator item := by
  calc item = item * 1 := (mul_one item).symm
    _ ≤ separated separator item := mul_le_mul_right one_le_kstar item

theorem separated_mul_le :
    separated separator item * separator * item ≤ separated separator item := by
  rw [separated, mul_assoc, mul_assoc]
  exact mul_le_mul_right kstar_mul_le_kstar item

theorem le_mul_optional (l m : PartLanguage) : l ≤ l * (1 + m) :=
  le_mul_of_one_le_right' le_self_add

theorem mul_le_mul_optional (l m : PartLanguage) : l * m ≤ l * (1 + m) :=
  mul_le_mul_right le_add_self l

theorem map_oneOf (kinds : List PyretSymbol) (field : Option Field) :
    Language.map (Part.under (field.map Field.id)) (oneOf kinds none) = oneOf kinds field := by
  ext w
  constructor
  · rintro ⟨_, ⟨s, hs, rfl⟩, rfl⟩
    exact ⟨s, hs, rfl⟩
  · rintro ⟨s, hs, rfl⟩
    exact ⟨_, ⟨s, hs, rfl⟩, rfl⟩

theorem map_separated (f : Part → Part) (separator item : PartLanguage) :
    Language.map f (separated separator item) =
      separated (Language.map f separator) (Language.map f item) := by
  rw [separated, map_mul, Language.map_kstar, map_mul, separated]

theorem map_chain (field : Option Field) :
    Language.map (Part.under (field.map Field.id)) (chain none) = chain field := by
  rw [chain, map_separated, map_oneOf, operand, map_oneOf]
  rfl

/-! ## What stands for a symbol of a rule -/

/-- Among the children of a parent a hidden rule stands for its children. -/
def standing (field : Option Field) : PyretSymbol → PartLanguage
  | statements => statement field * (statement field)∗
  | stmt => statement field
  | parameters => bindings field
  | binopExpr => chain field
  | expr => operand field
  | operands => chains field
  | s => oneOf [s] field

theorem map_content (field : Option Field) (h : table.isHiddenRule s = true) :
    Language.map (Part.under (field.map Field.id)) (content s) = standing field s := by
  have hstatement : Language.map (Part.under (field.map Field.id)) (statement none) =
      statement field := by
    rw [statement, map_add, map_oneOf, map_chain, statement]
  have hcases : s ∈ [statements, stmt, parameters, binopExpr, expr, operands] := by
    cases s <;> first | decide | exact absurd h (by decide)
  simp only [List.mem_cons, List.not_mem_nil, or_false] at hcases
  rcases hcases with rfl | rfl | rfl | rfl | rfl | rfl
  · rw [content, map_mul, Language.map_kstar, hstatement, standing]
  · rw [content, hstatement, standing]
  · rw [content, bindings, map_separated, map_oneOf, map_oneOf, standing, bindings]
  · rw [content, map_chain, standing]
  · rw [content, operand, map_oneOf, standing, operand]
  · rw [content, chains, map_separated, map_oneOf, map_chain, standing, chains]

theorem standing_of_visible (h : table.isHiddenRule s = false) : standing field s = oneOf [s] field := by
  cases s <;> first | rfl | exact absurd h (by decide)

theorem offered_eq (field : Option Field) (s : PyretSymbol) :
    table.offered contentOf (field.map Field.id) s = standing field s := by
  rw [GrammarTable.offered]
  cases hh : table.isHiddenRule s with
  | true => rw [if_pos rfl, contentOf_symbol, map_content field hh]
  | false =>
    rw [if_neg Bool.false_ne_true, standing_of_visible hh]
    ext w
    constructor
    · exact fun hw => ⟨s, List.mem_singleton.mpr rfl, hw⟩
    · rintro ⟨_, hs, hw⟩
      rw [List.mem_singleton.mp hs] at hw
      exact hw

/-- The field declared for a child. -/
def declared (fields : List (UInt16 × Field)) (child : Nat) : Option Field :=
  (fields.find? (·.1.toNat == child)).map (·.2)

theorem production_eq (lhs : PyretSymbol) (n : UInt16) (fields : List (UInt16 × Field)) :
    production lhs n fields =
      { Production.ofArity lhs n with fields := fields.map fun f => (f.1, f.2.id) } := by
  have hfold (p : Production) : fields.foldl (fun p f => p.withField f.1 f.2.id) p =
        { p with fields := p.fields ++ fields.map fun f => (f.1, f.2.id) } := by
    induction fields generalizing p with
    | nil => simp
    | cons f fields ih =>
      rw [List.foldl_cons, ih]
      simp [Production.withField]
  exact hfold _

theorem fieldFor_production (lhs : PyretSymbol) (n : UInt16) (fields : List (UInt16 × Field))
    (child : Nat) :
    (production lhs n fields).fieldFor child = (declared fields child).map Field.id := by
  rw [Production.fieldFor, production_eq, List.find?_map, declared, Option.map_map, Option.map_map]
  rfl

/-- What stands for the symbols of a rule. -/
def sequence (fields : List (UInt16 × Field)) (child : Nat) : List PyretSymbol → PartLanguage
  | [] => 1
  | s :: rest => standing (declared fields child) s * sequence fields (child + 1) rest

theorem offeredFrom_production (lhs : PyretSymbol) (n : UInt16) (fields : List (UInt16 × Field))
    (child : Nat) (rhs : List PyretSymbol) :
    table.offeredFrom contentOf (production lhs n fields) child (word rhs) =
      sequence fields child rhs := by
  induction rhs generalizing child with
  | nil => rfl
  | cons s rhs ih =>
    have htail := ih (child + 1)
    rw [word, List.map_cons, GrammarTable.offeredFrom, fieldFor_production, offered_eq, ← word, htail,
      sequence]

/-! ## The productions -/

/-- The rule makes the children that its left-hand side has. -/
def Complying (rp : Rule × Production) : Prop :=
  table.offeredFrom contentOf rp.2 0 rp.1.rhs ≤ contentOf rp.2.lhs

theorem complying_of {lhs : PyretSymbol} {n : UInt16} {fields : List (UInt16 × Field)}
    {rhs : List PyretSymbol} (h : sequence fields 0 rhs ≤ content lhs) :
    Complying (rule lhs rhs, production lhs n fields) := by
  have hlhs : (production lhs n fields).lhs = lhs.symbol := by
    rw [production_eq]
    rfl
  rw [Complying, hlhs, contentOf_symbol]
  exact (offeredFrom_production lhs n fields 0 rhs).trans_le h

/-- A rule of one symbol. -/
theorem complying_single {lhs : PyretSymbol} {n : UInt16} (h : standing none s ≤ content lhs) :
    Complying (rule lhs [s], production lhs n []) :=
  complying_of ((mul_one (standing none s)).trans_le h)

/-- A rule of one symbol, which is one of the kinds of the only child. -/
theorem complying_kind {lhs : PyretSymbol} {n : UInt16} (hlhs : content lhs = oneOf kinds none)
    (hs : table.isHiddenRule s = false) (h : s ∈ kinds) :
    Complying (rule lhs [s], production lhs n []) := by
  apply complying_single
  rw [standing_of_visible hs, hlhs]
  exact oneOf_mono (List.cons_subset.mpr ⟨h, List.nil_subset _⟩)

theorem complying_two {lhs s s' : PyretSymbol} {n : UInt16} {fields : List (UInt16 × Field)}
    (h : standing (declared fields 0) s * standing (declared fields 1) s' ≤ content lhs) :
    Complying (rule lhs [s, s'], production lhs n fields) := by
  apply complying_of
  rw [sequence, sequence, sequence, mul_one]
  exact h

theorem complying_three {lhs s s' s'' : PyretSymbol} {n : UInt16} {fields : List (UInt16 × Field)}
    (h : standing (declared fields 0) s * standing (declared fields 1) s' *
      standing (declared fields 2) s'' ≤ content lhs) :
    Complying (rule lhs [s, s', s''], production lhs n fields) := by
  apply complying_of
  rw [sequence, sequence, sequence, sequence, mul_one, ← mul_assoc]
  exact h

theorem complying_blockRules : ∀ rp ∈ blockRules.zip blockProductions, Complying rp := by
  have definition {s : PyretSymbol} {n : UInt16} (hs : s ∈ [letExpr, funExpr, checkTest]) :
      Complying (rule stmt [s], production stmt n []) := by
    have hvisible : ∀ s ∈ [letExpr, funExpr, checkTest], table.isHiddenRule s = false := by decide
    apply complying_single
    rw [standing_of_visible (hvisible s hs)]
    exact (oneOf_mono (List.cons_subset.mpr ⟨hs, List.nil_subset _⟩)).trans le_self_add
  simp only [blockRules, blockProductions, List.zip_cons_cons, List.zip_nil_left,
    List.forall_mem_cons, List.not_mem_nil, false_implies, implies_true, and_true]
  refine ⟨complying_single le_add_self, complying_of le_self_add, complying_single le_rfl,
    complying_two ?_, complying_single ?_, definition (by decide), definition (by decide),
    definition (by decide), complying_single le_add_self⟩
  · change statement none * (statement none)∗ * statement none ≤ statement none * (statement none)∗
    rw [mul_assoc]
    exact mul_le_mul_right kstar_mul_le_kstar _
  · exact le_mul_of_one_le_right' one_le_kstar

theorem complying_definitionRules :
    ∀ rp ∈ definitionRules.zip definitionProductions, Complying rp := by
  simp only [definitionRules, definitionProductions, List.zip_cons_cons, List.zip_nil_left,
    List.forall_mem_cons, List.not_mem_nil, false_implies, implies_true, and_true]
  refine ⟨complying_three le_rfl, complying_single le_rfl, complying_of ?_, complying_of ?_,
    complying_two ?_, complying_three ?_, complying_three separated_mul_le,
    complying_single item_le_separated⟩
  -- What is left are functions with and without a body, and no parameters and some.
  · simp only [sequence, mul_one, ← mul_assoc]
    exact mul_le_mul_left (mul_le_mul_optional _ _) _
  · simp only [sequence, mul_one, ← mul_assoc]
    exact mul_le_mul_left (le_mul_optional _ _) _
  · exact mul_le_mul_left (le_mul_optional _ _) _
  · exact mul_le_mul_left (mul_le_mul_optional _ _) _

theorem complying_chainRules : ∀ rp ∈ chainRules.zip chainProductions, Complying rp := by
  have operator {s : PyretSymbol} {n : UInt16} (hs : s ∈ operators) :
      Complying (rule binop [s], production binop n []) := by
    have hvisible : ∀ s ∈ operators, table.isHiddenRule s = false := by decide
    exact complying_kind rfl (hvisible s hs) hs
  simp only [chainRules, chainProductions, List.zip_cons_cons, List.zip_nil_left,
    List.forall_mem_cons, List.not_mem_nil, false_implies, implies_true, and_true]
  exact ⟨complying_three le_rfl, complying_kind rfl rfl (by decide),
    complying_kind rfl rfl (by decide), complying_three separated_mul_le,
    complying_single item_le_separated, operator (by decide), operator (by decide),
    operator (by decide), operator (by decide), operator (by decide), operator (by decide),
    operator (by decide), operator (by decide), operator (by decide)⟩

theorem complying_operandRules : ∀ rp ∈ operandRules.zip operandProductions, Complying rp := by
  simp only [operandRules, operandProductions, List.zip_cons_cons, List.zip_nil_left,
    List.forall_mem_cons, List.not_mem_nil, false_implies, implies_true, and_true]
  refine ⟨complying_kind rfl rfl ?_, complying_kind rfl rfl ?_, complying_kind rfl rfl ?_,
    complying_kind rfl rfl ?_, complying_kind rfl rfl ?_, complying_kind rfl rfl ?_,
    complying_kind rfl rfl ?_, complying_kind rfl rfl ?_, complying_kind rfl rfl ?_,
    complying_kind rfl rfl ?_, complying_kind rfl rfl ?_, complying_kind rfl rfl ?_,
    complying_three le_rfl⟩
  all_goals decide

theorem complying_applicationRules :
    ∀ rp ∈ applicationRules.zip applicationProductions, Complying rp := by
  simp only [applicationRules, applicationProductions, List.zip_cons_cons, List.zip_nil_left,
    List.forall_mem_cons, List.not_mem_nil, false_implies, implies_true, and_true]
  exact ⟨complying_two le_rfl, complying_two (mul_le_mul_left (le_mul_optional _ _) _),
    complying_three (mul_le_mul_left (mul_le_mul_optional _ _) _), complying_single le_rfl,
    complying_three separated_mul_le, complying_single item_le_separated⟩

theorem complying_rules : ∀ rp ∈ rules.zip productions.toList, Complying rp := by
  rw [rules, productions, List.toList_toArray, List.zip_append (by decide),
    List.zip_append (by decide), List.zip_append (by decide), List.zip_append (by decide)]
  simp only [List.forall_mem_append]
  exact ⟨⟨⟨⟨complying_blockRules, complying_definitionRules⟩, complying_chainRules⟩,
    complying_operandRules⟩, complying_applicationRules⟩

theorem content_of_terminal (h : table.isTerminal s = true) : content s = 1 := by
  cases s <;> first | rfl | exact absurd h (by decide)

theorem complies : table.Complies certificate.rules contentOf := by
  refine ⟨fun s hs => ?_, fun {id r p} hr hp => ?_⟩
  · obtain ⟨m, hm, _⟩ := (Option.any_eq_true _ _).mp hs
    rw [metadata?_eq] at hm
    obtain ⟨x, hx, _⟩ := Option.map_eq_some_iff.mp hm
    rw [symbol_of_ofSymbol? hx] at hs ⊢
    rw [contentOf_symbol, content_of_terminal hs]
    exact Language.nil_mem_one
  · have hmem : (r, p) ∈ rules.zip productions.toList := by
      have hproduction : productions.toList[id.toNat]? = some p := by
        rw [Array.getElem?_toList]
        exact hp
      exact List.mem_of_getElem? (List.getElem?_zip_eq_some.mpr ⟨hr, hproduction⟩)
    exact complying_rules _ hmem

end TableParsing.Pyret
