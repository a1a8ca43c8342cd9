import TableParsing.Proofs.Derivation
import TableParsing.Pyret.Symbol

/-!
# The grammar of Pyret

The phrases of the language as one writes them down, with lists where lists are meant, and the rules
behind the productions of the table. Both give the same programs.
-/
namespace TableParsing.Pyret

open PyretSymbol

inductive Category where
  | sourceFile
  | block
  | stmt
  | letExpr
  | funExpr
  | args
  | checkTest
  | binopExpr
  | expr

/-- Symbols as the table numbers them. -/
def word (symbols : List PyretSymbol) : List Symbol := symbols.map symbol

/-- Tokens that are an expression by themselves. -/
def literals : List PyretSymbol := [name, number, string, trueWord, falseWord]

def operators : List PyretSymbol :=
  [plus, minus, star, slash, less, greater, doubleEquals, andWord, orWord]

def checkOperators : List PyretSymbol := [isWord, isNotWord]

/-- The phrases of each category. -/
inductive Phrase : Category → List Symbol → Prop
  | program {w : List Symbol} : Phrase .block w → Phrase .sourceFile w
  | emptyProgram : Phrase .sourceFile []
  | block {ws : List (List Symbol)} : ws ≠ [] → (∀ w ∈ ws, Phrase .stmt w) →
      Phrase .block ws.flatten
  | letStmt {w : List Symbol} : Phrase .letExpr w → Phrase .stmt w
  | funStmt {w : List Symbol} : Phrase .funExpr w → Phrase .stmt w
  | checkStmt {w : List Symbol} : Phrase .checkTest w → Phrase .stmt w
  | binopStmt {w : List Symbol} : Phrase .binopExpr w → Phrase .stmt w
  | letExpr {w : List Symbol} : Phrase .binopExpr w → Phrase .letExpr (word [name, equals] ++ w)
  | funExpr {a b : List Symbol} : Phrase .args a → Phrase .block b →
      Phrase .funExpr (word [funWord, name] ++ a ++ word [colon] ++ b ++ word [endWord])
  | emptyFunExpr {a : List Symbol} : Phrase .args a →
      Phrase .funExpr (word [funWord, name] ++ a ++ word [colon, endWord])
  | noArgs : Phrase .args (word [parenNoSpace, rightParen])
  | args (n : Nat) : Phrase .args
      (word [parenNoSpace, name] ++ (List.replicate n (word [comma, name])).flatten ++
        word [rightParen])
  | checkTest {l r : List Symbol} {op : PyretSymbol} : Phrase .binopExpr l →
      op ∈ checkOperators → Phrase .binopExpr r → Phrase .checkTest (l ++ word [op] ++ r)
  | operand {w : List Symbol} : Phrase .expr w → Phrase .binopExpr w
  | operation {l r : List Symbol} {op : PyretSymbol} : Phrase .binopExpr l → op ∈ operators →
      Phrase .expr r → Phrase .binopExpr (l ++ word [op] ++ r)
  | literal {s : PyretSymbol} : s ∈ literals → Phrase .expr (word [s])
  | group {w : List Symbol} : Phrase .binopExpr w →
      Phrase .expr (word [parenSpace] ++ w ++ word [rightParen])
  | call {f : List Symbol} : Phrase .expr f → Phrase .expr (f ++ word [parenNoSpace, rightParen])
  | application {f a : List Symbol} {ws : List (List Symbol)} : Phrase .expr f →
      Phrase .binopExpr a → (∀ w ∈ ws, Phrase .binopExpr w) →
      Phrase .expr (f ++ word [parenNoSpace] ++ a ++ (ws.map (word [comma] ++ ·)).flatten ++
        word [rightParen])

/-! ## Rules of the table -/

def rule (lhs : PyretSymbol) (rhs : List PyretSymbol) : Rule := ⟨lhs, word rhs⟩

def blockRules : Rules :=
  [rule sourceFile [block],
   rule sourceFile [],
   rule block [statements],
   rule statements [statements, stmt],
   rule statements [stmt],
   rule stmt [letExpr],
   rule stmt [funExpr],
   rule stmt [checkTest],
   rule stmt [binopExpr]]

def definitionRules : Rules :=
  [rule letExpr [nameBinding, equals, binopExpr],
   rule nameBinding [name],
   rule funExpr [funWord, name, args, colon, block, endWord],
   rule funExpr [funWord, name, args, colon, endWord],
   rule args [parenNoSpace, rightParen],
   rule args [parenNoSpace, parameters, rightParen],
   rule parameters [parameters, comma, nameBinding],
   rule parameters [nameBinding]]

def chainRules : Rules :=
  [rule checkTest [binopExpr, checkOp, binopExpr],
   rule checkOp [isWord],
   rule checkOp [isNotWord],
   rule binopExpr [binopExpr, binop, expr],
   rule binopExpr [expr],
   rule binop [plus],
   rule binop [minus],
   rule binop [star],
   rule binop [slash],
   rule binop [less],
   rule binop [greater],
   rule binop [doubleEquals],
   rule binop [andWord],
   rule binop [orWord]]

def operandRules : Rules :=
  [rule expr [idExpr],
   rule expr [primExpr],
   rule expr [parenExpr],
   rule expr [appExpr],
   rule idExpr [name],
   rule primExpr [numExpr],
   rule primExpr [stringExpr],
   rule primExpr [boolExpr],
   rule numExpr [number],
   rule stringExpr [string],
   rule boolExpr [trueWord],
   rule boolExpr [falseWord],
   rule parenExpr [parenSpace, binopExpr, rightParen]]

def applicationRules : Rules :=
  [rule appExpr [expr, appArgs],
   rule appArgs [parenNoSpace, rightParen],
   rule appArgs [parenNoSpace, commaBinops, rightParen],
   rule commaBinops [operands],
   rule operands [operands, comma, binopExpr],
   rule operands [binopExpr]]

/-- What the productions of the table stand for, in their order. -/
def rules : Rules :=
  blockRules ++ definitionRules ++ chainRules ++ operandRules ++ applicationRules

/-! ## Phrases are derived -/

/-- The words that the rules derive from a symbol. -/
def Derives (s : PyretSymbol) (w : List Symbol) : Prop := rules.Yields (word [s]) w

variable {s : PyretSymbol} {w v : List Symbol} {ws : List (List Symbol)}

theorem derives_of_rule (rhs : List PyretSymbol) (hw : rules.Yields (word rhs) w)
    (h : rule s rhs ∈ rules := by decide) : Derives s w :=
  hw.single h

/-- Terminals stand for themselves. -/
theorem yields_word (ss : List PyretSymbol) (h : ∀ s ∈ ss, ¬ rules.Rewrites s := by decide) :
    rules.Yields (word ss) (word ss) := by
  induction ss with
  | nil => exact .nil
  | cons s ss ih =>
    obtain ⟨hs, hss⟩ := List.forall_mem_cons.mp h
    exact .terminal hs (ih hss)

/-- Statements after statements are statements. -/
theorem Derives.statements (hv : Derives statements v) (hws : ∀ w ∈ ws, Derives stmt w) :
    Derives statements (v ++ ws.flatten) := by
  induction ws generalizing v with
  | nil => simpa using hv
  | cons w ws ih =>
    obtain ⟨hw, hws⟩ := List.forall_mem_cons.mp hws
    have hvw : Derives PyretSymbol.statements (v ++ w) :=
      derives_of_rule [PyretSymbol.statements, stmt] (hv.append hw)
    simpa using ih hvw hws

theorem derives_block (hne : ws ≠ []) (hws : ∀ w ∈ ws, Derives stmt w) :
    Derives block ws.flatten := by
  cases ws with
  | nil => exact absurd rfl hne
  | cons w ws =>
    obtain ⟨hw, hws⟩ := List.forall_mem_cons.mp hws
    have hfirst : Derives statements w := derives_of_rule [stmt] hw
    exact derives_of_rule [statements] (hfirst.statements hws)

theorem derives_nameBinding : Derives nameBinding (word [name]) :=
  derives_of_rule [name] (yields_word [name])

theorem Derives.parameters (hv : Derives parameters v) (n : Nat) :
    Derives parameters (v ++ (List.replicate n (word [comma, name])).flatten) := by
  induction n generalizing v with
  | zero => simpa using hv
  | succ n ih =>
    have hnext : Derives PyretSymbol.parameters (v ++ word [comma] ++ word [name]) :=
      derives_of_rule [PyretSymbol.parameters, comma, nameBinding]
        ((hv.append (yields_word [comma])).append derives_nameBinding)
    simpa [List.replicate_succ, word] using ih hnext

theorem Derives.operands (hv : Derives operands v) (hws : ∀ w ∈ ws, Derives binopExpr w) :
    Derives operands (v ++ (ws.map (word [comma] ++ ·)).flatten) := by
  induction ws generalizing v with
  | nil => simpa using hv
  | cons w ws ih =>
    obtain ⟨hw, hws⟩ := List.forall_mem_cons.mp hws
    have hvw : Derives PyretSymbol.operands (v ++ word [comma] ++ w) :=
      derives_of_rule [PyretSymbol.operands, comma, binopExpr]
        ((hv.append (yields_word [comma])).append hw)
    simpa using ih hvw hws

theorem derives_binop (h : s ∈ operators) : Derives binop (word [s]) := by
  have hrule : ∀ s ∈ operators, rule binop [s] ∈ rules := by decide
  have hword : ∀ s ∈ operators, ¬ rules.Rewrites s := by decide
  exact derives_of_rule [s] (yields_word [s] (by simpa using hword s h)) (hrule s h)

theorem derives_checkOp (h : s ∈ checkOperators) : Derives checkOp (word [s]) := by
  have hrule : ∀ s ∈ checkOperators, rule checkOp [s] ∈ rules := by decide
  have hword : ∀ s ∈ checkOperators, ¬ rules.Rewrites s := by decide
  exact derives_of_rule [s] (yields_word [s] (by simpa using hword s h)) (hrule s h)

theorem derives_literal (h : s ∈ literals) : Derives expr (word [s]) := by
  have hprim {k : PyretSymbol} (hk : rule primExpr [k] ∈ rules) (hs : rule k [s] ∈ rules)
      (hword : ¬ rules.Rewrites s) : Derives expr (word [s]) := by
    have htoken : Derives k (word [s]) := derives_of_rule [s] (yields_word [s] (by simpa)) hs
    have hexpr : Derives primExpr (word [s]) := derives_of_rule [k] htoken hk
    exact derives_of_rule [primExpr] hexpr
  simp only [literals, List.mem_cons, List.not_mem_nil, or_false] at h
  rcases h with rfl | rfl | rfl | rfl | rfl
  · have hname : Derives idExpr (word [name]) := derives_of_rule [name] (yields_word [name])
    exact derives_of_rule [idExpr] hname
  · exact hprim (k := numExpr) (by decide) (by decide) (by decide)
  · exact hprim (k := stringExpr) (by decide) (by decide) (by decide)
  · exact hprim (k := boolExpr) (by decide) (by decide) (by decide)
  · exact hprim (k := boolExpr) (by decide) (by decide) (by decide)

/-- The symbol of a category in the rules. -/
def Category.symbol : Category → PyretSymbol
  | sourceFile => .sourceFile
  | block => .block
  | stmt => .stmt
  | letExpr => .letExpr
  | funExpr => .funExpr
  | args => .args
  | checkTest => .checkTest
  | binopExpr => .binopExpr
  | expr => .expr

theorem derives_of_phrase {category : Category} (h : Phrase category w) :
    Derives category.symbol w := by
  induction h with
  | program _ ih => exact derives_of_rule [block] ih
  | emptyProgram => exact derives_of_rule [] .nil
  | block hne _ ih => exact derives_block hne ih
  | letStmt _ ih => exact derives_of_rule [letExpr] ih
  | funStmt _ ih => exact derives_of_rule [funExpr] ih
  | checkStmt _ ih => exact derives_of_rule [checkTest] ih
  | binopStmt _ ih => exact derives_of_rule [binopExpr] ih
  | letExpr _ ih =>
    exact derives_of_rule [nameBinding, equals, binopExpr]
      ((derives_nameBinding.append (yields_word [equals])).append ih)
  | funExpr _ _ iha ihb =>
    have hhead := ((yields_word [funWord, name]).append iha).append (yields_word [colon])
    exact derives_of_rule [funWord, name, args, colon, block, endWord]
      ((hhead.append ihb).append (yields_word [endWord]))
  | emptyFunExpr _ iha =>
    exact derives_of_rule [funWord, name, args, colon, endWord]
      (((yields_word [funWord, name]).append iha).append (yields_word [colon, endWord]))
  | noArgs => exact derives_of_rule [parenNoSpace, rightParen] (yields_word _)
  | args n =>
    have hfirst : Derives parameters (word [name]) :=
      derives_of_rule [nameBinding] derives_nameBinding
    exact derives_of_rule [parenNoSpace, parameters, rightParen]
      (((yields_word [parenNoSpace]).append (hfirst.parameters n)).append
        (yields_word [rightParen]))
  | checkTest _ hop _ ihl ihr =>
    exact derives_of_rule [binopExpr, checkOp, binopExpr]
      ((ihl.append (derives_checkOp hop)).append ihr)
  | operand _ ih => exact derives_of_rule [expr] ih
  | operation _ hop _ ihl ihr =>
    exact derives_of_rule [binopExpr, binop, expr] ((ihl.append (derives_binop hop)).append ihr)
  | literal hs => exact derives_literal hs
  | group _ ih =>
    have hparen : Derives parenExpr _ := derives_of_rule [parenSpace, binopExpr, rightParen]
      (((yields_word [parenSpace]).append ih).append (yields_word [rightParen]))
    exact derives_of_rule [parenExpr] hparen
  | call _ ih =>
    have hargs : Derives appArgs (word [parenNoSpace, rightParen]) :=
      derives_of_rule [parenNoSpace, rightParen] (yields_word _)
    have happ : Derives appExpr _ := derives_of_rule [expr, appArgs] (ih.append hargs)
    exact derives_of_rule [appExpr] happ
  | application _ _ _ ihf iha ihws =>
    have hfirst : Derives operands _ := derives_of_rule [binopExpr] iha
    have hlist : Derives commaBinops _ := derives_of_rule [operands] (hfirst.operands ihws)
    have hargs : Derives appArgs _ := derives_of_rule [parenNoSpace, commaBinops, rightParen]
      (((yields_word [parenNoSpace]).append hlist).append (yields_word [rightParen]))
    have happ : Derives appExpr _ := derives_of_rule [expr, appArgs] (ihf.append hargs)
    have hexpr : Derives expr _ := derives_of_rule [appExpr] happ
    change Derives expr _
    simpa using hexpr

/-! ## Derivations are phrases -/

/-- One operand or more, with commas between them. -/
def Operands (w : List Symbol) : Prop :=
  ∃ (a : List Symbol) (ws : List (List Symbol)), Phrase .binopExpr a ∧
    (∀ w ∈ ws, Phrase .binopExpr w) ∧ w = a ++ (ws.map (word [comma] ++ ·)).flatten

/-- What turns an expression into an application of it. -/
def Arguments (w : List Symbol) : Prop := ∀ f, Phrase .expr f → Phrase .expr (f ++ w)

/-- The words each symbol of the rules stands for. -/
def Means : PyretSymbol → List Symbol → Prop
  | sourceFile => Phrase .sourceFile
  | block | statements => Phrase .block
  | stmt => Phrase .stmt
  | letExpr => Phrase .letExpr
  | nameBinding => (· = word [name])
  | funExpr => Phrase .funExpr
  | args => Phrase .args
  | parameters => fun w => ∃ n, w = word [name] ++ (List.replicate n (word [comma, name])).flatten
  | checkTest => Phrase .checkTest
  | checkOp => fun w => ∃ s ∈ checkOperators, w = word [s]
  | binopExpr => Phrase .binopExpr
  | binop => fun w => ∃ s ∈ operators, w = word [s]
  | expr | idExpr | primExpr | numExpr | stringExpr | boolExpr | parenExpr | appExpr =>
    Phrase .expr
  | appArgs => Arguments
  | commaBinops | operands => Operands
  | s => (· = word [s])

/-- The same for symbols as the table numbers them; others stand for themselves. -/
def MeansSymbol (s : Symbol) (w : List Symbol) : Prop :=
  match ofSymbol? s with
  | some s => Means s w
  | none => w = [s]

@[simp] theorem meansSymbol_symbol (s : PyretSymbol) : MeansSymbol s w ↔ Means s w := by
  simp only [MeansSymbol, ofSymbol?_symbol]

theorem symbol_of_ofSymbol? {s : Symbol} {x : PyretSymbol} (h : ofSymbol? s = some x) :
    s = x.symbol := by
  have hindex : ∀ i < 51, ∀ x, all[i]? = some x → x.index = i := by decide
  have hlt : s.index < 51 := (List.getElem?_eq_some_iff.mp h).1
  have hx := hindex s.index hlt x h
  cases s
  simp only [symbol, hx, Symbol.index, UInt16.ofNat_toNat]

/-- The rule derives only what its left-hand side stands for. -/
def Closed (r : Rule) : Prop := ∀ w, Rules.Reads MeansSymbol r.rhs w → MeansSymbol r.lhs w

/-- `read` followed by words for the rest of a rule is a word for its left-hand side. -/
def ClosedFrom (lhs : PyretSymbol) (read : List Symbol) : List PyretSymbol → Prop
  | [] => Means lhs read
  | s :: rest => ∀ v, Means s v → ClosedFrom lhs (read ++ v) rest

theorem closed_of {lhs : PyretSymbol} {rhs : List PyretSymbol} (h : ClosedFrom lhs [] rhs) :
    Closed (rule lhs rhs) := by
  have from_read : ∀ {rhs : List PyretSymbol} {read w : List Symbol}, ClosedFrom lhs read rhs →
      Rules.Reads MeansSymbol (word rhs) w → Means lhs (read ++ w) := by
    -- By induction on what remains of the rule, with the words read so far in front.
    intro rhs
    induction rhs with
    | nil =>
      rintro read w h rfl
      rw [List.append_nil]
      exact h
    | cons s rest ih =>
      rintro read _ h ⟨front, back, rfl, hfront, hback⟩
      rw [← List.append_assoc]
      exact ih (h front (meansSymbol_symbol s |>.mp hfront)) hback
  intro w hw
  exact (meansSymbol_symbol lhs).mpr (from_read h hw)

theorem Phrase.snoc_stmt (hv : Phrase .block v) (hw : Phrase .stmt w) :
    Phrase .block (v ++ w) := by
  cases hv with
  | @block ws hne hws =>
    have hall : ∀ u ∈ ws ++ [w], Phrase .stmt u := by
      intro u hu
      rcases List.mem_append.mp hu with hu | hu
      · exact hws u hu
      · rw [List.mem_singleton.mp hu]
        exact hw
    simpa using Phrase.block (by simp) hall

theorem phrase_block_of_stmt (hw : Phrase .stmt w) : Phrase .block w := by
  have hall : ∀ u ∈ [w], Phrase .stmt u := by simpa using hw
  simpa using Phrase.block (by simp) hall

theorem closed_blockRules : ∀ r ∈ blockRules, Closed r := by
  simp only [blockRules, List.forall_mem_cons, List.not_mem_nil, false_implies, implies_true,
    and_true]
  exact ⟨closed_of fun _ h => Phrase.program h, closed_of Phrase.emptyProgram,
    closed_of fun _ h => h, closed_of fun _ hv _ hw => Phrase.snoc_stmt hv hw,
    closed_of fun _ h => phrase_block_of_stmt h, closed_of fun _ h => Phrase.letStmt h,
    closed_of fun _ h => Phrase.funStmt h, closed_of fun _ h => Phrase.checkStmt h,
    closed_of fun _ h => Phrase.binopStmt h⟩

theorem closed_definitionRules : ∀ r ∈ definitionRules, Closed r := by
  simp only [definitionRules, List.forall_mem_cons, List.not_mem_nil, false_implies, implies_true,
    and_true]
  refine ⟨closed_of ?_, closed_of fun _ h => h, closed_of ?_, closed_of ?_, closed_of ?_,
    closed_of ?_, closed_of ?_, closed_of ?_⟩
  · rintro _ rfl _ rfl w hw
    exact Phrase.letExpr hw
  · rintro _ rfl _ rfl a ha _ rfl b hb _ rfl
    exact Phrase.funExpr ha hb
  · rintro _ rfl _ rfl a ha _ rfl _ rfl
    change Phrase .funExpr _
    simpa [word] using Phrase.emptyFunExpr ha
  · rintro _ rfl _ rfl
    exact Phrase.noArgs
  · rintro _ rfl _ ⟨n, rfl⟩ _ rfl
    exact Phrase.args n
  · rintro _ ⟨n, rfl⟩ _ rfl _ rfl
    refine ⟨n + 1, ?_⟩
    rw [List.replicate_succ', List.flatten_append]
    simp [word]
  · rintro _ rfl
    exact ⟨0, rfl⟩

theorem closed_chainRules : ∀ r ∈ chainRules, Closed r := by
  have operator {s : PyretSymbol} (h : s ∈ operators) (hs : Means s = (· = word [s])) :
      Closed (rule binop [s]) := closed_of fun w hw => ⟨s, h, by rwa [hs] at hw⟩
  simp only [chainRules, List.forall_mem_cons, List.not_mem_nil, false_implies, implies_true,
    and_true]
  refine ⟨closed_of ?_, closed_of fun _ h => ⟨isWord, by decide, h⟩,
    closed_of fun _ h => ⟨isNotWord, by decide, h⟩, closed_of ?_,
    closed_of fun _ h => Phrase.operand h, operator (by decide) rfl, operator (by decide) rfl,
    operator (by decide) rfl, operator (by decide) rfl, operator (by decide) rfl,
    operator (by decide) rfl, operator (by decide) rfl, operator (by decide) rfl,
    operator (by decide) rfl⟩
  · rintro l hl _ ⟨op, hop, rfl⟩ r hr
    exact Phrase.checkTest hl hop hr
  · rintro l hl _ ⟨op, hop, rfl⟩ r hr
    exact Phrase.operation hl hop hr

theorem closed_operandRules : ∀ r ∈ operandRules, Closed r := by
  have literal {lhs s : PyretSymbol} (hlhs : Means lhs = Phrase .expr) (hs : s ∈ literals)
      (hword : Means s = (· = word [s])) : Closed (rule lhs [s]) := by
    refine closed_of fun w hw => ?_
    rw [hword] at hw
    rw [ClosedFrom, hlhs, hw]
    exact Phrase.literal hs
  have same {lhs s : PyretSymbol} (h : Means lhs = Means s) : Closed (rule lhs [s]) := by
    refine closed_of fun w hw => ?_
    rw [ClosedFrom, h]
    exact hw
  simp only [operandRules, List.forall_mem_cons, List.not_mem_nil, false_implies, implies_true,
    and_true]
  refine ⟨same rfl, same rfl, same rfl, same rfl, literal rfl (by decide) rfl, same rfl, same rfl,
    same rfl, literal rfl (by decide) rfl, literal rfl (by decide) rfl,
    literal rfl (by decide) rfl, literal rfl (by decide) rfl, closed_of ?_⟩
  rintro _ rfl w hw _ rfl
  exact Phrase.group hw

theorem closed_applicationRules : ∀ r ∈ applicationRules, Closed r := by
  simp only [applicationRules, List.forall_mem_cons, List.not_mem_nil, false_implies, implies_true,
    and_true]
  refine ⟨closed_of fun f hf w hw => hw f hf, closed_of ?_, closed_of ?_, closed_of fun _ h => h,
    closed_of ?_, closed_of ?_⟩
  · rintro _ rfl _ rfl f hf
    exact Phrase.call hf
  · rintro _ rfl _ ⟨a, ws, ha, hws, rfl⟩ _ rfl f hf
    simpa [word] using Phrase.application hf ha hws
  · rintro _ ⟨a, ws, ha, hws, rfl⟩ _ rfl w hw
    refine ⟨a, ws ++ [w], ha, ?_, by simp⟩
    intro u hu
    rcases List.mem_append.mp hu with hu | hu
    · exact hws u hu
    · rw [List.mem_singleton.mp hu]
      exact hw
  · intro a ha
    exact ⟨a, [], ha, by simp, by simp⟩

theorem closed_rules : ∀ r ∈ rules, Closed r := by
  simp only [rules, List.forall_mem_append]
  exact ⟨⟨⟨⟨closed_blockRules, closed_definitionRules⟩, closed_chainRules⟩, closed_operandRules⟩,
    closed_applicationRules⟩

theorem means_of_terminal {s : Symbol} (h : ¬ rules.Rewrites s) : MeansSymbol s [s] := by
  unfold MeansSymbol
  split
  · rename_i x hx
    obtain rfl := symbol_of_ofSymbol? hx
    cases x <;> first | rfl | exact absurd (by decide) h
  · rfl

/-- The rules derive exactly the programs. -/
theorem derives_sourceFile_iff : Derives sourceFile w ↔ Phrase .sourceFile w := by
  constructor
  · intro h
    have hr := h.reads (fun s => means_of_terminal) closed_rules
    obtain ⟨front, _, rfl, hm, rfl⟩ := hr
    rw [List.append_nil]
    exact hm
  · exact derives_of_phrase

end TableParsing.Pyret
