import TableParsing.Lexer.Lexeme
import TableParsing.Proofs.Loading

/-!
# What the checks of a table establish

What a loaded table owes to its checks: the actions of a state are sorted without duplicates, rules
rewrite non-terminals, and the lexer hands out tokens.
-/
namespace TableParsing

namespace GrammarTable

variable {t : GrammarTable} {s : Symbol} {id q : StateId} {pid : ProductionId} {st : ParseState}

theorem wellFormed (h : t.fault? = none) : t.WellFormed := fault?_eq_none_iff.mp h

theorem symbols_size_lt (h : t.fault? = none) : t.symbols.size < Symbol.error.index :=
  Nat.lt_succ_of_le (wellFormed h).symbols.bounded

/-- Only the symbols of the table have metadata, and the error is none of them. -/
theorem ne_error_of_metadata (h : t.fault? = none) {m : SymbolMetadata}
    (hm : t.metadata? s = some m) : s ≠ Symbol.error := by
  have hlt : s.index < t.symbols.size := (Array.getElem?_eq_some_iff.mp hm).1
  have := symbols_size_lt h
  rintro rfl
  omega

theorem ne_error_of_isToken (h : t.fault? = none) (hs : t.isToken s = true) :
    s ≠ Symbol.error := by
  obtain ⟨m, hm, _⟩ := (Option.any_eq_true _ _).mp (Bool.and_eq_true_iff.mp hs).2
  exact ne_error_of_metadata h hm

/-- Only non-terminals are rewritten. -/
theorem isNonTerminal_lhs (h : t.fault? = none) {p : Production} {id : ProductionId}
    (hp : t.production? id = some p) : t.isNonTerminal p.lhs = true :=
  ((wellFormed h).productions p (Array.mem_of_getElem? hp)).lhs

theorem isTerminal_of_isNonTerminal (h : t.isNonTerminal s = true) : t.isTerminal s = false := by
  obtain ⟨m, hm, hk⟩ := (Option.any_eq_true _ _).mp h
  simp_all [isTerminal, SymbolMetadata.isTerminal]

theorem lhs_ne_error (h : t.fault? = none) {p : Production} {id : ProductionId}
    (hp : t.production? id = some p) : p.lhs ≠ Symbol.error := by
  obtain ⟨m, hm, _⟩ := (Option.any_eq_true _ _).mp (isNonTerminal_lhs h hp)
  exact ne_error_of_metadata h hm

/-- The end is a terminal and no extra. -/
theorem endOfInput_metadata (h : t.fault? = none) :
    ∃ m, t.metadata? Symbol.endOfInput = some m ∧ m.isTerminal = true ∧ m.extra = false := by
  obtain ⟨m, hm, hkind, hx⟩ := (wellFormed h).symbols.endOfInput
  exact ⟨m, hm, beq_iff_eq.mpr hkind, hx⟩

/-- Only terminals are extras. -/
theorem isTerminal_of_isExtra (h : t.fault? = none) (hs : t.isExtra s = true) :
    t.isTerminal s = true := by
  obtain ⟨m, hm, hx⟩ := (Option.any_eq_true _ _).mp hs
  cases hkind : m.kind with
  | terminal => simp [isTerminal, hm, SymbolMetadata.isTerminal, hkind]
  | nonTerminal =>
    have hnot := (wellFormed h).symbols.extras m (Array.mem_of_getElem? hm) hkind
    rw [hx] at hnot
    cases hnot

/-- The fields that a production declares are those of the table. -/
theorem field_lt (h : t.fault? = none) {p : Production} (hp : t.production? pid = some p) {i : Nat}
    {f : FieldId} (hf : p.fieldFor i = some f) : f.index < t.fields.size := by
  obtain ⟨entry, he, rfl⟩ := Option.map_eq_some_iff.mp hf
  have hfit := (wellFormed h).productions p (Array.mem_of_getElem? hp)
  exact (hfit.fields _ _ (List.mem_of_find?_eq_some he)).2

/-! ## Rows -/

theorem stateFits (h : t.fault? = none) (hst : t.state? id = some st) : t.StateFits st :=
  (wellFormed h).automaton.states st (Array.mem_of_getElem? hst)

/-- Each symbol has at most one action, and the actions stand in the order of their symbols. -/
theorem actions_sorted (h : t.fault? = none) (hst : t.state? id = some st) : st.actions.Sorted :=
  (stateFits h hst).actionsSorted

theorem gotos_sorted (h : t.fault? = none) (hst : t.state? id = some st) : st.gotos.Sorted :=
  (stateFits h hst).gotosSorted

theorem action?_iff (h : t.fault? = none) {act : Action} : t.action? id s = some act ↔
    ∃ st, t.state? id = some st ∧ (s, act) ∈ st.actions.toList := by
  rw [action?, Option.bind_eq_some_iff]
  constructor
  · rintro ⟨st, hst, ha⟩
    exact ⟨st, hst, Row.mem_of_find? ha⟩
  · rintro ⟨st, hst, hm⟩
    exact ⟨st, hst, (actions_sorted h hst).find?_iff.mpr hm⟩

/-- Only terminals have actions. -/
theorem isTerminal_of_action? (h : t.fault? = none) {act : Action}
    (ha : t.action? id s = some act) : t.isTerminal s = true := by
  obtain ⟨st, hst, hm⟩ := (action?_iff h).mp ha
  exact (stateFits h hst).actions s act (Array.mem_toList_iff.mp hm)

theorem shift_fits (h : t.fault? = none) (ha : t.action? id s = some (.shift q)) :
    s ≠ Symbol.endOfInput ∧ q.toNat < t.states.size := by
  obtain ⟨st, hst, hm⟩ := (action?_iff h).mp ha
  exact (stateFits h hst).shifts s q (Array.mem_toList_iff.mp hm)

/-- The end is never shifted. -/
theorem ne_endOfInput_of_shift (h : t.fault? = none) {next : StateId}
    (ha : t.action? id s = some (.shift next)) : s ≠ Symbol.endOfInput :=
  (shift_fits h ha).1

theorem exists_state_of_lt (h : id.toNat < t.states.size) : ∃ st, t.state? id = some st :=
  ⟨_, Array.getElem?_eq_getElem h⟩

theorem exists_state_start (h : t.fault? = none) : ∃ st, t.state? startState = some st :=
  exists_state_of_lt (wellFormed h).automaton.nonempty

theorem exists_state_shift (h : t.fault? = none) (ha : t.action? id s = some (.shift q)) :
    ∃ st, t.state? q = some st :=
  exists_state_of_lt (shift_fits h ha).2

theorem exists_state_goto (h : t.fault? = none) (hg : t.goto? id s = some q) :
    ∃ st, t.state? q = some st := by
  rcases Option.bind_eq_some_iff.mp hg with ⟨st, hst, hg⟩
  have hm := Array.mem_toList_iff.mp (Row.mem_of_find? hg)
  exact exists_state_of_lt ((stateFits h hst).gotos s q hm).2

theorem exists_production (h : t.fault? = none) (ha : t.action? id s = some (.reduce pid)) :
    ∃ p, t.production? pid = some p := by
  obtain ⟨st, hst, hm⟩ := (action?_iff h).mp ha
  have hlt := (stateFits h hst).reductions s pid (Array.mem_toList_iff.mp hm)
  exact ⟨_, Array.getElem?_eq_getElem hlt⟩

end GrammarTable

/-! ## The lexer -/

namespace GrammarTable

variable {t : GrammarTable} {s : Symbol} {text : Text}

theorem isToken_of_accept (h : t.fault? = none) {id : LexStateId} {st : LexState}
    (hst : t.lexState? id = some st) (ha : st.accept = some s) : t.isToken s = true :=
  isToken_iff.mpr ((wellFormed h).lexer.accepts st (Array.mem_of_getElem? hst) s ha)

/-- The empty word is no token. -/
theorem accept_start (h : t.fault? = none) : (t.lexState? 0).bind (·.accept) = none := by
  obtain ⟨st, hst, hnone⟩ := (wellFormed h).lexer.start
  have hstart : t.lexState? 0 = some st := hst
  rw [hstart, Option.bind_some, hnone]

theorem isToken_of_keyword (h : t.fault? = none) {word : Bytes} (hk : t.keyword? word = some s) :
    t.isToken s = true := by
  obtain ⟨entry, he, rfl⟩ := Option.map_eq_some_iff.mp hk
  exact isToken_iff.mpr ((wellFormed h).words.keywords _ _ (List.mem_of_find?_eq_some he)).2

theorem isToken_of_external (h : t.fault? = none) (hs : s ∈ t.externalTokens) :
    t.isToken s = true :=
  isToken_iff.mpr ((wellFormed h).externals s hs)

theorem isToken_of_matchAt (h : t.fault? = none) {start pos : Nat} {state : LexStateId}
    {m : Match} (hm : t.matchAt start pos state = some m) : t.isToken m.symbol = true := by
  unfold matchAt at hm
  split at hm
  · obtain ⟨s, hs, rfl⟩ := Option.map_eq_some_iff.mp hm
    obtain ⟨st, hst, ha⟩ := Option.bind_eq_some_iff.mp hs
    exact isToken_of_accept h hst ha
  · cases hm

theorem isToken_of_runLexer (h : t.fault? = none) (text : Text) (dead : DeadEnds)
    (start pos : Nat) (state : LexStateId) (run : LexRun)
    (hrun : ∀ m ∈ run.best, t.isToken m.symbol = true) :
    ∀ m ∈ (t.runLexer text dead start pos state run).best, t.isToken m.symbol = true := by
  have hbest (pos : Nat) (state : LexStateId) (run : LexRun)
      (hrun : ∀ m ∈ run.best, t.isToken m.symbol = true) :
      ∀ m ∈ (t.matchAt start pos state).or run.best, t.isToken m.symbol = true := by
    intro m hm
    rcases Option.or_eq_some_iff.mp hm with hm | ⟨_, hm⟩
    · exact isToken_of_matchAt h hm
    · exact hrun m hm
  fun_induction runLexer t text dead start pos state run with
  | case1 => exact hrun
  | case2 pos state run => exact hbest pos state run hrun
  | case3 pos state run _ _ _ _ ih => exact ih (hbest pos state run hrun)

theorem isToken_of_longestMatch (h : t.fault? = none) {start : Nat} {dead : DeadEnds} {m : Match}
    (hm : (t.longestMatch text start dead).1 = some m) : t.isToken m.symbol = true := by
  have hrun := isToken_of_runLexer h text dead start start 0 ⟨none, []⟩ (by simp)
  unfold longestMatch at hm
  dsimp only at hm
  split at hm
  · rename_i b hb
    cases hm
    exact hrun _ hb
  · cases hm

end GrammarTable

namespace Language

variable {l : Language} {text : Text} {valid : List Bool} {token : Token}

theorem table_fault (l : Language) : l.table.fault? = none :=
  (Option.or_eq_none_iff.mp l.consistent).1

/-- Every lexeme of a loaded language is a token of its table. -/
theorem isToken_of_lexemeAt {pos : Nat} (h : l.grammar.lexemeAt text valid pos = .token token) :
    l.table.isToken token.symbol = true := by
  unfold Grammar.lexemeAt at h
  simp only at h
  split at h
  · cases h
  · split at h
    · rename_i t ht
      cases h
      unfold Grammar.scanExternal at ht
      split at ht
      · simp only [Option.bind_eq_some_iff] at ht
        obtain ⟨scan, _, proposal, _, ht⟩ := ht
        split at ht
        · obtain ⟨s, hs, rfl⟩ := Option.map_eq_some_iff.mp ht
          exact GrammarTable.isToken_of_external l.table_fault (List.mem_of_getElem? hs)
        · cases ht
      · cases ht
    · split at h
      · rename_i m dead hm
        cases h
        have hs := GrammarTable.isToken_of_longestMatch l.table_fault (congrArg Prod.fst hm)
        simp only [Grammar.keywordOr]
        split
        · cases hk : l.grammar.table.keyword? (text.slice _) with
          | none => exact hs
          | some s => exact GrammarTable.isToken_of_keyword l.table_fault hk
        · exact hs
      · cases h

theorem lexemeAt_ne_error {pos : Nat} (h : l.grammar.lexemeAt text valid pos = .token token) :
    token.symbol ≠ Symbol.error :=
  GrammarTable.ne_error_of_isToken l.table_fault (isToken_of_lexemeAt h)

end Language

end TableParsing
