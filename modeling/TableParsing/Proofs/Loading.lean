import TableParsing.Language
import TableParsing.Proofs.Row

/-!
# Which grammars are loaded

The checks walk through the parts of a grammar in order and stop at the first fault. What they come
to is a property of the grammar as a whole, in which no order is left: loading succeeds exactly on
the well-formed grammars of a supported version.
-/
namespace TableParsing

namespace GrammarTable

variable (t : GrammarTable)

/-! ## Well-formed tables -/

/-- The terminals come first. -/
def TerminalsFirst (symbols : List SymbolMetadata) : Prop :=
  ∃ terminals others, symbols = terminals ++ others ∧ (∀ m ∈ terminals, m.kind = .terminal) ∧
    ∀ m ∈ others, m.kind = .nonTerminal

structure SymbolsFit : Prop where
  nonempty : 1 ≤ t.symbols.size
  /-- One id is left for errors. -/
  bounded : t.symbols.size ≤ 65534
  named : ∀ m ∈ t.symbols, m.name ≠ ""
  endOfInput : ∃ m, t.symbols[0]? = some m ∧ m.kind = .terminal ∧ m.extra = false
  terminalsFirst : TerminalsFirst t.symbols.toList
  extras : ∀ m ∈ t.symbols, m.kind = .nonTerminal → m.extra = false

structure FieldsFit : Prop where
  bounded : t.fields.size ≤ 65535
  named : ∀ name ∈ t.fields, name ≠ ""

/-- Its fields name children that it takes, and fields of the table. -/
structure ProductionFits (p : Production) : Prop where
  lhs : t.isNonTerminal p.lhs = true
  fields : ∀ child f, (child, f) ∈ p.fields → child < p.childCount ∧ f.index < t.fields.size

structure StateFits (st : ParseState) : Prop where
  actionsSorted : st.actions.Sorted
  actions : ∀ s act, (s, act) ∈ st.actions → t.isTerminal s = true
  shifts : ∀ s next, (s, Action.shift next) ∈ st.actions →
    s ≠ Symbol.endOfInput ∧ next.toNat < t.states.size
  reductions : ∀ s p, (s, Action.reduce p) ∈ st.actions → p.toNat < t.productions.size
  gotosSorted : st.gotos.Sorted
  gotos : ∀ s next, (s, next) ∈ st.gotos → t.isNonTerminal s = true ∧ next.toNat < t.states.size

structure AutomatonFits : Prop where
  nonempty : 1 ≤ t.states.size
  accepts : ∃ st ∈ t.states, ∃ s, (s, Action.accept) ∈ st.actions
  states : ∀ st ∈ t.states, t.StateFits st

structure LexerFits : Prop where
  start : ∃ st, t.lexStates[0]? = some st ∧ st.accept = none
  accepts : ∀ st ∈ t.lexStates, ∀ s, st.accept = some s →
    t.isTerminal s = true ∧ s ≠ Symbol.endOfInput
  transitions : ∀ st ∈ t.lexStates, ∀ r next, (r, next) ∈ st.transitions →
    r.lo ≤ r.hi ∧ next.toNat < t.lexStates.size
  separators : ∀ r ∈ t.separators, r.lo ≤ r.hi

structure WordsFit : Prop where
  word : ∀ s, t.wordToken = some s → t.isTerminal s = true
  keywordsHaveWord : t.keywords ≠ [] → t.wordToken ≠ none
  keywords : ∀ text s, (text, s) ∈ t.keywords →
    text ≠ "" ∧ t.isTerminal s = true ∧ s ≠ Symbol.endOfInput

structure WellFormed : Prop where
  symbols : t.SymbolsFit
  fields : t.FieldsFit
  productions : ∀ p ∈ t.productions, t.ProductionFits p
  automaton : t.AutomatonFits
  lexer : t.LexerFits
  words : t.WordsFit
  externals : ∀ s ∈ t.externalTokens, t.isTerminal s = true ∧ s ≠ Symbol.endOfInput

end GrammarTable

/-- A table whose external tokens have a scanner. -/
structure Grammar.WellFormed (g : Grammar) : Prop where
  table : g.table.WellFormed
  scanner : g.table.externalTokens ≠ [] → g.scanner ≠ none

/-! ## The checks, one by one -/

/-- A check that is about the elements alone finds no fault if all of them pass. -/
theorem firstFault_eq_none_iff {α : Type} {f : Nat → α → Option TableFault} {P : α → Prop}
    (h : ∀ i a, f i a = none ↔ P a) {start : Nat} {as : List α} :
    firstFault f start as = none ↔ ∀ a ∈ as, P a := by
  induction as generalizing start with
  | nil => simp [firstFault]
  | cons a rest ih => rw [firstFault, Option.or_eq_none_iff, h, ih, List.forall_mem_cons]

theorem firstFault_toList_eq_none_iff {α : Type} {f : Nat → α → Option TableFault} {P : α → Prop}
    (h : ∀ i a, f i a = none ↔ P a) {start : Nat} {as : Array α} :
    firstFault f start as.toList = none ↔ ∀ a ∈ as, P a := by
  simp only [firstFault_eq_none_iff h, Array.mem_toList_iff]

theorem firstPairFault_eq_none_iff {α : Type} {f : α → α → Option TableFault} {as : List α} :
    firstPairFault f as = none ↔ as.IsChain fun a b => f a b = none := by
  fun_induction firstPairFault f as with
  | case1 a b rest ih => rw [Option.or_eq_none_iff, ih, List.isChain_cons_cons]
  | case2 as h =>
    match as with
    | [] => simp
    | [a] => simp
    | a :: b :: rest => exact absurd rfl (h a b rest)

namespace GrammarTable

variable {t : GrammarTable} {id : Nat} {m : SymbolMetadata} {ms : List SymbolMetadata}

theorem terminalsFirst_cons_of_terminal (hm : m.kind = .terminal) :
    TerminalsFirst (m :: ms) ↔ TerminalsFirst ms := by
  constructor
  · rintro ⟨terminals, others, heq, ht, ho⟩
    rcases List.cons_eq_append_iff.mp heq with ⟨rfl, rfl⟩ | ⟨terminals, rfl, rfl⟩
    · simp [hm] at ho
    · exact ⟨terminals, others, rfl, fun m' hm' => ht m' (List.mem_cons_of_mem _ hm'), ho⟩
  · rintro ⟨terminals, others, rfl, ht, ho⟩
    exact ⟨m :: terminals, others, rfl, List.forall_mem_cons.mpr ⟨hm, ht⟩, ho⟩

theorem terminalsFirst_cons_of_nonTerminal (hm : m.kind = .nonTerminal) :
    TerminalsFirst (m :: ms) ↔ ∀ m' ∈ ms, m'.kind = .nonTerminal := by
  constructor
  · rintro ⟨terminals, others, heq, ht, ho⟩
    rcases List.cons_eq_append_iff.mp heq with ⟨rfl, rfl⟩ | ⟨terminals, rfl, rfl⟩
    · exact fun m' hm' => ho m' (List.mem_cons_of_mem _ hm')
    · simp [hm] at ht
  · intro h
    exact ⟨[], m :: ms, rfl, List.forall_mem_nil _, List.forall_mem_cons.mpr ⟨hm, h⟩⟩

theorem symbolFault_eq_none_iff {before : Bool} : symbolFault before id ms = none ↔
    (∀ m ∈ ms, m.name ≠ "" ∧ (m.kind = .nonTerminal → m.extra = false)) ∧
      if before then ∀ m ∈ ms, m.kind = .nonTerminal else TerminalsFirst ms := by
  induction ms generalizing before id with
  | nil => cases before <;> simp [symbolFault, TerminalsFirst]
  | cons m ms ih =>
    rw [symbolFault, Option.or_eq_none_iff, ih]
    simp only [Option.or_eq_none_iff, faultIf_eq_none_iff, List.forall_mem_cons,
      SymbolMetadata.isTerminal]
    have hkind : m.kind = .terminal ∨ m.kind = .nonTerminal := by
      cases m.kind <;> simp
    rcases hkind with hm | hm
    · cases before <;> simp [terminalsFirst_cons_of_terminal hm, hm, and_assoc]
    · cases before <;> simp [terminalsFirst_cons_of_nonTerminal hm, hm, and_assoc, and_left_comm]

theorem isToken_iff {s : Symbol} :
    t.isToken s = true ↔ t.isTerminal s = true ∧ s ≠ Symbol.endOfInput := by
  simp [isToken, and_comm]

theorem symbolsFault_eq_none_iff : t.symbolsFault = none ↔ t.SymbolsFit ∧ t.FieldsFit := by
  have hnames : firstFault fieldNameFault 0 t.fields.toList = none ↔ ∀ name ∈ t.fields, name ≠ "" :=
    firstFault_toList_eq_none_iff (by simp [fieldNameFault, faultIf_eq_none_iff])
  unfold symbolsFault
  split
  · rename_i hnone
    refine iff_of_false (by simp) fun h => ?_
    obtain ⟨m, hm, _⟩ := h.1.endOfInput
    rw [hnone] at hm
    cases hm
  · rename_i first hfirst
    have hnonempty : 1 ≤ t.symbols.size := (Array.getElem?_eq_some_iff.mp hfirst).1
    simp only [Option.or_eq_none_iff, faultIf_eq_none_iff, symbolFault_eq_none_iff, hnames,
      Bool.or_eq_false_iff, Bool.not_eq_false', decide_eq_false_iff_not, Nat.not_le, Nat.not_lt,
      Array.mem_toList_iff, SymbolMetadata.isTerminal, beq_iff_eq]
    constructor
    · rintro ⟨⟨⟨⟨hend, hroom⟩, hsymbols, hfirst'⟩, hfields⟩, hnamed⟩
      exact ⟨⟨hnonempty, Nat.le_of_lt_succ hroom, fun m hm => (hsymbols m hm).1,
        ⟨first, hfirst, hend⟩, hfirst', fun m hm => (hsymbols m hm).2⟩, hfields, hnamed⟩
    · rintro ⟨hs, hf⟩
      obtain ⟨m, hm, hend⟩ := hs.endOfInput
      rw [hfirst] at hm
      cases hm
      exact ⟨⟨⟨⟨hend, Nat.lt_succ_of_le hs.bounded⟩,
        fun m hm => ⟨hs.named m hm, hs.extras m hm⟩, hs.terminalsFirst⟩, hf.bounded⟩, hf.named⟩

theorem productionFault_eq_none_iff (t : GrammarTable) (id : Nat) (p : Production) :
    t.productionFault id p = none ↔ t.ProductionFits p := by
  have hfields : firstFault (t.productionFieldFault id p) 0 p.fields = none ↔
      ∀ e ∈ p.fields, e.1 < p.childCount ∧ e.2.index < t.fields.size :=
    firstFault_eq_none_iff (by simp [productionFieldFault, faultIf_eq_none_iff])
  rw [productionFault, Option.or_eq_none_iff, faultIf_eq_none_iff, Bool.not_eq_false', hfields]
  exact ⟨fun h => ⟨h.1, fun _ _ he => h.2 _ he⟩, fun h => ⟨h.lhs, fun _ he => h.fields _ _ he⟩⟩

theorem actionFault_eq_none_iff (t : GrammarTable) (id i : Nat) (e : Symbol × Action) :
    t.actionFault id i e = none ↔ t.isTerminal e.1 = true ∧
      (∀ next, e.2 = .shift next → e.1 ≠ Symbol.endOfInput ∧ next.toNat < t.states.size) ∧
      ∀ p, e.2 = .reduce p → p.toNat < t.productions.size := by
  obtain ⟨s, act⟩ := e
  cases act <;> simp [actionFault, targetFault, faultIf_eq_none_iff]

theorem actionOrderFault_eq_none_iff {a b : Symbol × Action} :
    actionOrderFault id a b = none ↔ a.1.id < b.1.id := by
  obtain ⟨⟨i⟩, _⟩ := a
  obtain ⟨⟨j⟩, _⟩ := b
  simp only [actionOrderFault, Option.or_eq_none_iff, faultIf_eq_none_iff, beq_eq_false_iff_ne,
    decide_eq_false_iff_not, ne_eq, Symbol.mk.injEq, UInt16.not_lt]
  exact ⟨fun h => UInt16.lt_of_le_of_ne h.2 h.1, fun h => ⟨UInt16.ne_of_lt h, UInt16.le_of_lt h⟩⟩

theorem gotoOrderFault_eq_none_iff {a b : Symbol × StateId} :
    gotoOrderFault id a b = none ↔ a.1.id < b.1.id := by
  simp [gotoOrderFault, faultIf_eq_none_iff]

theorem stateFault_eq_none_iff (t : GrammarTable) (id : Nat) (st : ParseState) :
    t.stateFault id st = none ↔ t.StateFits st := by
  have hactions : firstFault (t.actionFault id) 0 st.actions.toList = none ↔ _ :=
    firstFault_toList_eq_none_iff (t.actionFault_eq_none_iff id)
  have hgotos : firstFault (t.gotoFault id) 0 st.gotos.toList = none ↔
      ∀ e ∈ st.gotos, t.isNonTerminal e.1 = true ∧ e.2.toNat < t.states.size :=
    firstFault_toList_eq_none_iff (by simp [gotoFault, faultIf_eq_none_iff])
  simp only [stateFault, Option.or_eq_none_iff, firstPairFault_eq_none_iff, hactions, hgotos,
    actionOrderFault_eq_none_iff, gotoOrderFault_eq_none_iff, ← Row.sorted_iff_isChain]
  constructor
  · rintro ⟨⟨⟨hsorted, ha⟩, hgsorted⟩, hg⟩
    exact ⟨hsorted, fun s act he => (ha _ he).1, fun s next he => (ha _ he).2.1 next rfl,
      fun s p he => (ha _ he).2.2 p rfl, hgsorted, fun s next he => hg _ he⟩
  · intro h
    refine ⟨⟨⟨h.actionsSorted, ?_⟩, h.gotosSorted⟩, fun e he => h.gotos _ _ he⟩
    rintro ⟨s, act⟩ he
    refine ⟨h.actions s act he, ?_, ?_⟩
    · rintro next rfl
      exact h.shifts s next he
    · rintro p rfl
      exact h.reductions s p he

theorem accepts_iff : t.accepts = true ↔ ∃ st ∈ t.states, ∃ s, (s, Action.accept) ∈ st.actions := by
  simp only [accepts, Array.any_eq_true', beq_iff_eq, Prod.exists]
  exact exists_congr fun st => and_congr_right fun _ => exists_congr fun s => by simp

theorem statesFault_eq_none_iff : t.statesFault = none ↔ t.AutomatonFits := by
  have hstates : firstFault t.stateFault 0 t.states.toList = none ↔
      ∀ st ∈ t.states, t.StateFits st :=
    firstFault_toList_eq_none_iff t.stateFault_eq_none_iff
  simp only [statesFault, Option.or_eq_none_iff, faultIf_eq_none_iff, hstates, Bool.not_eq_false',
    accepts_iff]
  have hempty : t.states.isEmpty = false ↔ 1 ≤ t.states.size := by
    simp [Array.isEmpty, Nat.one_le_iff_ne_zero]
  rw [hempty]
  exact ⟨fun h => ⟨h.1.1, h.2, h.1.2⟩, fun h => ⟨⟨h.nonempty, h.states⟩, h.accepts⟩⟩

theorem lexStateFault_eq_none_iff (t : GrammarTable) (id : Nat) (st : LexState) :
    t.lexStateFault id st = none ↔
    (∀ s, st.accept = some s → t.isTerminal s = true ∧ s ≠ Symbol.endOfInput) ∧
      ∀ e ∈ st.transitions, e.1.lo ≤ e.1.hi ∧ e.2.toNat < t.lexStates.size := by
  have htransitions : firstFault (t.transitionFault id) 0 st.transitions = none ↔
      ∀ e ∈ st.transitions, e.1.lo ≤ e.1.hi ∧ e.2.toNat < t.lexStates.size :=
    firstFault_eq_none_iff (by simp [transitionFault, faultIf_eq_none_iff])
  simp [lexStateFault, htransitions, Option.bind_eq_none_iff, faultIf_eq_none_iff, isToken_iff]

theorem lexerFault_eq_none_iff : t.lexerFault = none ↔ t.LexerFits := by
  have hstates : firstFault t.lexStateFault 0 t.lexStates.toList = none ↔ _ :=
    firstFault_toList_eq_none_iff t.lexStateFault_eq_none_iff
  have hseparators : firstFault separatorFault 0 t.separators = none ↔
      ∀ r ∈ t.separators, r.lo ≤ r.hi :=
    firstFault_eq_none_iff (by simp [separatorFault, faultIf_eq_none_iff])
  unfold lexerFault
  split
  · rename_i hnone
    refine iff_of_false (by simp) fun h => ?_
    obtain ⟨st, hst, _⟩ := h.start
    rw [hnone] at hst
    cases hst
  · rename_i start hstart
    simp only [Option.or_eq_none_iff, faultIf_eq_none_iff, hstates, hseparators,
      Option.isSome_eq_false_iff, Option.isNone_iff_eq_none]
    constructor
    · rintro ⟨⟨hnone, hs⟩, hsep⟩
      exact ⟨⟨start, hstart, hnone⟩, fun st hst => (hs st hst).1,
        fun st hst r next he => (hs st hst).2 _ he, hsep⟩
    · intro h
      obtain ⟨st, hst, hnone⟩ := h.start
      rw [hstart] at hst
      cases hst
      exact ⟨⟨hnone, fun st hst => ⟨h.accepts st hst, fun _ he => h.transitions st hst _ _ he⟩⟩,
        h.separators⟩

theorem keywordsFault_eq_none_iff : t.keywordsFault = none ↔ t.WordsFit := by
  have hkeywords : firstFault t.keywordFault 0 t.keywords = none ↔
      ∀ e ∈ t.keywords, e.1 ≠ "" ∧ t.isTerminal e.2 = true ∧ e.2 ≠ Symbol.endOfInput :=
    firstFault_eq_none_iff (by simp [keywordFault, faultIf_eq_none_iff, isToken_iff])
  have hword : t.wordFault = none ↔ (∀ s, t.wordToken = some s → t.isTerminal s = true) ∧
      (t.keywords ≠ [] → t.wordToken ≠ none) := by
    unfold wordFault
    split
    · rename_i s hs
      simp [faultIf_eq_none_iff, hs]
    · rename_i hnone
      simp [faultIf_eq_none_iff, hnone]
  rw [keywordsFault, Option.or_eq_none_iff, hkeywords, hword]
  exact ⟨fun h => ⟨h.1.1, h.1.2, fun _ _ he => h.2 _ he⟩,
    fun h => ⟨⟨h.word, h.keywordsHaveWord⟩, fun _ he => h.keywords _ _ he⟩⟩

theorem fault?_eq_none_iff : t.fault? = none ↔ t.WellFormed := by
  have hproductions : firstFault t.productionFault 0 t.productions.toList = none ↔
      ∀ p ∈ t.productions, t.ProductionFits p :=
    firstFault_toList_eq_none_iff t.productionFault_eq_none_iff
  have hexternals : firstFault t.externalFault 0 t.externalTokens = none ↔
      ∀ s ∈ t.externalTokens, t.isTerminal s = true ∧ s ≠ Symbol.endOfInput :=
    firstFault_eq_none_iff (by simp [externalFault, faultIf_eq_none_iff, isToken_iff])
  simp only [fault?, Option.or_eq_none_iff, symbolsFault_eq_none_iff, hproductions,
    statesFault_eq_none_iff, lexerFault_eq_none_iff, keywordsFault_eq_none_iff, hexternals]
  constructor
  · rintro ⟨⟨⟨⟨⟨⟨hs, hf⟩, hp⟩, ha⟩, hl⟩, hw⟩, hx⟩
    exact ⟨hs, hf, hp, ha, hl, hw, hx⟩
  · rintro ⟨hs, hf, hp, ha, hl, hw, hx⟩
    exact ⟨⟨⟨⟨⟨⟨hs, hf⟩, hp⟩, ha⟩, hl⟩, hw⟩, hx⟩

end GrammarTable

theorem Grammar.fault?_eq_none_iff {g : Grammar} : g.fault? = none ↔ g.WellFormed := by
  rw [Grammar.fault?, Option.or_eq_none_iff, GrammarTable.fault?_eq_none_iff, faultIf_eq_none_iff]
  simp only [Bool.and_eq_false_iff, Bool.not_eq_false', List.isEmpty_iff,
    Option.isNone_eq_false_iff, Option.isSome_iff_ne_none]
  exact ⟨fun h => ⟨h.1, h.2.resolve_left⟩,
    fun h => ⟨h.table, Classical.or_iff_not_imp_left.mpr h.scanner⟩⟩

namespace Language

theorem exists_load_iff {g : Grammar} :
    (∃ l, load g = .ok l) ↔ isSupported g.table.version = true ∧ g.fault? = none := by
  constructor
  · rintro ⟨l, h⟩
    unfold load at h
    split at h
    · rename_i hv
      split at h
      · rename_i hf
        exact ⟨hv, hf⟩
      · cases h
    · cases h
  · rintro ⟨hv, hf⟩
    exact ⟨⟨g, hv, hf⟩, load_grammar ⟨g, hv, hf⟩⟩

theorem wellFormed_of_load {g : Grammar} (h : ∃ l, load g = .ok l) : g.WellFormed :=
  Grammar.fault?_eq_none_iff.mp (exists_load_iff.mp h).2

/-- A grammar is loaded exactly if its version is supported and it is well-formed. -/
theorem load_isOk_iff (g : Grammar) :
    (∃ l, load g = .ok l) ↔ (13 ≤ g.table.version ∧ g.table.version ≤ 15) ∧ g.WellFormed := by
  rw [exists_load_iff, Grammar.fault?_eq_none_iff, isSupported, Bool.and_eq_true,
    decide_eq_true_iff, decide_eq_true_iff]
  rfl

end Language

end TableParsing
