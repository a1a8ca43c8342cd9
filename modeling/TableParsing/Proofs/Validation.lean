import TableParsing.Proofs.Certificate

/-!
# Certified tables

With a certificate that fits, the automaton of a table recognizes exactly the words that the rules
derive from the symbol of whole programs. The states of a path spell the symbols it was reached by,
so every reduction undoes a rule; and from a state in which a phrase may begin the automaton passes
through the phrase, whatever follows it.
-/
namespace TableParsing

namespace GrammarTable

variable {t : GrammarTable} {path : List StateId} {front symbols : List Symbol}

/-- The symbols by which a path was reached, newest first. -/
inductive Spells (t : GrammarTable) : List StateId → List Symbol → Prop
  | start : Spells t [startState] []
  | push {q next : StateId} {path : List StateId} {s : Symbol} {symbols : List Symbol} :
      Spells t (q :: path) symbols → t.Transition q s next →
      Spells t (next :: q :: path) (s :: symbols)

theorem Spells.drop (h : t.Spells path (front ++ symbols)) :
    t.Spells (path.drop front.length) symbols := by
  induction front generalizing path with
  | nil => exact h
  | cons s front ih =>
    cases h with
    | push h _ => exact ih h

theorem Spells.exists_cons (h : t.Spells path symbols) : ∃ q rest, path = q :: rest := by
  cases h with
  | start => exact ⟨_, _, rfl⟩
  | push => exact ⟨_, _, rfl⟩

end GrammarTable

namespace Certificate

open Rules GrammarTable

variable {c : Certificate} {t : GrammarTable} {q next : StateId} {s : Symbol}
  {path last : List StateId} {symbols word read form : List Symbol} {id : ProductionId}
  {p : Production} {r : Rule} {as : List Symbol}

/-- What the check establishes. -/
structure Fits (c : Certificate) (t : GrammarTable) : Prop where
  rulesMatch : c.rulesMatch t = true
  spelling_start : c.spelling startState = []
  rewrites_start : c.rules.Rewrites c.start
  action : ∀ {q s act}, t.action? q s = some act → c.actionFits q s act = true
  goto : ∀ {q s next}, t.goto? q s = some next → c.gotoFits q s next = true
  completes : ∀ {q s next}, t.goto? q s = some next → ∀ {i : Nat} {r}, c.rules[i]? = some r →
    r.lhs = s → c.passes t (UInt16.ofNat i) (c.after q s) q r.rhs = true
  rule : ∀ r ∈ c.rules, c.ruleFits r = true
  accepts : c.accepts t = true

theorem fits_of_check (h : c.check t = true) : c.Fits t := by
  simp only [check, spells, Bool.and_eq_true, beq_iff_eq, decide_eq_true_eq,
    List.all_eq_true] at h
  obtain ⟨⟨⟨⟨hmatch, ⟨⟨hstart, hrew⟩, hact⟩, hgoto⟩, hcomp⟩, hrule⟩, hacc⟩ := h
  refine ⟨hmatch, hstart, hrew, allActions_spec hact, allGotos_spec hgoto, ?_, hrule, hacc⟩
  intro q s next hg i r hr hs
  have hq := allGotos_spec hcomp hg
  have hi := List.all_eq_true.mp hq (r, i) (List.mem_zipIdx_iff_getElem?.mpr hr)
  simpa [hs] using hi

/-- Productions and rules go in pairs. -/
theorem Fits.rule_of_production (h : c.Fits t) (hp : t.production? id = some p) :
    ∃ r, c.rules[id.toNat]? = some r ∧ r.lhs = p.lhs ∧ r.rhs.length = p.childCount.toNat := by
  have hm := (Bool.and_eq_true_iff.mp h.rulesMatch).2
  rw [beq_iff_eq] at hm
  have hi := congrArg (·[id.toNat]?) hm
  have hp' : t.productions[id.toNat]? = some p := hp
  simp only [List.getElem?_map, Array.getElem?_toList, hp', Option.map_some,
    Option.map_eq_some_iff, Prod.mk.injEq] at hi
  exact hi

theorem Fits.production_of_rule (h : c.Fits t) {i : Nat} (hr : c.rules[i]? = some r) :
    ∃ p, t.production? (UInt16.ofNat i) = some p ∧ p.lhs = r.lhs ∧
      p.childCount.toNat = r.rhs.length := by
  obtain ⟨hlen, hm⟩ := Bool.and_eq_true_iff.mp h.rulesMatch
  rw [beq_iff_eq] at hm
  have hlt : i < c.rules.length := (List.getElem?_eq_some_iff.mp hr).1
  have hid : (UInt16.ofNat i).toNat = i := by
    rw [UInt16.toNat_ofNat']
    have := of_decide_eq_true hlen
    omega
  have hi := congrArg (·[i]?) hm
  simp only [List.getElem?_map, hr, Array.getElem?_toList, Option.map_some] at hi
  obtain ⟨p, hp, he⟩ := Option.map_eq_some_iff.mp hi.symm
  simp only [Prod.mk.injEq] at he
  exact ⟨p, by rw [production?, hid, hp], he.1, he.2⟩

/-! ## Soundness -/

theorem Fits.transition (h : c.Fits t) (ht : t.Transition q s next) :
    c.continues q s next = true := by
  rcases ht with ha | hg
  · exact (Bool.and_eq_true_iff.mp (h.action ha)).2
  · exact (Bool.and_eq_true_iff.mp (h.goto hg)).1

/-- The certificate tells the newest symbols of every path. -/
theorem Fits.spelling_prefix (h : c.Fits t) (hs : t.Spells (q :: path) symbols) :
    c.spelling q <+: symbols := by
  induction symbols generalizing q path with
  | nil =>
    cases hs
    simp [h.spelling_start]
  | cons s symbols ih =>
    cases hs with
    | push hs ht =>
      have hc := h.transition ht
      simp only [continues, Bool.and_eq_true, List.isPrefixOf_iff_prefix] at hc
      exact hc.2.trans ((List.prefix_cons_inj s).mpr (ih hs))

/-- A whole program stands on the start state. -/
theorem Fits.symbols_of_start (h : c.Fits t) (hs : t.Spells path (c.start :: symbols)) :
    symbols = [] := by
  cases hs with
  | @push q next _ _ _ hs ht =>
    have hq : q = startState := by
      rcases ht with ha | hg
      · have hn := (Bool.and_eq_true_iff.mp (h.action ha)).1
        simp [h.rewrites_start] at hn
      · have hn := (Bool.and_eq_true_iff.mp (h.goto hg)).2
        simpa using hn
    cases hs with
    | start => rfl
    | push _ ht' =>
      have hc := h.transition ht'
      simp [continues, hq] at hc

/-- A path on which the end is accepted was reached by a whole program. -/
theorem Fits.spells_of_accept (h : c.Fits t) (hs : t.Spells path symbols)
    (ha : t.actionOn? s path = some .accept) : symbols = [c.start] := by
  cases hs with
  | start =>
    have hf := h.action ha
    simp [actionFits, h.spelling_start] at hf
  | push hs ht =>
    have hf := h.action ha
    simp only [actionFits, Bool.and_eq_true, beq_iff_eq] at hf
    have hp := h.spelling_prefix (.push hs ht)
    rw [hf.2, List.cons_prefix_cons] at hp
    obtain ⟨rfl, _⟩ := hp
    rw [h.symbols_of_start (.push hs ht)]

/-- The symbols by which the path was reached derive the word. -/
def Reached (c : Certificate) (t : GrammarTable) (path : List StateId) (read : List Symbol) : Prop :=
  ∃ symbols, t.Spells path symbols ∧ c.rules.Yields symbols.reverse read

theorem reached_start : c.Reached t [startState] [] := ⟨[], .start, .nil⟩

theorem Fits.yields_of_accept (h : c.Fits t) (hr : c.Reached t path read)
    (ha : t.actionOn? s path = some .accept) : c.rules.Yields [c.start] read := by
  obtain ⟨symbols, hs, hy⟩ := hr
  rw [h.spells_of_accept hs ha] at hy
  simpa using hy

theorem Fits.reached_shift (h : c.Fits t) (hr : c.Reached t path read)
    (ha : t.actionOn? s path = some (.shift next)) : c.Reached t (next :: path) (read ++ [s]) := by
  obtain ⟨symbols, hs, hy⟩ := hr
  obtain ⟨q, path, rfl⟩ := hs.exists_cons
  have hf := h.action ha
  simp only [actionFits, Bool.and_eq_true, Bool.not_eq_true', decide_eq_false_iff_not] at hf
  refine ⟨s :: symbols, .push hs (.inl ha), ?_⟩
  rw [List.reverse_cons]
  exact hy.append (.terminal hf.1 .nil)

/-- A reduction undoes a rule. -/
theorem Fits.reached_reduce (h : c.Fits t) (hr : c.Reached t path read)
    (hred : t.Reduces s id p path last) : c.Reached t last read := by
  obtain ⟨symbols, hs, hy⟩ := hr
  obtain ⟨q, path, rfl⟩ := hs.exists_cons
  obtain ⟨below, rest, hd, state, hg, rfl⟩ := reducePath_eq_some.mp hred.reduced
  obtain ⟨r, hrule, hlhs, hlen⟩ := h.rule_of_production hred.production
  have hf := h.action hred.action
  simp only [actionFits, hrule, Option.any_some, List.isPrefixOf_iff_prefix] at hf
  obtain ⟨rest', rfl⟩ := hf.trans (h.spelling_prefix hs)
  have hbelow := hs.drop
  rw [List.length_reverse, hlen, hd] at hbelow
  rw [List.reverse_append, List.reverse_reverse] at hy
  obtain ⟨front, back, rfl, hfront, hback⟩ := yields_append.mp hy
  refine ⟨p.lhs :: rest', .push hbelow (.inr hg), ?_⟩
  rw [List.reverse_cons, ← hlhs]
  exact hfront.append (hback.single (List.mem_of_getElem? hrule))

theorem Fits.reached_chain (h : c.Fits t) {k : Nat} (hr : c.Reached t path read)
    (hc : t.Chain s k path last) : c.Reached t last read := by
  induction hc with
  | nil => exact hr
  | cons hred _ ih => exact ih (h.reached_reduce hr hred)

/-- What was read and what remains to be read stay a whole program along the run. -/
theorem Fits.yields_of_recognizes (h : c.Fits t) (hr : t.Recognizes path word)
    (hs : c.Reached t path read) : c.rules.Yields [c.start] (read ++ word) := by
  induction hr generalizing read with
  | accept ha => simpa using h.yields_of_accept hs ha
  | shift ha _ ih => simpa using ih (h.reached_shift hs ha)
  | reduce hred _ ih => exact ih (h.reached_reduce hs hred)

/-! ## Completeness -/

theorem Fits.start_notMem (h : c.Fits t) (hr : r ∈ c.rules) : c.start ∉ r.rhs := by
  have hfit := h.rule r hr
  simp only [ruleFits, Bool.and_eq_true, Bool.not_eq_true', List.contains_eq_mem,
    decide_eq_false_iff_not] at hfit
  exact hfit.1

theorem Fits.first_of_rule (h : c.Fits t) (hr : r ∈ c.rules) (hlhs : r.lhs ≠ c.start) :
    r.rhs ≠ [] ∧ c.firsts [] r.rhs ⊆ c.first r.lhs := by
  have hfit := (Bool.and_eq_true_iff.mp (h.rule r hr)).2
  split at hfit
  · exact absurd (beq_iff_eq.mp hfit) hlhs
  · rename_i hrhs
    refine ⟨by simp [hrhs], fun s hs => ?_⟩
    simpa using List.all_eq_true.mp hfit s hs

/-- What is derived begins with a terminal that the certificate names. -/
theorem Fits.first_of_yields (h : c.Fits t) (hy : c.rules.Yields form word)
    (hform : c.start ∉ form) (hl : form = [] → lookahead read ∈ as) :
    lookahead (word ++ read) ∈ c.firsts as form := by
  induction hy generalizing as read with
  | nil => exact hl rfl
  | terminal hs _ _ =>
    rw [firsts, if_neg hs]
    exact List.mem_singleton.mpr rfl
  | @rule r form front word hr _ _ ihrhs _ =>
    have hlhs : r.lhs ≠ c.start := fun he => hform (he ▸ List.mem_cons_self)
    obtain ⟨hne, hsub⟩ := h.first_of_rule hr hlhs
    rw [firsts, if_pos ⟨r, hr, rfl⟩, List.append_assoc]
    exact hsub (ihrhs (h.start_notMem hr) fun he => absurd he hne)

theorem reducesOn_spec (ht : t.fault? = none) (h : reducesOn t q as id = true) (hs : s ∈ as) :
    t.action? q s = some (.reduce id) := by
  obtain ⟨st, hst, hsub⟩ := (Option.any_eq_true _ _).mp h
  refine (action?_iff ht).mpr ⟨st, hst, ?_⟩
  exact (List.isSublist_iff_sublist.mp hsub).subset (List.mem_map_of_mem hs)

/-- The automaton reads what the rest of a rule derives, if it recognizes what follows once the rule
has been reduced. `k` symbols of the rule have been passed since `base`. -/
theorem Fits.recognizes_of_yields (h : c.Fits t) (ht : t.fault? = none)
    (hy : c.rules.Yields form word) (hform : c.start ∉ form) {k : Nat} {base : StateId}
    {low : List StateId} (hpass : c.passes t id as q form = true)
    (hp : t.production? id = some p) (hcount : p.childCount.toNat = k + form.length)
    (hdrop : (q :: path).drop k = base :: low) (hg : t.goto? base p.lhs = some next)
    (hl : lookahead read ∈ as) (hr : t.Recognizes (next :: base :: low) read) :
    t.Recognizes (q :: path) (word ++ read) := by
  induction hy generalizing id p k base low next as q path read with
  | nil =>
    refine .reduce ⟨reducesOn_spec ht hpass hl, hp, ?_⟩ hr
    exact reducePath_eq_some.mpr ⟨base, low, by rw [hcount]; exact hdrop, next, hg, rfl⟩
  | @terminal s form word hs _ ih =>
    have hform' : c.start ∉ form := fun hm => hform (List.mem_cons_of_mem _ hm)
    rw [passes, if_neg hs] at hpass
    split at hpass
    · rename_i q' ha
      refine .shift ha (ih hform' (k := k + 1) hpass hp ?_ ?_ hg hl hr)
      · simp only [List.length_cons] at hcount
        omega
      · exact hdrop
    · cases hpass
  | @rule r form front word hrule hrhs hrest ihrhs ih =>
    have hform' : c.start ∉ form := fun hm => hform (List.mem_cons_of_mem _ hm)
    rw [passes, if_pos ⟨r, hrule, rfl⟩] at hpass
    obtain ⟨q', hq', hpass⟩ := (Option.any_eq_true _ _).mp hpass
    obtain ⟨hfirst, hpass⟩ := Bool.and_eq_true_iff.mp hpass
    have hback : t.Recognizes (q' :: q :: path) (word ++ read) := by
      refine ih hform' (k := k + 1) hpass hp ?_ ?_ hg hl hr
      · simp only [List.length_cons] at hcount
        omega
      · exact hdrop
    have hl' : lookahead (word ++ read) ∈ c.after q r.lhs := by
      have hf := List.all_eq_true.mp hfirst _ (h.first_of_yields hrest hform' fun _ => hl)
      simpa using hf
    obtain ⟨i, hi⟩ := List.mem_iff_getElem?.mp hrule
    obtain ⟨p', hp', hlhs, hcount'⟩ := h.production_of_rule hi
    rw [List.append_assoc]
    -- The inner rule begins above the outer one, and what follows it is the rest of the outer one.
    exact ihrhs (h.start_notMem hrule) (k := 0) (h.completes hq' hi rfl) hp' (by omega) rfl
      (hlhs ▸ hq') hl' hback

/-- A certified table recognizes exactly the words of its grammar. -/
theorem recognizes_iff_yields (hc : c.check t = true) (ht : t.fault? = none) :
    t.Recognizes [startState] word ↔ c.rules.Yields [c.start] word := by
  have h := fits_of_check hc
  constructor
  · intro hr
    exact h.yields_of_recognizes hr reached_start
  · intro hy
    obtain ⟨r, hrule, hlhs, hrhs⟩ := (yields_singleton h.rewrites_start).mp hy
    obtain ⟨q, hq, hacc⟩ := (Option.any_eq_true _ _).mp h.accepts
    simp only [Bool.and_eq_true, beq_iff_eq, List.contains_eq_mem, decide_eq_true_eq] at hacc
    obtain ⟨i, hi⟩ := List.mem_iff_getElem?.mp hrule
    obtain ⟨p, hp, hplhs, hcount⟩ := h.production_of_rule hi
    rw [← List.append_nil word]
    exact h.recognizes_of_yields ht hrhs (h.start_notMem hrule) (k := 0) (h.completes hq hi hlhs)
      hp (by omega) rfl (by rw [hplhs, hlhs, hq]) hacc.2 (.accept hacc.1)

end Certificate

end TableParsing
