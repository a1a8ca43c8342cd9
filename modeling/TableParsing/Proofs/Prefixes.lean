import TableParsing.Proofs.Validation

/-!
# Prefixes of programs

Fed with symbols one after the other, a certified automaton stops at the first one that no program
has there. For below every state some rule has begun: what remains of it derives some word, and
behind it the state below goes on with the left-hand side, so all that was read begins a program.
-/
namespace TableParsing

namespace Rules

variable {rules : Rules} {depth : Symbol → Nat} {form : List Symbol} {s : Symbol}

/-- Every rewritten symbol has a rule in which no symbol is as deep as itself. -/
def productive (rules : Rules) (depth : Symbol → Nat) : Bool :=
  rules.all fun r => rules.any fun r' => r'.lhs == r.lhs &&
    r'.rhs.all fun s => !decide (rules.Rewrites s) || decide (depth s < depth r.lhs)

theorem exists_yields_of_singletons (h : ∀ s ∈ form, ∃ w, rules.Yields [s] w) :
    ∃ w, rules.Yields form w := by
  induction form with
  | nil => exact ⟨[], .nil⟩
  | cons s form ih =>
    rcases List.forall_mem_cons.mp h with ⟨⟨v, hv⟩, hform⟩
    rcases ih hform with ⟨w, hw⟩
    exact ⟨v ++ w, hv.append hw⟩

theorem exists_yields_singleton (h : rules.productive depth = true) (s : Symbol) :
    ∃ w, rules.Yields [s] w := by
  induction hd : depth s using Nat.strong_induction_on generalizing s with
  | _ n ih =>
    by_cases hs : rules.Rewrites s
    · rcases hs with ⟨r, hr, rfl⟩
      rcases List.any_eq_true.mp (List.all_eq_true.mp h r hr) with ⟨r', hr', hfit⟩
      simp only [Bool.and_eq_true, beq_iff_eq, List.all_eq_true, Bool.or_eq_true,
        Bool.not_eq_true', decide_eq_false_iff_not, decide_eq_true_eq] at hfit
      have hrhs (x : Symbol) (hx : x ∈ r'.rhs) : ∃ w, rules.Yields [x] w := by
        rcases hfit.2 x hx with hn | hlt
        · exact ⟨[x], .terminal hn .nil⟩
        · exact ih _ (hd ▸ hlt) x rfl
      rcases exists_yields_of_singletons hrhs with ⟨w, hw⟩
      exact ⟨w, hfit.1 ▸ hw.single hr'⟩
    · exact ⟨[s], .terminal hs .nil⟩

theorem exists_yields (h : rules.productive depth = true) (form : List Symbol) :
    ∃ w, rules.Yields form w :=
  exists_yields_of_singletons fun s _ => exists_yields_singleton h s

end Rules

namespace GrammarTable

variable {t : GrammarTable} {limit : Nat} {path last out : List StateId} {s : Symbol}
  {word word' front symbols : List Symbol} {q b : StateId}

/-! ## Feeding symbols -/

def feed (t : GrammarTable) (limit : Nat) : List StateId → List Symbol → Option (List StateId)
  | path, [] => some path
  | path, s :: word =>
    match t.simulate s limit path with
    | some (.shift next, last) => feed t limit (next :: last) word
    | _ => none

theorem feed_cons : t.feed limit path (s :: word) = some out ↔ ∃ next last,
    t.simulate s limit path = some (.shift next, last) ∧
      t.feed limit (next :: last) word = some out := by
  rw [feed]
  constructor
  · intro h
    split at h
    · rename_i next last hs
      exact ⟨next, last, hs, h⟩
    · cases h
  · rintro ⟨next, last, hs, h⟩
    rw [hs]
    exact h

/-- The way to recognize a word is the way through its prefixes. -/
theorem Recognizes.feed (hlimit : t.ChainsWithin limit) (h : t.Recognizes path (word ++ word')) :
    ∃ out, t.feed limit path word = some out ∧ t.Recognizes out word' := by
  induction word generalizing path with
  | nil => exact ⟨path, rfl, h⟩
  | cons s word ih =>
    rcases recognizes_iff.mp h with ⟨k, last, hc, next, hs, hr⟩
    rcases ih hr with ⟨out, hout, hrest⟩
    exact ⟨out, feed_cons.mpr ⟨next, last, simulate_chain hc hs (hlimit hc), hout⟩, hrest⟩

theorem Recognizes.simulate_isSome (hlimit : t.ChainsWithin limit) (h : t.Recognizes path word) :
    (t.simulate (lookahead word) limit path).isSome = true := by
  rcases recognizes_iff.mp h with ⟨k, last, hc, hp⟩
  cases word with
  | nil => simp [simulate_chain hc hp (hlimit hc)]
  | cons s word =>
    rcases hp with ⟨next, hs, _⟩
    simp [simulate_chain hc hs (hlimit hc)]

/-! ## States below -/

def sources (t : GrammarTable) (s : Symbol) (q : StateId) : List StateId :=
  t.states.toList.zipIdx.filterMap fun (st, i) =>
    if Row.lookup s st.actions.toList == some (.shift q) ||
        Row.lookup s st.gotos.toList == some q then some (UInt16.ofNat i)
    else none

/-- The states from which the symbols, given newest first, lead to `q`. -/
def bases (t : GrammarTable) : List Symbol → StateId → List StateId
  | [], q => [q]
  | s :: front, q => (t.sources s q).flatMap (bases t front)

theorem Transition.mem_sources (hf : t.fault? = none) (h : t.Transition b s q) :
    b ∈ t.sources s q := by
  have hst : ∃ st, t.state? b = some st ∧ (Row.lookup s st.actions.toList == some (.shift q) ||
      Row.lookup s st.gotos.toList == some q) = true := by
    rcases h with h | h <;> rcases Option.bind_eq_some_iff.mp h with ⟨st, hst, hrow⟩
    · exact ⟨st, hst, by simp [Row.Sorted.lookup_of_find? (actions_sorted hf hst) hrow]⟩
    · exact ⟨st, hst, by simp [Row.Sorted.lookup_of_find? (gotos_sorted hf hst) hrow]⟩
  rcases hst with ⟨st, hst, hrow⟩
  apply List.mem_filterMap.mpr
  exact ⟨(st, b.toNat), mem_zipIdx_states hst, by simp only [hrow, ite_true, UInt16.ofNat_toNat]⟩

/-- Below symbols of a path stands one of the states from which they lead to its newest state. -/
theorem Spells.exists_base (hf : t.fault? = none) (h : t.Spells (q :: path) (front ++ symbols)) :
    ∃ b ∈ t.bases front q, ∃ low, t.Spells (b :: low) symbols := by
  induction front generalizing q path with
  | nil => exact ⟨q, List.mem_singleton.mpr rfl, path, h⟩
  | cons s front ih =>
    cases h with
    | push h ht =>
      rcases ih h with ⟨b, hb, low, hlow⟩
      exact ⟨b, List.mem_flatMap.mpr ⟨_, ht.mem_sources hf, hb⟩, low, hlow⟩

end GrammarTable

namespace Certificate

open Rules GrammarTable

variable {c : Certificate} {t : GrammarTable} {weight depth : Symbol → Nat} {q : StateId}
  {r : Rule} {k limit : Nat} {path out : List StateId} {symbols word read : List Symbol}
  {s : Symbol}

/-! ## Rules that have begun -/

/-- The newest symbols of the state are the first `k` symbols of the rule, and wherever they begin,
the state goes on with the left-hand side. A rule that has begun with one symbol is lighter. -/
def begins (c : Certificate) (t : GrammarTable) (weight : Symbol → Nat) (q : StateId) (r : Rule)
    (k : Nat) : Bool :=
  (r.rhs.take k).reverse.isPrefixOf (c.spelling q) &&
    (decide (1 < k) || r.rhs.head?.any fun s => decide (weight r.lhs < weight s)) &&
      (t.bases (r.rhs.take k).reverse q).all fun b => (t.goto? b r.lhs).isSome

/-- Below every state but the first one and that of whole programs some rule has begun. -/
def goesOn (c : Certificate) (t : GrammarTable) (weight : Symbol → Nat) : Bool :=
  t.states.toList.zipIdx.all fun (_, i) =>
    let q := UInt16.ofNat i
    q == startState || c.spelling q == [c.start] || c.rules.any fun r =>
      (List.range r.rhs.length).any fun k => c.begins t weight q r (k + 1)

theorem Fits.exists_begun (h : c.Fits t) (ht : t.fault? = none) (hgo : c.goesOn t weight = true)
    (hs : t.Spells (q :: path) (s :: symbols)) (hstart : s ≠ c.start) :
    ∃ r ∈ c.rules, ∃ k < r.rhs.length, c.begins t weight q r (k + 1) = true := by
  have hprefix := h.spelling_prefix hs
  cases hs with
  | push _ htr =>
    have hst : ∃ st, t.state? q = some st := by
      rcases htr with ha | hg
      · exact exists_state_shift ht ha
      · exact exists_state_goto ht hg
    rcases hst with ⟨st, hst⟩
    have hq := List.all_eq_true.mp hgo _ (mem_zipIdx_states hst)
    simp only [UInt16.ofNat_toNat, Bool.or_eq_true, beq_iff_eq, List.any_eq_true,
      List.mem_range] at hq
    rcases hq with (hq | hq) | hbegun
    · have hc := h.transition htr
      simp [Certificate.continues, hq] at hc
    · rw [hq, List.cons_prefix_cons] at hprefix
      exact absurd hprefix.1.symm hstart
    · exact hbegun

/-- A completed rule leaves fewer symbols, or as many and a lighter one. -/
theorem begins_lowers {rest : List Symbol} (hb : c.begins t weight q r (k + 1) = true)
    (hk : k < r.rhs.length) (he : s :: symbols = (r.rhs.take (k + 1)).reverse ++ rest) :
    rest.length < symbols.length ∨ rest.length = symbols.length ∧ weight r.lhs < weight s := by
  cases k with
  | zero =>
    simp only [begins, Bool.and_eq_true] at hb
    have hlight := hb.1.2
    cases hrhs : r.rhs with
    | nil => simp [hrhs] at hk
    | cons x form =>
      simp only [hrhs, List.take_succ_cons, List.take_zero, List.reverse_singleton,
        List.singleton_append, List.cons.injEq] at he
      rcases he with ⟨rfl, rfl⟩
      exact .inr ⟨rfl, by simpa [hrhs] using hlight⟩
  | succ k =>
    have hlength := congrArg List.length he
    simp only [List.length_cons, List.length_append, List.length_reverse, List.length_take] at hlength
    exact .inl (by omega)

/-- A rule that has begun is completed: its symbols are replaced by the left-hand side. -/
theorem Fits.complete (h : c.Fits t) (ht : t.fault? = none) (hprod : c.rules.productive depth = true)
    (hs : t.Spells (q :: path) symbols) (hr : r ∈ c.rules) (hb : c.begins t weight q r k = true) :
    ∃ rest path', symbols = (r.rhs.take k).reverse ++ rest ∧ t.Spells path' (r.lhs :: rest) ∧
      ∃ v, ∀ w, c.rules.Yields symbols.reverse w →
        c.rules.Yields (r.lhs :: rest).reverse (w ++ v) := by
  simp only [begins, Bool.and_eq_true, List.isPrefixOf_iff_prefix, List.all_eq_true] at hb
  rcases hb with ⟨⟨hspelling, _⟩, hbases⟩
  rcases hspelling.trans (h.spelling_prefix hs) with ⟨rest, rfl⟩
  rcases hs.exists_base ht with ⟨b, hbase, low, hlow⟩
  rcases Option.isSome_iff_exists.mp (hbases b hbase) with ⟨next, hg⟩
  rcases exists_yields hprod (r.rhs.drop k) with ⟨v, hv⟩
  refine ⟨rest, next :: b :: low, rfl, .push hlow (.inr hg), v, fun w hw => ?_⟩
  rw [List.reverse_append, List.reverse_reverse] at hw
  rcases yields_append.mp hw with ⟨front, back, rfl, hfront, hback⟩
  have hrule : c.rules.Yields r.rhs (back ++ v) := by
    rw [← List.take_append_drop k r.rhs]
    exact hback.append hv
  rw [List.reverse_cons, List.append_assoc]
  exact hfront.append (hrule.single hr)

/-- Whatever was read on the way to a path begins a program. -/
theorem Fits.exists_completion (h : c.Fits t) (ht : t.fault? = none)
    (hprod : c.rules.productive depth = true) (hgo : c.goesOn t weight = true)
    (path : List StateId) (symbols : List Symbol) (hs : t.Spells path symbols) :
    ∃ v, ∀ w, c.rules.Yields symbols.reverse w → c.rules.Yields [c.start] (w ++ v) := by
  match symbols with
  | [] =>
    rcases exists_yields hprod [c.start] with ⟨v, hv⟩
    refine ⟨v, fun w hw => ?_⟩
    cases hw
    exact hv
  | s :: symbols =>
    by_cases hstart : s = c.start
    · subst hstart
      rw [h.symbols_of_start hs]
      exact ⟨[], fun w hw => by simpa using hw⟩
    · rcases hs.exists_cons with ⟨q, path, rfl⟩
      rcases h.exists_begun ht hgo hs hstart with ⟨r, hr, k, hk, hb⟩
      rcases h.complete ht hprod hs hr hb with ⟨rest, path', he, hs', v, hv⟩
      have hlower := begins_lowers hb hk he
      rcases h.exists_completion ht hprod hgo path' (r.lhs :: rest) hs' with ⟨u, hu⟩
      refine ⟨v ++ u, fun w hw => ?_⟩
      rw [← List.append_assoc]
      exact hu _ (hv w hw)
termination_by (symbols.length, symbols.head?.elim 0 weight)
decreasing_by
  simp only [List.length_cons, List.head?_cons, Option.elim_some]
  rcases hlower with hlt | ⟨heq, hlt⟩
  · exact .left _ _ (Nat.succ_lt_succ hlt)
  · rw [heq]
    exact .right _ hlt

theorem Fits.reached_feed (h : c.Fits t) (hr : c.Reached t path read)
    (hfeed : t.feed limit path word = some out) : c.Reached t out (read ++ word) := by
  induction word generalizing path read with
  | nil =>
    cases hfeed
    simpa using hr
  | cons s word ih =>
    rcases feed_cons.mp hfeed with ⟨next, last, hs, hrest⟩
    rcases chain_of_simulate hs with ⟨_, _, hc, hset⟩
    have hnext := h.reached_shift (h.reached_chain hr hc) hset.1
    simpa using ih hnext hrest

/-! ## Feeding a certified table -/

section Detection

variable (hc : c.check t = true) (ht : t.fault? = none) (hprod : c.rules.productive depth = true)
  (hgo : c.goesOn t weight = true) (hlimit : t.ChainsWithin limit)

include hc ht hprod hgo in
theorem exists_yields_of_reached (hr : c.Reached t path read) :
    ∃ v, c.rules.Yields [c.start] (read ++ v) := by
  rcases hr with ⟨symbols, hs, hy⟩
  rcases (fits_of_check hc).exists_completion ht hprod hgo path symbols hs with ⟨v, hv⟩
  exact ⟨v, hv read hy⟩

include hc ht hprod hgo hlimit

theorem feed_isSome_iff : (t.feed limit [startState] word).isSome = true ↔
    ∃ v, c.rules.Yields [c.start] (word ++ v) := by
  constructor
  · intro h
    rcases Option.isSome_iff_exists.mp h with ⟨out, hout⟩
    have hr := (fits_of_check hc).reached_feed reached_start hout
    exact exists_yields_of_reached hc ht hprod hgo hr
  · rintro ⟨v, hv⟩
    have hrec := (recognizes_iff_yields hc ht).mpr hv
    rcases hrec.feed hlimit with ⟨out, hout, _⟩
    simp [hout]

/-- Behind a word that was shifted, a lookahead is viable exactly if with it the word still begins a
program; the end is viable exactly if the word is a program. -/
theorem simulate_isSome_iff (hfeed : t.feed limit [startState] word = some path) :
    (t.simulate s limit path).isSome = true ↔
      if s = Symbol.endOfInput then c.rules.Yields [c.start] word
      else ∃ v, c.rules.Yields [c.start] (word ++ s :: v) := by
  have h := fits_of_check hc
  constructor
  · intro hsome
    rcases Option.isSome_iff_exists.mp hsome with ⟨⟨act, last⟩, hs⟩
    rcases chain_of_simulate hs with ⟨_, _, hchain, hset⟩
    have hr := h.reached_chain (h.reached_feed reached_start hfeed) hchain
    cases hlast : last with
    | nil =>
      rw [hlast] at hset
      cases hset.1
    | cons top rest =>
      subst hlast
      cases act with
      | shift next =>
        rw [if_neg (ne_endOfInput_of_shift ht hset.1)]
        rcases exists_yields_of_reached hc ht hprod hgo (h.reached_shift hr hset.1) with ⟨v, hv⟩
        exact ⟨v, by simpa using hv⟩
      | accept =>
        have hend := (Bool.and_eq_true_iff.mp (h.action hset.1)).1
        rw [if_pos (beq_iff_eq.mp hend)]
        exact h.yields_of_accept hr hset.1
      | reduce id => cases hset.2
  · intro hy
    have hrec : ∃ rest, lookahead rest = s ∧ t.Recognizes path rest := by
      by_cases hs : s = Symbol.endOfInput
      · rw [if_pos hs] at hy
        rw [← List.append_nil word, ← recognizes_iff_yields hc ht] at hy
        rcases hy.feed hlimit with ⟨out, hout, hrest⟩
        cases hfeed.symm.trans hout
        exact ⟨[], hs.symm, hrest⟩
      · rw [if_neg hs] at hy
        rcases hy with ⟨v, hv⟩
        rw [← recognizes_iff_yields hc ht] at hv
        rcases hv.feed hlimit with ⟨out, hout, hrest⟩
        cases hfeed.symm.trans hout
        exact ⟨s :: v, rfl, hrest⟩
    rcases hrec with ⟨rest, rfl, hrec⟩
    exact hrec.simulate_isSome hlimit

end Detection

end Certificate

end TableParsing
