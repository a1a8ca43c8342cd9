import TableParsing.Proofs.Safety.Machine
import TableParsing.Proofs.Spelling

/-!
# Safe simulations

The automaton with its checks: a state or a production that is looked up must be in the table, and
the reductions are counted in a word, which must not overflow. On a loaded table no lookup misses,
and the count stays in its word if the limit is not the greatest word. If it is, a chain that goes on
behind all reductions that a word can count has no result.
-/
noncomputable section

namespace TableParsing.GrammarTable

variable {t : GrammarTable} {s : Symbol} {id q : StateId} {path next last rest : List StateId}
  {act : Action} {p : Production} {pid : ProductionId} {symbols : List Symbol}
  {count left limit k : Nat} {word : UInt64}

/-! ## Paths -/

/-- All states of the path are in the table. -/
def Holds (t : GrammarTable) (path : List StateId) : Prop := ∀ q ∈ path, ∃ st, t.state? q = some st

theorem Spells.holds (hf : t.fault? = none) (h : t.Spells path symbols) : t.Holds path := by
  induction h with
  | start => exact List.forall_mem_singleton.mpr (exists_state_start hf)
  | push _ ht ih =>
    refine List.forall_mem_cons.mpr ⟨?_, ih⟩
    rcases ht with ha | hg
    · exact exists_state_shift hf ha
    · exact exists_state_goto hf hg

theorem Holds.reducePath (hf : t.fault? = none) (h : t.Holds path)
    (hr : t.reducePath p path = some next) : t.Holds next := by
  rcases reducePath_eq_some.mp hr with ⟨below, rest, hd, state, hg, rfl⟩
  refine List.forall_mem_cons.mpr ⟨exists_state_goto hf hg, fun q hq => h q ?_⟩
  rw [← hd] at hq
  exact List.mem_of_mem_drop hq

theorem Holds.chain (hf : t.fault? = none) (h : t.Holds path) (hc : t.Chain s k path last) :
    t.Holds last := by
  induction hc with
  | nil => exact h
  | cons hr _ ih => exact ih (h.reducePath hf hr.reduced)

/-- A path stays in the table when the symbol that was simulated on it is shifted. -/
theorem Holds.simulate_shift (hf : t.fault? = none) (h : t.Holds path)
    (hs : t.simulate s limit path = some (.shift q, last)) : t.Holds (q :: last) := by
  rcases chain_of_simulate hs with ⟨k, _, hc, ha, _⟩
  refine List.forall_mem_cons.mpr ⟨?_, h.chain hf hc⟩
  cases last with
  | nil => cases ha
  | cons top rest => exact exists_state_shift hf ha

/-! ## Checked simulations -/

def checkedAction (t : GrammarTable) (id : StateId) (s : Symbol) : Option (Option Action) := do
  let st ← t.state? id
  some (st.action? s)

def checkedGoto (t : GrammarTable) (id : StateId) (s : Symbol) : Option (Option StateId) := do
  let st ← t.state? id
  some (st.goto? s)

/-- The states that remain are counted before the path is cut. -/
def checkedReducePath (t : GrammarTable) (pid : ProductionId) (path : List StateId) :
    Option (Option (List StateId)) := do
  let p ← t.production? pid
  if path.length ≤ p.childCount.toNat then some none
  else
    let kept ← checkedSub path.length p.childCount.toNat
    match path.drop (path.length - kept) with
    | [] => some none
    | below :: rest =>
      let next ← t.checkedGoto below p.lhs
      some (next.map fun next => next :: below :: rest)

/-- A round that has `count` reductions behind it. -/
def checkedSimulateBody (t : GrammarTable) (s : Symbol) (limit : Nat) : Nat × List StateId →
    Option ((Nat × List StateId) ⊕ Option (Action × List StateId)) :=
  fun (count, path) =>
    match path with
    | [] => some (.inr none)
    | top :: rest => do
      match ← t.checkedAction top s with
      | none => some (.inr none)
      | some (.reduce pid) =>
        let count ← checkedAdd wordBound count 1
        if limit < count then some (.inr none)
        else
          match ← t.checkedReducePath pid (top :: rest) with
          | none => some (.inr none)
          | some path => some (.inl (count, path))
      | some act => some (.inr (some (act, top :: rest)))

def checkedSimulate (t : GrammarTable) (s : Symbol) (limit : Nat) (path : List StateId) :
    Option (Option (Action × List StateId)) :=
  loop (t.checkedSimulateBody s limit) (0, path)

theorem checkedAction_eq (h : ∃ st, t.state? id = some st) :
    t.checkedAction id s = some (t.action? id s) := by
  rcases h with ⟨st, hst⟩
  simp only [checkedAction, action?, hst, Option.bind_eq_bind, Option.bind_some]

theorem checkedGoto_eq (h : ∃ st, t.state? id = some st) :
    t.checkedGoto id s = some (t.goto? id s) := by
  rcases h with ⟨st, hst⟩
  simp only [checkedGoto, goto?, hst, Option.bind_eq_bind, Option.bind_some]

theorem checkedReducePath_eq (h : t.Holds path) (hp : t.production? pid = some p) :
    t.checkedReducePath pid path = some (t.reducePath p path) := by
  simp only [checkedReducePath, hp, Option.bind_eq_bind, Option.bind_some]
  split
  · rename_i hle
    rw [reducePath, List.drop_eq_nil_of_le hle]
  · rename_i hlt
    have hle : p.childCount.toNat ≤ path.length := by omega
    have hdrop : path.length - (path.length - p.childCount.toNat) = p.childCount.toNat := by omega
    rw [checkedSub_eq hle, Option.bind_some, hdrop, reducePath]
    cases hd : path.drop p.childCount.toNat with
    | nil => rfl
    | cons below rest =>
      have hbelow : below ∈ path := by
        apply List.mem_of_mem_drop
        rw [hd]
        exact List.mem_cons_self
      simp only [checkedGoto_eq (h below hbelow), Option.bind_some]

/-- A state of the simulation with its count as a number. -/
def numbered (state : UInt64 × List StateId) : Nat × List StateId := (state.1.toNat, state.2)

theorem checkedSimulateBody_eq (hf : t.fault? = none) (h : t.Holds path)
    (hc : t.Counted s word.toNat left path) :
    t.checkedSimulateBody s limit (numbered (word, path)) =
      some ((t.simulateBody s limit (word, path)).map numbered fun out => out) := by
  cases path with
  | nil => rfl
  | cons top rest =>
    have hact := checkedAction_eq (s := s) (h top List.mem_cons_self)
    simp only [checkedSimulateBody, simulateBody, numbered, hact, Option.bind_eq_bind, Option.bind_some]
    cases ha : t.action? top s with
    | none => rfl
    | some act =>
      cases act with
      | shift next => rfl
      | accept => rfl
      | reduce pid =>
        rcases exists_production hf ha with ⟨p, hp⟩
        have hlt := hc.lt (show t.actionOn? s (top :: rest) = _ from ha)
        have hword := toNat_add_one hlt
        simp only [checkedAdd_eq hlt, checkedReducePath_eq h hp, hp, hword, Option.bind_some]
        split
        · rfl
        · cases t.reducePath p (top :: rest) with
          | none => rfl
          | some next => simp only [Sum.map_inl, numbered, hword]

/-- A round keeps to the table and to counts that stay in their word. -/
theorem holds_round (hf : t.fault? = none) (h : t.Holds path) {word' : UInt64}
    (hc : t.Counted s word.toNat left path) (hlimit : word.toNat + left = limit)
    (hr : t.simulateBody s limit (word, path) = .inl (word', next)) :
    t.Holds next ∧ ∃ left, word'.toNat + left = limit ∧ t.Counted s word'.toNat left next := by
  rcases reduces_of_round hr with ⟨rfl, hle, _, _, hred⟩
  have hword := toNat_add_one (hc.lt hred.action)
  obtain ⟨left, rfl⟩ : ∃ m, left = m + 1 := ⟨left - 1, by omega⟩
  refine ⟨h.reducePath hf hred.reduced, left, by omega, ?_⟩
  rw [hword]
  exact hc.reduced hred

/-- A simulation whose count stays in its word passes all checks. -/
theorem Counted.checkedSimulate_eq (hc : t.Counted s 0 limit path) (hf : t.fault? = none)
    (h : t.Holds path) : t.checkedSimulate s limit path = some (t.simulate s limit path) := by
  have hzero : t.Counted s (0 : UInt64).toNat limit path := hc
  rcases hzero.ends with ⟨_, _, hends⟩
  rw [UInt64.toNat_zero, Nat.zero_add] at hends
  exact hends.loop_map_eq (f := numbered)
    (P := fun state => t.Holds state.2 ∧
      ∃ left, state.1.toNat + left = limit ∧ t.Counted s state.1.toNat left state.2)
    (fun _ ⟨hs, _, _, hc⟩ => checkedSimulateBody_eq hf hs hc)
    (fun _ _ ⟨hs, _, hl, hc⟩ hr => holds_round hf hs hc hl hr)
    ⟨h, limit, by rw [UInt64.toNat_zero, Nat.zero_add], hzero⟩

theorem checkedSimulate_eq (hf : t.fault? = none) (hlimit : limit + 1 < wordBound)
    (h : t.Holds path) : t.checkedSimulate s limit path = some (t.simulate s limit path) :=
  (Counted.of_lt (by omega) path).checkedSimulate_eq hf h

/-! ## Counts that leave their word -/

theorem checkedSimulateBody_reduces (hr : t.Reduces s pid p path next) (h : t.Holds path)
    (hword : count + 1 < wordBound) (hle : count + 1 ≤ limit) :
    t.checkedSimulateBody s limit (count, path) = some (.inl (count + 1, next)) := by
  cases path with
  | nil => cases hr.action
  | cons top rest =>
    have ha : t.action? top s = some (.reduce pid) := hr.action
    have hact := checkedAction_eq (s := s) (h top List.mem_cons_self)
    simp only [checkedSimulateBody, hact, ha, checkedAdd_eq hword,
      checkedReducePath_eq h hr.production, hr.reduced, Option.bind_eq_bind, Option.bind_some]
    rw [if_neg (Nat.not_lt.mpr hle)]

/-- The reduction that the greatest word cannot count has no result. -/
theorem checkedSimulateBody_overflow (h : t.Holds path)
    (ha : t.actionOn? s path = some (.reduce pid)) (hword : count + 1 = wordBound) :
    t.checkedSimulateBody s limit (count, path) = none := by
  cases path with
  | nil => cases ha
  | cons top rest =>
    change t.action? top s = some (.reduce pid) at ha
    have hact := checkedAction_eq (s := s) (h top List.mem_cons_self)
    have hadd : checkedAdd wordBound count 1 = none := if_neg (by omega)
    simp only [checkedSimulateBody, hact, ha, hadd, Option.bind_eq_bind, Option.bind_some,
      Option.bind_none]

/-- A chain that goes on behind all reductions that a word can count makes the simulation fail. -/
theorem Holds.fails (hf : t.fault? = none) (h : t.Holds path) (hc : t.Chain s k path last)
    (ha : t.actionOn? s last = some (.reduce pid)) (hword : count + k + 1 = wordBound)
    (hlimit : wordBound ≤ limit + 1) : Fails (t.checkedSimulateBody s limit) (count, path) := by
  induction hc generalizing count with
  | nil path => exact .stop (checkedSimulateBody_overflow h ha hword)
  | cons hr _ ih =>
    refine .again (checkedSimulateBody_reduces hr h (by omega) (by omega)) ?_
    exact ih (h.reducePath hf hr.reduced) ha (by omega)

theorem Endless.fails (he : t.Endless s path) (hf : t.fault? = none) (h : t.Holds path)
    (hlimit : wordBound ≤ limit + 1) : Fails (t.checkedSimulateBody s limit) (0, path) := by
  obtain ⟨last, pid, hc, ha⟩ := he.exists_reduction (wordBound - 1)
  exact h.fails hf hc ha (by decide) hlimit

theorem Endless.checkedSimulate_none (he : t.Endless s path) (hf : t.fault? = none)
    (h : t.Holds path) (hlimit : wordBound ≤ limit + 1) : t.checkedSimulate s limit path = none :=
  (he.fails hf h hlimit).loop_eq

/-- Under every limit that is a word, a simulation gives a result exactly if no more reductions are
tried than a word can count. -/
theorem checkedSimulate_eq_iff (hf : t.fault? = none) (h : t.Holds path)
    (hlimit : limit < wordBound) :
    t.checkedSimulate s limit path = some (t.simulate s limit path) ↔ t.Counted s 0 limit path := by
  refine ⟨fun heq => ?_, fun hc => hc.checkedSimulate_eq hf h⟩
  by_contra hc
  simp only [Counted, not_forall] at hc
  obtain ⟨k, last, pid, hk, hchain, ha, hword⟩ := hc
  have hfails := h.fails hf hchain ha (show 0 + k + 1 = wordBound by omega)
    (show wordBound ≤ limit + 1 by omega)
  rw [checkedSimulate, hfails.loop_eq] at heq
  cases heq

end TableParsing.GrammarTable

end
