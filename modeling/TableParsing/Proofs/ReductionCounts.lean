import TableParsing.Parser.Options
import TableParsing.Proofs.Loops
import TableParsing.Proofs.Simulation

/-!
# Counted reductions

A simulation counts its reductions in a word. Where the count stays in its word, the rounds of the
simulation come to the end of the chain or to the limit. Under the greatest word as a limit the count
never exceeds the limit, so an endless chain is never left.
-/
namespace TableParsing

theorem toNat_add_one {count : UInt64} (h : count.toNat + 1 < wordBound) :
    (count + 1).toNat = count.toNat + 1 := by
  rw [UInt64.toNat_add]
  exact Nat.mod_eq_of_lt h

namespace GrammarTable

variable {t : GrammarTable} {s : Symbol} {id : ProductionId} {p : Production}
  {path next last : List StateId} {count left limit k n : Nat} {word : UInt64} {act : Action}
  {out : Option (Action × List StateId)}

/-! ## Rounds -/

theorem simulateBody_reduces (h : t.Reduces s id p path next) (hle : (word + 1).toNat ≤ limit) :
    t.simulateBody s limit (word, path) = .inl (word + 1, next) := by
  cases path with
  | nil => cases h.action
  | cons top rest =>
    have ha : t.action? top s = some (.reduce id) := h.action
    simp only [simulateBody, ha, h.production, Option.bind_some, h.reduced]
    rw [if_neg (Nat.not_lt.mpr hle)]

/-- A round that does not end the simulation makes a reduction within the limit. -/
theorem reduces_of_round {word' : UInt64}
    (h : t.simulateBody s limit (word, path) = .inl (word', next)) :
    word' = word + 1 ∧ word'.toNat ≤ limit ∧ ∃ id p, t.Reduces s id p path next := by
  cases path with
  | nil => cases h
  | cons top rest =>
    simp only [simulateBody] at h
    split at h
    · cases h
    · rename_i id ha
      split at h
      · cases h
      · rename_i hle
        split at h
        · cases h
        · rename_i hn
          cases h
          obtain ⟨p, hp, hr⟩ := Option.bind_eq_some_iff.mp hn
          exact ⟨rfl, Nat.le_of_not_lt hle, id, p, ha, hp, hr⟩
    · cases h

/-! ## Counts that stay in their word -/

/-- Behind `count` reductions, each of the next `left` that are tried is counted in a word. -/
def Counted (t : GrammarTable) (s : Symbol) (count left : Nat) (path : List StateId) : Prop :=
  ∀ ⦃k last id⦄, k ≤ left → t.Chain s k path last → t.actionOn? s last = some (.reduce id) →
    count + k + 1 < wordBound

theorem Counted.of_lt (h : count + left + 1 < wordBound) (path : List StateId) :
    t.Counted s count left path := fun k _ _ hk _ _ => by omega

theorem ChainsWithin.counted (h : t.ChainsWithin k) (hk : count + k + 1 < wordBound) :
    t.Counted s count left path := fun _ _ _ _ hc _ => by
  have := h hc
  omega

/-- Where no reduction is triggered there is nothing to count. -/
theorem Settled.counted (h : t.Settled s act path) : t.Counted s count left path := by
  intro k last id _ hc ha
  obtain ⟨haction, hred⟩ := h
  cases hc with
  | nil =>
    rw [haction] at ha
    cases ha
    cases hred
  | cons hr _ =>
    have hreduces := haction.symm.trans hr.action
    cases hreduces
    cases hred

theorem Counted.lt (h : t.Counted s count left path)
    (ha : t.actionOn? s path = some (.reduce id)) : count + 1 < wordBound :=
  h (Nat.zero_le left) (.nil path) ha

theorem Counted.reduced (h : t.Counted s count (left + 1) path) (hr : t.Reduces s id p path next) :
    t.Counted s (count + 1) left next := fun k _ _ hk hc ha => by
  have := h (Nat.succ_le_succ hk) (.cons hr hc) ha
  omega

theorem Counted.ends (h : t.Counted s word.toNat left path) :
    ∃ n ≤ left + 1, Ends (t.simulateBody s (word.toNat + left)) n (word, path)
      (t.simulate s left path) := by
  fun_induction simulate t s left path generalizing word with
  | case1 => exact ⟨1, by omega, .stop rfl⟩
  | case2 left top rest ha => exact ⟨1, by omega, .stop (by simp only [simulateBody, ha])⟩
  | case3 top rest id ha =>
    have hword := toNat_add_one (h.lt (show t.actionOn? s (top :: rest) = _ from ha))
    exact ⟨1, by omega, .stop (by simp [simulateBody, ha, hword])⟩
  | case4 top rest id ha left hn =>
    rw [hn]
    exact ⟨1, by omega, .stop (by simp [simulateBody, ha, hn])⟩
  | case5 top rest id ha left next hn ih =>
    obtain ⟨p, hp, hr⟩ := Option.bind_eq_some_iff.mp hn
    have hred : t.Reduces s id p (top :: rest) next := ⟨ha, hp, hr⟩
    have hword := toNat_add_one (h.lt hred.action)
    have hnext := h.reduced hred
    rw [← hword] at hnext
    obtain ⟨n, hle, he⟩ := ih hnext
    rw [hword, Nat.add_right_comm] at he
    rw [hn]
    exact ⟨n + 1, by omega, .again (simulateBody_reduces hred (by omega)) he⟩
  | case6 left top rest action hred ha =>
    refine ⟨1, by omega, .stop ?_⟩
    cases action with
    | reduce id => exact absurd rfl (hred id)
    | shift next => simp only [simulateBody, ha]
    | accept => simp only [simulateBody, ha]

/-- A simulation ends under every limit but the greatest word. -/
theorem simulate_ends (h : limit + 1 < wordBound) (s : Symbol) (path : List StateId) :
    ∃ n ≤ limit + 1, Ends (t.simulateBody s limit) n (0, path) (t.simulate s limit path) := by
  have hc : t.Counted s (0 : UInt64).toNat limit path := Counted.of_lt (by simpa using h) path
  simpa using hc.ends

/-! ## Endless chains -/

/-- However many reductions `s` has triggered, it triggers another. -/
def Endless (t : GrammarTable) (s : Symbol) (path : List StateId) : Prop :=
  ∀ k, ∃ last, t.Chain s k path last

theorem Endless.of_self (h : t.Reduces s id p path path) : t.Endless s path := fun k => by
  refine ⟨path, ?_⟩
  induction k with
  | zero => exact .nil path
  | succ k ih => exact .cons h ih

theorem Endless.of_reduces (h : t.Reduces s id p path next) (hn : t.Endless s next) :
    t.Endless s path
  | 0 => ⟨path, .nil path⟩
  | k + 1 => (hn k).imp fun _ => .cons h

theorem Endless.exists_reduction (h : t.Endless s path) (k : Nat) :
    ∃ last id, t.Chain s k path last ∧ t.actionOn? s last = some (.reduce id) := by
  obtain ⟨_, hc⟩ := h (k + 1)
  obtain ⟨last, hc, id, p, hr⟩ := hc.unsnoc
  exact ⟨last, id, hc, hr.action⟩

/-- The rest of an endless chain is endless, for there is one reduction only that it can begin with. -/
theorem Endless.reduces (h : t.Endless s path) :
    ∃ id p next, t.Reduces s id p path next ∧ t.Endless s next := by
  obtain ⟨_, hone⟩ := h 1
  cases hone with
  | @cons _ id p _ next _ hr _ =>
    refine ⟨id, p, next, hr, fun k => ?_⟩
    obtain ⟨last, hc⟩ := h (k + 1)
    cases hc with
    | cons hr' hc => exact ⟨last, hr.unique hr' ▸ hc⟩

theorem Endless.not_viableIn (h : t.Endless s path) : ¬t.ViableIn s k path := by
  induction k generalizing path with
  | zero =>
    obtain ⟨id, p, next, hr, _⟩ := h.reduces
    intro hv
    obtain ⟨_, _, _, hk, _⟩ := hv.reduce hr.action
    cases hk
  | succ k ih =>
    obtain ⟨id, p, next, hr, hn⟩ := h.reduces
    intro hv
    obtain ⟨_, _, _, hk, hr', hv⟩ := hv.reduce hr.action
    cases hk
    exact ih (hr.unique hr' ▸ hn) hv

/-- Under the greatest word as its limit, no simulation of an endless chain ends. -/
theorem Endless.not_ends (h : t.Endless s path) (hlimit : wordBound ≤ limit + 1) :
    ¬Ends (t.simulateBody s limit) n (word, path) out := by
  refine not_ends_of_forall (P := fun state => t.Endless s state.2) ?_ h
  rintro ⟨word, path⟩ h
  obtain ⟨id, p, next, hr, hn⟩ := Endless.reduces h
  have hword : (word + 1).toNat < wordBound := (word + 1).toNat_lt
  exact ⟨_, simulateBody_reduces hr (by omega), hn⟩

end GrammarTable

end TableParsing
