import Mathlib.Tactic.Common
import TableParsing.Parser.Simulation

/-!
# Chains of reductions

A simulation is a chain of reductions on bare states that ends where another action stands. A chain
has no limit of its own, so a path that is viable stays viable under every larger limit.
-/
namespace TableParsing

def Action.isReduction : Action → Bool
  | .reduce _ => true
  | _ => false

namespace GrammarTable

variable {t : GrammarTable} {s : Symbol} {path next last : List StateId} {act : Action}
  {id : ProductionId} {p : Production} {k limit : Nat}

/-- The action of the newest state of a path. -/
def actionOn? (t : GrammarTable) (s : Symbol) : List StateId → Option Action
  | [] => none
  | top :: _ => t.action? top s

/-- `s` triggers a reduction by `p`, which has a state to go to. -/
structure Reduces (t : GrammarTable) (s : Symbol) (id : ProductionId) (p : Production)
    (path next : List StateId) : Prop where
  action : t.actionOn? s path = some (.reduce id)
  production : t.production? id = some p
  reduced : t.reducePath p path = some next

/-- `k` reductions triggered by `s` lead from one path to another. -/
inductive Chain (t : GrammarTable) (s : Symbol) : Nat → List StateId → List StateId → Prop
  | nil (path : List StateId) : Chain t s 0 path path
  | cons {k : Nat} {id : ProductionId} {p : Production} {path next last : List StateId} :
      t.Reduces s id p path next → Chain t s k next last → Chain t s (k + 1) path last

/-- No lookahead triggers more reductions than the limit allows. -/
def ChainsWithin (t : GrammarTable) (limit : Nat) : Prop :=
  ∀ {s k path last}, t.Chain s k path last → k ≤ limit

/-- On this path `s` triggers no reduction but a shift or acceptance. -/
def Settled (t : GrammarTable) (s : Symbol) (act : Action) (path : List StateId) : Prop :=
  t.actionOn? s path = some act ∧ act.isReduction = false

/-- After `k` reductions `s` can be shifted or accepted. -/
def ViableIn (t : GrammarTable) (s : Symbol) (k : Nat) (path : List StateId) : Prop :=
  ∃ act last, t.Chain s k path last ∧ t.Settled s act last

theorem reducePath_eq_some : t.reducePath p path = some next ↔ ∃ below rest,
    path.drop p.childCount.toNat = below :: rest ∧
      ∃ state, t.goto? below p.lhs = some state ∧ state :: below :: rest = next := by
  unfold reducePath
  split
  · rename_i hd
    simp [hd]
  · rename_i below rest hd
    simp [hd]

/-- A symbol triggers at most one reduction of a path. -/
theorem Reduces.unique {id' : ProductionId} {p' : Production} {next' : List StateId}
    (h : t.Reduces s id p path next) (h' : t.Reduces s id' p' path next') : next = next' := by
  have hid := h.action.symm.trans h'.action
  cases hid
  have hp := h.production.symm.trans h'.production
  cases hp
  exact Option.some.inj (h.reduced.symm.trans h'.reduced)

theorem simulate_settled (h : t.Settled s act path) :
    t.simulate s limit path = some (act, path) := by
  obtain ⟨h, ha⟩ := h
  cases path with
  | nil => cases h
  | cons top rest =>
    change t.action? top s = some act at h
    unfold simulate
    cases act with
    | reduce id => cases ha
    | shift next => simp only [h]
    | accept => simp only [h]

theorem simulate_reduces (h : t.Reduces s id p path next) :
    t.simulate s (limit + 1) path = t.simulate s limit next := by
  cases path with
  | nil => cases h.action
  | cons top rest =>
    have ha : t.action? top s = some (.reduce id) := h.action
    conv_lhs => unfold simulate
    simp only [ha, h.production, Option.bind_some, h.reduced]

theorem simulate_chain (hc : t.Chain s k path last) (he : t.Settled s act last) (hk : k ≤ limit) :
    t.simulate s limit path = some (act, last) := by
  induction hc generalizing limit with
  | nil path => exact simulate_settled he
  | cons hr _ ih =>
    obtain ⟨limit, rfl⟩ : ∃ n, limit = n + 1 := ⟨limit - 1, by omega⟩
    rw [simulate_reduces hr]
    exact ih he (by omega)

theorem chain_of_simulate (h : t.simulate s limit path = some (act, last)) :
    ∃ k ≤ limit, t.Chain s k path last ∧ t.Settled s act last := by
  fun_induction simulate t s limit path with
  | case1 => cases h
  | case2 => cases h
  | case3 => cases h
  | case4 top rest id ha limit hn =>
    rw [hn] at h
    cases h
  | case5 top rest id ha limit next hn ih =>
    rw [hn] at h
    obtain ⟨p, hp, hr⟩ := Option.bind_eq_some_iff.mp hn
    obtain ⟨k, hk, hc, he⟩ := ih h
    exact ⟨k + 1, by omega, .cons ⟨ha, hp, hr⟩ hc, he⟩
  | case6 limit top rest a hred ha =>
    cases h
    refine ⟨0, Nat.zero_le _, .nil _, ha, ?_⟩
    cases act with
    | reduce id => exact absurd rfl (hred id)
    | shift next => rfl
    | accept => rfl

theorem isViable_iff : t.isViable s limit path = true ↔ ∃ k ≤ limit, t.ViableIn s k path := by
  rw [isViable, Option.isSome_iff_exists]
  constructor
  · rintro ⟨⟨act, last⟩, h⟩
    obtain ⟨k, hk, hc, he⟩ := chain_of_simulate h
    exact ⟨k, hk, act, last, hc, he⟩
  · rintro ⟨k, hk, act, last, hc, he⟩
    exact ⟨(act, last), simulate_chain hc he hk⟩

/-- Of a viable symbol the simulation finds whatever chain there is. -/
theorem simulate_of_viable (hv : t.isViable s limit path = true) (hc : t.Chain s k path last)
    (he : t.Settled s act last) : t.simulate s limit path = some (act, last) := by
  obtain ⟨⟨act', last'⟩, h⟩ := Option.isSome_iff_exists.mp hv
  obtain ⟨k', _, hc', he'⟩ := chain_of_simulate h
  have h1 := simulate_chain hc he (Nat.le_max_left k k')
  have h2 := simulate_chain hc' he' (Nat.le_max_right k k')
  rw [h1] at h2
  rw [h, h2]

/-- A chain that begins at a reduction goes on with the rest of the chain. -/
theorem Chain.uncons (hc : t.Chain s k path last) (he : t.Settled s act last)
    (ha : t.actionOn? s path = some (.reduce id)) :
    ∃ k' p next, k = k' + 1 ∧ t.Reduces s id p path next ∧ t.Chain s k' next last := by
  cases hc with
  | nil =>
    obtain ⟨he, hred⟩ := he
    rw [ha] at he
    cases he
    cases hred
  | cons hr hc =>
    have hid := hr.action
    rw [ha] at hid
    cases hid
    exact ⟨_, _, _, rfl, hr, hc⟩

/-- The last reduction of a chain. -/
theorem Chain.unsnoc (hc : t.Chain s (k + 1) path last) :
    ∃ before, t.Chain s k path before ∧ ∃ id p, t.Reduces s id p before last := by
  induction k generalizing path with
  | zero =>
    cases hc with
    | cons hr hc =>
      cases hc
      exact ⟨path, .nil path, _, _, hr⟩
  | succ k ih =>
    cases hc with
    | cons hr hc =>
      obtain ⟨before, hc, hlast⟩ := ih hc
      exact ⟨before, .cons hr hc, hlast⟩

theorem ViableIn.reduce (h : t.ViableIn s k path) (ha : t.actionOn? s path = some (.reduce id)) :
    ∃ k' p next, k = k' + 1 ∧ t.Reduces s id p path next ∧ t.ViableIn s k' next := by
  obtain ⟨act, last, hc, he⟩ := h
  obtain ⟨k', p, next, rfl, hr, hc⟩ := hc.uncons he ha
  exact ⟨k', p, next, rfl, hr, act, last, hc, he⟩

theorem ViableIn.action (h : t.ViableIn s k path) : ∃ act, t.actionOn? s path = some act := by
  obtain ⟨act, last, hc, he⟩ := h
  cases hc with
  | nil => exact ⟨act, he.1⟩
  | cons hr _ => exact ⟨_, hr.action⟩

end GrammarTable

end TableParsing
