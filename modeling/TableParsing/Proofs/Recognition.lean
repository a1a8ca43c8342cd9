import TableParsing.Proofs.Simulation

/-!
# Recognition of words

The automaton reading a list of symbols from a path of states, without a text, a lexer, or a limit
on reductions.
-/
namespace TableParsing

def lookahead (word : List Symbol) : Symbol := word.headD Symbol.endOfInput

namespace GrammarTable

variable {t : GrammarTable} {s : Symbol} {path last : List StateId} {word : List Symbol}
  {top : StateId} {k : Nat}

/-- From this path the automaton reads the word and accepts. -/
inductive Recognizes (t : GrammarTable) : List StateId → List Symbol → Prop
  | accept {path : List StateId} : t.actionOn? Symbol.endOfInput path = some .accept →
      Recognizes t path []
  | shift {path : List StateId} {s : Symbol} {word : List Symbol} {next : StateId} :
      t.actionOn? s path = some (.shift next) → Recognizes t (next :: path) word →
      Recognizes t path (s :: word)
  | reduce {path next : List StateId} {word : List Symbol} {id : ProductionId} {p : Production} :
      t.Reduces (lookahead word) id p path next → Recognizes t next word → Recognizes t path word

/-- What follows the reductions that the lookahead triggers: acceptance, or a shift. -/
def Proceeds (t : GrammarTable) (last : List StateId) : List Symbol → Prop
  | [] => t.Settled Symbol.endOfInput .accept last
  | s :: word => ∃ next, t.Settled s (.shift next) last ∧ t.Recognizes (next :: last) word

theorem recognizes_iff : t.Recognizes path word ↔
    ∃ k last, t.Chain (lookahead word) k path last ∧ t.Proceeds last word := by
  constructor
  · intro h
    induction h with
    | accept ha => exact ⟨0, _, .nil _, ha, rfl⟩
    | shift ha h => exact ⟨0, _, .nil _, _, ⟨ha, rfl⟩, h⟩
    | reduce hr _ ih =>
      obtain ⟨k, last, hc, hp⟩ := ih
      exact ⟨k + 1, last, .cons hr hc, hp⟩
  · rintro ⟨k, last, hc, hp⟩
    induction hc with
    | nil path =>
      cases word with
      | nil => exact .accept hp.1
      | cons s word =>
        obtain ⟨next, hs, hr⟩ := hp
        exact .shift hs.1 hr
    | cons hr _ ih => exact .reduce hr (ih hp)

theorem Recognizes.action (h : t.Recognizes path word) :
    ∃ act, t.actionOn? (lookahead word) path = some act := by
  cases h with
  | accept ha => exact ⟨_, ha⟩
  | shift ha _ => exact ⟨_, ha⟩
  | reduce hr _ => exact ⟨_, hr.action⟩

/-- If every reduction lowers the rank of the newest state, no chain is longer than that rank. -/
theorem Chain.le_rank (h : t.Chain s k (top :: path) last) (rank : StateId → Nat)
    (lowers : ∀ {q s id p below next}, t.action? q s = some (.reduce id) →
      t.production? id = some p → t.goto? below p.lhs = some next → rank next < rank q) :
    k ≤ rank top := by
  induction k generalizing top path with
  | zero => exact Nat.zero_le _
  | succ k ih =>
    cases h with
    | cons hr h =>
      obtain ⟨below, rest, _, next, hg, rfl⟩ := reducePath_eq_some.mp hr.reduced
      have hlt := lowers hr.action hr.production hg
      have := ih h
      omega

end GrammarTable

end TableParsing
