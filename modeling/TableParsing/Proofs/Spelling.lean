import TableParsing.Proofs.StackNodes
import TableParsing.Proofs.Validation

/-!
# What the states of a stack spell

The states on the stack are reached one from the other by the symbols of the nodes that are not
extras. So what is known of the states tells what the nodes are.
-/
namespace TableParsing

open GrammarTable

namespace Stack

variable {t : GrammarTable} {s rest : Stack} {n : Node} {q : StateId}

/-- The symbols of the nodes that are not extras, newest first. -/
def symbols (s : Stack) : List Symbol := (s.filter (!·.node.extra)).map (·.node.symbol)

/-- The symbols of the nodes lead through the states. -/
def Spelt (t : GrammarTable) (s : Stack) : Prop := t.Spells s.path s.symbols

theorem symbols_shift (s : Stack) (q : StateId) (h : n.extra = false) :
    (s.shift q n).symbols = n.symbol :: s.symbols := by
  simp [shift, symbols, h]

theorem symbols_of_extra {e : Entry} (h : e.node.extra = true) :
    symbols (e :: s) = s.symbols := by
  simp [symbols, h]

theorem symbols_reverse (s : Stack) :
    s.symbols.reverse = (s.nodes.filter (!·.extra)).map (·.symbol) := by
  simp only [symbols, nodes, List.filter_reverse, List.map_reverse, List.filter_map, List.map_map]
  rfl

/-- The first node that is not an extra has the oldest symbol. -/
theorem symbols_of_dropWhile {root : Node} {trailing : List Node}
    (h : s.nodes.dropWhile (·.extra) = root :: trailing) :
    s.symbols.reverse = root.symbol :: (trailing.filter (!·.extra)).map (·.symbol) := by
  obtain ⟨hx, hsplit⟩ := root_of_dropWhile h
  have hextra : (s.nodes.takeWhile (·.extra)).filter (!·.extra) = [] := by
    rw [List.filter_eq_nil_iff]
    intro n hn
    simpa using List.all_eq_true.mp List.all_takeWhile n hn
  rw [symbols_reverse, hsplit, List.filter_append, hextra, List.nil_append, List.filter_cons, hx]
  simp

theorem symbols_pushExtras (s : Stack) (extras : List Node) :
    (s.pushExtras extras).symbols = s.symbols := by
  induction extras generalizing s with
  | nil => rfl
  | cons n extras ih => exact (ih (s.pushExtra n)).trans (symbols_of_extra rfl)

theorem Spelt.cons {e : Entry} (h : s.Spelt t) (he : e.node.extra = true) : Spelt t (e :: s) := by
  rw [Spelt, symbols_of_extra he, path, if_pos he]
  exact h

theorem Spelt.pushExtra (h : s.Spelt t) (n : Node) : (s.pushExtra n).Spelt t := h.cons rfl

theorem Spelt.pushExtras (h : s.Spelt t) (extras : List Node) : (s.pushExtras extras).Spelt t := by
  rw [Spelt, path_pushExtras, symbols_pushExtras]
  exact h

theorem Spelt.shift (h : s.Spelt t) (hc : s.Coherent) (hn : n.extra = false)
    (ht : t.Transition s.topState n.symbol q) : (s.shift q n).Spelt t := by
  obtain ⟨below, hp⟩ := hc.path_eq
  rw [Spelt, hp] at h
  rw [Spelt, path_shift s q hn, symbols_shift s q hn, hp]
  exact .push h ht

theorem Spelt.of_suffix (hs : rest <:+ s) (h : s.Spelt t) : rest.Spelt t := by
  obtain ⟨front, rfl⟩ := hs
  induction front with
  | nil => exact h
  | cons e front ih =>
    apply ih
    cases he : e.node.extra with
    | true =>
      rw [Spelt, List.cons_append, symbols_of_extra he, path, if_pos he] at h
      exact h
    | false =>
      have hsym : symbols (e :: (front ++ rest)) = e.node.symbol :: symbols (front ++ rest) := by
        simp [symbols, he]
      rw [Spelt, List.cons_append, hsym, path, he] at h
      exact @Spells.drop t _ [e.node.symbol] _ h

end Stack

namespace Job

open Stack

variable {job : Job} {r r' last : Run} {s : Symbol} {p : Production} {state : StateId} {k : Nat}

theorem Performs.goto (h : job.Performs r p state) :
    job.table.goto? (r.below p).topState p.lhs = some state := by
  have hr := h.succeeds
  unfold reduce at hr
  simp only at hr
  split at hr
  · rename_i next hg
    have hpath := congrArg (fun r : Bool × Run => r.2.stack.path) hr
    simp only [path_pushExtras, path_reduced] at hpath
    rw [path_shift _ _ rfl] at hpath
    rw [(List.cons.inj hpath).1] at hg
    exact hg
  · simp at hr

theorem Performs.spelt (h : job.Performs r p state) (hc : r.stack.Coherent)
    (hs : r.stack.Spelt job.table) : (job.reduced r p state).stack.Spelt job.table := by
  have hbelow := below_suffix r p
  exact ((hs.of_suffix hbelow).shift (hc.of_suffix hbelow) rfl (.inr h.goto)).pushExtras _

theorem Replays.spelt (hr : job.Replays s k r last) (hc : r.stack.Coherent)
    (hs : r.stack.Spelt job.table) : last.stack.Spelt job.table := by
  induction hr with
  | nil => exact hs
  | cons _ _ hp _ ih => exact ih (coherent_reduced hc) (hp.spelt hc hs)

theorem Skips.spelt (h : job.Skips r r') (hs : r.stack.Spelt job.table) :
    r'.stack.Spelt job.table := by
  cases h with
  | @grown e rest _ _ hstack _ ho =>
    have hrest : Stack.Spelt job.table rest := hs.of_suffix ⟨[e], hstack.symm⟩
    exact Stack.Spelt.cons hrest ho.extra
  | opened => exact hs.pushExtra _

theorem Steps.spelt (hst : job.Steady r) (hm : Merges r) (h : job.Steps r r')
    (hs : r.stack.Spelt job.table) : r'.stack.Spelt job.table := by
  have hc := hst.coherent
  cases h with
  | scanned =>
    obtain ⟨_, hr, ⟨_, he⟩ | ⟨_, _, _, he⟩⟩ :=
      job.scan_cases (P := fun r => r.stack.Spelt job.table)
        (fun _ _ _ _ h => h.pushExtra _) (fun _ _ _ h => h.pushExtra _) hs
    all_goals
      rw [he]
      exact hr
  | shifted _ ha => exact hs.shift hc rfl (.inl ha)
  | shiftedEnd | ended => exact hs
  | reduced _ _ _ hp => exact hp.spelt hc hs
  | recovered hq hr =>
    cases hr with
    | supplied _ _ ha hr hpath hlc =>
      refine (hr.spelt hc hs).shift hlc rfl (.inl ?_)
      have hset := ha.settled.1
      rw [← hpath, ← hlc.action?_topState] at hset
      exact hset
    | wrapped _ _ hsp => exact (hs.of_suffix (suffix_of_splitWhere hsp)).pushExtra _
    | gaveUp => exact hs
    | skipped => exact (skips (hm (by simp [hq]))).spelt hs

theorem Reachable.spelt (h : job.Reachable r) : r.stack.Spelt job.table := by
  induction h with
  | initial => exact .start
  | step h ih => exact h.steps.spelt h.steady h.merges ih

end Job

end TableParsing
