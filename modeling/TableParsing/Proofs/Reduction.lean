import TableParsing.Parser.Recovery
import TableParsing.Proofs.Simulation
import TableParsing.Proofs.Stack

/-!
# Reductions on the stack

A reduction on the stack follows the reduction on its path: it finds the same state to go to, takes
all its children, and pushes the extras above them back. Hence a chain on the path of a stack can be
replayed on the stack itself.
-/
namespace TableParsing

namespace Run

/-- The nodes that a reduction takes off the stack, oldest first. -/
def taken (r : Run) (p : Production) : List Node :=
  (Stack.popChildren p.childCount.toNat r.stack.popExtras.2 []).1

/-- What a reduction leaves of the stack. -/
def below (r : Run) (p : Production) : Stack :=
  (Stack.popChildren p.childCount.toNat r.stack.popExtras.2 []).2

end Run

theorem Stack.Coherent.action?_topState {s : Stack} (h : s.Coherent) (t : GrammarTable)
    (a : Symbol) : t.action? s.topState a = t.actionOn? a s.path := by
  obtain ⟨below, hp⟩ := h.path_eq
  rw [hp]
  rfl

namespace Job

variable {job : Job} {r last : Run} {s : Symbol} {p : Production} {id : ProductionId}
  {state : StateId} {path next : List StateId} {k : Nat}

/-- The node that a reduction makes. -/
def parent (job : Job) (r : Run) (p : Production) : Node :=
  let children := job.table.collectChildren p 0 (r.taken p)
  Node.branch p.lhs (coveringSpan (Stack.endOffset (r.below p)) children)
    (job.table.isNamed p.lhs) children

/-- The run after a reduction that goes to `state`. -/
def reduced (job : Job) (r : Run) (p : Production) (state : StateId) : Run :=
  { r with
    stack := ((r.below p).shift state (job.parent r p)).pushExtras r.stack.popExtras.1
    mergeSkips := false }

theorem reduce_of_goto (h : job.table.goto? (r.below p).topState p.lhs = some state) :
    job.reduce r p = (true, job.reduced r p state) := by
  simp only [Run.below] at h
  simp only [reduce, h]
  rfl

/-- The reduction finds a state to go to and all its children. -/
structure Performs (job : Job) (r : Run) (p : Production) (state : StateId) : Prop where
  succeeds : job.reduce r p = (true, job.reduced r p state)
  complete : (r.taken p).countP (!·.extra) = p.childCount.toNat

theorem below_suffix (r : Run) (p : Production) : r.below p <:+ r.stack :=
  (Stack.popChildren_suffix _ _ _).trans (Stack.popExtras_suffix _)

/-- A reduction divides the nodes of the stack in three. -/
theorem nodes_taken (r : Run) (p : Production) :
    (r.below p).nodes ++ r.taken p ++ r.stack.popExtras.1 = r.stack.nodes := by
  have h := Stack.nodes_popChildren p.childCount.toNat r.stack.popExtras.2 []
  rw [List.append_nil] at h
  rw [Run.below, Run.taken, h, Stack.nodes_popExtras]

theorem nodes_reduced (job : Job) (r : Run) (p : Production) (state : StateId) :
    (job.reduced r p state).stack.nodes =
      (r.below p).nodes ++ [job.parent r p] ++ r.stack.popExtras.1 := by
  rw [reduced, Stack.nodes_pushExtras (Stack.popExtras_extra r.stack), Stack.nodes_shift]

theorem path_reduced (r : Run) (p : Production) (state : StateId) :
    (job.reduced r p state).stack.path = state :: (r.below p).path := by
  simp only [reduced, Stack.path_pushExtras]
  exact Stack.path_shift _ _ rfl

theorem coherent_reduced (hc : r.stack.Coherent) :
    (job.reduced r p state).stack.Coherent :=
  ((hc.of_suffix (below_suffix r p)).shift state rfl).pushExtras _

/-- A reduction that is possible on the path is performed on the stack, with the same states. -/
theorem performs_of_reducePath (hc : r.stack.Coherent)
    (h : job.table.reducePath p r.stack.path = some next) :
    ∃ state, job.Performs r p state ∧ (job.reduced r p state).stack.path = next := by
  obtain ⟨top, rest, hd, state, hg, rfl⟩ := GrammarTable.reducePath_eq_some.mp h
  have hlt : p.childCount.toNat < (Stack.path r.stack.popExtras.2).length := by
    rw [Stack.path_popExtras]
    by_contra hge
    rw [List.drop_eq_nil_of_le (by omega)] at hd
    cases hd
  have hpath : (r.below p).path = top :: rest := by
    rw [Run.below, Stack.path_popChildren hlt, Stack.path_popExtras, hd]
  have htop : (r.below p).topState = top := by
    obtain ⟨_, hb⟩ := (hc.of_suffix (below_suffix r p)).path_eq
    rw [hpath] at hb
    exact (List.cons.inj hb).1.symm
  refine ⟨state, ⟨reduce_of_goto (by rw [htop, hg]), ?_⟩, by rw [path_reduced, hpath]⟩
  simpa [Run.taken] using Stack.countP_popChildren hlt []

theorem Performs.path_eq (h : job.Performs r p state) (hc : r.stack.Coherent)
    (hn : job.table.reducePath p r.stack.path = some next) :
    (job.reduced r p state).stack.path = next := by
  obtain ⟨state', hp, hpath⟩ := performs_of_reducePath hc hn
  have he := h.succeeds.symm.trans hp.succeeds
  rw [(Prod.mk.inj he).2, hpath]

/-- `k` reductions triggered by `s`, each performed on the stack, lead from one run to another. -/
inductive Replays (job : Job) (s : Symbol) : Nat → Run → Run → Prop
  | nil (r : Run) : Replays job s 0 r r
  | cons {k : Nat} {r last : Run} {id : ProductionId} {p : Production} {state : StateId} :
      job.table.action? r.stack.topState s = some (.reduce id) →
      job.table.production? id = some p → job.Performs r p state →
      Replays job s k (job.reduced r p state) last → Replays job s (k + 1) r last

/-- Every chain on the path of a stack is replayed by the stack. -/
theorem replays_of_chain (hc : r.stack.Coherent) (h : job.table.Chain s k r.stack.path path) :
    ∃ last, job.Replays s k r last ∧ last.stack.path = path ∧ last.stack.Coherent := by
  induction k generalizing r with
  | zero =>
    cases h
    exact ⟨r, .nil r, rfl, hc⟩
  | succ k ih =>
    cases h with
    | cons hr h =>
      obtain ⟨state, hp, hn⟩ := performs_of_reducePath hc hr.reduced
      rw [← hn] at h
      obtain ⟨last, hl, hpath, hlc⟩ := ih (coherent_reduced hc) h
      refine ⟨last, .cons ?_ hr.production hp hl, hpath, hlc⟩
      rw [hc.action?_topState, hr.action]

/-- What a single reduction keeps, a replayed chain keeps. -/
theorem Replays.keeps {P : Run → Prop} (hstep : ∀ r p state, job.Performs r p state → P r →
    P (job.reduced r p state)) (h : job.Replays s k r last) (hr : P r) : P last := by
  induction h with
  | nil => exact hr
  | cons _ _ hp _ ih => exact ih (hstep _ _ _ hp hr)

end Job

end TableParsing
