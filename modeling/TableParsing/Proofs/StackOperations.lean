import TableParsing.Proofs.Reachable

/-!
# What the operations on a stack keep

Extras are popped and pushed again above other states, and whole stretches of the stack are cut off.
Whatever operations have built a stack, in whatever order, its extras bear the state of the newest
real entry below them, and a reduction takes what its path says. Every stack of a run is built so.
-/
namespace TableParsing

namespace Stack

/-- The state of the newest real entry. -/
def realState (s : Stack) : StateId := (s.find? (!·.node.extra)).elim startState (·.state)

/-- The stacks that operations build from the empty one. -/
inductive Built : Stack → Prop
  | empty : Built []
  | shift {s : Stack} {n : Node} : Built s → (state : StateId) → n.extra = false →
      Built (s.shift state n)
  | pushExtra {s : Stack} : Built s → (n : Node) → Built (s.pushExtra n)
  | popExtras {s : Stack} : Built s → Built s.popExtras.2
  | popChildren {s : Stack} : Built s → (count : Nat) → Built (popChildren count s []).2
  | splitOff {s : Stack} {count : Nat} : Built s → count ≤ s.length → Built (s.splitOff count).2.2

variable {s rest : Stack} {e : Entry} {n : Node} {count : Nat} {popped : List Node}

theorem oldest_suffix (s : Stack) (count : Nat) : s.oldest count <:+ s := List.drop_suffix _ _

/-- Of a stack the entries below some of its newest are the oldest. -/
theorem oldest_length (h : rest <:+ s) : s.oldest rest.length = rest :=
  (List.suffix_iff_eq_drop.mp h).symm

theorem Built.coherent (h : Built s) : Coherent s := by
  induction h with
  | empty => trivial
  | shift _ state hn ih => exact ih.shift state hn
  | pushExtra _ n ih => exact ih.pushExtra n
  | popExtras _ ih => exact ih.of_suffix (popExtras_suffix _)
  | popChildren _ count ih => exact ih.of_suffix (popChildren_suffix _ _ _)
  | splitOff _ _ ih => exact ih.of_suffix (oldest_suffix _ _)

/-! ## The two views -/

theorem Coherent.topState_eq (h : Coherent s) : s.topState = s.realState := by
  induction s with
  | nil => rfl
  | cons e s ih =>
    obtain ⟨he, hs⟩ := h
    cases hx : e.node.extra with
    | true =>
      have hskip : realState (e :: s) = realState s := by simp [realState, hx]
      rw [hskip, ← ih hs]
      exact he hx
    | false => simp [realState, topState, hx]

theorem Coherent.state_eq {above below : Stack} (h : Coherent (above ++ e :: below))
    (hx : e.node.extra = true) : e.state = below.realState := by
  have hbelow : Coherent (e :: below) := h.of_suffix ⟨above, rfl⟩
  exact (hbelow.1 hx).trans hbelow.2.topState_eq

theorem path_suffix (h : rest <:+ s) : rest.path <:+ s.path := by
  obtain ⟨front, rfl⟩ := h
  induction front with
  | nil => exact List.suffix_rfl
  | cons e front ih =>
    rw [List.cons_append, path]
    split
    · exact ih
    · exact ih.trans (List.suffix_cons _ _)

/-- A path counts the start and the real entries. -/
theorem length_path (s : Stack) : s.path.length = s.countP (!·.node.extra) + 1 := by
  induction s with
  | nil => rfl
  | cons e s ih => cases hx : e.node.extra <;> simp [path, hx, ih]

/-! ## Taking children -/

/-- What a reduction of `count` children takes off a stack: the trailing extras and, below them, as
many real entries as there are children, with the extras between them. -/
structure Takes (s : Stack) (count : Nat) (trailing popped : List Node) (rest : Stack) : Prop where
  path : rest.path = s.path.drop count
  nodes : rest.nodes ++ popped ++ trailing = s.nodes
  trailing : ∀ n ∈ trailing, n.extra = true
  real : popped.countP (!·.extra) = count
  first : 0 < count → ∃ n, popped.head? = some n ∧ n.extra = false

theorem takes (h : count ≤ s.countP (!·.node.extra)) :
    s.Takes count s.popExtras.1 (popChildren count s.popExtras.2 []).1
      (popChildren count s.popExtras.2 []).2 := by
  have hlt : count < (path s.popExtras.2).length := by
    rw [path_popExtras, length_path]
    exact Nat.lt_succ_of_le h
  have hreal := countP_popChildren hlt []
  constructor
  case path => rw [path_popChildren hlt, path_popExtras]
  case nodes => rw [nodes_popChildren, List.append_nil, nodes_popExtras]
  case trailing => exact popExtras_extra s
  case real => simpa using hreal
  case first =>
    intro hpos
    have hfirst := popChildren_first (Nat.ne_of_gt hpos) hreal
    cases hhead : (popChildren count s.popExtras.2 []).1.head? with
    | some n => exact ⟨n, rfl, hfirst n hhead⟩
    | none =>
      rw [List.head?_eq_none_iff.mp hhead, List.countP_nil] at hreal
      omega

/-- However a stack was built, each of its extras bears the state of the newest real entry below it,
the newest entry bears the state that the path begins with, the path of the oldest entries ends the
path of all, and a reduction takes exactly as many states as children. Paths are newest first, down
to the start. -/
theorem Built.views_agree (h : Built s) :
    (∀ above e below, s = above ++ e :: below → e.node.extra = true →
      e.state = realState below) ∧
    s.path.head? = some s.topState ∧
    (∀ count ≤ s.length, s.pathBelow count <:+ s.path ∧
      (s.pathBelow count).length = (s.oldest count).countP (!·.node.extra) + 1) ∧
    ∀ count ≤ s.countP (!·.node.extra),
      s.Takes count s.popExtras.1 (Stack.popChildren count s.popExtras.2 []).1
        (Stack.popChildren count s.popExtras.2 []).2 := by
  refine ⟨?_, ?_, fun count _ => ?_, fun count hc => takes hc⟩
  · rintro above e below rfl hx
    exact h.coherent.state_eq hx
  · obtain ⟨below, hp⟩ := h.coherent.path_eq
    rw [hp, List.head?_cons]
  · exact ⟨path_suffix (oldest_suffix s count), length_path _⟩

/-- Three tokens, with an extra behind the second and one behind the third. -/
def twoExtras : Stack :=
  let token (start : Nat) : Node := Node.leaf ⟨1⟩ ⟨start, start + 1⟩ true
  let two : Stack := shift (shift [] 1 (token 0)) 2 (token 2)
  pushExtra (shift (two.pushExtra (token 4)) 3 (token 6)) (token 8)

theorem Built.views_agree_twoExtras :
    Built twoExtras ∧ twoExtras.path.head? = some 3 ∧ twoExtras.topState = 3 ∧
      twoExtras.pathBelow 3 = [2, 1, 0] ∧ [2, 1, 0] <:+ twoExtras.path ∧
      ∃ trailing popped rest, twoExtras.Takes 2 trailing popped rest ∧
        popped.map (·.span.start) = [2, 4, 6] ∧ rest.path = [1, 0] := by
  have hb : Built twoExtras := by
    refine .pushExtra (.shift (.pushExtra (.shift (.shift .empty 1 ?_) 2 ?_) _) 3 ?_) _ <;> rfl
  obtain ⟨_, htop, hbelow, htakes⟩ := hb.views_agree
  exact ⟨hb, htop, rfl, rfl, (hbelow 3 (by decide)).1, _, _, _, htakes 2 (by decide), rfl, rfl⟩

/-! ## The operations of the parser -/

theorem Built.pushExtras (h : Built s) (extras : List Node) : Built (s.pushExtras extras) := by
  induction extras generalizing s with
  | nil => exact h
  | cons n rest ih => exact ih (h.pushExtra n)

theorem Built.of_suffix (h : Built s) (hs : rest <:+ s) : Built rest := by
  have hrest := h.splitOff hs.length_le
  rwa [Stack.splitOff, oldest_length hs] at hrest

/-- The newest node may be exchanged for one of its kind. -/
theorem Built.exchange (h : Built (e :: s)) (hn : n.extra = e.node.extra) :
    Built ({ e with node := n } :: s) := by
  have hs : Built s := h.of_suffix (List.suffix_cons e s)
  cases hx : e.node.extra with
  | false => exact hs.shift e.state (hn.trans hx)
  | true =>
    have hstate : e.state = topState s := h.coherent.1 hx
    have hpush := hs.pushExtra n
    rwa [Stack.pushExtra, with_extra (hn.trans hx), ← hstate] at hpush

/-- A split that leaves a path with the property is made by cutting off the newest entries. -/
theorem splitOff_of_splitWhere {p : List StateId → Bool} {removed : List Entry}
    (h : splitWhere p [] s = some (removed, rest)) : rest.length < s.length ∧
      s.splitOff rest.length = (removed.map (·.node),
        coveringSpan (endOffset rest) (removed.map (·.node)), rest) := by
  obtain ⟨_, front, hne, rfl, rfl⟩ := splitWhere_eq_some h
  have hlen : (front ++ rest).length - rest.length = front.length := by simp
  have hpos := List.length_pos_iff.mpr hne
  refine ⟨by simp [hpos], ?_⟩
  simp [splitOff, oldest, nodes]

end Stack

namespace Job

variable {job : Job} {r r' : Run} {p : Production} {state : StateId}

theorem stack_built_reduced (h : r.stack.Built) : (job.reduced r p state).stack.Built :=
  ((h.popExtras.popChildren p.childCount.toNat).shift state rfl).pushExtras _

theorem Recovers.stack_built (hr : job.Recovers r r') (h : r.stack.Built) : r'.stack.Built := by
  cases hr with
  | @supplied _ _ next _ last _ _ _ hreplays =>
    have hlast : last.stack.Built :=
      hreplays.keeps (P := fun r => r.stack.Built) (fun _ _ _ _ h => stack_built_reduced h) h
    exact hlast.shift next rfl
  | wrapped _ _ hs =>
    obtain ⟨hlt, hsplit⟩ := Stack.splitOff_of_splitWhere hs
    have hrest := h.splitOff (Nat.le_of_lt hlt)
    rw [hsplit] at hrest
    exact hrest.pushExtra _
  | gaveUp => exact h
  | skipped =>
    unfold skipLookahead
    split
    · rename_i ho
      rw [(openSkip?_eq_some ho).1] at h
      exact h.exchange rfl
    · exact h.pushExtra _

theorem Steps.stack_built (hs : job.Steps r r') (h : r.stack.Built) : r'.stack.Built := by
  cases hs with
  | scanned =>
    obtain ⟨r', hb, ⟨_, hs⟩ | ⟨_, _, _, hs⟩⟩ := job.scan_cases (P := fun r => r.stack.Built)
      (fun _ _ _ _ h => h.pushExtra _) (fun _ _ _ h => h.pushExtra _) h <;>
    · rw [hs]
      exact hb
  | shifted => exact h.shift _ rfl
  | shiftedEnd => exact h
  | reduced => exact stack_built_reduced h
  | recovered _ hr => exact hr.stack_built h
  | ended => exact h

/-- A parse uses these operations only. -/
theorem Reachable.stack_built (h : job.Reachable r) : r.stack.Built := by
  induction h with
  | initial => exact .empty
  | step hr ih => exact hr.steps.stack_built ih

end Job

end TableParsing
