import TableParsing.Proofs.Safety.Lexer
import TableParsing.Proofs.Safety.Simulation

/-!
# Safe parsing

The parser with the checks of a machine: each state and production that is looked up must be in the
table, each slice within the text, the children that a reduction numbers are counted in 16 bits, and
all else in words. Whatever the scanner proposes, no check fails on a loaded table, as long as the
size of the text fits a word and the reduction limit is not the greatest word. With that limit the
count of simulated reductions can leave its word.
-/
noncomputable section

namespace TableParsing

open GrammarTable

/-! ## Popping and numbering children -/

namespace Stack

/-- Pops until `real` has reached `count`. -/
def checkedPop (count real : Nat) : Stack → (popped : List Node) → Option (List Node × Stack)
  | [], popped => some (popped, [])
  | e :: s, popped =>
    if real < count then do
      let real ← if e.node.extra then some real else checkedAdd wordBound real 1
      checkedPop count real s (e.node :: popped)
    else some (popped, e :: s)

theorem checkedPop_eq {count real : Nat} (hreal : real ≤ count) (hcount : count < wordBound)
    (s : Stack) (popped : List Node) :
    checkedPop count real s popped = some (popChildren (count - real) s popped) := by
  induction s generalizing real popped with
  | nil => cases count - real <;> rfl
  | cons e s ih =>
    rw [checkedPop]
    split
    · rename_i hlt
      obtain ⟨left, hleft⟩ : ∃ left, count - real = left + 1 := ⟨count - real - 1, by omega⟩
      rw [hleft, popChildren]
      cases e.node.extra with
      | true =>
        simp only [ite_true, Option.bind_eq_bind, Option.bind_some]
        rw [ih hreal, hleft]
      | false =>
        have hadd : checkedAdd wordBound real 1 = some (real + 1) := checkedAdd_eq (by omega)
        have hrest : count - (real + 1) = left := by omega
        simp only [Bool.false_eq_true, ite_false, hadd, Option.bind_eq_bind, Option.bind_some]
        rw [ih (by omega), hrest]
    · rename_i hge
      have hzero : count - real = 0 := by omega
      rw [hzero, popChildren]

end Stack

namespace GrammarTable

variable {t : GrammarTable}

/-- The children that a field can be declared for are numbered in 16 bits. -/
def checkedChildren (t : GrammarTable) (p : Production) (index : Nat) :
    List Node → Option (List Node)
  | [] => some []
  | n :: rest => do
    if n.extra then some (n :: (← checkedChildren t p index rest))
    else
      let next ← checkedAdd shortBound index 1
      some (t.spliced (p.fieldFor index) n ++ (← checkedChildren t p next rest))

theorem checkedChildren_eq (t : GrammarTable) (p : Production) {index : Nat} {nodes : List Node}
    (h : index + nodes.countP (!·.extra) < shortBound) :
    t.checkedChildren p index nodes = some (t.collectChildren p index nodes) := by
  induction nodes generalizing index with
  | nil => rfl
  | cons n rest ih =>
    rw [checkedChildren, collectChildren]
    cases hx : n.extra with
    | true =>
      simp only [List.countP_cons, hx, Bool.not_true, Bool.false_eq_true, ite_false,
        Nat.add_zero] at h
      simp only [ite_true, ih h, Option.bind_eq_bind, Option.bind_some]
    | false =>
      simp only [List.countP_cons, hx, Bool.not_false, ite_true] at h
      have hadd : checkedAdd shortBound index 1 = some (index + 1) := checkedAdd_eq (by omega)
      simp only [Bool.false_eq_true, ite_false, hadd, Option.bind_eq_bind, Option.bind_some]
      rw [ih (by omega), Option.bind_some]

end GrammarTable

/-! ## The checked parser -/

namespace Job

variable (job : Job)

def checkedCurrent (r : Run) : Option (Option Action) :=
  job.table.checkedAction r.stack.topState r.lookahead.symbol

def checkedPhase (r : Run) : Option Phase := do
  match ← job.checkedCurrent r with
  | some (.shift _) => some .shifting
  | some (.reduce _) => some .reducing
  | some .accept => some .accepting
  | none => some .recovering

def checkedViable (path : List StateId) (s : Symbol) : Option Bool := do
  let found ← job.table.checkedSimulate s job.options.reductionLimit path
  some found.isSome

def checkedDispatch (r : Run) : Option Phase := do
  match ← job.checkedCurrent r with
  | some (.reduce _) =>
    let viable ← job.checkedViable r.stack.path r.lookahead.symbol
    some (if viable then .reducing else .recovering)
  | _ => job.checkedPhase r

def checkedNext (r : Run) : Option Lexeme := do
  let st ← job.table.state? r.stack.topState
  let valid := job.table.externalTokens.map fun s => (st.action? s).isSome
  job.grammar.checkedLexeme job.text valid r.position

def checkedScanBody (r : Run) : Option (Run ⊕ Run) := do
  match ← job.checkedNext r with
  | .endOfText => some (.inr { r with lookahead := ⟨Symbol.endOfInput, Span.empty job.text.size⟩ })
  | .token token =>
    if job.table.isExtra token.symbol then some (.inl (r.pushExtra (job.leaf token)))
    else some (.inr { r with lookahead := token })
  | .unlexable span =>
    let bytes ← job.text.checkedSlice span
    some (.inl ((r.report (.unrecognized bytes span)).pushExtra (Node.error span [])))

def checkedScan (r : Run) : Option Run := loop job.checkedScanBody r

def checkedShift (r : Run) : Option Run := do
  match ← job.checkedCurrent r with
  | some (.shift next) =>
    if r.lookahead.symbol = Symbol.endOfInput then
      some { r.report (.unexpectedEnd r.lookahead.span) with phase := .gaveUp }
    else
      some { r.advance r.lookahead.span.stop with
        stack := r.stack.shift next (job.leaf r.lookahead)
        phase := .scanning }
  | _ => some { r with phase := .recovering }

/-- The goto is looked up in the state below the children, which must be in the table too. -/
def checkedReduce (r : Run) (pid : ProductionId) : Option (Bool × Run) := do
  let p ← job.table.production? pid
  let (trailing, s) := r.stack.popExtras
  let (popped, s) ← Stack.checkedPop p.childCount.toNat 0 s []
  let children ← job.table.checkedChildren p 0 popped
  let span := coveringSpan (Stack.endOffset s) children
  let node := Node.branch p.lhs span (job.table.isNamed p.lhs) children
  match ← job.table.checkedGoto (Stack.topState s) p.lhs with
  | some next =>
    some (true, { r with
      stack := Stack.pushExtras (Stack.shift s next node) trailing
      mergeSkips := false })
  | none =>
    some (false, { r with
      stack := Stack.pushExtras (Stack.pushExtra s (Node.error span [node])) trailing
      mergeSkips := false })

def checkedReduceStep (r : Run) : Option Run := do
  match ← job.checkedCurrent r with
  | some (.reduce pid) =>
    let (done, r) ← job.checkedReduce r pid
    let phase ← if done then job.checkedPhase r else some .recovering
    some { r with phase := phase }
  | _ =>
    let phase ← job.checkedDispatch r
    some { r with phase := phase }

/-- A candidate is simulated first, and then the lookahead behind it. -/
def checkedAdmissible (path : List StateId) (lookahead s : Symbol) : Option Bool :=
  if s = Symbol.endOfInput || job.table.isExtra s || job.table.isExternal s then some false
  else do
    match ← job.table.checkedSimulate s job.options.reductionLimit path with
    | some (.shift next, path) => job.checkedViable (next :: path) lookahead
    | _ => some false

/-- Candidates are tried one by one, up to the first that is admissible or fails a check. -/
def checkedCandidate (r : Run) : Option (Option Symbol) :=
  match r.stack.path with
  | [] => some none
  | top :: below => do
    let st ← job.table.state? top
    st.validTerminals.findM? (job.checkedAdmissible (top :: below) r.lookahead.symbol)

def checkedSupplyBody (s : Symbol) (r : Run) : Option (Run ⊕ Run) := do
  match ← job.table.checkedAction r.stack.topState s with
  | some (.reduce pid) =>
    let (done, r) ← job.checkedReduce r pid
    if done then some (.inl r) else some (.inr r)
  | some (.shift next) =>
    some (.inr { r with
      stack := r.stack.shift next (Node.supplied s r.lastEnd (job.table.isNamed s)) })
  | _ => some (.inr r)

def checkedSupply (s : Symbol) (r : Run) : Option Run := loop (job.checkedSupplyBody s) r

def checkedInsert (s : Symbol) (r : Run) : Option Run := do
  let r ← job.checkedSupply s r
  some { r.report (.absent (job.table.displayName s) r.lastEnd) with mergeSkips := false }

end Job

def Stack.checkedSplit (p : List StateId → Option Bool) (removed : List Entry) :
    Stack → Option (Option (List Entry × Stack))
  | [] => some none
  | e :: s => do
    if ← p (path s) then some (some (e :: removed, s)) else checkedSplit p (e :: removed) s

namespace Job

variable (job : Job)

def checkedAtEnd (r : Run) : Option Run := do
  match ← Stack.checkedSplit (job.checkedViable · Symbol.endOfInput) [] r.stack with
  | some (removed, s) =>
    let nodes := removed.map (·.node)
    let span := coveringSpan (Stack.endOffset s) nodes
    let r := { r.report (.unexpectedEnd span) with
      stack := Stack.pushExtra s (Node.error span nodes) }
    let phase ← job.checkedPhase r
    some { r with phase := phase }
  | none => some { r.report (.unexpectedEnd (Span.empty job.text.size)) with phase := .gaveUp }

def checkedMissing (r : Run) : Option (Option Symbol) :=
  if job.options.insertMissing then job.checkedCandidate r else some none

def checkedRecover (r : Run) : Option Run := do
  match ← job.checkedMissing r with
  | some s =>
    let r ← job.checkedInsert s r
    let phase ← job.checkedPhase r
    some { r with phase := phase }
  | none =>
    if r.lookahead.symbol = Symbol.endOfInput then job.checkedAtEnd r
    else some (job.skipLookahead r)

def checkedStep (r : Run) : Option Run :=
  match r.phase with
  | .scanning => do
    let r ← job.checkedScan r
    let phase ← job.checkedDispatch r
    some { r with phase := phase }
  | .shifting => job.checkedShift r
  | .reducing => job.checkedReduceStep r
  | .recovering => job.checkedRecover r
  | .accepting | .gaveUp => some r

def checkedParseBody (r : Run) : Option (Run ⊕ Run) :=
  if r.phase.isFinal then some (.inr r)
  else do
    let r ← job.checkedStep r
    some (.inl r)

def checkedFinish : Option Run := loop job.checkedParseBody Run.initial

end Job

def Parser.checkedParse (p : Parser) (text : Text) : Option SyntaxTree := do
  let job := p.job text
  let r ← job.checkedFinish
  some ⟨job.assembleRoot r.phase r.stack.nodes, text, p.language, r.errors.reverse⟩

/-! ## No check fails -/

namespace Stack

variable {t : GrammarTable} {s rest : Stack} {n : Node} {q : StateId}

theorem holds_of_suffix (hs : rest <:+ s) (h : t.Holds s.path) : t.Holds rest.path := by
  rcases hs with ⟨front, rfl⟩
  induction front with
  | nil => exact h
  | cons e front ih =>
    apply ih
    intro q hq
    apply h q
    rw [List.cons_append, path]
    split
    · exact hq
    · exact List.mem_cons_of_mem _ hq

/-- The states of the stack are in the table. -/
structure Placed (t : GrammarTable) (s : Stack) : Prop where
  coherent : s.Coherent
  holds : t.Holds s.path

theorem Placed.top (h : s.Placed t) : ∃ st, t.state? s.topState = some st := by
  rcases h.coherent.path_eq with ⟨below, hp⟩
  apply h.holds
  rw [hp]
  exact List.mem_cons_self

theorem Placed.of_suffix (hs : rest <:+ s) (h : s.Placed t) : rest.Placed t :=
  ⟨h.coherent.of_suffix hs, holds_of_suffix hs h.holds⟩

theorem Placed.shift (h : s.Placed t) (hq : ∃ st, t.state? q = some st) (hn : n.extra = false) :
    (s.shift q n).Placed t := by
  refine ⟨h.coherent.shift q hn, ?_⟩
  rw [path_shift s q hn]
  exact List.forall_mem_cons.mpr ⟨hq, h.holds⟩

theorem Placed.pushExtra (h : s.Placed t) (n : Node) : (s.pushExtra n).Placed t := by
  refine ⟨h.coherent.pushExtra n, ?_⟩
  rw [path_pushExtra]
  exact h.holds

theorem Placed.pushExtras (h : s.Placed t) (extras : List Node) :
    (s.pushExtras extras).Placed t := by
  refine ⟨h.coherent.pushExtras extras, ?_⟩
  rw [path_pushExtras]
  exact h.holds

theorem checkedSplit_eq {p : List StateId → Option Bool} {holds : List StateId → Bool}
    (hp : ∀ path, t.Holds path → p path = some (holds path)) (h : t.Holds s.path)
    (removed : List Entry) : checkedSplit p removed s = some (splitWhere holds removed s) := by
  induction s generalizing removed with
  | nil => rfl
  | cons e s ih =>
    have hs : t.Holds (path s) := holds_of_suffix (List.suffix_cons e s) h
    rw [checkedSplit, splitWhere, hp _ hs]
    simp only [Option.bind_eq_bind, Option.bind_some]
    split
    · rfl
    · exact ih hs _

end Stack

namespace Job

variable {job : Job} {r last : Run} {s : Symbol} {pid : ProductionId} {p : Production}
  {state : StateId} {path : List StateId} {n : Nat}

/-- A loaded table, and a limit that is not the greatest word. -/
structure Bounded (job : Job) : Prop where
  loaded : job.table.fault? = none
  limit : job.options.reductionLimit + 1 < wordBound

/-- A text that fits words besides. -/
structure Fits (job : Job) : Prop extends Bounded job where
  text : job.text.size < wordBound

theorem Reachable.placed (hf : job.table.fault? = none) (h : job.Reachable r) :
    r.stack.Placed job.table :=
  ⟨h.steady.coherent, Spells.holds hf h.spelt⟩

theorem placed_reduced (hf : job.table.fault? = none) (h : r.stack.Placed job.table)
    (hp : job.Performs r p state) : (job.reduced r p state).stack.Placed job.table :=
  ((h.of_suffix (below_suffix r p)).shift (exists_state_goto hf hp.goto) rfl).pushExtras _

/-! ### Actions -/

theorem checkedCurrent_eq (h : r.stack.Placed job.table) :
    job.checkedCurrent r = some (job.currentAction? r) := checkedAction_eq h.top

theorem checkedPhase_eq (h : r.stack.Placed job.table) :
    job.checkedPhase r = some (job.phaseForLookahead r) := by
  rw [checkedPhase, checkedCurrent_eq h, phaseForLookahead]
  cases job.currentAction? r with
  | none => rfl
  | some act => cases act <;> rfl

theorem checkedViable_eq (hj : job.Bounded) (h : job.table.Holds path) :
    job.checkedViable path s = some (job.isViable path s) := by
  rw [checkedViable, checkedSimulate_eq hj.loaded hj.limit h]
  rfl

theorem checkedViable_none (hf : job.table.fault? = none) (h : job.table.Holds path)
    (he : job.table.Endless s path) (hlimit : wordBound ≤ job.options.reductionLimit + 1) :
    job.checkedViable path s = none := by
  rw [checkedViable, he.checkedSimulate_none hf h hlimit]
  rfl

/-- The simulation that decides whether to reduce passes its checks under such a limit. -/
theorem checkedDispatch_eq (hj : job.Bounded) (h : r.stack.Placed job.table) :
    job.checkedDispatch r = some (job.dispatch r) := by
  rw [checkedDispatch, checkedCurrent_eq h, dispatch]
  cases ha : job.currentAction? r with
  | none => exact checkedPhase_eq h
  | some act =>
    cases act with
    | shift next => exact checkedPhase_eq h
    | accept => exact checkedPhase_eq h
    | reduce pid => simp only [checkedViable_eq hj h.holds, Option.bind_eq_bind, Option.bind_some]

/-! ### Scanning, shifting and reducing -/

theorem checkedNext_eq (hj : job.Fits) (h : r.stack.Placed job.table) :
    job.checkedNext r = some (job.nextLexeme r) := by
  rcases h.top with ⟨st, hst⟩
  have hvalid : job.validExternals r =
      job.table.externalTokens.map fun s => (st.action? s).isSome := by
    simp only [validExternals, action?, hst, Option.bind_some]
  rw [checkedNext, hst, nextLexeme, hvalid]
  exact Grammar.checkedLexeme_eq hj.loaded hj.text

theorem checkedScanBody_eq (hj : job.Fits) (h : r.stack.Placed job.table) :
    job.checkedScanBody r = some (job.scanBody r) := by
  rw [checkedScanBody, checkedNext_eq hj h, scanBody]
  cases hn : job.nextLexeme r with
  | endOfText => rfl
  | token token =>
    simp only [Option.bind_eq_bind, Option.bind_some]
    split <;> rfl
  | unlexable span =>
    have hb := Grammar.unlexable_bounds hn
    simp only [Text.checkedSlice_eq (Nat.le_of_lt hb.2.1) hb.2.2, Option.bind_eq_bind,
      Option.bind_some]

theorem placed_scanBody (h : r.stack.Placed job.table) (hr : job.scanBody r = .inl last) :
    last.stack.Placed job.table := by
  unfold scanBody at hr
  split at hr
  · cases hr
  · split at hr
    · cases hr
      exact h.pushExtra _
    · cases hr
  · cases hr
    exact h.pushExtra _

theorem checkedScan_eq (hj : job.Fits) (h : r.stack.Placed job.table) :
    job.checkedScan r = some (job.scan r) := by
  rcases job.scan_ends r with ⟨_, _, hends⟩
  exact hends.loop_eq (fun _ h => checkedScanBody_eq hj h) (fun _ _ h hr => placed_scanBody h hr) h

theorem checkedShift_eq (h : r.stack.Placed job.table) :
    job.checkedShift r = some (job.shift r) := by
  rw [checkedShift, checkedCurrent_eq h, shift]
  cases job.currentAction? r with
  | none => rfl
  | some act =>
    cases act with
    | shift next =>
      simp only [Option.bind_eq_bind, Option.bind_some]
      split <;> rfl
    | reduce pid => rfl
    | accept => rfl

/-- A reduction numbers no more children than its production has, which is a 16-bit number. -/
theorem checkedReduce_eq (h : r.stack.Placed job.table)
    (hprod : job.table.production? pid = some p) (hp : job.Performs r p state) :
    job.checkedReduce r pid = some (true, job.reduced r p state) := by
  have hcount : p.childCount.toNat < shortBound := p.childCount.toNat_lt
  have hpop := Stack.checkedPop_eq (Nat.zero_le p.childCount.toNat)
    (Nat.lt_trans hcount (by decide)) r.stack.popExtras.2 []
  have hchildren : job.table.checkedChildren p 0 (r.taken p) =
      some (job.table.collectChildren p 0 (r.taken p)) := by
    apply checkedChildren_eq
    rw [hp.complete, Nat.zero_add]
    exact hcount
  have hgoto := checkedGoto_eq (s := p.lhs) (h.of_suffix (below_suffix r p)).top
  rw [Nat.sub_zero] at hpop
  rw [hp.goto] at hgoto
  simp only [Run.taken] at hchildren
  simp only [Run.below] at hgoto
  simp only [checkedReduce, hprod, hpop, hchildren, hgoto, Option.bind_eq_bind, Option.bind_some]
  rfl

theorem checkedReduceStep_eq (hf : job.table.fault? = none) (hr : job.Reachable r)
    (hp : r.phase = .reducing) :
    job.checkedReduceStep r = some (job.reduceStep r) := by
  have h := hr.placed hf
  rcases hr.steady.reducing hp with ⟨pid, ha⟩
  rcases (hr.steady.onCourse (.inr (.inl hp))).reduceStep h.coherent ha with
    ⟨p, state, hprod, hperf, hstep, _⟩
  rw [checkedReduceStep, checkedCurrent_eq h, ha, hstep]
  simp only [checkedReduce_eq h hprod hperf, checkedPhase_eq (placed_reduced hf h hperf),
    Option.bind_eq_bind, Option.bind_some, ite_true, continued]

/-! ### Recovery -/

theorem checkedAdmissible_eq (hj : job.Bounded) (h : job.table.Holds path) (lookahead : Symbol) :
    job.checkedAdmissible path lookahead s = some (job.isAdmissible path lookahead s) := by
  rw [checkedAdmissible, isAdmissible]
  split
  · rfl
  · rw [checkedSimulate_eq hj.loaded hj.limit h]
    cases hs : job.table.simulate s job.options.reductionLimit path with
    | none => rfl
    | some found =>
      rcases found with ⟨_ | _ | _, last⟩
      · exact checkedViable_eq hj (h.simulate_shift hj.loaded hs)
      · rfl
      · rfl

theorem checkedCandidate_eq (hj : job.Bounded) (h : r.stack.Placed job.table) :
    job.checkedCandidate r = some (job.missingCandidate? r) := by
  rcases h.coherent.path_eq with ⟨below, hpath⟩
  rcases h.top with ⟨st, hst⟩
  have hadm : job.checkedAdmissible r.stack.path r.lookahead.symbol =
      fun s => pure (job.isAdmissible r.stack.path r.lookahead.symbol s) := by
    funext s
    exact checkedAdmissible_eq hj h.holds _
  rw [checkedCandidate, missingCandidate?, hst, hpath]
  simp only [hst, ← hpath, hadm, Option.bind_eq_bind, Option.bind_some, List.findM?_pure]
  rfl

/-- The reductions that supply a token follow a simulation, so nothing needs to count them. -/
theorem checkedSupply_eq (hf : job.table.fault? = none) (h : r.stack.Placed job.table)
    (hr : job.Replays s n r last)
    (ha : job.table.action? last.stack.topState s = some (.shift state)) :
    job.checkedSupply s r = some { last with
      stack := last.stack.shift state (Node.supplied s last.lastEnd (job.table.isNamed s)) } := by
  apply Gives.loop_eq
  induction hr with
  | nil r =>
    apply Gives.stop
    rw [checkedSupplyBody, checkedAction_eq h.top, ha]
    rfl
  | cons hact hprod hp _ ih =>
    apply Gives.again _ (ih (placed_reduced hf h hp) ha)
    rw [checkedSupplyBody, checkedAction_eq h.top, hact]
    simp only [checkedReduce_eq h hprod hp, Option.bind_eq_bind, Option.bind_some, ite_true]

theorem placed_of_replays (hf : job.table.fault? = none) (h : r.stack.Placed job.table)
    (hr : job.Replays s n r last) : last.stack.Placed job.table :=
  hr.keeps (fun _ _ _ hp h => placed_reduced hf h hp) h

/-- The supplied token leads to a state of the table. -/
theorem checkedInsert_eq (hf : job.table.fault? = none) (h : r.stack.Placed job.table)
    (hs : job.missingCandidate? r = some s) :
    job.checkedInsert s r = some (job.insertMissing s r) ∧
      (job.insertMissing s r).stack.Placed job.table := by
  rcases admissible_of_candidate hs with ⟨k, next, path, hadm⟩
  rcases hadm.supply h.coherent with ⟨last, hr, _, _, ha, hsup⟩
  rw [checkedInsert, checkedSupply_eq hf h hr ha, insertMissing, hsup]
  refine ⟨rfl, ?_⟩
  exact (placed_of_replays hf h hr).shift (exists_state_shift hf ha) rfl

theorem checkedAtEnd_eq (hj : job.Bounded) (h : r.stack.Placed job.table) :
    job.checkedAtEnd r = some (job.recoverAtEnd r) := by
  have hsplit := Stack.checkedSplit_eq (p := (job.checkedViable · Symbol.endOfInput))
    (fun path hpath => checkedViable_eq hj hpath) h.holds []
  rw [checkedAtEnd, recoverAtEnd, hsplit]
  cases hs : Stack.splitWhere (job.isViable · Symbol.endOfInput) [] r.stack with
  | none => rfl
  | some split =>
    rcases split with ⟨removed, rest⟩
    have hrest : Stack.Placed job.table rest := h.of_suffix (Stack.suffix_of_splitWhere hs)
    simp only [Option.bind_eq_bind, Option.bind_some]
    rw [checkedPhase_eq (hrest.pushExtra _), Option.bind_some]

theorem checkedRecover_eq (hj : job.Bounded) (h : r.stack.Placed job.table) :
    job.checkedRecover r = some (job.recover r) := by
  have hmissing : job.checkedMissing r =
      some (if job.options.insertMissing then job.missingCandidate? r else none) := by
    rw [checkedMissing, checkedCandidate_eq hj h]
    split <;> rfl
  rw [checkedRecover, recover, hmissing]
  cases hs : if job.options.insertMissing then job.missingCandidate? r else none with
  | none =>
    simp only [Option.bind_eq_bind, Option.bind_some, checkedAtEnd_eq hj h]
    split <;> rfl
  | some s =>
    have hcand : job.missingCandidate? r = some s := by
      split at hs
      · exact hs
      · cases hs
    rcases checkedInsert_eq hj.loaded h hcand with ⟨hinsert, hplaced⟩
    simp only [hinsert, checkedPhase_eq hplaced, Option.bind_eq_bind, Option.bind_some]

theorem checkedRecover_none (hi : job.options.insertMissing = true)
    (h : job.checkedCandidate r = none) : job.checkedRecover r = none := by
  rw [checkedRecover, checkedMissing, if_pos hi, h]
  rfl

/-- Recovery comes to an end on a machine. -/
theorem Reachable.checkedRecover_eq (hj : job.Bounded) (h : job.Reachable r)
    (hp : r.phase = .recovering) : job.checkedRecover r = some (job.step r) := by
  rw [Job.checkedRecover_eq hj (h.placed hj.loaded)]
  simp only [Job.step, hp]

/-! ### The whole parse -/

/-- No step of a parse fails a check. -/
theorem checkedStep_eq (hj : job.Fits) (hr : job.Reachable r) :
    job.checkedStep r = some (job.step r) := by
  have h := hr.placed hj.loaded
  rw [checkedStep]
  cases hp : r.phase with
  | scanning =>
    have hplaced := hr.step.placed hj.loaded
    rw [step_of_scanning hp] at hplaced ⊢
    have hdispatch := checkedDispatch_eq (r := job.scan r) hj.toBounded hplaced
    simp only [checkedScan_eq hj h, hdispatch, Option.bind_eq_bind, Option.bind_some]
  | shifting => simp only [checkedShift_eq h, step, hp]
  | reducing => simp only [checkedReduceStep_eq hj.loaded hr hp, step, hp]
  | recovering => simp only [checkedRecover_eq hj.toBounded h, step, hp]
  | accepting => simp only [step, hp]
  | gaveUp => simp only [step, hp]

theorem checkedFinish_eq (hj : job.Fits) : job.checkedFinish = some job.finish := by
  rcases (job.within_initial.ends Reachable.initial.steady).2 with ⟨_, _, hends⟩
  refine hends.loop_eq (P := job.Reachable) ?_ ?_ .initial
  · intro r hr
    rw [checkedParseBody, checkedStep_eq hj hr, parseBody]
    split <;> rfl
  · intro r r' hr hb
    unfold parseBody at hb
    split at hb
    · cases hb
    · cases hb
      exact hr.step

end Job

/-- No check of parsing or of lexing alone fails, whatever the table, the scanner, the text and the
options, up to what words can count. -/
theorem Parser.checkedParse_eq (p : Parser) (text : Text) (htext : text.size < wordBound)
    (hlimit : p.options.reductionLimit + 1 < wordBound) :
    p.checkedParse text = some (p.parse text) ∧
      p.language.grammar.checkedTokens text = some (p.language.tokens text) := by
  have hloaded : p.language.grammar.table.fault? = none := p.language.table_fault
  have hj : (p.job text).Fits := ⟨⟨hloaded, hlimit⟩, htext⟩
  refine ⟨?_, Grammar.checkedTokens_eq hloaded htext⟩
  rw [checkedParse, Job.checkedFinish_eq hj]
  rfl

/-- The word of one letter is parsed without a failing check. -/
theorem Word.checkedParse_letter : (#[0x61] : Text).size < wordBound ∧
    Word.parser.options.reductionLimit + 1 < wordBound ∧
      Word.parser.checkedParse #[0x61] = some (Word.parser.parse #[0x61]) := by
  have htext : (#[0x61] : Text).size < wordBound := by decide
  have hlimit : Word.parser.options.reductionLimit + 1 < wordBound := by decide
  exact ⟨htext, hlimit, (Parser.checkedParse_eq Word.parser #[0x61] htext hlimit).1⟩

/-! ## The greatest limit

The count of reductions has to go one beyond the limit to be found above it, and beyond the greatest
word it cannot go.
-/

namespace Cycle

theorem table_fault : table.fault? = none := language.table_fault

theorem holds_start : table.Holds [0] := List.forall_mem_singleton.mpr ⟨_, rfl⟩

theorem checkedDispatch_none : job.checkedDispatch Run.initial = none := by
  have hviable : job.checkedViable Run.initial.stack.path Run.initial.lookahead.symbol = none :=
    Job.checkedViable_none table_fault holds_start endless (Nat.le_refl wordBound)
  have hcurrent : job.checkedCurrent Run.initial = some (some (.reduce 0)) := rfl
  rw [Job.checkedDispatch, hcurrent]
  simp only [hviable, Option.bind_eq_bind, Option.bind_some, Option.bind_none]

/-- With the greatest word as its limit, the parse of the empty text counts beyond a word. -/
theorem checkedParse_cycle : (#[] : Text).size < wordBound ∧
    parser.options.reductionLimit < wordBound ∧
      Fails (table.checkedSimulateBody Symbol.endOfInput parser.options.reductionLimit) (0, [0]) ∧
        Fails job.checkedParseBody Run.initial ∧ parser.checkedParse #[] = none := by
  have hnext : job.checkedNext Run.initial = some .endOfText := by
    change language.grammar.checkedLexeme #[] [] 0 = some .endOfText
    rw [Grammar.checkedLexeme_eq table_fault (by decide),
      Grammar.lexemeAt_of_size_le (Nat.zero_le _)]
  have hscan : job.checkedScan Run.initial = some Run.initial := by
    apply Gives.loop_eq
    apply Gives.stop
    rw [Job.checkedScanBody, hnext]
    rfl
  have hstep : job.checkedStep Run.initial = none := by
    change (job.checkedScan Run.initial).bind _ = none
    simp only [hscan, checkedDispatch_none, Option.bind_eq_bind, Option.bind_some, Option.bind_none]
  have hfails : Fails job.checkedParseBody Run.initial := by
    apply Fails.stop
    rw [Job.checkedParseBody, hstep]
    rfl
  have hcount := endless.fails table_fault holds_start (Nat.le_refl wordBound)
  refine ⟨by decide, by decide, hcount, hfails, ?_⟩
  simp only [Parser.checkedParse, Job.checkedFinish, hfails.loop_eq, Option.bind_eq_bind,
    Option.bind_none]

end Cycle

end TableParsing

end
