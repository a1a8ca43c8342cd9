import TableParsing.Proofs.Agreement
import TableParsing.Proofs.ReductionCounts

/-!
# Every parse ends

The loops of a parse carry no counter of their own, except the simulation. Scanning ends because
every lexeme but the end has bytes; reducing and supplying end because a simulation has found the
way before; and each token passes at most one recovery. The counter of a simulation is a word, so
the limit must not be the greatest word: a cycle of reductions would then have no end.
-/
namespace TableParsing

/-! ## Loops of the lexer -/

namespace GrammarTable

variable (t : GrammarTable) (text : Text) (dead : DeadEnds) (start : Nat)

def runLexerBody : Nat × LexStateId × LexRun → (Nat × LexStateId × LexRun) ⊕ LexRun :=
  fun (pos, state, run) =>
    if dead.contains (pos, state) then .inr run
    else
      let run := ⟨(t.matchAt start pos state).or run.best, (pos, state) :: run.visited⟩
      match t.lexStep text pos state with
      | none => .inr run
      | some next => .inl (pos + 1, next, run)

theorem runLexer_ends (pos : Nat) (state : LexStateId) (run : LexRun) :
    ∃ n ≤ text.size - pos + 1, Ends (t.runLexerBody text dead start) n (pos, state, run)
      (t.runLexer text dead start pos state run) := by
  fun_induction runLexer t text dead start pos state run with
  | case1 pos state run hd => exact ⟨1, by omega, .stop (by simp [runLexerBody, hd])⟩
  | case2 pos state run hd run' hs => exact ⟨1, by omega, .stop (by simp [runLexerBody, hd, hs, run'])⟩
  | case3 pos state run hd run' next hs ih =>
    obtain ⟨n, hn, he⟩ := ih
    have hlt := lexStep_lt hs
    exact ⟨n + 1, by omega, .again (by simp [runLexerBody, hd, hs, run']) he⟩

end GrammarTable

namespace Grammar

variable (g : Grammar) (text : Text) (valid : List Bool)

def skipBody (pos : Nat) : Nat ⊕ Nat :=
  if h : pos < text.size then
    if g.table.isSeparator text[pos] then .inl (pos + 1) else .inr pos
  else .inr pos

theorem skipSeparators_ends (pos : Nat) :
    ∃ n ≤ text.size - pos + 1, Ends (g.skipBody text) n pos (g.skipSeparators text pos) := by
  fun_induction skipSeparators g text pos with
  | case1 pos hlt hsep ih =>
    obtain ⟨n, hn, he⟩ := ih
    exact ⟨n + 1, by omega, .again (by simp [skipBody, hlt, hsep]) he⟩
  | case2 pos hlt hsep => exact ⟨1, by omega, .stop (by simp [skipBody, hlt, hsep])⟩
  | case3 pos hlt => exact ⟨1, by omega, .stop (by simp [skipBody, hlt])⟩

def unlexableBody : Nat × DeadEnds → (Nat × DeadEnds) ⊕ Nat := fun (stop, dead) =>
  if h : stop < text.size then
    if g.table.isSeparator text[stop] then .inr stop
    else
      match g.table.longestMatch text stop dead with
      | (some _, _) => .inr stop
      | (none, dead) =>
        if (g.scanExternal text stop valid).isSome then .inr stop else .inl (stop + 1, dead)
  else .inr stop

theorem unlexableEnd_ends (stop : Nat) (dead : DeadEnds) :
    ∃ n ≤ text.size - stop + 1,
      Ends (g.unlexableBody text valid) n (stop, dead) (g.unlexableEnd text valid stop dead) := by
  fun_induction unlexableEnd g text valid stop dead with
  | case1 stop dead hlt hsep => exact ⟨1, by omega, .stop (by simp [unlexableBody, hlt, hsep])⟩
  | case2 stop dead hlt hsep m dead' hm =>
    exact ⟨1, by omega, .stop (by simp [unlexableBody, hlt, hsep, hm])⟩
  | case3 stop dead hlt hsep dead' hm hx =>
    exact ⟨1, by omega, .stop (by simp [unlexableBody, hlt, hsep, hm, hx])⟩
  | case4 stop dead hlt hsep dead' hm hx ih =>
    obtain ⟨n, hn, he⟩ := ih
    exact ⟨n + 1, by omega, .again (by simp [unlexableBody, hlt, hsep, hm, hx]) he⟩
  | case5 stop dead hlt => exact ⟨1, by omega, .stop (by simp [unlexableBody, hlt])⟩

/-- The loop over a whole text; the tokens found so far are newest first. -/
def tokensBody : Nat × List Token → (Nat × List Token) ⊕ List Token := fun (pos, tokens) =>
  match g.lexemeAt text g.allValid pos with
  | .token token => .inl (token.span.stop, token :: tokens)
  | .unlexable span => .inl (span.stop, ⟨Symbol.error, span⟩ :: tokens)
  | .endOfText => .inr tokens.reverse

theorem tokensFrom_ends (pos : Nat) (tokens : List Token) :
    ∃ n ≤ text.size - pos + 1,
      Ends (g.tokensBody text) n (pos, tokens) (tokens.reverse ++ g.tokensFrom text pos) := by
  induction pos using tokens_induction g text generalizing tokens with
  | token pos token hl ih =>
    have := token_bounds hl
    obtain ⟨n, hn, he⟩ := ih (token :: tokens)
    rw [List.reverse_cons, List.append_assoc, List.singleton_append, ← tokensFrom_token hl] at he
    exact ⟨n + 1, by omega, .again (by simp only [tokensBody, hl]) he⟩
  | unlexable pos span hl ih =>
    have := unlexable_bounds hl
    obtain ⟨n, hn, he⟩ := ih (⟨Symbol.error, span⟩ :: tokens)
    rw [List.reverse_cons, List.append_assoc, List.singleton_append,
      ← tokensFrom_unlexable hl] at he
    exact ⟨n + 1, by omega, .again (by simp only [tokensBody, hl]) he⟩
  | endOfText pos hl =>
    rw [tokensFrom_endOfText hl, List.append_nil]
    exact ⟨1, by omega, .stop (by simp only [tokensBody, hl])⟩

end Grammar

/-! ## Loops of the parser -/

namespace Job

variable {job : Job} {r r' : Run} {s : Symbol} {k n limit : Nat}

def scanBody (job : Job) (r : Run) : Run ⊕ Run :=
  match job.nextLexeme r with
  | .endOfText => .inr { r with lookahead := ⟨Symbol.endOfInput, Span.empty job.text.size⟩ }
  | .token token =>
    if job.table.isExtra token.symbol then .inl (r.pushExtra (job.leaf token))
    else .inr { r with lookahead := token }
  | .unlexable span =>
    .inl ((r.report (.unrecognized (job.text.slice span) span)).pushExtra (Node.error span []))

theorem scan_ends (job : Job) (r : Run) :
    ∃ n ≤ job.text.size - r.position + 1, Ends job.scanBody n r (job.scan r) := by
  fun_induction Job.scan job r with
  | case1 r hn => exact ⟨1, by omega, .stop (by simp only [scanBody, hn])⟩
  | case2 r token hn hx ih =>
    have := Grammar.token_bounds hn
    obtain ⟨n, hle, he⟩ := ih
    simp only [Run.pushExtra, Run.advance, leaf, Node.leaf, Node.branch] at hle
    exact ⟨n + 1, by omega, .again (by simp only [scanBody, hn, hx, ite_true]) he⟩
  | case3 r token hn hx =>
    exact ⟨1, by omega, .stop (by simp only [scanBody, hn, hx, Bool.false_eq_true, ite_false])⟩
  | case4 r span hn ih =>
    have := Grammar.unlexable_bounds hn
    obtain ⟨n, hle, he⟩ := ih
    simp only [Run.pushExtra, Run.advance, Node.error, Run.report] at hle
    exact ⟨n + 1, by omega, .again (by simp only [scanBody, hn]) he⟩

/-- A round of supplying `s`; nothing counts the reductions. -/
def supplyBody (job : Job) (s : Symbol) (r : Run) : Run ⊕ Run :=
  match job.table.action? r.stack.topState s with
  | some (.reduce id) =>
    let (done, r) := job.reduce r ((job.table.production? id).getD default)
    if done then .inl r else .inr r
  | some (.shift next) =>
    .inr { r with
      stack := r.stack.shift next (Node.supplied s r.lastEnd (job.table.isNamed s)) }
  | _ => .inr r

theorem supply_ends (h : job.Supplying s limit r) :
    ∃ n ≤ limit + 1, Ends (job.supplyBody s) n r (job.supply s limit r) := by
  fun_induction Job.supply job s limit r with
  | case1 r id ha => exact absurd (h.performs ha).1 (Nat.lt_irrefl 0)
  | case2 r id ha limit r' hr ih =>
    obtain ⟨n, hle, he⟩ := ih (h.next ha hr)
    exact ⟨n + 1, by omega, .again (by simp only [supplyBody, ha, hr, ite_true]) he⟩
  | case3 r id ha limit done r' hr hd =>
    exact ⟨1, by omega, .stop (by simp only [supplyBody, ha, hr, hd, Bool.false_eq_true, ite_false])⟩
  | case4 limit r next ha => exact ⟨1, by omega, .stop (by simp only [supplyBody, ha])⟩
  | case5 limit r hred hsh =>
    refine ⟨1, by omega, .stop ?_⟩
    unfold supplyBody
    split
    · rename_i id ha
      exact absurd ha (hred id)
    · rename_i next ha
      exact absurd ha (hsh next)
    · rfl

/-! ## The loop over the phases -/

/-- A round of the whole parse. -/
def parseBody (job : Job) (r : Run) : Run ⊕ Run :=
  if r.phase.isFinal then .inr r else .inl (job.step r)

/-- Steps that the text behind the lookahead may still take. -/
def stepsBehind (job : Job) (r : Run) : Nat :=
  if r.lookahead.symbol = Symbol.endOfInput then 0
  else (job.text.size - r.lookahead.span.stop + 1) * (job.options.reductionLimit + 3)

/-- `n` steps are enough for the rest of the parse. -/
def Within (job : Job) (n : Nat) (r : Run) : Prop :=
  match r.phase with
  | .scanning => (job.text.size - r.position + 1) * (job.options.reductionLimit + 3) ≤ n
  | .recovering => job.stepsBehind r + job.options.reductionLimit + 2 ≤ n
  | .reducing =>
    ∃ k, job.table.ViableIn r.lookahead.symbol k r.stack.path ∧ job.stepsBehind r + k + 1 ≤ n
  | .shifting => job.stepsBehind r + 1 ≤ n
  | .accepting | .gaveUp => True

/-- A run on course needs no more steps than the reduction limit allows. -/
theorem OnCourse.within (h : job.OnCourse r) (hc : r.stack.Coherent)
    (hn : job.stepsBehind r + job.options.reductionLimit + 1 ≤ n) : job.Within n r := by
  obtain ⟨_, hp, _⟩ | ⟨_, hp, _⟩ | ⟨hp, _⟩ := h.cases hc
  · simp only [Within, hp]
    omega
  · obtain ⟨k, hk, hv⟩ := h.viable
    simp only [Within, hp]
    exact ⟨k, hv, by omega⟩
  · simp only [Within, hp]

theorem stepsBehind_le {pos : Nat} (h : pos < r.lookahead.span.stop)
    (hs : r.lookahead.span.stop ≤ job.text.size) :
    job.stepsBehind r + (job.options.reductionLimit + 3) ≤
      (job.text.size - pos + 1) * (job.options.reductionLimit + 3) := by
  have hle : job.stepsBehind r ≤
      (job.text.size - r.lookahead.span.stop + 1) * (job.options.reductionLimit + 3) := by
    unfold stepsBehind
    split
    · exact Nat.zero_le _
    · exact Nat.le_refl _
  have hmul := Nat.mul_le_mul_right (job.options.reductionLimit + 3)
    (show job.text.size - r.lookahead.span.stop + 1 + 1 ≤ job.text.size - pos + 1 by omega)
  rw [Nat.add_mul _ 1, Nat.one_mul] at hmul
  omega

/-- A scan leaves the bytes of its lookahead behind. -/
theorem stepsBehind_scan (job : Job) (r : Run) :
    job.stepsBehind (job.scan r) + (job.options.reductionLimit + 3) ≤
      (job.text.size - r.position + 1) * (job.options.reductionLimit + 3) := by
  have extra (r' : Run) (token : Token) (hn : job.nextLexeme r' = .token token)
      (_ : job.table.isExtra token.symbol = true) (h : r.position ≤ r'.position) :
      r.position ≤ (r'.pushExtra (job.leaf token)).position := by
    have hb := Grammar.token_bounds hn
    simp only [Run.pushExtra, Run.advance, leaf, Node.leaf, Node.branch]
    omega
  have unlexable (r' : Run) (span : Span) (hn : job.nextLexeme r' = .unlexable span)
      (h : r.position ≤ r'.position) : r.position ≤ ((r'.report
        (.unrecognized (job.text.slice span) span)).pushExtra (Node.error span [])).position := by
    have hb := Grammar.unlexable_bounds hn
    simp only [Run.pushExtra, Run.advance, Node.error]
    omega
  obtain ⟨r', hr, ⟨_, hs⟩ | ⟨token, hn, _, hs⟩⟩ :=
    job.scan_cases (P := fun r' => r.position ≤ r'.position) extra unlexable (Nat.le_refl r.position)
  · rw [hs, stepsBehind, if_pos rfl, Nat.zero_add]
    exact Nat.le_mul_of_pos_left _ (Nat.succ_pos _)
  · rw [hs]
    have hb := Grammar.token_bounds hn
    exact stepsBehind_le (r := { r' with lookahead := token }) (by simp only; omega) hb.2.2

theorem stepsBehind_congr (h : r'.lookahead = r.lookahead) :
    job.stepsBehind r' = job.stepsBehind r := by
  simp only [stepsBehind, h]

theorem Steps.within (hst : job.Steady r) (hs : job.Steps r r') (hf : r.phase.isFinal = false)
    (h : job.Within n r) : ∃ m, n = m + 1 ∧ job.Within m r' := by
  have hst' := hs.steady hst
  cases hs with
  | scanned hp =>
    simp only [Within, hp] at h
    have hsc := job.stepsBehind_scan r
    refine ⟨n - 1, by omega, ?_⟩
    by_cases hd : job.dispatch (job.scan r) = .recovering
    · simp only [Within, hd]
      change job.stepsBehind (job.scan r) + _ + 2 ≤ _
      omega
    · refine (dispatch_course (job.scan_coherent hst.coherent) hd).within hst'.coherent ?_
      change job.stepsBehind (job.scan r) + _ + 1 ≤ _
      omega
  | shifted hp ha hl =>
    simp only [Within, hp, stepsBehind, if_neg hl] at h
    refine ⟨n - 1, by omega, ?_⟩
    simp only [Within, Run.advance]
    omega
  | shiftedEnd hp =>
    simp only [Within, hp] at h
    exact ⟨n - 1, by omega, trivial⟩
  | reduced hp ha hprod hperf ho =>
    simp only [Within, hp] at h
    obtain ⟨k, hv, hn⟩ := h
    rw [job.currentAction?_eq hst.coherent] at ha
    obtain ⟨k, q, next, rfl, hr, hv⟩ := hv.reduce ha
    rw [hr.production] at hprod
    cases hprod
    refine ⟨n - 1, by omega, ?_⟩
    rw [← hperf.path_eq hst.coherent hr.reduced] at hv
    obtain ⟨_, hq, _⟩ | ⟨_, hq, _⟩ | ⟨hq, _⟩ := ho.cases hst'.coherent
    · simp only [Within, hq]
      change job.stepsBehind r + 1 ≤ _
      omega
    · simp only [Within, hq]
      refine ⟨k, hv, ?_⟩
      change job.stepsBehind r + k + 1 ≤ _
      omega
    · simp only [Within, hq]
  | recovered hp hr =>
    simp only [Within, hp] at h
    refine ⟨n - 1, by omega, ?_⟩
    cases hr with
    -- In recovery the steps for a whole chain are held in reserve; on course they may be spent.
    | @supplied s _ next _ last _ _ ha hr hpath _ =>
      have hb : job.stepsBehind (job.supplied last s next) = job.stepsBehind r :=
        stepsBehind_congr hr.fields.1
      exact (supplied_course ha hr hpath).within hst'.coherent (by omega)
    | wrapped _ hl hs =>
      refine (wrapped_course hl hs).within hst'.coherent ?_
      change job.stepsBehind r + _ + 1 ≤ _
      omega
    | gaveUp => trivial
    | skipped _ hl =>
      rw [stepsBehind, if_neg hl] at h
      change (job.text.size - r.lookahead.span.stop + 1) * _ ≤ _
      omega
  | ended hp =>
    rw [hf] at hp
    cases hp

/-- Enough steps lead to the end, and the loop without a counter takes no other way. -/
theorem Within.ends (hst : job.Steady r) (h : job.Within n r) :
    (job.runFor n r).phase.isFinal = true ∧
      ∃ m ≤ n + 1, Ends job.parseBody m r (job.runFor n r) := by
  induction n generalizing r with
  | zero =>
    cases hf : r.phase.isFinal with
    | true => exact ⟨hf, 1, Nat.le_refl 1, .stop (by simp only [parseBody, hf, ite_true]; rfl)⟩
    | false =>
      obtain ⟨m, hm, _⟩ := hst.steps.within hst hf h
      omega
  | succ n ih =>
    cases hf : r.phase.isFinal with
    | true =>
      simp only [runFor, hf, ite_true]
      exact ⟨trivial, 1, by omega, .stop (by simp only [parseBody, hf, ite_true])⟩
    | false =>
      obtain ⟨m, hm, hw⟩ := hst.steps.within hst hf h
      obtain rfl : n = m := by omega
      obtain ⟨hfin, k, hk, he⟩ := ih (hst.steps.steady hst) hw
      simp only [runFor, hf, Bool.false_eq_true, ite_false]
      refine ⟨hfin, k + 1, by omega, .again ?_ he⟩
      simp only [parseBody, hf, Bool.false_eq_true, ite_false]

theorem within_initial (job : Job) : job.Within job.stepBound Run.initial :=
  Nat.le_refl _

theorem finish_final (job : Job) : job.finish.phase.isFinal = true :=
  (job.within_initial.ends Reachable.initial.steady).1

/-- The loop over the phases ends, without a counter of its own, by accepting or giving up; and so
does every loop inside it: scanning, supplying a missing token, simulating under the limit, looking
for the end of an unlexable run, listing the tokens, skipping separators and running the lexer. -/
theorem parse_ends (p : Parser) (text : Text) (hlimit : p.options.reductionLimit + 1 < wordBound) :
    let job := p.job text
    (∃ n ≤ job.stepBound + 1, Ends job.parseBody n Run.initial job.finish) ∧
    job.finish.phase.isFinal = true ∧
    (∀ r, ∃ n ≤ text.size - r.position + 1, Ends job.scanBody n r (job.scan r)) ∧
    (∀ s limit r, job.Supplying s limit r →
      ∃ n ≤ limit + 1, Ends (job.supplyBody s) n r (job.supply s limit r)) ∧
    (∀ s path, ∃ n ≤ job.options.reductionLimit + 1,
      Ends (job.table.simulateBody s job.options.reductionLimit) n (0, path)
        (job.table.simulate s job.options.reductionLimit path)) ∧
    (∀ valid stop dead, ∃ n ≤ text.size - stop + 1,
      Ends (job.grammar.unlexableBody text valid) n (stop, dead)
        (job.grammar.unlexableEnd text valid stop dead)) ∧
    (∃ n ≤ text.size + 1,
      Ends (job.grammar.tokensBody text) n (0, []) (p.language.tokens text)) ∧
    (∀ pos, ∃ n ≤ text.size - pos + 1,
      Ends (job.grammar.skipBody text) n pos (job.grammar.skipSeparators text pos)) ∧
    (∀ dead start pos state run, ∃ n ≤ text.size - pos + 1,
      Ends (job.table.runLexerBody text dead start) n (pos, state, run)
        (job.table.runLexer text dead start pos state run)) := by
  intro job
  obtain ⟨hfin, hrun⟩ := (job.within_initial).ends Reachable.initial.steady
  exact ⟨hrun, hfin, job.scan_ends, fun s limit r h => supply_ends h,
    GrammarTable.simulate_ends hlimit, job.grammar.unlexableEnd_ends text,
    job.grammar.tokensFrom_ends text 0 [], job.grammar.skipSeparators_ends text,
    job.table.runLexer_ends text⟩

/-- The loop that supplies the word missing from the empty text. -/
theorem parse_ends_word :
    let job := Word.job
    Word.parser.options.reductionLimit + 1 < wordBound ∧
      job.Supplying Word.word job.options.reductionLimit Word.missing ∧
        ∃ n ≤ job.options.reductionLimit + 1, Ends (job.supplyBody Word.word) n Word.missing
          (job.supply Word.word job.options.reductionLimit Word.missing) := by
  intro job
  have hlimit : Word.parser.options.reductionLimit + 1 < wordBound := by decide
  have hs : job.Supplying Word.word job.options.reductionLimit Word.missing :=
    .start Word.missing_reachable rfl rfl rfl
  exact ⟨hlimit, hs, (parse_ends Word.parser #[] hlimit).2.2.2.1 _ _ _ hs⟩

end Job

/-! ## The greatest limit

An item may be reduced to an item without end. Only the limit stops that, and the greatest word as a
limit does not.
-/

namespace Cycle

def item : Symbol := ⟨1⟩

def table : GrammarTable :=
  { name := "cycle"
    version := newestVersion
    symbols := #[⟨"end", .terminal, false, false, false⟩, ⟨"item", .nonTerminal, true, true, false⟩]
    fields := #[]
    productions := #[Production.ofArity item 0, Production.ofArity item 1]
    states := #[(ParseState.empty.reduce [Symbol.endOfInput] 0).goto item 1,
      ParseState.empty.reduce [Symbol.endOfInput] 1, ParseState.empty.accept Symbol.endOfInput]
    lexStates := #[LexState.empty]
    separators := []
    wordToken := none
    keywords := []
    externalTokens := [] }

def language : Language := ⟨table.withoutScanner, by decide, by decide +kernel⟩

def parser : Parser := ⟨language, ⟨true, wordBound - 1⟩⟩

abbrev job : Job := parser.job #[]

theorem endless : table.Endless Symbol.endOfInput [0] := by
  have hitem : table.Reduces Symbol.endOfInput 0 (Production.ofArity item 0) [0] [1, 0] :=
    ⟨rfl, rfl, rfl⟩
  have hagain : table.Reduces Symbol.endOfInput 1 (Production.ofArity item 1) [1, 0] [1, 0] :=
    ⟨rfl, rfl, rfl⟩
  exact .of_reduces hitem (.of_self hagain)

/-- The empty text is scanned to its end. The reduction found there is to be simulated first, and
that loop does not end. -/
theorem simulation_never_ends : parser.options.reductionLimit + 1 = wordBound ∧
    ∃ n, Ends job.scanBody n Run.initial Run.initial ∧
      job.currentAction? Run.initial = some (.reduce 0) ∧
      ∀ n out, ¬Ends (job.table.simulateBody Run.initial.lookahead.symbol
        job.options.reductionLimit) n (0, Run.initial.stack.path) out := by
  have hn : job.nextLexeme Run.initial = .endOfText := Grammar.lexemeAt_of_size_le (Nat.zero_le _)
  refine ⟨rfl, 1, .stop ?_, rfl, fun n out => endless.not_ends (Nat.le_refl wordBound)⟩
  rw [Job.scanBody, hn]
  rfl

end Cycle

end TableParsing
