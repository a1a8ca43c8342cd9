import TableParsing.Proofs.Consistency
import TableParsing.Proofs.Safety.Machine

/-!
# Safe lexing

The lexer with the checks of a machine: every index must be in range, every slice within the text,
and every sum within a word. On a loaded table no check fails, and the tokens are those of the lexer
without checks.
-/
noncomputable section

namespace TableParsing

/-! ## Running the automaton -/

namespace GrammarTable

variable (t : GrammarTable) (text : Text)

/-- A round looks up its state, so the state has to be in the table, before any byte is read. -/
def checkedRunBody (dead : DeadEnds) (start : Nat) :
    Nat × LexStateId × LexRun → Option ((Nat × LexStateId × LexRun) ⊕ LexRun) :=
  fun (pos, state, run) =>
    if dead.contains (pos, state) then some (.inr run)
    else do
      let st ← t.lexState? state
      let found := if start < pos then st.accept.map fun s => ⟨s, pos⟩ else none
      let run : LexRun := ⟨found.or run.best, (pos, state) :: run.visited⟩
      match text[pos]? with
      | none => some (.inr run)
      | some b =>
        match st.next? b with
        | none => some (.inr run)
        | some next =>
          let pos ← checkedAdd wordBound pos 1
          some (.inl (pos, next, run))

def checkedRun (dead : DeadEnds) (start : Nat) : Option LexRun :=
  loop (t.checkedRunBody text dead start) (start, 0, ⟨none, []⟩)

def checkedMatch (start : Nat) (dead : DeadEnds) : Option (Option Match × DeadEnds) := do
  let run ← t.checkedRun text dead start
  match run.best with
  | some m => some (some m, dead)
  | none => some (none, dead.insertMany run.visited)

variable {t text} {dead : DeadEnds} {start pos : Nat} {state : LexStateId} {run : LexRun}

theorem exists_lexState_start (h : t.fault? = none) : ∃ st, t.lexState? 0 = some st := by
  rcases (wellFormed h).lexer.start with ⟨st, hst, _⟩
  exact ⟨st, hst⟩

/-- What a transition names is in the table, since the table was checked. -/
theorem exists_lexState_next (h : t.fault? = none) {st : LexState} {b : UInt8} {next : LexStateId}
    (hst : t.lexState? state = some st) (hn : st.next? b = some next) :
    ∃ st', t.lexState? next = some st' := by
  rcases Option.map_eq_some_iff.mp hn with ⟨entry, he, rfl⟩
  have hmem := Array.mem_of_getElem? hst
  have hlt := (wellFormed h).lexer.transitions st hmem _ _ (List.mem_of_find?_eq_some he)
  exact ⟨_, Array.getElem?_eq_getElem hlt.2⟩

theorem matchAt_of_state {st : LexState} (hst : t.lexState? state = some st) :
    t.matchAt start pos state = if start < pos then st.accept.map fun s => ⟨s, pos⟩ else none := by
  rw [matchAt, hst, Option.bind_some]

theorem lexStep_of_state {st : LexState} (hst : t.lexState? state = some st) :
    t.lexStep text pos state = text[pos]?.bind st.next? := by
  rw [lexStep, hst]
  rfl

theorem checkedRunBody_eq (htext : text.size < wordBound)
    (hstate : ∃ st, t.lexState? state = some st) :
    t.checkedRunBody text dead start (pos, state, run) =
      some (t.runLexerBody text dead start (pos, state, run)) := by
  rcases hstate with ⟨st, hst⟩
  simp only [checkedRunBody, runLexerBody, hst, lexStep_of_state hst, matchAt_of_state hst,
    Option.bind_eq_bind, Option.bind_some]
  split
  · rfl
  · cases hb : text[pos]? with
    | none => rfl
    | some b =>
      simp only [Option.bind_some]
      cases hn : st.next? b with
      | none => rfl
      | some next =>
        have hlt : pos < text.size := (Array.getElem?_eq_some_iff.mp hb).1
        have hadd : checkedAdd wordBound pos 1 = some (pos + 1) := checkedAdd_eq (by omega)
        simp only [hadd, Option.bind_some]

/-- The automaton only goes to states of the table. -/
theorem exists_lexState_round (h : t.fault? = none) {pos' : Nat} {state' : LexStateId}
    {run' : LexRun} (hstate : ∃ st, t.lexState? state = some st)
    (hr : t.runLexerBody text dead start (pos, state, run) = .inl (pos', state', run')) :
    ∃ st, t.lexState? state' = some st := by
  rcases hstate with ⟨st, hst⟩
  simp only [runLexerBody, lexStep_of_state hst] at hr
  split at hr
  · cases hr
  · split at hr
    · cases hr
    · rename_i next hn
      cases hr
      rcases Option.bind_eq_some_iff.mp hn with ⟨b, _, hn⟩
      exact exists_lexState_next h hst hn

theorem checkedRun_eq (h : t.fault? = none) (htext : text.size < wordBound) :
    t.checkedRun text dead start =
      some (t.runLexer text dead start start 0 ⟨none, []⟩) := by
  rcases t.runLexer_ends text dead start start 0 ⟨none, []⟩ with ⟨_, _, hends⟩
  exact hends.loop_eq (P := fun (_, state, _) => ∃ st, t.lexState? state = some st)
    (fun _ hstate => checkedRunBody_eq htext hstate)
    (fun _ _ hstate hr => exists_lexState_round h hstate hr) (exists_lexState_start h)

theorem checkedMatch_eq (h : t.fault? = none) (htext : text.size < wordBound) :
    t.checkedMatch text start dead = some (t.longestMatch text start dead) := by
  unfold checkedMatch longestMatch
  rw [checkedRun_eq h htext]
  simp only [Option.bind_eq_bind, Option.bind_some]
  split <;> simp_all

end GrammarTable

/-! ## Lexemes -/

namespace Grammar

variable (g : Grammar) (text : Text)

def checkedSkipBody (pos : Nat) : Option (Nat ⊕ Nat) :=
  if pos < text.size then do
    let b ← text[pos]?
    if g.table.isSeparator b then
      let pos ← checkedAdd wordBound pos 1
      some (.inl pos)
    else some (.inr pos)
  else some (.inr pos)

def checkedSkip (pos : Nat) : Option Nat := loop (g.checkedSkipBody text) pos

/-- Nothing is taken for granted of a proposal: one whose end does not fit a word is no token. -/
def checkedExternal (start : Nat) (valid : List Bool) : Option Token :=
  if valid.any id then do
    let scan ← g.scanner
    let proposal ← scan text start valid
    let stop ← checkedAdd wordBound start proposal.length
    if proposal.length = 0 ∨ text.size < stop ∨ valid[proposal.index]? ≠ some true then none
    else
      let s ← g.table.externalTokens[proposal.index]?
      some ⟨s, start, stop⟩
  else none

/-- The word is cut out of the text to be looked up among the keywords. -/
def checkedKeyword (s : Symbol) (span : Span) : Option Symbol :=
  if g.table.wordToken = some s then do
    let word ← text.checkedSlice span
    some ((g.table.keyword? word).getD s)
  else some s

/-- The end moves on by one byte as long as nothing can be lexed there. -/
def checkedUnlexableBody (valid : List Bool) : Nat × DeadEnds → Option ((Nat × DeadEnds) ⊕ Nat) :=
  fun (stop, dead) =>
    if stop < text.size then do
      let b ← text[stop]?
      if g.table.isSeparator b then some (.inr stop)
      else
        match ← g.table.checkedMatch text stop dead with
        | (some _, _) => some (.inr stop)
        | (none, dead) =>
          if (g.checkedExternal text stop valid).isSome then some (.inr stop)
          else
            let stop ← checkedAdd wordBound stop 1
            some (.inl (stop, dead))
    else some (.inr stop)

def checkedUnlexable (valid : List Bool) (stop : Nat) (dead : DeadEnds) : Option Nat :=
  loop (g.checkedUnlexableBody text valid) (stop, dead)

def checkedLexeme (valid : List Bool) (pos : Nat) : Option Lexeme := do
  let start ← g.checkedSkip text pos
  if text.size ≤ start then some .endOfText
  else
    match g.checkedExternal text start valid with
    | some token => some (.token token)
    | none =>
      match ← g.table.checkedMatch text start {} with
      | (some m, _) =>
        let s ← g.checkedKeyword text m.symbol ⟨start, m.stop⟩
        some (.token ⟨s, start, m.stop⟩)
      | (none, dead) =>
        let stop ← g.checkedUnlexable text valid (← checkedAdd wordBound start 1) dead
        some (.unlexable ⟨start, stop⟩)

def checkedTokensBody : Nat × List Token → Option ((Nat × List Token) ⊕ List Token) :=
  fun (pos, tokens) => do
    match ← g.checkedLexeme text g.allValid pos with
    | .token token => some (.inl (token.span.stop, token :: tokens))
    | .unlexable span => some (.inl (span.stop, ⟨Symbol.error, span⟩ :: tokens))
    | .endOfText => some (.inr tokens.reverse)

def checkedTokens : Option (List Token) := loop (g.checkedTokensBody text) (0, [])

variable {g text} {valid : List Bool} {dead : DeadEnds} {start pos stop : Nat}

theorem checkedSkip_eq (htext : text.size < wordBound) :
    g.checkedSkip text pos = some (g.skipSeparators text pos) := by
  have hbody (pos : Nat) : g.checkedSkipBody text pos = some (g.skipBody text pos) := by
    unfold checkedSkipBody skipBody
    split
    · rename_i hlt
      have hadd : checkedAdd wordBound pos 1 = some (pos + 1) := checkedAdd_eq (by omega)
      simp only [Array.getElem?_eq_getElem hlt, hadd, Option.bind_eq_bind, Option.bind_some]
      split <;> rfl
    · rfl
  rcases g.skipSeparators_ends text pos with ⟨_, _, hends⟩
  exact hends.loop_eq_of_forall hbody

/-- Within the text the sum fits, and beyond it the proposal is refused either way. -/
theorem checkedExternal_eq (htext : text.size < wordBound) :
    g.checkedExternal text start valid = g.scanExternal text start valid := by
  unfold checkedExternal scanExternal
  split
  · simp only [Option.bind_eq_bind]
    congr 1
    funext scan
    congr 1
    funext proposal
    split
    · rename_i hp
      have hadd : checkedAdd wordBound start proposal.length = some (start + proposal.length) :=
        checkedAdd_eq (by omega)
      have hout : ¬(proposal.length = 0 ∨ text.size < start + proposal.length ∨
          valid[proposal.index]? ≠ some true) := by
        simp only [not_or, not_not]
        exact ⟨hp.1, by omega, hp.2.2⟩
      rw [hadd, Option.bind_some, if_neg hout]
      cases g.table.externalTokens[proposal.index]? <;> rfl
    · rename_i hp
      unfold checkedAdd
      split
      · rw [Option.bind_some, if_pos (by
          by_contra hout
          simp only [not_or, not_not] at hout
          exact hp ⟨hout.1, by omega, hout.2.2⟩)]
      · rfl
  · rfl

theorem checkedKeyword_eq (g : Grammar) (s : Symbol) (span : Span) (h1 : span.start ≤ span.stop)
    (h2 : span.stop ≤ text.size) :
    g.checkedKeyword text s span = some (g.keywordOr text s span) := by
  unfold checkedKeyword keywordOr
  split
  · rw [Text.checkedSlice_eq h1 h2]
    rfl
  · rfl

theorem checkedUnlexable_eq (h : g.table.fault? = none) (htext : text.size < wordBound) :
    g.checkedUnlexable text valid stop dead = some (g.unlexableEnd text valid stop dead) := by
  have hbody (stop : Nat) (dead : DeadEnds) : g.checkedUnlexableBody text valid (stop, dead) =
      some (g.unlexableBody text valid (stop, dead)) := by
    simp only [checkedUnlexableBody, unlexableBody, GrammarTable.checkedMatch_eq h htext,
      checkedExternal_eq htext]
    split
    · rename_i hlt
      have hadd : checkedAdd wordBound stop 1 = some (stop + 1) := checkedAdd_eq (by omega)
      simp only [Array.getElem?_eq_getElem hlt, hadd, Option.bind_eq_bind, Option.bind_some]
      split
      · rfl
      · rcases g.table.longestMatch text stop dead with ⟨_ | m, dead'⟩
        · dsimp only
          split <;> rfl
        · rfl
    · rfl
  rcases g.unlexableEnd_ends text valid stop dead with ⟨_, _, hends⟩
  exact hends.loop_eq_of_forall fun s => hbody s.1 s.2

theorem checkedLexeme_eq (h : g.table.fault? = none) (htext : text.size < wordBound) :
    g.checkedLexeme text valid pos = some (g.lexemeAt text valid pos) := by
  unfold checkedLexeme lexemeAt
  simp only [checkedSkip_eq htext, checkedExternal_eq htext, GrammarTable.checkedMatch_eq h htext,
    Option.bind_eq_bind, Option.bind_some]
  split
  · rfl
  · rename_i hstart
    have hadd : checkedAdd wordBound (g.skipSeparators text pos) 1 =
        some (g.skipSeparators text pos + 1) := checkedAdd_eq (by omega)
    cases g.scanExternal text (g.skipSeparators text pos) valid with
    | some token => rfl
    | none =>
      rcases hm : g.table.longestMatch text (g.skipSeparators text pos) {} with ⟨_ | m, dead⟩
      · simp only [hadd, Option.bind_some, checkedUnlexable_eq h htext]
      · have hb := GrammarTable.longestMatch_stop (Nat.le_of_not_le hstart) (congrArg Prod.fst hm)
        have hkey := g.checkedKeyword_eq m.symbol ⟨g.skipSeparators text pos, m.stop⟩
          (Nat.le_of_lt hb.1) hb.2
        simp only [hkey, Option.bind_some]

/-- Lexing alone passes every check. -/
theorem checkedTokens_eq (h : g.table.fault? = none) (htext : text.size < wordBound) :
    g.checkedTokens text = some (g.tokensFrom text 0) := by
  have hbody (pos : Nat) (tokens : List Token) : g.checkedTokensBody text (pos, tokens) =
      some (g.tokensBody text (pos, tokens)) := by
    simp only [checkedTokensBody, tokensBody, checkedLexeme_eq h htext, Option.bind_eq_bind,
      Option.bind_some]
    cases g.lexemeAt text g.allValid pos <;> rfl
  rcases g.tokensFrom_ends text 0 [] with ⟨_, _, hends⟩
  exact hends.loop_eq_of_forall fun s => hbody s.1 s.2

end Grammar

end TableParsing

end
