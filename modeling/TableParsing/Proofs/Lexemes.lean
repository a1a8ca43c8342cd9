import TableParsing.Proofs.Consistency
import TableParsing.Proofs.Reachable

/-!
# The lexemes of a parse

A parse kept together with a record of every lexeme that the lexer returns to it. Between one lexeme
and the next, before the first and behind the last, there are only separators.
-/
namespace TableParsing

/-- A lexeme as a token: unlexable bytes are an error, and the end is none. -/
def Lexeme.token? : Lexeme → Option Token
  | .token t => some t
  | .unlexable span => some ⟨Symbol.error, span⟩
  | .endOfText => none

/-- A byte of the text that separates tokens. -/
def Grammar.SeparatorAt (g : Grammar) (text : Text) (i : Nat) : Prop :=
  ∃ b, text[i]? = some b ∧ g.table.isSeparator b = true

/-! ## Separators -/

namespace Grammar

variable {g : Grammar} {text : Text} {valid : List Bool} {pos i : Nat}

theorem separatorAt_of_skipped (h1 : pos ≤ i) (h2 : i < g.skipSeparators text pos) :
    g.SeparatorAt text i := by
  fun_induction skipSeparators g text pos with
  | case1 pos hlt hsep ih =>
    by_cases hi : i = pos
    · subst hi
      exact ⟨text[i], Array.getElem?_eq_getElem hlt, hsep⟩
    · exact ih (by omega) h2
  | case2 => omega
  | case3 => omega

/-- A token begins behind the separators. -/
theorem token_start {token : Token} (h : g.lexemeAt text valid pos = .token token) :
    token.span.start = g.skipSeparators text pos := by
  simp only [lexemeAt] at h
  split at h
  · cases h
  · split at h
    · rename_i t ht
      cases h
      exact (scanExternal_span ht).1
    · split at h <;> cases h
      rfl

theorem unlexable_start {span : Span} (h : g.lexemeAt text valid pos = .unlexable span) :
    span.start = g.skipSeparators text pos := by
  simp only [lexemeAt] at h
  split at h
  · cases h
  · split at h
    · cases h
    · split at h <;> cases h
      rfl

/-- Before a lexeme there are only separators. -/
theorem separatorAt_before {token : Token} {lexeme : Lexeme}
    (h : g.lexemeAt text valid pos = lexeme) (ht : lexeme.token? = some token) (h1 : pos ≤ i)
    (h2 : i < token.span.start) : g.SeparatorAt text i := by
  apply separatorAt_of_skipped h1
  cases lexeme with
  | token t =>
    cases ht
    rw [← token_start h]
    exact h2
  | unlexable span =>
    cases ht
    rw [← unlexable_start h]
    exact h2
  | endOfText => cases ht

theorem separatorAt_end (h : g.lexemeAt text valid pos = .endOfText) (h1 : pos ≤ i)
    (h2 : i < text.size) : g.SeparatorAt text i := by
  have := lexemeAt_eq_endOfText.mp h
  exact separatorAt_of_skipped h1 (by omega)

end Grammar

/-! ## The record of a parse -/

namespace Job

variable (job : Job)

/-- A scan that keeps every lexeme the lexer returns, newest first. -/
def recordScan (seen : List Lexeme) (r : Run) : List Lexeme × Run :=
  match _h : job.nextLexeme r with
  | .endOfText =>
    (.endOfText :: seen, { r with lookahead := ⟨Symbol.endOfInput, Span.empty job.text.size⟩ })
  | .token token =>
    if job.table.isExtra token.symbol then
      recordScan (.token token :: seen) (r.pushExtra (job.leaf token))
    else (.token token :: seen, { r with lookahead := token })
  | .unlexable span =>
    recordScan (.unlexable span :: seen)
      ((r.report (.unrecognized (job.text.slice span) span)).pushExtra (Node.error span []))
termination_by job.text.size - r.position
decreasing_by
  · have := Grammar.token_bounds _h
    simp only [Run.pushExtra, Run.advance, leaf, Node.leaf, Node.branch]; omega
  · have := Grammar.unlexable_bounds _h
    simp only [Run.pushExtra, Run.advance, Node.error, Run.report]; omega

/-- Only scanning asks the lexer. -/
def recordStep (seen : List Lexeme) (r : Run) : List Lexeme × Run :=
  match r.phase with
  | .scanning =>
    let (seen, r) := job.recordScan seen r
    (seen, { r with phase := job.dispatch r })
  | _ => (seen, job.step r)

def record : (steps : Nat) → List Lexeme → Run → List Lexeme × Run
  | 0, seen, r => (seen, r)
  | steps + 1, seen, r =>
    if r.phase.isFinal then (seen, r)
    else
      let (seen, r) := job.recordStep seen r
      record steps seen r

variable {job} {seen : List Lexeme} {r : Run}

theorem recordScan_snd (job : Job) (seen : List Lexeme) (r : Run) :
    (job.recordScan seen r).2 = job.scan r := by
  fun_induction recordScan job seen r with
  | case1 seen r hn => rw [scan_of_endOfText hn]
  | case2 seen r token hn hx ih =>
    rw [ih, scan.eq_def job r]
    split <;> simp_all
  | case3 seen r token hn hx => rw [scan_of_token hn (by simpa using hx)]
  | case4 seen r span hn ih =>
    rw [ih, scan.eq_def job r]
    split <;> simp_all

theorem recordStep_snd (job : Job) (seen : List Lexeme) (r : Run) :
    (job.recordStep seen r).2 = job.step r := by
  unfold recordStep
  split
  · rename_i hp
    rw [step_of_scanning hp, ← recordScan_snd job seen]
  · rfl

theorem recordStep_fst (h : r.phase ≠ .scanning) : (job.recordStep seen r).1 = seen := by
  unfold recordStep
  split
  · exact absurd ‹_› h
  · rfl

/-- Keeping a record does not change the parse. -/
theorem record_snd (job : Job) (steps : Nat) (seen : List Lexeme) (r : Run) :
    (job.record steps seen r).2 = job.runFor steps r := by
  induction steps generalizing seen r with
  | zero => rfl
  | succ steps ih =>
    rw [record, runFor]
    split
    · rfl
    · rw [ih, recordStep_snd]

/-- What holds of a record and is kept by extras and unlexable runs holds when the lookahead is
found. -/
theorem recordScan_cases {P : List Lexeme → Run → Prop}
    (extra : ∀ seen r token, job.nextLexeme r = .token token →
      P seen r → P (.token token :: seen) (r.pushExtra (job.leaf token)))
    (unlexable : ∀ seen r span, job.nextLexeme r = .unlexable span → P seen r →
      P (.unlexable span :: seen) ((r.report
        (.unrecognized (job.text.slice span) span)).pushExtra (Node.error span [])))
    (h : P seen r) : ∃ seen' r', P seen' r' ∧
      (job.nextLexeme r' = .endOfText ∧ job.recordScan seen r = (.endOfText :: seen',
          { r' with lookahead := ⟨Symbol.endOfInput, Span.empty job.text.size⟩ }) ∨
        ∃ token, job.nextLexeme r' = .token token ∧
          job.recordScan seen r = (.token token :: seen', { r' with lookahead := token })) := by
  fun_induction recordScan job seen r with
  | case1 seen r hn => exact ⟨seen, r, h, .inl ⟨hn, rfl⟩⟩
  | case2 seen r token hn _ ih => exact ih (extra seen r token hn h)
  | case3 seen r token hn => exact ⟨seen, r, h, .inr ⟨token, hn, rfl⟩⟩
  | case4 seen r span hn ih => exact ih (unlexable seen r span hn h)

/-- The records that a parse goes through. -/
inductive Recorded (job : Job) : List Lexeme → Run → Prop
  | initial : Recorded job [] Run.initial
  | step {seen : List Lexeme} {r : Run} : Recorded job seen r →
      Recorded job (job.recordStep seen r).1 (job.step r)

theorem Recorded.reachable (h : job.Recorded seen r) : job.Reachable r := by
  induction h with
  | initial => exact .initial
  | step _ ih => exact ih.step

theorem Recorded.record (h : job.Recorded seen r) (steps : Nat) :
    job.Recorded (job.record steps seen r).1 (job.runFor steps r) := by
  induction steps generalizing seen r with
  | zero => exact h
  | succ steps ih =>
    rw [Job.record, runFor]
    split
    · exact h
    · have hs := ih h.step
      rw [← recordStep_snd job seen r] at hs ⊢
      exact hs

end Job

/-- What the lexer returned in the parse, in this order. -/
def Parser.lexemes (p : Parser) (text : Text) : List Lexeme :=
  ((p.job text).record (p.job text).stepBound [] Run.initial).1.reverse

theorem Parser.recorded_finish (p : Parser) (text : Text) :
    (p.job text).Recorded (p.lexemes text).reverse (p.job text).finish := by
  rw [lexemes, List.reverse_reverse]
  exact Job.Recorded.initial.record _

end TableParsing
