/-!
# Loops

A loop repeats its body, which leads to another state or to a result, until there is a result. That a
loop ends is stated of its body alone, and does not depend on how a function that computes the same
is made total. The rounds of a machine can fail too: then there is no result, nor is there one if the
loop does not end.
-/
namespace TableParsing

variable {σ τ β : Type}

/-- Running `body` from `s` until it gives a result takes `n` rounds and gives `b`. -/
inductive Ends (body : σ → σ ⊕ β) : Nat → σ → β → Prop
  | stop {s : σ} {b : β} : body s = .inr b → Ends body 1 s b
  | again {n : Nat} {s s' : σ} {b : β} : body s = .inl s' → Ends body n s' b →
      Ends body (n + 1) s b

/-- A loop whose rounds all lead on does not end. -/
theorem not_ends_of_forall {body : σ → σ ⊕ β} {P : σ → Prop} {n : Nat} {s : σ} {b : β}
    (hround : ∀ s, P s → ∃ s', body s = .inl s' ∧ P s') (hs : P s) : ¬ Ends body n s b := by
  intro h
  induction h with
  | stop hb =>
    obtain ⟨s', hs', _⟩ := hround _ hs
    rw [hb] at hs'
    cases hs'
  | again hb _ ih =>
    obtain ⟨s', hs', hnext⟩ := hround _ hs
    rw [hb] at hs'
    cases hs'
    exact ih hnext

/-! ## Rounds that can fail -/

variable {body : σ → Option (σ ⊕ β)} {s s' : σ} {b c : β}

/-- No round from `s` on fails, and the last one gives `b`. -/
inductive Gives (body : σ → Option (σ ⊕ β)) : σ → β → Prop
  | stop {s : σ} {b : β} : body s = some (.inr b) → Gives body s b
  | again {s s' : σ} {b : β} : body s = some (.inl s') → Gives body s' b → Gives body s b

/-- A round from `s` on fails. -/
inductive Fails (body : σ → Option (σ ⊕ β)) : σ → Prop
  | stop {s : σ} : body s = none → Fails body s
  | again {s s' : σ} : body s = some (.inl s') → Fails body s' → Fails body s

theorem Gives.unique (h : Gives body s b) (h' : Gives body s c) : b = c := by
  induction h with
  | stop hb =>
    cases h' with
    | stop hc => simpa [hb] using hc
    | again hc => simp [hb] at hc
  | again hb _ ih =>
    cases h' with
    | stop hc => simp [hb] at hc
    | again hc h' =>
      rw [hb] at hc
      cases hc
      exact ih h'

theorem Fails.not_gives (h : Fails body s) : ¬ Gives body s b := by
  intro hg
  induction h with
  | stop hb => cases hg <;> simp_all
  | again hb _ ih =>
    cases hg with
    | stop hc => simp [hb] at hc
    | again hc hg =>
      rw [hb] at hc
      cases hc
      exact ih hg

open Classical in
/-- What the loop gives. -/
noncomputable def loop (body : σ → Option (σ ⊕ β)) (s : σ) : Option β :=
  if h : ∃ b, Gives body s b then some h.choose else none

theorem Gives.loop_eq (h : Gives body s b) : loop body s = some b := by
  have hb : ∃ b, Gives body s b := ⟨b, h⟩
  rw [loop, dif_pos hb, hb.choose_spec.unique h]

theorem Fails.loop_eq (h : Fails body s) : loop body s = none :=
  dif_neg fun ⟨_, hb⟩ => h.not_gives hb

/-- A loop gives what the loop without checks ends in, if no check fails on the way; its states may be
written in another form. -/
theorem Ends.loop_map_eq {plain : τ → τ ⊕ β} {f : τ → σ} {P : τ → Prop} {n : Nat} {s : τ}
    (h : Ends plain n s b) (hbody : ∀ s, P s → body (f s) = some ((plain s).map f id))
    (hkeep : ∀ s s', P s → plain s = .inl s' → P s') (hs : P s) : loop body (f s) = some b := by
  apply Gives.loop_eq
  induction h with
  | stop hb =>
    apply Gives.stop
    rw [hbody _ hs, hb]
    rfl
  | again hb _ ih =>
    apply Gives.again _ (ih (hkeep _ _ hs hb))
    rw [hbody _ hs, hb]
    rfl

theorem Ends.loop_eq {plain : σ → σ ⊕ β} {P : σ → Prop} {n : Nat} (h : Ends plain n s b)
    (hbody : ∀ s, P s → body s = some (plain s)) (hkeep : ∀ s s', P s → plain s = .inl s' → P s')
    (hs : P s) : loop body s = some b := by
  refine h.loop_map_eq (f := id) (fun s hs => ?_) hkeep hs
  rw [Sum.map_id_id]
  exact hbody s hs

theorem Ends.loop_eq_of_forall {plain : σ → σ ⊕ β} {n : Nat} (h : Ends plain n s b)
    (hbody : ∀ s, body s = some (plain s)) : loop body s = some b :=
  h.loop_eq (P := fun _ => True) (fun s _ => hbody s) (fun _ _ _ _ => trivial) trivial

end TableParsing
