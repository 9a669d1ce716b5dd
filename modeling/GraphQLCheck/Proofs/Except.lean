/-!
# Computations that may fail

What is known of a fold whose steps may fail is stated for the elements taken so far:
`foldlM_invariant` says that what each step keeps holds in the end, and `exists_foldlM_of_step` that
the fold succeeds if each step does as long as a condition on these elements holds.
`foldlM_preserves` is for what does not depend on the elements. `foldlM_eq_error` says where a fold
that fails has stopped.
-/

namespace GraphQLCheck

section Except

variable {ε α β σ : Type}

/-- A computation in two stages succeeds if both stages do. -/
theorem bind_eq_ok {x : Except ε α} {f : α → Except ε β} {b : β} :
    x >>= f = .ok b ↔ ∃ a, x = .ok a ∧ f a = .ok b := by
  cases x with
  | error e => exact ⟨fun h => (nomatch h), fun ⟨_, h, _⟩ => nomatch h⟩
  | ok a => exact ⟨fun h => ⟨a, rfl, h⟩, fun ⟨_, h, hf⟩ => Except.ok.inj h ▸ hf⟩

/-- A computation in two stages fails if one of the stages does. -/
theorem bind_eq_error {x : Except ε α} {f : α → Except ε β} {e : ε} :
    x >>= f = .error e ↔ x = .error e ∨ ∃ a, x = .ok a ∧ f a = .error e := by
  cases x with
  | error e' =>
    constructor
    · exact fun h => .inl (congrArg Except.error (Except.error.inj h))
    · rintro (h | ⟨_, h, _⟩)
      · exact congrArg Except.error (Except.error.inj h)
      · exact nomatch h
  | ok a =>
    constructor
    · exact fun h => .inr ⟨a, rfl, h⟩
    · rintro (h | ⟨a', ha, h⟩)
      · exact nomatch h
      · exact Except.ok.inj ha ▸ h

/-- A computation whose result is only wrapped fails as it does without that. -/
theorem bind_pure_eq_error {x : Except ε α} {f : α → β} {e : ε} :
    (x >>= fun a => pure (f a)) = .error e ↔ x = .error e := by
  rw [bind_eq_error]
  exact or_iff_left fun ⟨_, _, h⟩ => nomatch h

/-- Changing the result does not change whether there is one. -/
theorem map_eq_ok {x : Except ε α} {f : α → β} {b : β} :
    x.map f = .ok b ↔ ∃ a, x = .ok a ∧ f a = b := by
  cases x with
  | error e => exact ⟨fun h => (nomatch h), fun ⟨_, h, _⟩ => nomatch h⟩
  | ok a =>
    constructor
    · exact fun h => ⟨a, rfl, Except.ok.inj h⟩
    · rintro ⟨a', ha, rfl⟩
      rw [Except.ok.inj ha]
      rfl

/-- Changing the result does not change the error. -/
theorem map_eq_error {x : Except ε α} {f : α → β} {e : ε} :
    x.map f = .error e ↔ x = .error e := by
  cases x with
  | error e' =>
    exact ⟨fun h => congrArg _ (Except.error.inj h), fun h => congrArg _ (Except.error.inj h)⟩
  | ok a => exact ⟨fun h => (nomatch h), fun h => nomatch h⟩

/-- What is returned is the result. -/
theorem pure_eq_ok {a b : α} : (pure a : Except ε α) = .ok b ↔ a = b :=
  ⟨Except.ok.inj, congrArg Except.ok⟩

/-- Whether what is computed meets a condition, if it is computed. -/
def Ensures (x : Except ε α) (Q : α → Prop) : Prop := ∀ a, x = .ok a → Q a

namespace Ensures

variable {x : Except ε α} {f : α → Except ε β} {Q : α → Prop} {R : β → Prop}

/-- Something always holds of a result. -/
theorem trivial (x : Except ε α) : Ensures x fun _ => True := fun _ _ => True.intro

/-- What fails has no result of which anything could be wrong. -/
theorem error (e : ε) : Ensures (.error e) Q := fun _ h => nomatch h

/-- What is returned meets a condition if it does so by itself. -/
theorem pure {a : α} (h : Q a) : Ensures (Pure.pure a : Except ε α) Q :=
  fun _ ha => pure_eq_ok.1 ha ▸ h

/-- What holds of the first stage is known in the second. -/
theorem bind (hx : Ensures x Q) (hf : ∀ a, Q a → Ensures (f a) R) : Ensures (x >>= f) R := by
  intro b hb
  obtain ⟨a, ha, hfa⟩ := bind_eq_ok.1 hb
  exact hf a (hx a ha) b hfa

end Ensures

/-- A condition on what is computed, if it is computed, can only hold of a result. -/
theorem exists_of_any_toOption {x : Except ε α} {p : α → Bool} (h : x.toOption.any p = true) :
    ∃ a, x = .ok a ∧ p a = true := by
  cases x with
  | error e => exact nomatch h
  | ok a => exact ⟨a, rfl, h⟩

/-- Whether there is an error that meets a condition. -/
def failsWith (p : ε → Bool) : Except ε α → Bool
  | .error e => p e
  | .ok _ => false

/-- A condition on the error can only hold of an error. -/
theorem exists_of_failsWith {x : Except ε α} {p : ε → Bool} (h : failsWith p x = true) :
    ∃ e, x = .error e ∧ p e = true := by
  cases x with
  | error e => exact ⟨e, rfl, h⟩
  | ok a => exact nomatch h

variable {step : σ → α → Except ε σ} {I : List α → σ → Prop} {xs ys : List α} {s s' : σ}

/-- What each step that succeeds keeps holds after all of them, if `xs` has been taken before. -/
theorem foldlM_invariant
    (hstep : ∀ {xs s s' x}, I xs s → step s x = .ok s' → I (xs ++ [x]) s') (h : I xs s)
    (hok : ys.foldlM step s = .ok s') : I (xs ++ ys) s' := by
  -- what has been taken moves from `ys` to the end of `xs`
  induction ys generalizing xs s with
  | nil =>
    obtain rfl := pure_eq_ok.1 hok
    rw [List.append_nil]
    exact h
  | cons y ys ih =>
    rw [List.foldlM_cons] at hok
    obtain ⟨s₁, hy, hys⟩ := bind_eq_ok.1 hok
    rw [List.append_cons]
    exact ih (hstep h hy) hys

/-- What each step that succeeds keeps of a state, whatever has been taken, holds in the end. -/
theorem foldlM_preserves {P : σ → Prop}
    (hstep : ∀ {s s' x}, P s → step s x = .ok s' → P s') (h : P s)
    (hok : ys.foldlM step s = .ok s') : P s' :=
  @foldlM_invariant _ _ _ step (fun _ => P) [] ys s s' (fun h hok => hstep h hok) h hok

/-- A fold succeeds if all that is taken meets a condition under which each step succeeds. The
condition must not depend on what is still to come. -/
theorem exists_foldlM_of_step {C : List α → Prop}
    (hstep : ∀ {xs s s' x}, I xs s → step s x = .ok s' → I (xs ++ [x]) s')
    (hexists : ∀ {xs s x}, I xs s → C (xs ++ [x]) → ∃ s', step s x = .ok s')
    (hleft : ∀ {xs ys}, C (xs ++ ys) → C xs) (h : I xs s) (hC : C (xs ++ ys)) :
    ∃ s', ys.foldlM step s = .ok s' := by
  induction ys generalizing xs s with
  | nil => exact ⟨s, rfl⟩
  | cons y ys ih =>
    rw [List.append_cons] at hC
    -- the condition holds of what comes first, which is all that the next step needs
    obtain ⟨s₁, hy⟩ := hexists h (hleft hC)
    obtain ⟨s', hys⟩ := ih (hstep h hy) hC
    refine ⟨s', ?_⟩
    rw [List.foldlM_cons]
    exact bind_eq_ok.2 ⟨s₁, hy, hys⟩

/-- A fold that fails has come to an element whose step fails, after steps that succeed. -/
theorem foldlM_eq_error {e : ε} (h : xs.foldlM step s = .error e) :
    ∃ before x after s', xs = before ++ x :: after ∧ before.foldlM step s = .ok s' ∧
      step s' x = .error e := by
  induction xs generalizing s with
  | nil => exact nomatch h
  | cons x xs ih =>
    rw [List.foldlM_cons] at h
    rcases bind_eq_error.1 h with hx | ⟨s₁, hx, hxs⟩
    · exact ⟨[], x, xs, s, rfl, rfl, hx⟩
    · obtain ⟨before, y, after, s', rfl, hbefore, hy⟩ := ih hxs
      refine ⟨x :: before, y, after, s', rfl, ?_, hy⟩
      rw [List.foldlM_cons]
      exact bind_eq_ok.2 ⟨s₁, hx, hbefore⟩

/-- What does not matter to the steps may be changed before a fold or after it. -/
theorem foldlM_map_state {g : σ → σ} (hstep : ∀ s x, step (g s) x = (step s x).map g) :
    xs.foldlM step (g s) = (xs.foldlM step s).map g := by
  induction xs generalizing s with
  | nil => rfl
  | cons x xs ih =>
    rw [List.foldlM_cons, List.foldlM_cons, hstep]
    cases step s x with
    | error e => rfl
    | ok s₁ => exact ih

end Except

end GraphQLCheck
