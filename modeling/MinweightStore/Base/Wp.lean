import MinweightStore.Base.Prog

/-!
# Postconditions of programs

`wp x Q E s` says how `x` ends when it starts in `s`: with a value and a state that satisfy `Q`, or
with a fault and a state that satisfy `E`.  The fault of a killed process leaves the state the
process died in, so a crash is one more postcondition and not another semantics.

* `wp_bind`, `wp_mono`, `wp_attempt` — the rules for sequences, consequences and caught statuses;
* `both`, `allOf` — calls of which the first error is returned after all have run;
* `leaves` — an invariant of the state a program leaves, whether it returns a value or a status;
* `ends`, `ends_allOf` — an invariant of the state a program ends in, even if the process dies there.
-/

namespace MinweightStore.Prog

variable {ε σ α β : Type}

/-- How a program ends when it starts in `s`. -/
def wp (x : Prog ε σ α) (Q : α → σ → Prop) (E : Fault ε → σ → Prop) (s : σ) : Prop :=
  match x s with
  | .ok a s' => Q a s'
  | .error e s' => E e s'

section Rules

variable {x : Prog ε σ α} {Q Q' : α → σ → Prop} {E E' : Fault ε → σ → Prop} {s s' : σ}

theorem wp_of_ok {a : α} (h : x s = .ok a s') : wp x Q E s ↔ Q a s' := by
  rw [wp, h]

theorem wp_of_error {e : Fault ε} (h : x s = .error e s') : wp x Q E s ↔ E e s' := by
  rw [wp, h]

/-- The rule of consequence. -/
theorem wp_mono (h : wp x Q E s) (hQ : ∀ a s', Q a s' → Q' a s') (hE : ∀ e s', E e s' → E' e s') :
    wp x Q' E' s := by
  rw [wp] at h ⊢
  cases hx : x s with
  | ok a s' => rw [hx] at h; exact hQ a s' h
  | error e s' => rw [hx] at h; exact hE e s' h

theorem wp_and (h : wp x Q E s) (h' : wp x Q' E' s) :
    wp x (fun a s => Q a s ∧ Q' a s) (fun e s => E e s ∧ E' e s) s := by
  rw [wp] at h h' ⊢
  cases hx : x s with
  | ok a s' => rw [hx] at h h'; exact ⟨h, h'⟩
  | error e s' => rw [hx] at h h'; exact ⟨h, h'⟩

theorem wp_run_ok (h : wp x Q E s) {a : α} (hx : x s = .ok a s') : Q a s' := (wp_of_ok hx).mp h

theorem wp_run_error (h : wp x Q E s) {e : Fault ε} (hx : x s = .error e s') : E e s' :=
  (wp_of_error hx).mp h

/-- The rule of sequence. -/
theorem wp_bind {f : α → Prog ε σ β} {Q : β → σ → Prop} :
    wp (x >>= f) Q E s ↔ wp x (fun a s' => wp (f a) Q E s') E s := by
  cases hx : x s with
  | ok a s' => rw [wp_of_ok hx, wp, wp, bind_ok hx]
  | error e s' => rw [wp_of_error hx, wp_of_error (bind_error hx)]

theorem wp_seq {f : α → Prog ε σ β} {R : β → σ → Prop} (h : wp x Q E' s)
    (hf : ∀ a s', Q a s' → wp (f a) R E s') (hE : ∀ e s', E' e s' → E e s') :
    wp (x >>= f) R E s :=
  wp_bind.mpr (wp_mono h hf hE)

@[simp] theorem wp_pure {a : α} : wp (pure a) Q E s ↔ Q a s := Iff.rfl

@[simp] theorem wp_fail {e : ε} : wp (fail e : Prog ε σ α) Q E s ↔ E (.status e) s := Iff.rfl

@[simp] theorem wp_get {Q : σ → σ → Prop} : wp get Q E s ↔ Q s s := Iff.rfl

@[simp] theorem wp_modify {g : σ → σ} {Q : PUnit → σ → Prop} :
    wp (modify g) Q E s ↔ Q ⟨⟩ (g s) := Iff.rfl

theorem wp_ofOutcome {o : Outcome ε α} :
    wp (ofOutcome o) Q E s ↔ (∀ a, o = .ok a → Q a s) ∧ ∀ e, o = .error e → E e s := by
  cases o with
  | ok a => exact ⟨fun h => ⟨fun _ ha => Except.ok.inj ha ▸ h, fun _ he => absurd he (by simp)⟩,
      fun h => h.1 a rfl⟩
  | error e => exact ⟨fun h => ⟨fun _ ha => absurd ha (by simp), fun _ he => Except.error.inj he ▸ h⟩,
      fun h => h.2 e rfl⟩

/-- What a caught status leaves. -/
def caught (Q : Except ε α → σ → Prop) (E : Fault ε → σ → Prop) : Fault ε → σ → Prop
  | .status e, s => Q (.error e) s
  | .undefined, s => E .undefined s
  | .diverges, s => E .diverges s
  | .killed, s => E .killed s

/-- The rule for a caught status. -/
theorem wp_attempt {Q : Except ε α → σ → Prop} :
    wp (attempt x) Q E s ↔ wp x (fun a s' => Q (.ok a) s') (caught Q E) s := by
  cases hx : x s with
  | ok a s' => rw [wp_of_ok hx, wp_of_ok (attempt_ok hx)]
  | error e s' =>
    rw [wp_of_error hx, wp]
    cases e <;> simp only [attempt, hx, caught]

/-- A caught status ends a program where the program itself ends. -/
theorem final_attempt : final (attempt x) s = final x s := by
  rw [final, final, attempt]
  cases x s with
  | ok a s' => rfl
  | error e s' => cases e <;> rfl

/-- A process is killed in a call whether or not the status of the call is caught. -/
theorem attempt_killed : attempt x s = .error .killed s' ↔ x s = .error .killed s' := by
  rw [attempt]
  cases x s with
  | ok a s₁ => simp
  | error e s₁ => cases e <;> simp

end Rules

/-! ### Calls whose first error is returned -/

/-- The first error of two outcomes. -/
def firstError : Except ε Unit → Except ε Unit → Prog ε σ Unit
  | .error e, _ => fail e
  | .ok _, .error e => fail e
  | .ok _, .ok _ => pure ()

/-- Both calls are made; the first error is returned. -/
def both (x y : Prog ε σ Unit) : Prog ε σ Unit := do
  let a ← attempt x
  let b ← attempt y
  firstError a b

/-- All calls are made in order; the first error is returned. -/
def allOf : List (Prog ε σ Unit) → Prog ε σ Unit
  | [] => pure ()
  | x :: xs => both x (allOf xs)

/-- A call whose status is ignored. -/
def ignore (x : Prog ε σ α) : Prog ε σ Unit := do
  let _ ← attempt x
  pure ()

section Both

variable {x y : Prog ε σ Unit} {s s' s'' : σ}

theorem both_ok (hx : x s = .ok () s') (hy : y s' = .ok () s'') : both x y s = .ok () s'' := by
  rw [both, bind_ok (attempt_ok hx), bind_ok (attempt_ok hy)]
  rfl

/-- The rule for two calls: the second is made whatever the first returns. -/
theorem wp_both {P Q : σ → Prop} {E : Fault ε → σ → Prop}
    (hx : wp x (fun _ s => P s) E s) (hy : ∀ s, P s → wp y (fun _ s => Q s) E s)
    (hyE : ∀ e s, E (.status e) s → wp y (fun _ s => E (.status e) s) E s)
    (hE : ∀ e e' s, E (.status e) s → E (.status e') s) : wp (both x y) (fun _ s => Q s) E s := by
  rw [both, wp_bind, wp_attempt]
  refine wp_mono hx (fun _ s' hP => ?_) (fun e s' he => ?_)
  · rw [wp_bind, wp_attempt]
    refine wp_mono (hy s' hP) (fun _ s'' hQ => hQ) (fun e s'' he => ?_)
    cases e <;> exact he
  · cases e with
    | status e =>
      show wp _ _ _ s'
      rw [wp_bind, wp_attempt]
      refine wp_mono (hyE e s' he) (fun _ s'' hs => hs) (fun e' s'' he' => ?_)
      cases e' with
      | status e' => exact hE e' e s'' he'
      | undefined => exact he'
      | diverges => exact he'
      | killed => exact he'
    | undefined => exact he
    | diverges => exact he
    | killed => exact he

end Both

/-! ### Invariants of calls that may return a status -/

/-- A status, in a state that satisfies `I`; any other fault ends the process. -/
def onStatus (I : σ → Prop) : Fault ε → σ → Prop
  | .status _, s => I s
  | .undefined, _ => True
  | .diverges, _ => True
  | .killed, _ => True

/-- **Whatever value or status it returns**, a program leaves a state that satisfies `I`. -/
abbrev leaves (x : Prog ε σ α) (I : σ → Prop) (s : σ) : Prop := wp x (fun _ s => I s) (onStatus I) s

section Leaves

variable {x : Prog ε σ α} {I J : σ → Prop} {e : Fault ε} {s : σ}

theorem onStatus_of (h : I s) : onStatus I e s := by
  cases e with
  | status e => exact h
  | undefined => trivial
  | diverges => trivial
  | killed => trivial

theorem onStatus_mono (hI : ∀ s, I s → J s) (h : onStatus I e s) : onStatus J e s := by
  cases e with
  | status e => exact hI s h
  | undefined => trivial
  | diverges => trivial
  | killed => trivial

theorem leaves_mono (h : leaves x I s) (hI : ∀ s, I s → J s) : leaves x J s :=
  wp_mono h (fun _ s => hI s) (fun _ _ => onStatus_mono hI)

theorem leaves_bind {f : α → Prog ε σ β} {Q : α → σ → Prop} (h : wp x Q (onStatus I) s)
    (hf : ∀ a s', Q a s' → leaves (f a) I s') : leaves (x >>= f) I s :=
  wp_seq h hf (fun _ _ h => h)

/-- The rule of sequence for an invariant of both parts. -/
theorem leaves_seq {f : α → Prog ε σ β} (h : leaves x I s)
    (hf : ∀ a s', I s' → leaves (f a) I s') : leaves (x >>= f) I s := leaves_bind h hf

/-- A caught status is not returned any more. -/
theorem leaves_attempt (h : leaves x I s) : wp (attempt x) (fun _ s => I s) (onStatus J) s := by
  apply wp_attempt.mpr
  apply wp_mono h (fun _ _ h => h)
  intro e s' he
  cases e with
  | status e => exact he
  | undefined => trivial
  | diverges => trivial
  | killed => trivial

end Leaves

/-! ### Invariants of calls that may end anywhere -/

/-- **However it ends**, a program is then in a state that satisfies `I`. -/
abbrev ends (x : Prog ε σ α) (I : σ → Prop) (s : σ) : Prop := wp x (fun _ s => I s) (fun _ s => I s) s

section Ends

variable {x : Prog ε σ α} {I J : σ → Prop} {s : σ}

theorem ends_iff : ends x I s ↔ I (final x s) := by
  rw [ends, wp, final]
  cases x s <;> exact Iff.rfl

theorem ends_mono (h : ends x I s) (hI : ∀ s, I s → J s) : ends x J s :=
  wp_mono h (fun _ s => hI s) (fun _ s => hI s)

theorem ends.leaves (h : ends x I s) : leaves x I s :=
  wp_mono h (fun _ _ h => h) (fun _ _ => onStatus_of)

theorem ends_seq {f : α → Prog ε σ β} (h : ends x I s) (hf : ∀ a s', I s' → ends (f a) I s') :
    ends (x >>= f) I s := wp_seq h hf (fun _ _ h => h)

theorem ends_get {f : σ → Prog ε σ β} (h : ends (f s) I s) : ends (get >>= f) I s := wp_bind.mpr h

theorem ends_modify {g : σ → σ} {f : PUnit → Prog ε σ β} (h : ends (f ⟨⟩) I (g s)) :
    ends (modify g >>= f) I s := wp_bind.mpr h

theorem ends_attempt (h : ends x I s) : ends (attempt x) I s := by
  apply wp_attempt.mpr
  apply wp_mono h (fun _ _ h => h)
  intro e s' he
  cases e <;> exact he

theorem ends_ignore (h : ends x I s) : ends (ignore x) I s :=
  ends_seq (ends_attempt h) (fun _ _ h => h)

theorem ends_ofOutcome {o : Outcome ε α} (h : I s) : ends (ofOutcome o) I s :=
  wp_ofOutcome.mpr ⟨fun _ _ => h, fun _ _ => h⟩

theorem ends_both {x y : Prog ε σ Unit} (hx : ends x I s) (hy : ∀ s, I s → ends y I s) :
    ends (both x y) I s :=
  ends_seq (ends_attempt hx) (fun a s' hs =>
    ends_seq (ends_attempt (hy s' hs)) (fun b s'' hs' => by cases a <;> cases b <;> exact hs'))

/-- The rule for all calls. -/
theorem ends_allOf {xs : List (Prog ε σ Unit)} (h : ∀ x ∈ xs, ∀ s, I s → ends x I s)
    (hs : I s) : ends (allOf xs) I s := by
  induction xs generalizing s with
  | nil => exact hs
  | cons x xs ih =>
    refine ends_both (h x List.mem_cons_self s hs) (fun s' hs' => ?_)
    exact ih (fun y hy => h y (List.mem_cons_of_mem _ hy)) hs'

end Ends

end MinweightStore.Prog
