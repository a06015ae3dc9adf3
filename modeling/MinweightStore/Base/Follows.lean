import MinweightStore.Base.Wp

/-!
# Programs that follow one another

A program follows another one if it returns what the other returns, unless it stops with a fault that
something else is blamed for.  A run whose calls may fail follows the run whose calls all succeed.

* `Follows`, `Follows.bind` — the relation, and the rule of sequence;
* `NeverReturns`, `Follows.attempt_bind` — the rule for a status that is caught, cleaned up after, and
  returned;
* `Follows.wp` — **where the other returns**, so does the program, unless it stops;
* `Tracks` — the stronger relation of programs that differ only where the process is killed.
-/

namespace MinweightStore.Prog

variable {ε σ α β : Type}

/-- **`x` returns what `y` returns**, unless it stops with a fault that is `blamed`. -/
def Follows (blamed : Fault ε → Prop) (x y : Prog ε σ α) : Prop :=
  ∀ s a s', y s = .ok a s' → wp x (fun b t => b = a ∧ t = s') (fun fault _ => blamed fault) s

/-- **`x` does what `y` does**, value or fault, unless it is killed where it may be. -/
def Tracks (mayDie : Prop) (x y : Prog ε σ α) : Prop :=
  ∀ s, x s = y s ∨ mayDie ∧ ∃ s', x s = .error .killed s'

/-- A program that never returns a value. -/
def NeverReturns (x : Prog ε σ α) : Prop := ∀ s a s', x s ≠ .ok a s'

section Rules

variable {blamed : Fault ε → Prop} {x y : Prog ε σ α}

theorem neverReturns_fail (e : ε) : NeverReturns (fail e : Prog ε σ α) := fun _ _ _ h => by
  simp at h

theorem NeverReturns.bind {f : α → Prog ε σ β} (hf : ∀ a, NeverReturns (f a)) :
    NeverReturns (x >>= f) := by
  intro s b s' h
  cases hx : x s with
  | ok a t => exact hf a t b s' ((bind_ok hx).symm.trans h)
  | error fault t => exact absurd ((bind_error hx).symm.trans h) (by simp)

theorem Follows.refl (x : Prog ε σ α) : Follows blamed x x := by
  intro s a s' h
  exact (wp_of_ok h).mpr ⟨rfl, rfl⟩

/-- The rule of sequence. -/
theorem Follows.bind {f g : α → Prog ε σ β} (h : Follows blamed x y)
    (hf : ∀ a, Follows blamed (f a) (g a)) : Follows blamed (x >>= f) (y >>= g) := by
  intro s b s' hrun
  cases hy : y s with
  | error fault t => exact absurd ((bind_error hy).symm.trans hrun) (by simp)
  | ok a t =>
    rw [bind_ok hy] at hrun
    refine wp_seq (h s a t hy) (fun a' t' ht => ?_) (fun _ _ h => h)
    obtain ⟨rfl, rfl⟩ := ht
    exact hf a' t' b s' hrun

/-- **The rule for a caught status**: with it, neither program returns. -/
theorem Follows.attempt_bind {f g : Except ε α → Prog ε σ β} (h : Follows blamed x y)
    (hok : ∀ a, Follows blamed (f (.ok a)) (g (.ok a)))
    (hblamed : ∀ e, blamed (.status e) → ∀ fault, blamed fault)
    (hf : ∀ e, NeverReturns (f (.error e))) (hg : ∀ e, NeverReturns (g (.error e))) :
    Follows blamed (attempt x >>= f) (attempt y >>= g) := by
  intro s b s' hrun
  obtain ⟨r, t, hy⟩ : ∃ r t, attempt y s = .ok r t := by
    cases hy : attempt y s with
    | ok r t => exact ⟨r, t, rfl⟩
    | error fault t => exact absurd ((bind_error hy).symm.trans hrun) (by simp)
  rw [bind_ok hy] at hrun
  cases r with
  | error e => exact absurd hrun (hg e t b s')
  | ok a =>
    have hy' : y s = .ok a t := by
      rw [attempt] at hy
      cases hs : y s with
      | ok a' t' =>
        rw [hs] at hy
        cases hy
        rfl
      | error fault t' =>
        rw [hs] at hy
        cases fault <;> cases hy
    rw [wp_bind, wp_attempt]
    refine wp_mono (h s a t hy') (fun a' t' ht => ?_) (fun fault t' ht => ?_)
    · obtain ⟨rfl, rfl⟩ := ht
      exact hok a' t' b s' hrun
    · cases fault with
      | status e =>
        show wp (f (.error e)) _ _ t'
        rw [wp]
        cases hrun' : f (.error e) t' with
        | ok b' t'' => exact absurd hrun' (hf e t' b' t'')
        | error fault t'' => exact hblamed e ht fault
      | undefined => exact ht
      | diverges => exact ht
      | killed => exact ht

/-- **Where the other program returns**, so does this one, unless it stops. -/
theorem Follows.wp {E : Fault ε → σ → Prop} {s s' : σ} {a : α} (h : Follows blamed x y)
    (hy : y s = .ok a s') (hends : Prog.wp x (fun _ _ => True) E s) :
    Prog.wp x (fun b t => b = a ∧ t = s') (fun fault t => blamed fault ∧ E fault t) s :=
  wp_mono (wp_and (h s a s' hy) hends) (fun _ _ h => h.1) (fun _ _ h => h)

end Rules

section Tracks

variable {mayDie : Prop} {x y : Prog ε σ α}

theorem Tracks.refl (x : Prog ε σ α) : Tracks mayDie x x := fun _ => Or.inl rfl

theorem Tracks.bind {f g : α → Prog ε σ β} (h : Tracks mayDie x y)
    (hf : ∀ a, Tracks mayDie (f a) (g a)) : Tracks mayDie (x >>= f) (y >>= g) := by
  intro s
  rcases h s with heq | ⟨hdie, s', hrun⟩
  · cases hy : y s with
    | ok a t =>
      rw [bind_ok hy, bind_ok (heq.trans hy)]
      exact hf a t
    | error fault t =>
      rw [bind_error hy, bind_error (heq.trans hy)]
      exact Or.inl rfl
  · exact Or.inr ⟨hdie, s', bind_error hrun⟩

theorem Tracks.attempt (h : Tracks mayDie x y) : Tracks mayDie (attempt x) (attempt y) := by
  intro s
  rcases h s with heq | ⟨hdie, s', hrun⟩
  · exact Or.inl (by rw [Prog.attempt, Prog.attempt, heq])
  · exact Or.inr ⟨hdie, s', attempt_killed.mpr hrun⟩

/-- What follows for the values. -/
theorem Tracks.follows {blamed : Fault ε → Prop} (h : Tracks mayDie x y)
    (hblamed : mayDie → blamed .killed) : Follows blamed x y := by
  intro s a s' hrun
  rcases h s with heq | ⟨hdie, t, hkilled⟩
  · exact (wp_of_ok (heq.trans hrun)).mpr ⟨rfl, rfl⟩
  · exact (wp_of_error hkilled).mpr (hblamed hdie)

/-- **The postcondition of the other program**, unless the process is killed. -/
theorem Tracks.wp {Q : α → σ → Prop} {E : Fault ε → σ → Prop} {s : σ} (h : Tracks mayDie x y)
    (hy : Prog.wp y Q E s) (hdie : mayDie → ∀ s', x s = .error .killed s' → E .killed s') :
    Prog.wp x Q E s := by
  rcases h s with heq | ⟨hmay, s', hrun⟩
  · rw [Prog.wp, heq]
    exact hy
  · exact (wp_of_error hrun).mpr (hdie hmay s' hrun)

end Tracks

end MinweightStore.Prog
