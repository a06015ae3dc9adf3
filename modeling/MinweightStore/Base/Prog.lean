import Mathlib.Tactic

/-!
# Programs with a state and an outcome

A program over a state `σ` either returns a value or stops with a fault, and in both cases leaves
a state behind, so that what a failed call has already changed stays visible.  A fault is a
returned error status, undefined behaviour (a wild read, a null dereference), a loop that never
ends, or the death of the process.

* `bind_ok`, `bind_error` — running a sequence step by step;
* `Prog.attempt` — the status of a call as a value, for code that goes on after an error.
-/

namespace MinweightStore

/-- Why a program does not return a value. -/
inductive Fault (ε : Type) where
  | status : ε → Fault ε
  | undefined : Fault ε
  | diverges : Fault ε
  | killed : Fault ε
  deriving DecidableEq, Repr

/-- A pure computation with an outcome. -/
abbrev Outcome (ε α : Type) := Except (Fault ε) α

/-- A value or a status, and no other fault. -/
def Outcome.Settled {ε α : Type} : Outcome ε α → Prop
  | .ok _ => True
  | .error (.status _) => True
  | .error _ => False

/-- A composed outcome with a value has the value of its first part. -/
theorem Outcome.of_bind {ε α β : Type} {x : Outcome ε α} {f : α → Outcome ε β} {b : β}
    (h : x >>= f = .ok b) : ∃ a, x = .ok a ∧ f a = .ok b := by
  cases x with
  | error fault => exact absurd h (by simp [bind, Except.bind])
  | ok a => exact ⟨a, rfl, h⟩

/-- A program over a state. -/
abbrev Prog (ε σ α : Type) := EStateM (Fault ε) σ α

namespace Prog

variable {ε σ α β : Type}

theorem bind_ok {x : Prog ε σ α} {f : α → Prog ε σ β} {s s' : σ} {a : α}
    (h : x s = .ok a s') : (x >>= f) s = f a s' := by
  show EStateM.bind x f s = f a s'
  rw [EStateM.bind, h]

theorem bind_error {x : Prog ε σ α} {f : α → Prog ε σ β} {s s' : σ} {e : Fault ε}
    (h : x s = .error e s') : (x >>= f) s = .error e s' := by
  show EStateM.bind x f s = .error e s'
  rw [EStateM.bind, h]

@[simp] theorem pure_run (a : α) (s : σ) : (pure a : Prog ε σ α) s = .ok a s := rfl

@[simp] theorem get_run (s : σ) : (get : Prog ε σ σ) s = .ok s s := rfl

@[simp] theorem get_bind (f : σ → Prog ε σ β) (s : σ) : ((get : Prog ε σ σ) >>= f) s = f s s := rfl

@[simp] theorem modify_bind (g : σ → σ) (f : PUnit → Prog ε σ β) (s : σ) :
    ((modify g : Prog ε σ PUnit) >>= f) s = f ⟨⟩ (g s) := rfl

@[simp] theorem pure_bind_run (a : α) (f : α → Prog ε σ β) (s : σ) :
    ((pure a : Prog ε σ α) >>= f) s = f a s := rfl

/-- A call that returns the error status `e`. -/
def fail (e : ε) : Prog ε σ α := throw (.status e)

@[simp] theorem fail_run (e : ε) (s : σ) : (fail e : Prog ε σ α) s = .error (.status e) s := rfl

/-- A pure computation as a program. -/
def ofOutcome : Outcome ε α → Prog ε σ α
  | .ok a => pure a
  | .error e => throw e

@[simp] theorem ofOutcome_ok (a : α) (s : σ) : (ofOutcome (.ok a) : Prog ε σ α) s = .ok a s := rfl

@[simp] theorem ofOutcome_error (e : Fault ε) (s : σ) :
    (ofOutcome (.error e) : Prog ε σ α) s = .error e s := rfl

/-- The status of a call as a value; other faults still stop the program. -/
def attempt (x : Prog ε σ α) : Prog ε σ (Except ε α) := fun s =>
  match x s with
  | .ok a s' => .ok (.ok a) s'
  | .error (.status e) s' => .ok (.error e) s'
  | .error f s' => .error f s'

theorem attempt_ok {x : Prog ε σ α} {s s' : σ} {a : α} (h : x s = .ok a s') :
    attempt x s = .ok (.ok a) s' := by
  simp only [attempt, h]

/-- The state a program leaves, however it ends. -/
def final (x : Prog ε σ α) (s : σ) : σ :=
  match x s with
  | .ok _ s' => s'
  | .error _ s' => s'

theorem final_ok {x : Prog ε σ α} {s s' : σ} {a : α} (h : x s = .ok a s') : final x s = s' := by
  rw [final, h]

theorem final_error {x : Prog ε σ α} {s s' : σ} {e : Fault ε} (h : x s = .error e s') :
    final x s = s' := by
  rw [final, h]

theorem final_congr {x y : Prog ε σ α} {s s' : σ} (h : x s = y s') : final x s = final y s' := by
  rw [final, final, h]

theorem final_bind_ok {x : Prog ε σ α} {f : α → Prog ε σ β} {s s' : σ} {a : α}
    (h : x s = .ok a s') : final (x >>= f) s = final (f a) s' := by
  rw [final, bind_ok h]
  rfl

theorem final_bind_error {x : Prog ε σ α} {f : α → Prog ε σ β} {s s' : σ} {e : Fault ε}
    (h : x s = .error e s') : final (x >>= f) s = s' := final_error (bind_error h)

theorem attempt_status {x : Prog ε σ α} {s s' : σ} {e : ε}
    (h : x s = .error (.status e) s') : attempt x s = .ok (.error e) s' := by
  simp only [attempt, h]

end Prog

end MinweightStore
