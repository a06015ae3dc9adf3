import MinweightStore.Store.Checkpoint
import MinweightStore.Store.Checksum

/-!
# Files read and written in one piece

What the calls on a descriptor come to: a file that is published holds the bytes that were written
to its temporary file, and a read takes bytes off the front of what is left.

* `returns` — how a program ends if it returns a value;
* `returns_publish`, `publish_ok` — the temporary file, closed and renamed;
* `readAll_ok`, `returns_readAll`, `readPart_ok`, `returns_readPart` — a read of a number of bytes.
-/

namespace MinweightStore.Store

open Minpatricia (ByteView)

/-- How a program ends, if it returns a value. -/
abbrev returns {α : Type} (x : StoreM α) (Q : α → World → Prop) (w : World) : Prop :=
  Prog.wp x Q (fun _ _ => True) w

section Returns

variable {α β : Type} {x : StoreM α} {Q Q' : α → World → Prop} {w : World}

theorem returns_trivial (x : StoreM α) (w : World) : returns x (fun _ _ => True) w := by
  rw [returns, Prog.wp]
  split <;> trivial

theorem returns_mono (h : returns x Q w) (hQ : ∀ a w', Q a w' → Q' a w') : returns x Q' w :=
  Prog.wp_mono h hQ (fun _ _ _ => trivial)

theorem returns_bind {f : α → StoreM β} {R : β → World → Prop} (h : returns x Q w)
    (hf : ∀ a w', Q a w' → returns (f a) R w') : returns (x >>= f) R w :=
  Prog.wp_seq h hf (fun _ _ _ => trivial)

theorem returns_attempt {R : Except Status α → World → Prop} (h : returns x Q w)
    (hok : ∀ a w', Q a w' → R (.ok a) w') (herr : ∀ status w', R (.error status) w') :
    returns (Prog.attempt x) R w := by
  refine Prog.wp_attempt.mpr (Prog.wp_mono h hok (fun e w' _ => ?_))
  cases e with
  | status status => exact herr status w'
  | undefined => trivial
  | diverges => trivial
  | killed => trivial

theorem returns_both {x y : StoreM Unit} {P Q : World → Prop} (hx : returns x (fun _ => P) w)
    (hy : ∀ w', P w' → returns y (fun _ => Q) w') : returns (Prog.both x y) (fun _ => Q) w :=
  Prog.wp_both hx hy (fun _ _ _ => returns_trivial y _) (fun _ _ _ _ => trivial)

theorem returns_ofOutcome {o : Result α} (h : ∀ a, o = .ok a → Q a w) :
    returns (Prog.ofOutcome o) Q w :=
  Prog.wp_ofOutcome.mpr ⟨h, fun _ _ => trivial⟩

end Returns

theorem reliableAt_reliable (site : Site) : Env.reliable.ReliableAt site := fun _ => rfl

section Calls

variable {env : Env} {site : Site} {w : World}

theorem returns_syscall {op : String} {effect : Disk → Disk} {Q : Unit → World → Prop}
    (h : Q () (w.onDisk (effect w.disk) (w.clock + 1))) :
    returns (syscall env site op effect) Q w := by
  rw [returns, Prog.wp, syscall]
  cases env site w.clock with
  | succeeds => exact h
  | fails n => trivial
  | killed n => trivial

theorem returns_check {op : String} {Q : Unit → World → Prop}
    (h : Q () (w.onDisk w.disk (w.clock + 1))) : returns (check env site op) Q w :=
  returns_syscall h

/-! ### Writing -/

theorem returns_writeAll {data : List UInt8} {append : List UInt8 → Disk → Disk}
    (hnil : append [] w.disk = w.disk) :
    returns (writeAll env site data append) (fun _ w' => w'.disk = append data w.disk) w := by
  rw [writeAll]
  cases data with
  | nil => exact hnil.symm
  | cons b data =>
    rw [if_neg (by simp), returns, Prog.wp, writeFile]
    cases env site w.clock with
    | succeeds => rfl
    | fails n => trivial
    | killed n => trivial

theorem returns_syncDir {d : Disk} (h : w.disk = d) :
    returns (syncDir env site) (fun _ w' => w'.disk = d) w := by
  refine returns_bind (Q := fun _ w' => w'.disk = d) (returns_check h) (fun _ w₁ h₁ => ?_)
  exact returns_both (P := fun w' => w'.disk = d) (returns_check h₁)
    (fun w₂ h₂ => returns_check h₂)

/-- **A published file**: what was written to the temporary file, renamed. -/
theorem returns_publish {writes : StoreM Unit} {rename unlink : Disk → Disk} {d : Disk}
    (h : returns writes (fun _ w' => w'.disk = d) w) :
    returns (publish env site writes rename unlink) (fun _ w' => w'.disk = rename d) w := by
  have hwritten : returns (Prog.both (do writes; check env site "fsync") (check env site "close"))
      (fun _ w' => w'.disk = d) w := by
    refine returns_both (P := fun w' => w'.disk = d) ?_ (fun w₁ h₁ => returns_check h₁)
    exact returns_bind h (fun _ w₁ h₁ => returns_check h₁)
  refine returns_bind (Q := fun r w' => ∀ a, r = .ok a → w'.disk = d)
    (returns_attempt hwritten (fun _ _ h₁ _ _ => h₁) (fun _ _ _ hr => absurd hr (by simp))) ?_
  intro written w₁ h₁
  cases written with
  | error status => exact returns_bind (returns_trivial _ _) (fun _ _ _ => trivial)
  | ok a =>
    have hdisk := h₁ a rfl
    refine returns_bind (Q := fun r w' => ∀ a, r = .ok a → w'.disk = rename d)
      (returns_attempt (returns_syscall (Q := fun _ w' => w'.disk = rename d) ?_)
        (fun _ _ h₂ _ _ => h₂) (fun _ _ _ hr => absurd hr (by simp))) ?_
    · rw [World.onDisk_disk, hdisk]
    · intro renamed w₂ h₂
      cases renamed with
      | error status => exact returns_bind (returns_trivial _ _) (fun _ _ _ => trivial)
      | ok a => exact returns_syncDir (h₂ a rfl)

theorem writeAll_ok (h : env.ReliableAt site) (data : List UInt8)
    (append : List UInt8 → Disk → Disk) (w : World) (hnil : append [] w.disk = w.disk) :
    ∃ t, writeAll env site data append w = .ok () (w.onDisk (append data w.disk) t) := by
  rw [writeAll]
  cases data with
  | nil =>
    refine ⟨w.clock, ?_⟩
    rw [hnil]
    rfl
  | cons b data =>
    refine ⟨w.clock + 1, ?_⟩
    rw [if_neg (by simp), writeFile, h]
    rfl

theorem syncDir_ok (h : env.ReliableAt site) (w : World) :
    ∃ t, syncDir env site w = .ok () (w.onDisk w.disk t) := by
  refine ⟨w.clock + 1 + 1 + 1, ?_⟩
  rw [syncDir, Prog.bind_ok (check_ok h "open_dir" w)]
  exact Prog.both_ok (check_ok h "fsync_dir" _) (check_ok h "close_dir" _)

/-- **A file is published** when all calls succeed. -/
theorem publish_ok (h : env.ReliableAt site) {writes : StoreM Unit} (rename unlink : Disk → Disk)
    {d : Disk} {t : ℕ} (hwrites : writes w = .ok () (w.onDisk d t)) :
    ∃ t', publish env site writes rename unlink w = .ok () (w.onDisk (rename d) t') := by
  have hwritten : Prog.both (do writes; check env site "fsync") (check env site "close") w =
      .ok () (w.onDisk d (t + 1 + 1)) := by
    refine Prog.both_ok ?_ (check_ok h "close" (w.onDisk d (t + 1)))
    rw [Prog.bind_ok hwrites]
    exact check_ok h "fsync" _
  obtain ⟨t', hsync⟩ := syncDir_ok h (w.onDisk (rename d) (t + 1 + 1 + 1))
  refine ⟨t', ?_⟩
  rw [publish, Prog.bind_ok (Prog.attempt_ok hwritten)]
  simp only
  rw [Prog.bind_ok (Prog.attempt_ok (syscall_ok h "rename" rename _))]
  exact hsync

/-! ### Reading -/

variable (rest : List UInt8) (size : ℕ)

theorem readAll_ok (h : env.ReliableAt site) (w : World) (hsize : size ≤ rest.length) :
    readAll env site rest size w =
      .ok (rest.take size, rest.drop size) (w.onDisk w.disk (w.clock + 1)) := by
  rw [readAll, Prog.bind_ok (check_ok h "read" w), if_neg (by omega)]
  rfl

variable {rest size}

/-- A read that succeeds takes its bytes off the front. -/
theorem returns_readAll : returns (readAll env site rest size) (fun r w' =>
    w'.disk = w.disk ∧ rest = r.1 ++ r.2 ∧ r.1.length = size) w := by
  refine returns_bind (Q := fun _ w' => w'.disk = w.disk) (returns_check rfl) (fun _ w₁ h₁ => ?_)
  by_cases hlt : rest.length < size
  · rw [if_pos hlt]
    trivial
  · rw [if_neg hlt]
    refine ⟨h₁, (List.take_append_drop size rest).symm, ?_⟩
    rw [List.length_take]
    omega

variable (rest size) in
theorem readPart_ok (h : env.ReliableAt site) (w : World) (hsize : size ≤ rest.length) :
    ∃ t, readPart env site rest size w = .ok (rest.take size, rest.drop size) (w.onDisk w.disk t) := by
  rw [readPart]
  split
  · rename_i hzero
    subst hzero
    exact ⟨w.clock, rfl⟩
  · exact ⟨w.clock + 1, readAll_ok rest size h w hsize⟩

theorem returns_readPart : returns (readPart env site rest size) (fun r w' =>
    w'.disk = w.disk ∧ rest = r.1 ++ r.2 ∧ r.1.length = size) w := by
  rw [readPart]
  split
  · rename_i hzero
    exact ⟨rfl, rfl, hzero.symm⟩
  · exact returns_readAll

end Calls

end MinweightStore.Store
