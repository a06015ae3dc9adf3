import MinweightStore.Store.SnapshotFile
import MinweightStore.Store.TornStores

/-!
# Stopping

A process that is stopped at a file-system call, or whose calls fail.

* `Env.Fails`, `Blamed` — a call that fails or kills the process, and the faults it is to blame for;
* `completes` — a program that returns, unless a call is to blame, and then leaves a disk that
  satisfies `D`;
* `NeverFails` — a program that may only be stopped, from any state;
* `completes_publishCheckpoint`, `completes_removeOld` — the two parts around the reset;
* `completes_resetToSnapshot` — the reset: a directory that is stopped at is opened as one that is not.
-/

namespace MinweightStore.Store

open Minpatricia (ByteView Position Index kMaxKeySize)

/-- Some call fails. -/
def Env.Fails (env : Env) : Prop := ∃ site t n, env site t = .fails n

theorem Env.reliable_not_fails : ¬ Env.reliable.Fails := fun ⟨_, _, _, h⟩ =>
  absurd h (by simp [Env.reliable])

/-- **A call is to blame for a fault**: some call fails, or the process is killed at one. -/
def Blamed (env : Env) (fault : Fault Status) : Prop :=
  env.Fails ∨ fault = .killed ∧ ¬ env.Survives

/-- When no call fails, a process is stopped by being killed. -/
theorem Blamed.killed {env : Env} {fault : Fault Status} (h : Blamed env fault)
    (henv : ¬ env.Fails) : fault = .killed ∧ ¬ env.Survives := h.resolve_left henv

/-- A process may be killed at its stores. -/
theorem Blamed.of_killed {env : Env} (h : ¬ env.Stores) : Blamed env .killed :=
  Or.inr ⟨rfl, fun henv => h henv.stores⟩

/-! ### Torn headers -/

/-- The generation that `ReadManifest` finds. -/
def Disk.generation? (d : Disk) : Option ℕ :=
  match d.manifest with
  | none => some kFirstWalGeneration
  | some content =>
    match decodeManifest (content.take 32) with
    | .ok manifest => some manifest.walGeneration
    | .error _ => none

/-- **A torn header**: a segment of the generation has a size, and a header that is neither zero nor
accepted. -/
structure TornAt (generation fileNo : ℕ) (f : WalFile) (d : Disk) : Prop where
  generation_eq : d.generation? = some generation
  pos : 0 < fileNo
  file : d.walFile? generation fileNo = some f
  torn : ¬ Openable f f.size

/-- **A directory with a torn header.** -/
def Torn (d : Disk) : Prop := ∃ generation fileNo f, TornAt generation fileNo f d

/-- **No header is spoiled**: the process is not killed at a store into one, or it is killed there
between two fields, and none is torn. -/
def LeavesWhole (env : Env) (d : Disk) : Prop :=
  env.SparesHeaders ∨ env.WholeFields ∧ ¬ Torn d

theorem LeavesWhole.wholeFields {env : Env} {d : Disk} (h : LeavesWhole env d) : env.WholeFields :=
  h.elim Env.SparesHeaders.wholeFields And.left

/-- **Where a process stops**: on a disk that satisfies `D`, or killed where a header is spoiled. -/
def Stops (env : Env) (D : Disk → Prop) (fault : Fault Status) (w : World) : Prop :=
  D w.disk ∨ fault = .killed ∧ ¬ LeavesWhole env w.disk

/-- **The process stops**, and a call is to blame. -/
def StoppedOn (env : Env) (D : Disk → Prop) (fault : Fault Status) (w : World) : Prop :=
  Blamed env fault ∧ Stops env D fault w

theorem Stops.mono {env : Env} {D D' : Disk → Prop} {fault : Fault Status} {w : World}
    (h : Stops env D fault w) (hD : ∀ d, D d → D' d) : Stops env D' fault w := h.imp_left (hD _)

/-- With a status it stops on a disk that satisfies `D`. -/
theorem Stops.status {env : Env} {D : Disk → Prop} {status : Status} {w : World}
    (h : Stops env D (.status status) w) : D w.disk := h.resolve_right (fun h => nomatch h.1)

/-- **A program that returns**, unless a call is to blame. -/
abbrev completes {α : Type} (env : Env) (D : Disk → Prop) (x : StoreM α) (Q : α → World → Prop)
    (w : World) : Prop := Prog.wp x Q (StoppedOn env D) w

/-- **However a program ends**, the disk then satisfies `D`, unless a header is spoiled. -/
abbrev endsOn {α : Type} (env : Env) (D : Disk → Prop) (x : StoreM α) (w : World) : Prop :=
  Prog.wp x (fun _ w' => D w'.disk) (Stops env D) w

/-! ### Rules -/

section Rules

variable {α β : Type} {env : Env} {site : Site} {D D' : Disk → Prop} {x : StoreM α}
  {Q Q' : α → World → Prop} {w : World}

theorem StoppedOn.mono {fault : Fault Status} (h : StoppedOn env D fault w)
    (hD : ∀ d, D d → D' d) : StoppedOn env D' fault w := ⟨h.1, h.2.mono hD⟩

theorem completes_mono (h : completes env D x Q w) (hD : ∀ d, D d → D' d)
    (hQ : ∀ a w', Q a w' → Q' a w') : completes env D' x Q' w :=
  Prog.wp_mono h hQ (fun _ _ h => h.mono hD)

theorem completes_bind {f : α → StoreM β} {R : β → World → Prop} (h : completes env D x Q w)
    (hf : ∀ a w', Q a w' → completes env D (f a) R w') : completes env D (x >>= f) R w :=
  Prog.wp_seq h hf (fun _ _ h => h)

/-- However it ends, the disk is known. -/
theorem completes_ends (h : completes env D x Q w) (hQ : ∀ a w', Q a w' → D w'.disk) :
    endsOn env D x w := Prog.wp_mono h (fun a w' h => hQ a w' h) (fun _ _ h => h.2)

theorem endsOn_of_ends (h : Prog.ends x (fun w' => D w'.disk) w) : endsOn env D x w :=
  Prog.wp_mono h (fun _ _ h => h) (fun _ _ h => Or.inl h)

theorem endsOn.mono (h : endsOn env D x w) (hD : ∀ d, D d → D' d) : endsOn env D' x w :=
  Prog.wp_mono h (fun _ _ h => hD _ h) (fun _ _ h => h.mono hD)

theorem endsOn_seq {f : α → StoreM β} (h : endsOn env D x w)
    (hf : ∀ a w', D w'.disk → endsOn env D (f a) w') : endsOn env D (x >>= f) w :=
  Prog.wp_seq h hf (fun _ _ h => h)

theorem endsOn_attempt (h : endsOn env D x w) : endsOn env D (Prog.attempt x) w := by
  refine Prog.wp_attempt.mpr (Prog.wp_mono h (fun _ _ h => h) (fun fault w' hw => ?_))
  cases fault with
  | status status => exact hw.status
  | undefined => exact hw
  | diverges => exact hw
  | killed => exact hw

/-- What is known of its faults. -/
theorem endsOn.faults (h : endsOn env D x w) : Prog.wp x (fun _ _ => True) (Stops env D) w :=
  Prog.wp_mono h (fun _ _ _ => trivial) (fun _ _ h => h)

/-- When all calls succeed, no call is to blame. -/
theorem completes_run (h : completes .reliable D x Q w) : ∃ a w', x w = .ok a w' ∧ Q a w' := by
  cases hrun : x w with
  | ok a w' => exact ⟨a, w', rfl, Prog.wp_run_ok h hrun⟩
  | error fault w' =>
    have hkilled := (Prog.wp_run_error h hrun).1.killed Env.reliable_not_fails
    exact absurd Env.reliable_survives hkilled.2

theorem completes_syscall {op : String} {effect : Disk → Disk}
    {Q : Unit → World → Prop} (hD : D w.disk) (hQ : Q () (w.onDisk (effect w.disk) (w.clock + 1))) :
    completes env D (syscall env site op effect) Q w := by
  rw [completes, Prog.wp, syscall]
  cases hd : env site w.clock with
  | succeeds => exact hQ
  | fails n => exact ⟨Or.inl ⟨_, _, n, hd⟩, Or.inl hD⟩
  | killed n => exact ⟨Or.inr ⟨rfl, fun h => h _ _ n hd⟩, Or.inl hD⟩

theorem completes_check {op : String} {Q : Unit → World → Prop} (hD : D w.disk)
    (hQ : Q () (w.onDisk w.disk (w.clock + 1))) : completes env D (check env site op) Q w :=
  completes_syscall hD hQ

/-- A status that is caught is one that a call is to blame for. -/
theorem completes_attempt (h : completes env D x Q w) {R : Except Status α → World → Prop}
    (hR : ∀ a w', Q a w' → R (.ok a) w')
    (hfails : env.Fails → ∀ status w', D w'.disk → R (.error status) w') :
    completes env D (Prog.attempt x) R w := by
  refine Prog.wp_attempt.mpr (Prog.wp_mono h hR (fun fault w' hw => ?_))
  obtain ⟨hblamed, hD⟩ := hw
  cases fault with
  | status status => exact hfails (hblamed.resolve_right (fun h => nomatch h.1)) status w' hD.status
  | undefined => exact ⟨hblamed, hD⟩
  | diverges => exact ⟨hblamed, hD⟩
  | killed => exact ⟨hblamed, hD⟩

/-- No status is caught when no call fails. -/
theorem completes_attempt_ok (henv : ¬ env.Fails) (h : completes env D x Q w)
    {R : Except Status α → World → Prop} (hR : ∀ a w', Q a w' → R (.ok a) w') :
    completes env D (Prog.attempt x) R w :=
  completes_attempt h hR (fun hfails => absurd hfails henv)

theorem completes_both (henv : ¬ env.Fails) {x y : StoreM Unit} {P : World → Prop}
    {R : Unit → World → Prop} (hx : completes env D x (fun _ => P) w)
    (hy : ∀ w', P w' → completes env D y R w') : completes env D (Prog.both x y) R w := by
  refine completes_bind (Q := fun r w' => r = .ok () ∧ P w')
    (completes_attempt_ok henv hx (fun _ _ h => ⟨rfl, h⟩)) (fun r w₁ h₁ => ?_)
  refine completes_bind (Q := fun r w' => r = .ok () ∧ R () w')
    (completes_attempt_ok henv (hy w₁ h₁.2) (fun _ _ h => ⟨rfl, h⟩)) (fun r' w₂ h₂ => ?_)
  rw [h₁.1, h₂.1]
  exact h₂.2

end Rules

/-! ### Programs that never fail -/

/-- **From any state, a program returns or is stopped.** -/
def NeverFails {α : Type} (env : Env) (x : StoreM α) : Prop :=
  ∀ w, completes env (fun _ => True) x (fun _ _ => True) w

section NeverFails

variable {α β : Type} {env : Env} {site : Site} {x : StoreM α}

/-- **Where such a program ends** is known from elsewhere; and where calls fail, any fault may be
blamed on them. -/
theorem completes_of {D : Disk → Prop} {Q : α → World → Prop} {w : World}
    (hends : Prog.wp x Q (fun _ w' => D w'.disk) w) (h : ¬ env.Fails → NeverFails env x) :
    completes env D x Q w := by
  by_cases henv : env.Fails
  · exact Prog.wp_mono hends (fun _ _ h => h) (fun _ _ h => ⟨Or.inl henv, Or.inl h⟩)
  · exact Prog.wp_mono (Prog.wp_and (h henv w) hends) (fun _ _ h => h.2)
      (fun _ _ h => ⟨h.1.1, Or.inl h.2⟩)

theorem neverFails_pure (a : α) : NeverFails env (pure a) := fun _ => trivial

theorem NeverFails.bind {f : α → StoreM β} (hx : NeverFails env x) (hf : ∀ a, NeverFails env (f a)) :
    NeverFails env (x >>= f) := fun w => completes_bind (hx w) (fun a w' _ => hf a w')

theorem neverFails_get_bind {f : World → StoreM α} (hf : ∀ w, NeverFails env (f w)) :
    NeverFails env (get >>= f) := fun w => Prog.wp_bind.mpr (hf w w)

theorem neverFails_syscall (op : String) (effect : Disk → Disk) :
    NeverFails env (syscall env site op effect) :=
  fun _ => completes_syscall trivial trivial

theorem neverFails_check (op : String) : NeverFails env (check env site op) :=
  neverFails_syscall op id

variable (henv : ¬ env.Fails)

include henv

theorem NeverFails.attempt_bind {f : Except Status α → StoreM β} (hx : NeverFails env x)
    (hf : ∀ a, NeverFails env (f (.ok a))) : NeverFails env (Prog.attempt x >>= f) := by
  intro w
  refine completes_bind (Q := fun r _ => ∃ a, r = .ok a)
    (completes_attempt_ok henv (hx w) (fun a _ _ => ⟨a, rfl⟩)) (fun r w' hr => ?_)
  obtain ⟨a, rfl⟩ := hr
  exact hf a w'

theorem NeverFails.both {x y : StoreM Unit} (hx : NeverFails env x) (hy : NeverFails env y) :
    NeverFails env (Prog.both x y) := fun w => completes_both henv (hx w) (fun w' _ => hy w')

theorem neverFails_allOf {xs : List (StoreM Unit)} (h : ∀ x ∈ xs, NeverFails env x) :
    NeverFails env (Prog.allOf xs) := by
  induction xs with
  | nil => exact neverFails_pure ()
  | cons x xs ih =>
    exact (h x List.mem_cons_self).both henv (ih (fun y hy => h y (List.mem_cons_of_mem _ hy)))

/-! ### Publishing -/

theorem neverFails_writeAll (data : List UInt8) (append : List UInt8 → Disk → Disk) :
    NeverFails env (writeAll env site data append) := by
  intro w
  rw [writeAll]
  split
  · trivial
  · rw [completes, Prog.wp, writeFile]
    cases hd : env site w.clock with
    | succeeds => trivial
    | fails n => exact absurd ⟨_, _, n, hd⟩ henv
    | killed n => exact ⟨Or.inr ⟨rfl, fun h => h _ _ n hd⟩, Or.inl trivial⟩

theorem neverFails_publish {writes : StoreM Unit} (hwrites : NeverFails env writes)
    (rename unlink : Disk → Disk) : NeverFails env (publish env site writes rename unlink) := by
  have hboth : NeverFails env
      (Prog.both (do writes; check env site "fsync") (check env site "close")) :=
    (hwrites.bind fun _ => neverFails_check _).both henv (neverFails_check _)
  refine hboth.attempt_bind henv (fun _ => ?_)
  refine (neverFails_syscall _ _).attempt_bind henv (fun _ => ?_)
  exact (neverFails_check _).bind fun _ => (neverFails_check _).both henv (neverFails_check _)

theorem neverFails_writeItems (generation : ℕ) {entries : List Item}
    (h : ∀ item ∈ entries, item.Fits) : NeverFails env (writeItems env site generation entries) := by
  have hmax : kMaxKeySize < 2 ^ 32 := by decide
  induction entries with
  | nil => exact neverFails_pure ()
  | cons item entries ih =>
    have hitem := h item List.mem_cons_self
    have hkey := hitem.key_le
    have hvalue := hitem.value_lt
    have hwrite : NeverFails env (writeItem env site generation item) := by
      rw [writeItem, if_neg (by omega)]
      exact (neverFails_writeAll henv _ _).bind fun _ => (neverFails_writeAll henv _ _).bind fun _ =>
        neverFails_writeAll henv _ _
    exact hwrite.bind fun _ => ih (fun i hi => h i (List.mem_cons_of_mem _ hi))

/-- **Publishing a checkpoint** of items that fit. -/
theorem neverFails_publishCheckpoint {generation : ℕ} (hg : generation ≠ 0) {entries : List Item}
    (h : ∀ item ∈ entries, item.Fits) : NeverFails env (publishCheckpoint env generation entries) := by
  have hsnapshot : NeverFails env (writeSnapshot env .checkpoint generation entries) := by
    rw [writeSnapshot, if_neg hg]
    refine (neverFails_syscall _ _).bind fun _ => neverFails_publish henv ?_ _ _
    exact (neverFails_writeAll henv _ _).bind fun _ => neverFails_writeItems henv generation h
  have hmanifest : NeverFails env (writeManifest env .checkpoint generation) := by
    rw [writeManifest, if_neg hg]
    refine (neverFails_syscall _ _).bind fun _ => neverFails_publish henv ?_ _ _
    exact neverFails_writeAll henv _ _
  exact hsnapshot.bind fun _ => (neverFails_syscall _ _).bind fun _ => hmanifest

/-! ### The cleanup -/

/-- The removals of `RemoveTree`: when all segment files are gone, so is the directory. -/
theorem completes_removeFiles (generation : ℕ) (names : List ℕ) {w : World} {dir : WalDir}
    (hdir : w.disk.wal.get? generation = some dir) (hnames : ∀ e ∈ dir.entries, e.1 ∈ names) :
    completes env (fun _ => True) (Prog.allOf (names.map (fun fileNo =>
        syscall env .cleanup "remove" fun d => d.eraseWalFile generation fileNo) ++
      [returnStatus (.ok ()), check env .cleanup "closedir", removeDir env generation]))
      (fun _ _ => True) w := by
  induction names generalizing w dir with
  | nil =>
    refine completes_both henv (P := fun w' => w' = w) rfl (fun w₁ h₁ => ?_)
    subst h₁
    refine completes_both henv (P := fun w' => w'.disk = w₁.disk) (completes_check trivial rfl)
      (fun w₂ h₂ => ?_)
    have hempty : dir.entries = [] := List.eq_nil_iff_forall_not_mem.mpr
      (fun e he => absurd (hnames e he) List.not_mem_nil)
    refine completes_both henv (P := fun _ => True) ?_ (fun _ _ => trivial)
    rw [removeDir, completes, Prog.wp_bind, Prog.wp_get, h₂, hdir]
    simp only [hempty, List.isEmpty_nil, if_true]
    exact completes_syscall trivial trivial
  | cons fileNo names ih =>
    refine completes_both henv (P := fun w' => w'.disk = w.disk.eraseWalFile generation fileNo)
      (completes_syscall trivial rfl) (fun w₁ h₁ => ?_)
    have herased : w₁.disk.wal.get? generation = some (dir.erase fileNo) := by
      rw [h₁, Disk.eraseWalFile, hdir]
      exact (SortedMap.get?_insert _ _ _ _).trans (if_pos rfl)
    refine ih herased (fun e he => ?_)
    obtain ⟨he, hne⟩ := (SortedMap.mem_erase dir fileNo e).mp he
    exact (List.mem_cons.mp (hnames e he)).resolve_left hne

/-- `RemoveTree`. -/
theorem neverFails_removeTree (generation : ℕ) : NeverFails env (removeTree env generation) := by
  intro w
  rw [removeTree, completes, Prog.wp_bind, Prog.wp_get]
  cases hdir : w.disk.wal.get? generation with
  | none => trivial
  | some dir =>
    refine completes_bind (Q := fun _ w' => w'.disk = w.disk) (completes_check trivial rfl)
      (fun _ w₁ h₁ => ?_)
    refine completes_bind (Q := fun r w' => r = (dir.entries.map Prod.fst, .ok ()) ∧
      w'.disk = w.disk) ?_ (fun r w₂ h₂ => ?_)
    · rw [completes, Prog.wp, readDir]
      cases hd : env .cleanup w₁.clock with
      | succeeds => exact ⟨rfl, h₁⟩
      | fails n => exact absurd ⟨_, _, n, hd⟩ henv
      | killed n => exact ⟨Or.inr ⟨rfl, fun h => h _ _ n hd⟩, Or.inl trivial⟩
    · obtain ⟨rfl, h₂⟩ := h₂
      refine completes_removeFiles henv generation _ (h₂ ▸ hdir) (fun e he => ?_)
      exact List.mem_map_of_mem he

/-- **The cleanup.** -/
theorem neverFails_removeOld (keep : ℕ) : NeverFails env (removeOld env keep) := by
  have hlist : ∀ generations, NeverFails env (listGenerations env generations) := fun _ =>
    (neverFails_check _).bind fun _ => (neverFails_check _).bind fun _ =>
      (neverFails_check _).bind fun _ => neverFails_get_bind fun _ => neverFails_pure _
  refine NeverFails.both henv ((hlist _).bind fun l => neverFails_allOf henv (fun x hx => ?_))
    ((hlist _).bind fun l => neverFails_allOf henv (fun x hx => ?_))
  · obtain ⟨generation, _, rfl⟩ := List.mem_map.mp hx
    exact neverFails_removeTree henv generation
  · obtain ⟨generation, _, rfl⟩ := List.mem_map.mp hx
    exact neverFails_syscall _ _

end NeverFails

section Checkpoint

variable {env : Env}

/-- **A checkpoint is published**, or the process is stopped at one of the four stages. -/
theorem completes_publishCheckpoint {generation : ℕ} (hg : generation ≠ 0) {entries : List Item}
    (h : ∀ item ∈ entries, item.Fits) (w : World) :
    completes env (Publishing generation (encodeSnapshot generation entries) w.disk)
      (publishCheckpoint env generation entries)
      (fun _ => OnlyDisk (Published generation (encodeSnapshot generation entries) w.disk) w) w :=
  completes_of (Prog.wp_mono wp_publishCheckpoint (fun _ _ h => h) (fun _ _ h => h.disk))
    (fun henv => neverFails_publishCheckpoint henv hg h)

/-- **The cleanup spares what it is to keep**, where it is stopped too. -/
theorem completes_removeOld (keep : ℕ) (w : World) :
    completes env (Cleaned keep w.disk) (removeOld env keep)
      (fun _ => OnlyDisk (Cleaned keep w.disk) w) w :=
  completes_of (Prog.wp_mono (ends_removeOld keep w) (fun _ _ h => h) (fun _ _ h => h.disk))
    (fun henv => neverFails_removeOld henv keep)

end Checkpoint

/-! ### The reset -/

/-- **A segment file that is being opened**: it will be opened as the file it was. -/
def OpeningFile (size generation fileNo : ℕ) (f : WalFile) (d₀ d : Disk) : Prop :=
  d = d₀ ∨ ∃ f', Openable f' size ∧ openedFile f' size = openedFile f size ∧
    d = d₀.setWalFile generation fileNo f'

section Reset

variable {env : Env} {site : Site} {generation size fileNo : ℕ} {w : World} {f : WalFile}
  {files : WalDir}

-- the header check runs over 4096 bytes and is never to be evaluated here
attribute [local irreducible] isZeroBytes

/-- **`WalSegment::Open`** on a file it accepts. -/
theorem completes_open (hgeneration : w.disk.generation? = some generation)
    (hlo : kWalHeaderSize + kWalRecordHeaderSize ≤ size) (hhi : size ≤ kRecordOffsetLimit)
    (hpos : 0 < fileNo) (hno : fileNo < 2 ^ 33) (hdir : w.disk.wal.get? generation = some files)
    (hf : f = (w.disk.walFile? generation fileNo).getD .empty) (hopen : Openable f size) :
    completes env (OpeningFile size generation fileNo f w.disk)
      (WalSegment.open' env site generation size fileNo) (fun seg w' =>
        seg = openedSegment fileNo size f ∧
        ∃ t, w' = w.onDisk (w.disk.setWalFile generation fileNo (openedFile f size)) t) w := by
  have hk : kWalHeaderSize = 4096 := rfl
  have hsize := sizedFile_size hopen
  obtain ⟨hresized, hsame⟩ := hopen.resized (show 0 < size by omega)
  have hplain : OpeningFile size generation fileNo f w.disk
      (w.disk.setWalFile generation fileNo f) := Or.inr ⟨f, hopen, rfl, rfl⟩
  have hsized : OpeningFile size generation fileNo f w.disk
      (w.disk.setWalFile generation fileNo (sizedFile f size)) := Or.inr ⟨_, hresized, hsame, rfl⟩
  have hfile : ∀ f' t, (w.onDisk (w.disk.setWalFile generation fileNo f') t).disk.walFile? generation
      fileNo = some f' := fun f' t => by
    rw [World.onDisk_disk, Disk.walFile?_setWalFile, if_pos ⟨rfl, rfl⟩]
  have hcreate : completes env (OpeningFile size generation fileNo f w.disk)
      (WalSegment.createFile env site generation fileNo)
      (fun _ w' => ∃ t, w' = w.onDisk (w.disk.setWalFile generation fileNo f) t) w := by
    rw [WalSegment.createFile, completes, Prog.wp_bind, Prog.wp_get, hdir]
    refine completes_syscall (Or.inl rfl) ⟨w.clock + 1, ?_⟩
    rw [createFile_effect w.disk hf]
  rw [WalSegment.open', if_neg (by omega),
    makeRecordPosition_eq hno (show kWalHeaderSize < 2 ^ 30 by decide) hpos]
  refine completes_bind hcreate (fun _ w₁ h₁ => ?_)
  obtain ⟨t₁, rfl⟩ := h₁
  refine completes_bind (Q := fun metadataDirty w' => metadataDirty = decide (f.size = 0) ∧
    ∃ t, w' = w.onDisk (w.disk.setWalFile generation fileNo (sizedFile f size)) t) ?_
    (fun metadataDirty w₂ h₂ => ?_)
  · -- the file is enlarged if it is empty, and else it has its size
    refine completes_bind (Q := fun _ w' => ∃ t, w' =
      w.onDisk (w.disk.setWalFile generation fileNo f) t) (completes_check hplain ⟨_, rfl⟩)
      (fun _ w₂ h₂ => ?_)
    obtain ⟨t₂, rfl⟩ := h₂
    rw [completes, Prog.wp_bind, Prog.wp_get]
    simp only [hfile, Option.getD_some]
    by_cases h0 : f.size = 0
    · rw [if_pos h0]
      refine completes_bind (Q := fun _ w' => ∃ t, w' =
        w.onDisk (w.disk.setWalFile generation fileNo (sizedFile f size)) t)
        (completes_syscall hplain ⟨t₂ + 1, ?_⟩) (fun _ _ h => ⟨(decide_eq_true h0).symm, h⟩)
      · rw [World.onDisk_disk, Disk.setWalFile_setWalFile, World.onDisk_onDisk, sizedFile, if_pos h0]
        rfl
    · have hself : sizedFile f size = f := by rw [sizedFile, if_neg h0]
      rw [hself] at hsize
      rw [if_neg h0, if_neg (not_not.mpr hsize), hself]
      exact ⟨(decide_eq_false h0).symm, t₂, rfl⟩
  · obtain ⟨rfl, t₂, rfl⟩ := h₂
    refine completes_bind (Q := fun _ w' => ∃ t, w' =
      w.onDisk (w.disk.setWalFile generation fileNo (sizedFile f size)) t)
      (completes_check hsized ⟨_, rfl⟩) (fun _ w₃ h₃ => ?_)
    obtain ⟨t₃, rfl⟩ := h₃
    obtain ⟨t, hheader⟩ := mapHeader_ok Env.reliable_survives.stores hopen
      (show kWalHeaderSize ≤ size by omega) (hfile (sizedFile f size) t₃)
    have hnonempty : (sizedFile f size).size ≠ 0 := by omega
    refine (tracks_mapHeader _ _ _ _).wp ((Prog.wp_of_ok hheader).mpr ⟨rfl, t, ?_⟩)
      (fun hdie w₄ hrun => ⟨Blamed.of_killed (fun hstores => hdie hstores.sparesHeaders), ?_⟩)
    · rw [World.onDisk_disk, Disk.setWalFile_setWalFile, World.onDisk_onDisk]
    by_cases hwhole : env.WholeFields
    · rcases Prog.wp_run_error (killed_mapHeader hwhole (hfile (sizedFile f size) t₃) hnonempty size
        (decide (f.size = 0))) hrun rfl with hdisk | ⟨f', htorn, hdisk⟩
      · exact Or.inl (hdisk ▸ hsized)
      · have hfound : w₄.disk.walFile? generation fileNo = some f' := by
          rw [hdisk, Disk.walFile?_setWalFile, if_pos ⟨rfl, rfl⟩]
        have hsame : w₄.disk.generation? = some generation := by
          rw [hdisk]
          exact hgeneration
        exact Or.inr ⟨rfl, fun h => h.elim hdie (fun h =>
          h.2 ⟨generation, fileNo, f', hsame, hpos, hfound, htorn⟩)⟩
    · exact Or.inr ⟨rfl, fun h => hwhole h.wholeFields⟩

/-- **`SegmentedRecordStore::Close`** changes no file. -/
theorem completes_closeRecords (sync : Bool) :
    completes env (fun d => d = w.disk) (closeRecords env site sync)
      (fun _ w' => ∃ t, w' = w.drained.onDisk w.disk t) w := by
  have hall : Prog.ends (Prog.allOf (w.records.segments.entries.map fun e =>
      e.2.close env site sync)) (OnlyDisk (fun d => d = w.disk) w) w := by
    refine Prog.ends_allOf (fun x hx w' h' => ?_) (OnlyDisk.refl rfl)
    obtain ⟨e, _, rfl⟩ := List.mem_map.mp hx
    exact ends_close sync e.2 h'
  refine completes_of ?_ (fun henv => ?_)
  · rw [closeRecords, Prog.wp_bind, Prog.wp_get]
    refine Prog.wp_seq (Prog.ends_attempt hall) (fun r w₁ h₁ => ?_) (fun _ _ h => h.disk)
    obtain ⟨d, t, rfl, rfl⟩ := h₁
    rw [Prog.wp_bind, Prog.wp_modify]
    cases r with
    | ok _ => exact ⟨t, rfl⟩
    | error status => exact rfl
  · have hclose : ∀ seg : WalSegment, NeverFails env (seg.close env site sync) := by
      intro seg
      have hmetadata : NeverFails env
          (if seg.metadataDirty = true then check env site "fsync" else pure ()) := by
        split
        · exact neverFails_check _
        · exact neverFails_pure ()
      refine NeverFails.both henv ?_ ((neverFails_check _).both henv (neverFails_check _))
      split
      · rw [WalSegment.sync]
        split
        · exact (neverFails_check _).bind fun _ => hmetadata
        · exact hmetadata
      · exact neverFails_pure ()
    refine neverFails_get_bind fun w =>
      NeverFails.attempt_bind henv (neverFails_allOf henv fun x hx => ?_)
      (fun _ w' => trivial)
    obtain ⟨e, _, rfl⟩ := List.mem_map.mp hx
    exact hclose e.2

/-- **`ResetToSnapshot`** of a generation with a directory. -/
theorem completes_resetToSnapshot (hgeneration : w.disk.generation? = some generation) (h : LogOk w)
    (hg : generation ≠ 0) (hdir : w.disk.wal.get? generation = some files)
    (hf : f = (files.get? kFirstWalSegmentNo).getD .empty) (hopen : Openable f w.records.walSize) :
    completes env (OpeningFile w.records.walSize generation kFirstWalSegmentNo f w.disk)
      (resetToSnapshot env generation) (fun _ w' => ∃ t t', w' = ((w.resetting generation t).onDisk
        (w.disk.setWalFile generation kFirstWalSegmentNo (openedFile f w.records.walSize))
        t').setSegment { openedSegment kFirstWalSegmentNo w.records.walSize f with
          isSealed := false }) w := by
  have hstart : OpeningFile w.records.walSize generation kFirstWalSegmentNo f w.disk w.disk :=
    Or.inl rfl
  rw [resetToSnapshot, if_neg hg]
  refine completes_bind (completes_mono (completes_closeRecords false)
    (fun d hd => hd ▸ hstart) (fun _ _ h => h)) (fun _ w₁ h₁ => ?_)
  obtain ⟨t₁, rfl⟩ := h₁
  refine completes_bind (Q := fun _ w' => ∃ t, w' = w.drained.onDisk w.disk t)
    (completes_syscall hstart ⟨t₁ + 1, ?_⟩) (fun _ w₂ h₂ => ?_)
  · rw [World.onDisk_disk, hdir, if_pos (show (some files).isSome = true from rfl)]
    rfl
  obtain ⟨t₂, rfl⟩ := h₂
  rw [completes, Prog.wp_bind, Prog.wp_modify]
  have hf' : f = ((w.resetting generation t₂).disk.walFile? generation kFirstWalSegmentNo).getD
      .empty := by
    have hfiles : w.disk.dir generation = files := by
      rw [Disk.dir, hdir]
      rfl
    show f = ((w.disk.dir generation).get? kFirstWalSegmentNo).getD .empty
    rw [hfiles, hf]
  have hrun : completes env _ (WalSegment.open' env .reset generation w.records.walSize
      kFirstWalSegmentNo) _ (w.resetting generation t₂) :=
    completes_open hgeneration h.size_lo h.size_hi (by decide) (by decide) hdir hf' hopen
  show completes env _ (get >>= _) _ (w.resetting generation t₂)
  rw [completes, Prog.wp_bind, Prog.wp_get]
  refine completes_bind hrun (fun seg w₃ h₃ => ?_)
  obtain ⟨rfl, t, rfl⟩ := h₃
  exact Prog.wp_modify.mpr ⟨t₂, t, rfl⟩

end Reset

end MinweightStore.Store
