import MinweightStore.Store.Files
import MinweightStore.Store.Impl

/-!
# Publishing a checkpoint

What is on the disk while a checkpoint is being published and old generations are being removed,
wherever the calls fail or the process dies.

* `OnlyDisk`, `HasFiles` — a state that differs in the disk only, and what is on the disk besides
  temporary files;
* `wp_publish`, `wp_writeSnapshot`, `wp_writeManifest` — a file is the old one or the new one;
* `Publishing`, `wp_publishCheckpoint` — **the disk of a checkpoint goes through four stages**;
* `Cleaned`, `ends_removeOld` — the cleanup spares the generation it is to keep.
-/

namespace MinweightStore.Store

open Minpatricia (ByteView)

/-! ### Disks -/

/-- **Only the disk, and the clock, may differ**, and the disk satisfies `P`. -/
def OnlyDisk (P : Disk → Prop) (w w' : World) : Prop := ∃ d t, w' = w.onDisk d t ∧ P d

/-- **The files of a disk**, but for temporary ones. -/
structure HasFiles (manifest : Option (List UInt8)) (snapshots : SortedMap ℕ (List UInt8))
    (wal : SortedMap ℕ WalDir) (d : Disk) : Prop where
  manifest_eq : d.manifest = manifest
  snapshots_eq : d.snapshots = snapshots
  wal_eq : d.wal = wal

section OnlyDisk

variable {P Q R : Disk → Prop} {w w₀ : World}

theorem OnlyDisk.refl (h : P w.disk) : OnlyDisk P w w := ⟨w.disk, w.clock, rfl, h⟩

theorem OnlyDisk.mono (h : OnlyDisk P w₀ w) (hPQ : ∀ d, P d → Q d) : OnlyDisk Q w₀ w := by
  obtain ⟨d, t, rfl, hd⟩ := h
  exact ⟨d, t, rfl, hPQ d hd⟩

theorem OnlyDisk.onDisk (h : OnlyDisk P w₀ w) {d : Disk} (t : ℕ) (hd : Q d) :
    OnlyDisk Q w₀ (w.onDisk d t) := by
  obtain ⟨_, _, rfl, _⟩ := h
  exact ⟨d, t, rfl, hd⟩

theorem OnlyDisk.disk (h : OnlyDisk P w₀ w) : P w.disk := by
  obtain ⟨_, _, rfl, hd⟩ := h
  exact hd

theorem OnlyDisk.records (h : OnlyDisk P w₀ w) : w.records = w₀.records := by
  obtain ⟨_, _, rfl, _⟩ := h
  rfl

end OnlyDisk

/-! ### Calls -/

section Calls

variable {env : Env} {site : Site} {P Q R : Disk → Prop} {w w₀ : World}

/-- A call with an effect. -/
theorem wp_effect {op : String} {effect : Disk → Disk} (h : OnlyDisk P w₀ w)
    (heffect : ∀ d, P d → Q (effect d)) : Prog.wp (syscall env site op effect)
      (fun _ => OnlyDisk Q w₀) (fun _ => OnlyDisk P w₀) w := by
  have hd := h.disk
  rw [Prog.wp, syscall]
  cases env site w.clock with
  | succeeds => exact h.onDisk _ (heffect _ hd)
  | fails n => exact h.onDisk _ hd
  | killed n => exact h

theorem ends_effect {op : String} {effect : Disk → Disk} (h : OnlyDisk P w₀ w)
    (heffect : ∀ d, P d → P (effect d)) : Prog.ends (syscall env site op effect) (OnlyDisk P w₀) w :=
  wp_effect h heffect

theorem ends_check {op : String} (h : OnlyDisk P w₀ w) :
    Prog.ends (check env site op) (OnlyDisk P w₀) w := ends_effect h (fun _ hd => hd)

/-- `WriteAll`: all of the bytes, or some of them and a failure. -/
theorem wp_writeAll {data : List UInt8} {append : List UInt8 → Disk → Disk} (h : OnlyDisk P w₀ w)
    (hall : ∀ d, P d → Q (append data d)) (hnone : data = [] → ∀ d, P d → Q d)
    (hsome : ∀ n d, P d → R (append (data.take n) d)) :
    Prog.wp (writeAll env site data append) (fun _ => OnlyDisk Q w₀) (fun _ => OnlyDisk R w₀) w := by
  have hd := h.disk
  rw [writeAll]
  split
  · rename_i hempty
    exact h.mono (hnone (List.isEmpty_iff.mp hempty))
  · rw [Prog.wp, writeFile]
    cases env site w.clock with
    | succeeds => exact h.onDisk _ (hall _ hd)
    | fails n => exact h.onDisk _ (hsome n _ hd)
    | killed n => exact h.onDisk w.clock (hsome n _ hd)

theorem ends_syncDir (h : OnlyDisk P w₀ w) : Prog.ends (syncDir env site) (OnlyDisk P w₀) w :=
  Prog.ends_seq (ends_check h) (fun _ _ h => Prog.ends_both (ends_check h) (fun _ h => ends_check h))

/-- **A published file**: before the rename nothing has changed that `P` does not allow. -/
theorem wp_publish {writes : StoreM Unit} {rename unlink : Disk → Disk}
    (hwrites : Prog.wp writes (fun _ => OnlyDisk R w₀) (fun _ => OnlyDisk P w₀) w)
    (hRP : ∀ d, R d → P d) (hunlink : ∀ d, P d → P (unlink d)) (hrename : ∀ d, R d → Q (rename d)) :
    Prog.wp (publish env site writes rename unlink) (fun _ => OnlyDisk Q w₀)
      (fun _ => OnlyDisk (fun d => P d ∨ Q d) w₀) w := by
  have hleft : ∀ {w'}, OnlyDisk P w₀ w' → OnlyDisk (fun d => P d ∨ Q d) w₀ w' :=
    fun h => h.mono (fun _ => Or.inl)
  have hgiveUp : ∀ {status : Status} {w'}, OnlyDisk P w₀ w' →
      Prog.wp (do
        Prog.ignore (syscall env site "unlink" unlink)
        Prog.fail status) (fun (_ : Unit) => OnlyDisk Q w₀)
        (fun _ => OnlyDisk (fun d => P d ∨ Q d) w₀) w' := fun h =>
    Prog.wp_seq (Prog.ends_ignore (ends_effect h hunlink)) (fun _ _ h => hleft h)
      (fun _ _ h => hleft h)
  rw [publish, Prog.wp_bind, Prog.wp_attempt]
  have hboth : Prog.wp (Prog.both (do writes; check env site "fsync") (check env site "close"))
      (fun _ => OnlyDisk R w₀) (fun _ => OnlyDisk P w₀) w := by
    refine Prog.wp_both (P := OnlyDisk R w₀) ?_ (fun _ h => ?_) (fun _ _ h => ends_check h)
      (fun _ _ _ h => h)
    · refine Prog.wp_seq hwrites (fun _ _ h => ?_) (fun _ _ h => h)
      exact Prog.wp_mono (ends_check h) (fun _ _ h => h) (fun _ _ h => h.mono hRP)
    · exact Prog.wp_mono (ends_check h) (fun _ _ h => h) (fun _ _ h => h.mono hRP)
  apply Prog.wp_mono hboth
  · intro _ w₁ h₁
    rw [Prog.wp_bind, Prog.wp_attempt]
    apply Prog.wp_mono (wp_effect h₁ hrename)
    · intro _ w₂ h₂
      exact Prog.wp_mono (ends_syncDir h₂) (fun _ _ h => h) (fun _ _ h => h.mono (fun _ => Or.inr))
    · intro fault w₂ h₂
      cases fault with
      | status status => exact hgiveUp (h₂.mono hRP)
      | undefined => exact hleft (h₂.mono hRP)
      | diverges => exact hleft (h₂.mono hRP)
      | killed => exact hleft (h₂.mono hRP)
  · intro fault w₁ h₁
    cases fault with
    | status status => exact hgiveUp h₁
    | undefined => exact hleft h₁
    | diverges => exact hleft h₁
    | killed => exact hleft h₁

/-! ### Reading -/

theorem ends_readAll {rest : List UInt8} {size : ℕ} (h : OnlyDisk P w₀ w) :
    Prog.ends (readAll env site rest size) (OnlyDisk P w₀) w := by
  refine Prog.ends_seq (ends_check h) (fun _ w₁ h₁ => ?_)
  split
  · exact h₁
  · exact h₁

theorem ends_readPart {rest : List UInt8} {size : ℕ} (h : OnlyDisk P w₀ w) :
    Prog.ends (readPart env site rest size) (OnlyDisk P w₀) w := by
  rw [readPart]
  split
  · exact h
  · exact ends_readAll h

theorem ends_readItem {rest : List UInt8} (h : OnlyDisk P w₀ w) :
    Prog.ends (readItem env site rest) (OnlyDisk P w₀) w := by
  refine Prog.ends_seq (ends_readAll h) (fun header w₁ h₁ => ?_)
  simp only
  split
  · exact h₁
  refine Prog.ends_seq (ends_readPart h₁) (fun key w₂ h₂ => ?_)
  refine Prog.ends_seq (ends_readPart h₂) (fun value w₃ h₃ => ?_)
  split
  · exact h₃
  · exact h₃

theorem ends_readItems (count : ℕ) {rest : List UInt8} (h : OnlyDisk P w₀ w) :
    Prog.ends (readItems env site count rest) (OnlyDisk P w₀) w := by
  induction count generalizing w rest with
  | zero => exact h
  | succ count ih =>
    refine Prog.ends_seq (ends_readItem h) (fun item w₁ h₁ => ?_)
    exact Prog.ends_seq (ih h₁) (fun _ _ h => h)

/-- **`ReadSnapshot`** changes no file. -/
theorem ends_readSnapshot {generation : ℕ} (h : OnlyDisk P w₀ w) :
    Prog.ends (readSnapshot env site generation) (OnlyDisk P w₀) w := by
  rw [readSnapshot]
  split
  · exact h
  refine Prog.ends_seq (ends_check h) (fun _ w₁ h₁ => Prog.ends_get ?_)
  cases w₁.disk.snapshots.get? generation with
  | none => exact h₁
  | some content =>
    refine Prog.ends_seq (ends_readAll h₁) (fun header w₂ h₂ => ?_)
    refine Prog.ends_seq (Prog.ends_ofOutcome h₂) (fun count w₃ h₃ => ?_)
    refine Prog.ends_seq (ends_readItems count h₃) (fun entries w₄ h₄ => ?_)
    exact Prog.ends_seq (ends_check h₄) (fun _ _ h => h)

/-- **`ReadManifest`** changes no file. -/
theorem ends_readManifest (h : OnlyDisk P w₀ w) :
    Prog.ends (readManifest env site) (OnlyDisk P w₀) w := by
  refine Prog.ends_seq (ends_check h) (fun _ w₁ h₁ => Prog.ends_get ?_)
  cases w₁.disk.manifest with
  | none => exact h₁
  | some content =>
    refine Prog.ends_seq (Prog.ends_attempt (ends_readAll h₁)) (fun data w₂ h₂ => ?_)
    refine Prog.ends_seq (Prog.ends_attempt (ends_check h₂)) (fun closed w₃ h₃ => ?_)
    cases data with
    | error status => exact h₃
    | ok data =>
      cases closed with
      | error status => exact h₃
      | ok _ => exact Prog.ends_ofOutcome h₃

end Calls

/-! ### Snapshots and the manifest -/

section Files

variable {env : Env} {site : Site} {w w₀ : World} {generation : ℕ}
  {manifest : Option (List UInt8)} {snapshots : SortedMap ℕ (List UInt8)} {wal : SortedMap ℕ WalDir}
  {content : List UInt8}

/-- The files of a disk, and the bytes in the temporary file of a snapshot. -/
def SnapshotBegun (manifest : Option (List UInt8)) (snapshots : SortedMap ℕ (List UInt8))
    (wal : SortedMap ℕ WalDir) (generation : ℕ) (content : List UInt8) (d : Disk) : Prop :=
  HasFiles manifest snapshots wal d ∧ d.snapshotTmps.get? generation = some content

theorem SnapshotBegun.append {d : Disk} (data : List UInt8)
    (h : SnapshotBegun manifest snapshots wal generation content d) :
    SnapshotBegun manifest snapshots wal generation (content ++ data)
      (appendSnapshotTmp generation data d) := by
  obtain ⟨⟨h1, h2, h3⟩, htmp⟩ := h
  refine ⟨⟨h1, h2, h3⟩, ?_⟩
  show (d.snapshotTmps.insert generation _).get? generation = _
  rw [SortedMap.get?_insert, if_pos rfl, htmp]
  rfl

/-- More bytes of a snapshot. -/
theorem wp_appendSnapshot (data : List UInt8)
    (h : OnlyDisk (SnapshotBegun manifest snapshots wal generation content) w₀ w) :
    Prog.wp (writeAll env site data (appendSnapshotTmp generation))
      (fun _ => OnlyDisk (SnapshotBegun manifest snapshots wal generation (content ++ data)) w₀)
      (fun _ => OnlyDisk (HasFiles manifest snapshots wal) w₀) w := by
  refine wp_writeAll h (fun _ hd => hd.append data) (fun hdata d hd => ?_)
    (fun n _ hd => (hd.append (data.take n)).1)
  rw [hdata, List.append_nil]
  exact hd

/-- **The items of a snapshot**, by induction on them. -/
theorem wp_writeItems (entries : List Item)
    (h : OnlyDisk (SnapshotBegun manifest snapshots wal generation content) w₀ w) :
    Prog.wp (writeItems env site generation entries)
      (fun _ => OnlyDisk (SnapshotBegun manifest snapshots wal generation
        (content ++ (entries.map encodeItem).flatten)) w₀)
      (fun _ => OnlyDisk (HasFiles manifest snapshots wal) w₀) w := by
  induction entries generalizing w content with
  | nil =>
    rw [List.map_nil, List.flatten_nil, List.append_nil]
    exact h
  | cons item entries ih =>
    have hitem : Prog.wp (writeItem env site generation item)
        (fun _ => OnlyDisk (SnapshotBegun manifest snapshots wal generation
          (content ++ encodeItem item)) w₀)
        (fun _ => OnlyDisk (HasFiles manifest snapshots wal) w₀) w := by
      rw [writeItem]
      split
      · exact h.mono (fun _ hd => hd.1)
      · refine Prog.wp_seq (wp_appendSnapshot _ h) (fun _ _ h₁ => ?_) (fun _ _ h => h)
        refine Prog.wp_seq (wp_appendSnapshot _ h₁) (fun _ _ h₂ => ?_) (fun _ _ h => h)
        rw [encodeItem, ← List.append_assoc, ← List.append_assoc]
        exact wp_appendSnapshot _ h₂
    refine Prog.wp_seq hitem (fun _ _ h₁ => ?_) (fun _ _ h => h)
    rw [List.map_cons, List.flatten_cons, ← List.append_assoc]
    exact ih h₁

/-- **`WriteSnapshot`**: the snapshot of its generation is the old one or the new one. -/
theorem wp_writeSnapshot (entries : List Item)
    (h : OnlyDisk (HasFiles manifest snapshots wal) w₀ w) :
    Prog.wp (writeSnapshot env site generation entries)
      (fun _ => OnlyDisk (HasFiles manifest
        (snapshots.insert generation (encodeSnapshot generation entries)) wal) w₀)
      (fun _ => OnlyDisk (fun d => HasFiles manifest snapshots wal d ∨ HasFiles manifest
        (snapshots.insert generation (encodeSnapshot generation entries)) wal d) w₀) w := by
  have hleft : ∀ {w'}, OnlyDisk (HasFiles manifest snapshots wal) w₀ w' →
      OnlyDisk (fun d => HasFiles manifest snapshots wal d ∨ HasFiles manifest
        (snapshots.insert generation (encodeSnapshot generation entries)) wal d) w₀ w' :=
    fun h => h.mono (fun _ => Or.inl)
  rw [writeSnapshot]
  split
  · exact hleft h
  refine Prog.wp_seq (wp_effect (Q := SnapshotBegun manifest snapshots wal generation []) h
    (fun d hd => ⟨⟨hd.1, hd.2, hd.3⟩, ?_⟩)) (fun _ w₁ h₁ => ?_) (fun _ _ h => hleft h)
  · exact (SortedMap.get?_insert _ _ _ _).trans (if_pos rfl)
  · apply wp_publish (R := SnapshotBegun manifest snapshots wal generation
      (encodeSnapshot generation entries))
    · refine Prog.wp_seq (wp_appendSnapshot _ h₁) (fun _ _ h₂ => ?_) (fun _ _ h => h)
      exact wp_writeItems entries h₂
    · exact fun _ hd => hd.1
    · exact fun d hd => ⟨hd.1, hd.2, hd.3⟩
    · rintro d ⟨hd, htmp⟩
      refine ⟨hd.1, ?_, hd.3⟩
      show d.snapshots.insert generation ((d.snapshotTmps.get? generation).getD []) = _
      rw [htmp, hd.2]
      rfl

/-- **`WriteManifest`**: the manifest is the old one or the new one. -/
theorem wp_writeManifest (h : OnlyDisk (HasFiles manifest snapshots wal) w₀ w) :
    Prog.wp (writeManifest env site generation)
      (fun _ => OnlyDisk (HasFiles (some (encodeManifest generation)) snapshots wal) w₀)
      (fun _ => OnlyDisk (fun d => HasFiles manifest snapshots wal d ∨
        HasFiles (some (encodeManifest generation)) snapshots wal d) w₀) w := by
  have hleft : ∀ {w'}, OnlyDisk (HasFiles manifest snapshots wal) w₀ w' →
      OnlyDisk (fun d => HasFiles manifest snapshots wal d ∨
        HasFiles (some (encodeManifest generation)) snapshots wal d) w₀ w' :=
    fun h => h.mono (fun _ => Or.inl)
  rw [writeManifest]
  split
  · exact hleft h
  refine Prog.wp_seq (wp_effect (Q := fun d => HasFiles manifest snapshots wal d ∧
    d.manifestTmp = some []) h (fun d hd => ⟨⟨hd.1, hd.2, hd.3⟩, rfl⟩)) (fun _ w₁ h₁ => ?_)
    (fun _ _ h => hleft h)
  apply wp_publish (R := fun d => HasFiles manifest snapshots wal d ∧
    d.manifestTmp = some (encodeManifest generation))
  · refine wp_writeAll h₁ (fun d hd => ⟨⟨hd.1.1, hd.1.2, hd.1.3⟩, ?_⟩) (fun hdata _ hd => ?_)
      (fun n d hd => ⟨hd.1.1, hd.1.2, hd.1.3⟩)
    · show d.manifestTmp.map _ = _
      rw [hd.2]
      rfl
    · rw [hdata]
      exact hd
  · exact fun _ hd => hd.1
  · exact fun d hd => ⟨hd.1, hd.2, hd.3⟩
  · exact fun d hd => ⟨hd.2, hd.1.2, hd.1.3⟩

end Files

/-! ### The checkpoint -/

/-- The WAL directories with one of a generation. -/
def withWalDir (wal : SortedMap ℕ WalDir) (generation : ℕ) : SortedMap ℕ WalDir :=
  if (wal.get? generation).isSome then wal else wal.insert generation .empty

/-- A new directory is empty, so no segment file changes. -/
theorem withWalDir_getD (wal : SortedMap ℕ WalDir) (generation g : ℕ) :
    ((withWalDir wal generation).get? g).getD .empty = (wal.get? g).getD .empty := by
  rw [withWalDir]
  split
  · rfl
  · rename_i hnone
    rw [SortedMap.get?_insert]
    split
    · rename_i hg
      subst hg
      rw [Option.not_isSome_iff_eq_none.mp hnone]
      rfl
    · rfl

theorem withWalDir_get? (wal : SortedMap ℕ WalDir) (generation : ℕ) :
    (withWalDir wal generation).get? generation = some ((wal.get? generation).getD .empty) := by
  rw [withWalDir]
  cases h : wal.get? generation with
  | some files => exact h
  | none => exact (SortedMap.get?_insert _ _ _ _).trans (if_pos rfl)

/-- **The disk of a checkpoint** that is being published: the old files, then the snapshot, then the
directory, and the manifest last. -/
inductive Publishing (generation : ℕ) (content : List UInt8) (d₀ : Disk) : Disk → Prop where
  | before {d : Disk} (files : HasFiles d₀.manifest d₀.snapshots d₀.wal d) :
      Publishing generation content d₀ d
  | snapshot {d : Disk}
      (files : HasFiles d₀.manifest (d₀.snapshots.insert generation content) d₀.wal d) :
      Publishing generation content d₀ d
  | directory {d : Disk} (files : HasFiles d₀.manifest (d₀.snapshots.insert generation content)
      (withWalDir d₀.wal generation) d) : Publishing generation content d₀ d
  | manifest {d : Disk} (files : HasFiles (some (encodeManifest generation))
      (d₀.snapshots.insert generation content) (withWalDir d₀.wal generation) d) :
      Publishing generation content d₀ d

/-- The last stage. -/
def Published (generation : ℕ) (content : List UInt8) (d₀ : Disk) : Disk → Prop :=
  HasFiles (some (encodeManifest generation)) (d₀.snapshots.insert generation content)
    (withWalDir d₀.wal generation)

section Checkpoint

variable {env : Env} {w : World} {generation : ℕ} {entries : List Item}

/-- **The disk goes through the four stages**, wherever a call fails or the process dies. -/
theorem wp_publishCheckpoint : Prog.wp (publishCheckpoint env generation entries)
    (fun _ => OnlyDisk (Published generation (encodeSnapshot generation entries) w.disk) w)
    (fun _ => OnlyDisk (Publishing generation (encodeSnapshot generation entries) w.disk) w) w := by
  have h₀ : OnlyDisk (HasFiles w.disk.manifest w.disk.snapshots w.disk.wal) w w :=
    OnlyDisk.refl ⟨rfl, rfl, rfl⟩
  refine Prog.wp_seq (wp_writeSnapshot entries h₀) (fun _ w₁ h₁ => ?_)
    (fun _ _ h => h.mono (fun _ hd => hd.elim .before .snapshot))
  refine Prog.wp_seq (wp_effect (Q := HasFiles w.disk.manifest
    (w.disk.snapshots.insert generation (encodeSnapshot generation entries))
    (withWalDir w.disk.wal generation)) h₁ (fun d hd => ?_)) (fun _ w₂ h₂ => ?_)
    (fun _ _ h => h.mono (fun _ => .snapshot))
  · rw [withWalDir, ← hd.wal_eq]
    split
    · exact ⟨hd.1, hd.2, rfl⟩
    · exact ⟨hd.1, hd.2, rfl⟩
  · exact Prog.wp_mono (wp_writeManifest h₂) (fun _ _ h => h)
      (fun _ _ h => h.mono (fun _ hd => hd.elim .directory .manifest))

/-- No segment file changes. -/
theorem Publishing.walFile? {content : List UInt8} {d₀ d : Disk}
    (h : Publishing generation content d₀ d) (g n : ℕ) : d.walFile? g n = d₀.walFile? g n := by
  have hdir : d.dir g = d₀.dir g := by
    rw [Disk.dir, Disk.dir]
    cases h with
    | before files => rw [files.wal_eq]
    | snapshot files => rw [files.wal_eq]
    | directory files => rw [files.wal_eq, withWalDir_getD]
    | manifest files => rw [files.wal_eq, withWalDir_getD]
  rw [Disk.walFile?, Disk.walFile?, hdir]

end Checkpoint

/-! ### The cleanup -/

/-- **What the cleanup spares.** -/
structure Cleaned (keep : ℕ) (d₀ d : Disk) : Prop where
  manifest_eq : d.manifest = d₀.manifest
  snapshot_eq : d.snapshots.get? keep = d₀.snapshots.get? keep
  wal_eq : d.wal.get? keep = d₀.wal.get? keep
  none_new : ∀ g, d₀.dir g = .empty → d.dir g = .empty

section Cleanup

variable {env : Env} {w w₀ : World} {d₀ : Disk} {generation keep : ℕ}

theorem Cleaned.eraseWalFile {d : Disk} (h : Cleaned keep d₀ d) (hne : generation ≠ keep)
    (fileNo : ℕ) : Cleaned keep d₀ (d.eraseWalFile generation fileNo) := by
  have hnew : ∀ g, d₀.dir g = .empty → (d.eraseWalFile generation fileNo).dir g = .empty := by
    intro g hg
    have hempty := h.none_new g hg
    rw [Disk.dir_eraseWalFile]
    split
    · rename_i heq
      rw [← heq, hempty]
      exact SortedMap.erase_eq_self rfl
    · exact hempty
  rw [Disk.eraseWalFile] at hnew ⊢
  cases hd : d.wal.get? generation with
  | none => exact h
  | some dir =>
    rw [hd] at hnew
    refine ⟨h.manifest_eq, h.snapshot_eq, ?_, hnew⟩
    rw [← h.wal_eq]
    exact (SortedMap.get?_insert _ _ _ _).trans (if_neg hne.symm)

/-- The removal of a directory. -/
theorem Cleaned.eraseDir {d : Disk} (h : Cleaned keep d₀ d) (hne : generation ≠ keep) :
    Cleaned keep d₀ { d with wal := d.wal.erase generation } := by
  refine ⟨h.manifest_eq, h.snapshot_eq, ?_, fun g hg => ?_⟩
  · rw [← h.wal_eq]
    exact (SortedMap.get?_erase _ _ _).trans (if_neg hne.symm)
  · show ((d.wal.erase generation).get? g).getD .empty = .empty
    rw [SortedMap.get?_erase]
    split
    · rfl
    · exact h.none_new g hg

/-- `RemoveTree` of another generation. -/
theorem ends_removeTree (hne : generation ≠ keep) (h : OnlyDisk (Cleaned keep d₀) w₀ w) :
    Prog.ends (removeTree env generation) (OnlyDisk (Cleaned keep d₀) w₀) w := by
  have hremoveDir : ∀ w', OnlyDisk (Cleaned keep d₀) w₀ w' →
      Prog.ends (removeDir env generation) (OnlyDisk (Cleaned keep d₀) w₀) w' := by
    intro w' h'
    rw [removeDir, Prog.ends, Prog.wp_bind, Prog.wp_get]
    cases w'.disk.wal.get? generation with
    | none => exact h'
    | some dir =>
      simp only
      split
      · exact ends_effect h' (fun d hd => hd.eraseDir hne)
      · exact Prog.ends_seq (ends_check h') (fun _ _ h => h)
  rw [removeTree, Prog.ends, Prog.wp_bind, Prog.wp_get]
  cases w.disk.wal.get? generation with
  | none => exact h
  | some dir =>
    refine Prog.ends_seq (ends_check h) (fun _ w₁ h₁ => ?_)
    have hread : Prog.ends (readDir env (dir.entries.map Prod.fst)) (OnlyDisk (Cleaned keep d₀) w₀)
        w₁ := by
      rw [Prog.ends, Prog.wp, readDir]
      cases env .cleanup w₁.clock with
      | succeeds => exact h₁.onDisk _ h₁.disk
      | fails n => exact h₁.onDisk _ h₁.disk
      | killed n => exact h₁
    refine Prog.ends_seq hread (fun r w₂ h₂ => ?_)
    obtain ⟨names, status⟩ := r
    refine Prog.ends_allOf (fun x hx w' h' => ?_) h₂
    rcases List.mem_append.mp hx with hx | hx
    · obtain ⟨fileNo, _, rfl⟩ := List.mem_map.mp hx
      exact ends_effect h' (fun d hd => hd.eraseWalFile hne fileNo)
    · rcases List.mem_cons.mp hx with rfl | hx
      · cases status with
        | ok a => exact h'
        | error e => exact h'
      rcases List.mem_cons.mp hx with rfl | hx
      · exact ends_check h'
      · rw [List.mem_singleton.mp hx]
        exact hremoveDir w' h'

/-- A listing leaves the disk alone. -/
theorem ends_listGenerations (generations : Disk → List ℕ) (h : OnlyDisk (Cleaned keep d₀) w₀ w) :
    Prog.ends (listGenerations env generations) (OnlyDisk (Cleaned keep d₀) w₀) w :=
  Prog.ends_seq (ends_check h) fun _ _ h => Prog.ends_seq (ends_check h) fun _ _ h =>
    Prog.ends_seq (ends_check h) fun _ _ h => h

/-- **The cleanup spares what it is to keep**, wherever it ends. -/
theorem ends_removeOld (keep : ℕ) (w : World) :
    Prog.ends (removeOld env keep) (OnlyDisk (Cleaned keep w.disk) w) w := by
  refine Prog.ends_both ?_ (fun w₁ h₁ => ?_)
  · refine Prog.ends_seq (ends_listGenerations _ (OnlyDisk.refl ⟨rfl, rfl, rfl, fun _ hg => hg⟩))
      (fun l w₁ h₁ => ?_)
    refine Prog.ends_allOf (fun x hx w' h' => ?_) h₁
    obtain ⟨generation, hg, rfl⟩ := List.mem_map.mp hx
    exact ends_removeTree (of_decide_eq_true (List.mem_filter.mp hg).2) h'
  · refine Prog.ends_seq (ends_listGenerations _ h₁) (fun l w₂ h₂ => ?_)
    refine Prog.ends_allOf (fun x hx w' h' => ?_) h₂
    obtain ⟨generation, hg, rfl⟩ := List.mem_map.mp hx
    have hne : generation ≠ keep := of_decide_eq_true (List.mem_filter.mp hg).2
    refine ends_effect h' (fun d hd => ⟨hd.manifest_eq, ?_, hd.wal_eq, hd.none_new⟩)
    rw [← hd.snapshot_eq]
    exact (SortedMap.get?_erase _ _ _).trans (if_neg hne.symm)

end Cleanup

end MinweightStore.Store
