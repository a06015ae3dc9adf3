import MinweightStore.Store.Sessions

/-!
# Torn headers

What becomes of a directory whose last process was killed between the stores of a header.

* `refuses_openStore` — `Open` refuses it, and leaves the torn header where it is;
* `ProcessStep`, `torn_for_good` — **no process ever opens it again**;
* `first_open_torn` — the first `Open` may leave such a directory;
* `reopens_iff_whole` — **a call that is broken off anywhere** leaves either such a directory or one
  that holds the map before it or the map behind it.
-/

namespace MinweightStore.Store

open Minpatricia (ByteView Position kMaxKeySize)

/-! ### Opening segments -/

section Open

variable {env : Env} {site : Site} {generation size fileNo id offset : ℕ} {f f' : WalFile} {d : Disk}
  {data : List UInt8} {w w₀ : World}

theorem TornAt.size_ne (h : TornAt generation fileNo f d) : f.size ≠ 0 :=
  fun h0 => h.torn (Or.inl h0)

/-- It has no zero header. -/
theorem TornAt.not_zero (h : TornAt generation fileNo f d) :
    ¬ isZeroBytes f.bytes kWalHeaderSize = true := fun hzero => h.torn (Or.inr ⟨rfl, Or.inl hzero⟩)

/-- Another segment file is written. -/
theorem TornAt.setWalFile (h : TornAt generation fileNo f d) (hne : id ≠ fileNo) :
    TornAt generation fileNo f (d.setWalFile generation id f') := by
  refine ⟨h.generation_eq, h.pos, ?_, h.torn⟩
  rw [Disk.walFile?_setWalFile, if_neg (fun heq => hne heq.2.symm)]
  exact h.file

theorem TornAt.storeBytes (h : TornAt generation fileNo f d) (hne : id ≠ fileNo) :
    TornAt generation fileNo f (d.storeBytes generation id offset data) := by
  rw [Disk.storeBytes]
  cases d.walFile? generation id with
  | none => exact h
  | some f' => exact h.setWalFile hne

/-- Its directory is there. -/
theorem TornAt.dir (h : TornAt generation fileNo f d) : (d.wal.get? generation).isSome := by
  have hfile := h.file
  rw [Disk.walFile?, Disk.dir] at hfile
  cases hd : d.wal.get? generation with
  | none =>
    rw [hd] at hfile
    exact absurd hfile (by simp [SortedMap.get?_empty])
  | some files => rfl

-- the header check runs over 4096 bytes and is never to be evaluated here
attribute [local irreducible] isZeroBytes

/-- **`WalSegment::Open` of another segment** spares the torn one. -/
theorem ends_open_beside (hne : id ≠ fileNo) (h : OnlyDisk (TornAt generation fileNo f) w₀ w) :
    Prog.ends (WalSegment.open' env site generation size id)
      (OnlyDisk (TornAt generation fileNo f) w₀) w := by
  have hstore : ∀ {offset data w'}, OnlyDisk (TornAt generation fileNo f) w₀ w' →
      Prog.ends (Store.storeBytes env generation id offset data)
        (OnlyDisk (TornAt generation fileNo f) w₀) w' := fun h' =>
    wp_storeBytes (h'.onDisk _ (h'.disk.storeBytes hne))
      (fun _ _ => h'.onDisk _ (h'.disk.storeBytes hne))
  have hcreate : Prog.ends (WalSegment.createFile env site generation id)
      (OnlyDisk (TornAt generation fileNo f) w₀) w := by
    refine Prog.ends_get ?_
    cases w.disk.wal.get? generation with
    | none => exact h
    | some files =>
      refine ends_effect h (fun d hd => ?_)
      split
      · exact hd
      · exact hd.setWalFile hne
  have hsize : ∀ w₁, OnlyDisk (TornAt generation fileNo f) w₀ w₁ →
      Prog.ends (WalSegment.sizeFile env site generation id size)
        (OnlyDisk (TornAt generation fileNo f) w₀) w₁ := by
    intro w₁ h₁
    refine Prog.ends_seq (ends_check h₁) (fun _ w₂ h₂ => Prog.ends_get ?_)
    simp only
    split
    · exact Prog.ends_seq (ends_effect h₂ (fun _ hd => hd.setWalFile hne)) (fun _ _ h => h)
    · split
      · exact h₂
      · exact h₂
  have hheader : ∀ metadataDirty w₁, OnlyDisk (TornAt generation fileNo f) w₀ w₁ →
      Prog.ends (WalSegment.mapHeader env generation id size metadataDirty)
        (OnlyDisk (TornAt generation fileNo f) w₀) w₁ := by
    intro metadataDirty w₁ h₁
    refine Prog.ends_get ?_
    simp only
    split
    · refine Prog.ends_seq ?_ (fun _ _ h => h)
      exact Prog.ends_seq (hstore h₁) (fun _ _ h₂ => Prog.ends_seq (hstore h₂) (fun _ _ h₃ =>
        hstore h₃))
    · exact Prog.ends_seq (Prog.ends_ofOutcome h₁) (fun _ _ h => h)
  rw [WalSegment.open']
  split
  · exact h
  cases makeRecordPosition id kWalHeaderSize with
  | error fault => exact h
  | ok pos =>
    exact Prog.ends_seq hcreate (fun _ w₁ h₁ => Prog.ends_seq (hsize w₁ h₁) (fun _ w₂ h₂ =>
      Prog.ends_seq (ends_check h₂) (fun _ w₃ h₃ => hheader _ w₃ h₃)))

/-- **`WalSegment::Open` of the torn segment** refuses it. -/
theorem refuses_open (h : OnlyDisk (TornAt generation fileNo f) w₀ w) :
    Prog.wp (WalSegment.open' env site generation size fileNo) (fun _ _ => False)
      (fun _ => OnlyDisk (TornAt generation fileNo f) w₀) w := by
  have hcreate : Prog.ends (WalSegment.createFile env site generation fileNo)
      (OnlyDisk (TornAt generation fileNo f) w₀) w := by
    refine Prog.ends_get ?_
    cases w.disk.wal.get? generation with
    | none => exact h
    | some files =>
      refine ends_effect h (fun d hd => ?_)
      rw [hd.file, if_pos (show (some f).isSome = true from rfl)]
      exact hd
  have hsize : ∀ w₁, OnlyDisk (TornAt generation fileNo f) w₀ w₁ →
      Prog.wp (WalSegment.sizeFile env site generation fileNo size)
        (fun _ w' => f.size = size ∧ OnlyDisk (TornAt generation fileNo f) w₀ w')
        (fun _ => OnlyDisk (TornAt generation fileNo f) w₀) w₁ := by
    intro w₁ h₁
    refine Prog.wp_seq (ends_check h₁) (fun _ w₂ h₂ => ?_) (fun _ _ h => h)
    rw [Prog.wp_bind, Prog.wp_get, h₂.disk.file]
    simp only [Option.getD_some]
    rw [if_neg h₂.disk.size_ne]
    split
    · exact h₂
    · rename_i heq
      exact ⟨not_not.mp heq, h₂⟩
  have hheader : ∀ metadataDirty w₁, f.size = size → OnlyDisk (TornAt generation fileNo f) w₀ w₁ →
      Prog.wp (WalSegment.mapHeader env generation fileNo size metadataDirty) (fun _ _ => False)
        (fun _ => OnlyDisk (TornAt generation fileNo f) w₀) w₁ := by
    intro metadataDirty w₁ heq h₁
    have hbytes : w₁.disk.mapping generation fileNo = f.bytes := by
      rw [Disk.mapping, h₁.disk.file]
      rfl
    rw [WalSegment.mapHeader, Prog.wp_bind, Prog.wp_get, hbytes]
    simp only
    rw [if_neg h₁.disk.not_zero, Prog.wp_bind, Prog.wp_ofOutcome]
    refine ⟨fun used hused => ?_, fun _ _ => h₁⟩
    subst heq
    exact absurd (Or.inr ⟨rfl, Or.inr (loadHeader_ok_iff.mp hused).1⟩) h₁.disk.torn
  rw [WalSegment.open']
  split
  · exact h
  cases makeRecordPosition fileNo kWalHeaderSize with
  | error fault => exact h
  | ok pos =>
    refine Prog.wp_seq hcreate (fun _ w₁ h₁ => ?_) (fun _ _ h => h)
    refine Prog.wp_seq (hsize w₁ h₁) (fun _ w₂ h₂ => ?_) (fun _ _ h => h)
    exact Prog.wp_seq (ends_check h₂.2) (fun _ w₃ h₃ => hheader _ w₃ h₂.1 h₃) (fun _ _ h => h)

end Open

/-! ### Opening a directory -/

section Directory

variable {env : Env} {generation fileNo active : ℕ} {f : WalFile} {ids : List ℕ} {w : World}

/-- **A closed store on a directory with a torn header.** -/
def TornClosed (generation fileNo : ℕ) (f : WalFile) (w : World) : Prop :=
  TornAt generation fileNo f w.disk ∧ w.isOpen = false

/-- A program that changes the disk only. -/
theorem TornClosed.onlyDisk {w' : World} (h : TornClosed generation fileNo f w)
    (hw' : OnlyDisk (TornAt generation fileNo f) w w') : TornClosed generation fileNo f w' := by
  obtain ⟨d, t, rfl, hd⟩ := hw'
  exact ⟨hd, h.2⟩

/-- The loop of `Open` gets no further than the torn segment, by induction on the file numbers. -/
theorem refuses_openSegments (h : TornClosed generation fileNo f w) (hmem : fileNo ∈ ids)
    (hgeneration : w.records.generation = generation) :
    Prog.wp (openSegments env active ids) (fun _ _ => False)
      (fun _ => TornClosed generation fileNo f) w := by
  induction ids generalizing w with
  | nil => exact absurd hmem List.not_mem_nil
  | cons id ids ih =>
    subst hgeneration
    rw [openSegments, openSegment, bind_assoc, Prog.wp_bind, Prog.wp_get, bind_assoc]
    by_cases hid : id = fileNo
    · subst hid
      exact Prog.wp_seq (refuses_open (OnlyDisk.refl h.1)) (fun _ _ h => h.elim)
        (fun _ _ h' => h.onlyDisk h')
    · refine Prog.wp_seq (ends_open_beside hid (OnlyDisk.refl h.1)) (fun seg w₁ h₁ => ?_)
        (fun _ _ h' => h.onlyDisk h')
      have hclosed := h.onlyDisk h₁
      rw [Prog.wp_bind, Prog.wp_modify]
      refine ih ⟨hclosed.1, hclosed.2⟩
        ((List.mem_cons.mp hmem).resolve_left (fun heq => hid heq.symm)) ?_
      show w₁.records.generation = _
      rw [h₁.records]

/-- **`SegmentedRecordStore::Open`** of the generation. -/
theorem refuses_openRecords (h : TornClosed generation fileNo f w) (walSize : ℕ) :
    Prog.wp (openRecords env walSize generation) (fun _ _ => False)
      (fun _ => TornClosed generation fileNo f) w := by
  have hend : ∀ w', OnlyDisk (TornAt generation fileNo f) w w' → TornClosed generation fileNo f w' :=
    fun _ h' => h.onlyDisk h'
  have hcreate : Prog.ends (createWalDir env .openStore generation)
      (OnlyDisk (TornAt generation fileNo f) w) w := by
    refine ends_effect (OnlyDisk.refl h.1) (fun d hd => ?_)
    rw [if_pos hd.dir]
    exact hd
  have hlist : ∀ w₁, OnlyDisk (TornAt generation fileNo f) w w₁ → Prog.wp
      (listWalSegmentIDs env .openStore generation) (fun listed w' => fileNo ∈ listed ∧
        OnlyDisk (TornAt generation fileNo f) w w')
      (fun _ => OnlyDisk (TornAt generation fileNo f) w) w₁ := by
    intro w₁ h₁
    refine Prog.wp_seq (ends_check h₁) (fun _ w₂ h₂ => ?_) (fun _ _ h => h)
    refine Prog.wp_seq (ends_check h₂) (fun _ w₃ h₃ => ?_) (fun _ _ h => h)
    refine Prog.wp_seq (ends_check h₃) (fun _ w₄ h₄ => ?_) (fun _ _ h => h)
    refine (Prog.wp_bind.trans Prog.wp_get).mpr ⟨?_, h₄⟩
    have hmem := (SortedMap.mem_entries_iff _ _ _).mpr h₄.disk.file
    exact List.mem_filter.mpr ⟨List.mem_map_of_mem hmem, decide_eq_true h₄.disk.pos⟩
  rw [openRecords]
  split
  · exact h
  split
  · exact h
  refine Prog.wp_seq hcreate (fun _ w₁ h₁ => ?_) (fun _ _ h => hend _ h)
  refine Prog.wp_seq (hlist w₁ h₁) (fun listed w₂ h₂ => ?_) (fun _ _ h => hend _ h)
  have hids : initialIDs listed = listed := by
    refine if_neg (fun hempty => ?_)
    rw [List.isEmpty_iff.mp hempty] at h₂
    exact absurd h₂.1 List.not_mem_nil
  rw [Prog.wp_bind, Prog.wp_modify, hids]
  have hclosed := hend w₂ h₂.2
  exact refuses_openSegments ⟨hclosed.1, hclosed.2⟩ h₂.1 rfl

/-- `ReadManifest` finds the generation of the directory, or fails. -/
theorem returns_readManifest_generation (site : Site) : returns (readManifest env site)
    (fun manifest _ => w.disk.generation? = some manifest.walGeneration) w := by
  rw [readManifest]
  refine returns_bind (Q := fun _ w' => w'.disk = w.disk) (returns_check rfl) (fun _ w₁ h₁ => ?_)
  rw [returns, Prog.wp_bind, Prog.wp_get, h₁]
  cases hm : w.disk.manifest with
  | none =>
    have habsent : w.disk.generation? = some kFirstWalGeneration := by rw [Disk.generation?, hm]
    exact habsent
  | some content =>
    refine returns_bind (Q := fun data _ => ∀ r, data = .ok r → r.1 = content.take 32)
      (returns_attempt returns_readAll ?_ (fun _ _ _ h => absurd h (by simp)))
      (fun data w₂ h₂ => ?_)
    · rintro r _ ⟨_, happend, hlength⟩ _ heq
      obtain rfl := Except.ok.inj heq
      rw [happend, List.take_left' hlength]
    · refine returns_bind (returns_trivial _ _) (fun closed w₃ _ => ?_)
      cases data with
      | error status => trivial
      | ok data =>
        cases closed with
        | error status => trivial
        | ok _ =>
          refine returns_ofOutcome (fun manifest hdecode => ?_)
          rw [Disk.generation?, hm]
          simp only [← h₂ data rfl, hdecode]

/-- **`Store::Open`** of a directory with a torn header. -/
theorem refuses_openStore (h : TornClosed generation fileNo f w) (options : Options) :
    Prog.wp (openStore env options) (fun _ _ => False)
      (fun _ => TornClosed generation fileNo f) w := by
  have hstart : OnlyDisk (TornAt generation fileNo f) w w := OnlyDisk.refl h.1
  rw [openStore]
  split
  · exact h
  refine Prog.wp_seq (ends_check hstart) (fun _ w₁ h₁ => ?_) (fun _ _ h' => h.onlyDisk h')
  refine Prog.wp_seq (Prog.wp_and (returns_readManifest_generation .openStore)
    (ends_readManifest h₁)) (fun manifest w₂ h₂ => ?_) (fun _ _ h' => h.onlyDisk h'.2)
  obtain rfl : manifest.walGeneration = generation :=
    Option.some.inj (h₂.1.symm.trans h₁.disk.generation_eq)
  exact Prog.wp_seq (refuses_openRecords (h.onlyDisk h₂.2) _) (fun _ _ h => h.elim) (fun _ _ h => h)

end Directory

/-! ### Processes -/

/-- **What processes may do** to a directory: any call, however it ends, or a new process. -/
inductive ProcessStep (w : World) : World → Prop where
  | call (env : Env) (call : PublicCall) : ProcessStep w (call.final env w)
  | boot : ProcessStep w (World.boot w.disk)

section Processes

variable {env : Env} {generation fileNo : ℕ} {f : WalFile} {d : Disk} {w w' : World}

/-- No call touches a torn header. -/
theorem TornClosed.step (h : TornClosed generation fileNo f w) (hstep : ProcessStep w w') :
    TornClosed generation fileNo f w' := by
  cases hstep with
  | boot => exact ⟨h.1, rfl⟩
  | call env call =>
    obtain ⟨hput, hdelete, hclose⟩ := closed_calls env h.2
    cases call with
    | read call =>
      rw [PublicCall.final, onlyReads_run call w]
      exact h
    | openStore options =>
      exact Prog.ends_iff.mp (Prog.wp_mono (refuses_openStore h options) (fun _ _ h => h.elim)
        (fun _ _ h => h))
    | put key value =>
      rw [PublicCall.final, Prog.final_error (hput key value)]
      exact h
    | delete key =>
      rw [PublicCall.final, Prog.final_error (hdelete key)]
      exact h
    | close =>
      rw [PublicCall.final, Prog.final_ok hclose]
      exact h

theorem TornClosed.run (h : TornClosed generation fileNo f w)
    (hrun : Relation.ReflTransGen ProcessStep w w') : TornClosed generation fileNo f w' := by
  induction hrun with
  | refl => exact h
  | tail _ hlast ih => exact ih.step hlast

theorem TornClosed.not_opened (h : TornClosed generation fileNo f w) (env : Env)
    (options : Options) : openStore env options w ≠ .ok () w' := fun hopen =>
  Prog.wp_run_ok (refuses_openStore h options) hopen

/-- **A torn header makes a directory unusable for good**: whatever processes do to it, no `Open`
returns a store, with whichever options and whatever becomes of its calls, and the header stays torn. -/
theorem torn_for_good (h : Torn d) (hrun : Relation.ReflTransGen ProcessStep (World.boot d) w) :
    w.isOpen = false ∧ Torn w.disk ∧ ∀ env options w', openStore env options w ≠ .ok () w' := by
  obtain ⟨generation, fileNo, f, htorn⟩ := h
  have hclosed : TornClosed generation fileNo f w := TornClosed.run ⟨htorn, rfl⟩ hrun
  exact ⟨hclosed.2, ⟨generation, fileNo, f, hclosed.1⟩, fun env options _ =>
    hclosed.not_opened env options⟩

end Processes

/-! ### The first `Open` -/

section First

variable {generation size fileNo : ℕ} {files : WalDir} {w : World}

/-- The process is killed at one store into a header. -/
def Env.killedAt (t : ℕ) : Env := fun site t' =>
  if site = .header ∧ t' = t then .killed 0 else .succeeds

theorem Env.killedAt_reliable (t : ℕ) : (Env.killedAt t).ReliableAt .openStore := fun _ =>
  if_neg (fun h => nomatch h.1)

theorem Env.killedAt_wholeFields (t : ℕ) : (Env.killedAt t).WholeFields := by
  intro t' n hn
  rw [killedAt] at hn
  split at hn
  · exact (Decision.killed.inj hn).symm
  · exact absurd hn (by simp)

-- the header check runs over 4096 bytes and is never to be evaluated here
attribute [local irreducible] isZeroBytes

/-- **A new segment** whose header is torn: two calls for its file, two for its size and its mapping,
and the first store. -/
theorem open_torn (hlo : kWalHeaderSize + kWalRecordHeaderSize ≤ size)
    (hhi : size ≤ kRecordOffsetLimit) (hpos : 0 < fileNo) (hno : fileNo < 2 ^ 33)
    (hgeneration : w.disk.generation? = some generation)
    (hdir : w.disk.wal.get? generation = some files)
    (hnone : w.disk.walFile? generation fileNo = none) : ∃ w',
    WalSegment.open' (Env.killedAt (w.clock + 5)) .openStore generation size fileNo w =
      .error .killed w' ∧ Torn w'.disk := by
  have hsite := Env.killedAt_reliable (w.clock + 5)
  let f : WalFile := WalFile.empty.resize size
  let w₄ := w.onDisk (w.disk.setWalFile generation fileNo f) (w.clock + 4)
  have hfile : ∀ f', (w.disk.setWalFile generation fileNo f').walFile? generation fileNo =
      some f' := fun f' => by
    rw [Disk.walFile?_setWalFile, if_pos ⟨rfl, rfl⟩]
  have hzero : isZeroBytes f.bytes kWalHeaderSize = true := isZeroBytes_resize rfl
  have hsize : f.size ≠ 0 := by
    have hk : kWalHeaderSize = 4096 := rfl
    show size ≠ 0
    omega
  have hcreate : WalSegment.createFile (Env.killedAt (w.clock + 5)) .openStore generation fileNo w =
      .ok () (w.onDisk (w.disk.setWalFile generation fileNo .empty) (w.clock + 1)) := by
    rw [WalSegment.createFile, Prog.get_bind, hdir]
    simp only
    rw [syscall_ok hsite, hnone]
    rfl
  have hsized : WalSegment.sizeFile (Env.killedAt (w.clock + 5)) .openStore generation fileNo size
      (w.onDisk (w.disk.setWalFile generation fileNo .empty) (w.clock + 1)) =
      .ok true (w.onDisk (w.disk.setWalFile generation fileNo f) (w.clock + 3)) := by
    have hempty : WalFile.empty.size = 0 := rfl
    rw [WalSegment.sizeFile, Prog.bind_ok (check_ok hsite _ _), Prog.get_bind]
    simp only [World.onDisk_disk, World.onDisk_clock, World.onDisk_onDisk, hfile, Option.getD_some,
      if_pos hempty]
    rw [Prog.bind_ok (syscall_ok hsite _ _ _)]
    simp only [World.onDisk_disk, World.onDisk_clock, World.onDisk_onDisk,
      Disk.setWalFile_setWalFile]
    rfl
  have hheader : WalSegment.mapHeader (Env.killedAt (w.clock + 5)) generation fileNo size true w₄ =
      .error .killed (w.onDisk (w.disk.setWalFile generation fileNo
        ⟨f.size, writeBytes f.bytes 0 kWalHeaderMagic⟩) (w.clock + 5)) := by
    have hbytes : w₄.disk.mapping generation fileNo = f.bytes := by
      rw [World.onDisk_disk, Disk.mapping, hfile]
      rfl
    have hmagic : storeSite 0 = .header := storeSite_header (by decide)
    have hversion : storeSite kWalHeaderVersionOffset = .header := storeSite_header (by decide)
    have hfirst : ∀ n, Env.killedAt (w.clock + 5) (storeSite 0) w₄.clock ≠ .killed n := by
      intro n
      rw [hmagic, Env.killedAt, if_neg (fun h => absurd h.2 (show w.clock + 4 ≠ w.clock + 5 by omega))]
      exact Decision.noConfusion
    have hsecond : Env.killedAt (w.clock + 5) (storeSite kWalHeaderVersionOffset) (w.clock + 5) =
        .killed 0 := if_pos ⟨hversion, rfl⟩
    rw [WalSegment.mapHeader, Prog.get_bind, hbytes, if_pos hzero, WalSegment.initHeader]
    refine Prog.bind_error ?_
    rw [Prog.bind_ok (storeBytes_stored hfirst _ _ _), World.onDisk_disk,
      Disk.storeBytes_setWalFile]
    refine Prog.bind_error ((storeBytes_killed hsecond _ _ _).trans ?_)
    rw [List.take_zero, Disk.storeBytes_nil]
    rfl
  refine ⟨w.onDisk (w.disk.setWalFile generation fileNo ⟨f.size, writeBytes f.bytes 0
    kWalHeaderMagic⟩) (w.clock + 5), ?_, generation, fileNo, _, hgeneration, hpos, hfile _,
    not_openable_magic hsize hzero⟩
  rw [WalSegment.open', if_neg (by omega),
    makeRecordPosition_eq hno (show kWalHeaderSize < 2 ^ 30 by decide) hpos]
  simp only
  rw [Prog.bind_ok hcreate, Prog.bind_ok hsized, Prog.bind_ok (check_ok hsite _ _)]
  exact hheader

/-- **The first `Open`** in an empty directory, killed at its second store. -/
theorem first_open_torn : Torn
    ((PublicCall.openStore smallOptions).final (Env.killedAt 11) (World.boot .empty)).disk := by
  have hsite := Env.killedAt_reliable 11
  -- the calls before the segment is opened
  let w₆ : World := { (World.boot .empty).onDisk (Disk.empty.setDir kFirstWalGeneration .empty) 6 with
    records := ⟨8192, kFirstWalGeneration, kFirstWalSegmentNo, kFirstWalSegmentNo + 1, [.dummy],
      .empty⟩ }
  have htorn : ∃ w', WalSegment.open' (Env.killedAt (w₆.clock + 5)) .openStore kFirstWalGeneration
      8192 kFirstWalSegmentNo w₆ = .error .killed w' ∧ Torn w'.disk :=
    open_torn (by decide) (by decide) (by decide) (by decide) rfl rfl rfl
  obtain ⟨w', hopen, htorn⟩ := htorn
  have hread : readManifest (Env.killedAt 11) .openStore ((World.boot .empty).onDisk .empty 1) =
      .ok .absent ((World.boot .empty).onDisk .empty 2) := by
    rw [readManifest, Prog.bind_ok (check_ok hsite _ _)]
    rfl
  have hlist : listWalSegmentIDs (Env.killedAt 11) .openStore kFirstWalGeneration
      ((World.boot .empty).onDisk (Disk.empty.setDir kFirstWalGeneration .empty) 3) =
      .ok [] ((World.boot .empty).onDisk (Disk.empty.setDir kFirstWalGeneration .empty) 6) := by
    rw [listWalSegmentIDs, Prog.bind_ok (check_ok hsite _ _), Prog.bind_ok (check_ok hsite _ _),
      Prog.bind_ok (check_ok hsite _ _)]
    rfl
  have hrecords : openRecords (Env.killedAt 11) 8192 kFirstWalGeneration
      ((World.boot .empty).onDisk .empty 2) = .error .killed w' := by
    rw [openRecords, if_neg (by decide), if_neg (by decide), createWalDir,
      Prog.bind_ok (syscall_ok hsite _ _ _)]
    refine (Prog.bind_ok hlist).trans ?_
    show (openSegment (Env.killedAt 11) .openStore kFirstWalSegmentNo false >>= _) w₆ = _
    refine Prog.bind_error ?_
    rw [openSegment, Prog.get_bind]
    exact Prog.bind_error hopen
  have hfinal : openStore (Env.killedAt 11) smallOptions (World.boot .empty) =
      .error .killed w' := by
    rw [openStore, if_neg (by decide), Prog.bind_ok (check_ok hsite _ _)]
    refine (Prog.bind_ok hread).trans ?_
    exact Prog.bind_error hrecords
  rw [PublicCall.final, Prog.final_error hfinal]
  exact htorn

/-- No process opens the directory that it leaves. -/
theorem torn_for_good_first : ∃ d, Torn d ∧
    d = ((PublicCall.openStore smallOptions).final (Env.killedAt 11) (World.boot .empty)).disk ∧
    ∀ env options w', openStore env options (World.boot d) ≠ .ok () w' :=
  ⟨_, first_open_torn, rfl, (torn_for_good first_open_torn .refl).2.2⟩

end First

/-! ### Calls that are broken off -/

section Broken

variable {env : Env} {walSize : ℕ} {v : SortedMap ByteView ByteView} {d : Disk} {w : World}
  {events : List Event} {call : PublicCall} {options : Options}

/-- **A call that is broken off anywhere**, but not within a field of a header, leaves a directory that
can be opened again, unless a header is torn, which takes a kill between its fields; and the store then
shows the map before the call or the map behind it. -/
theorem reopens_iff_whole (hlo : kWalHeaderSize + kWalRecordHeaderSize ≤ walSize)
    (hhi : walSize ≤ kRecordOffsetLimit) (hd : DiskHolds walSize v d)
    (hdeletable : Deletable walSize v) (h : Run (SessionStep walSize) (World.boot d) events w)
    (hallowed : Allowed walSize w call) (hlimits : WithinLimits w) (hfields : env.WholeFields)
    (hoptions : options.walSize = walSize) :
    ((∃ w', openStore .reliable options (World.boot (call.final env w).disk) = .ok () w') ↔
      ¬ Torn (call.final env w).disk) ∧
    (env.SparesHeaders → ¬ Torn (call.final env w).disk) ∧
    ∃ s, Run (DurableMap.Step walSize) ⟨v, false⟩ events s ∧ DiskHolds walSize s.map w.disk ∧
      (w.isOpen = true → ∀ read : ReadCall, answer read.run w = answerOf s.map read) ∧
      ∀ w', openStore .reliable options (World.boot (call.final env w).disk) = .ok () w' →
        (∀ read : ReadCall, answer read.run w' = answerOf s.map read) ∨
          ∀ read : ReadCall, answer read.run w' = answerOf (call.behind walSize s.map) read := by
  subst hoptions
  obtain ⟨s, hrun, hsim⟩ := simulates_run hlo hhi hd hdeletable h
  have hshown : ∀ {v' d'}, DiskHolds options.walSize v' d' → ∃ w',
      openStore .reliable options (World.boot d') = .ok () w' ∧
        ∀ read : ReadCall, answer read.run w' = answerOf v' read := by
    intro v' d' hholds
    obtain ⟨_, w', hopen, hserves, hisOpen, hfatal⟩ := completes_run
      (completes_openStore (w := World.boot d') hlo hhi hholds)
    obtain ⟨_, hshows⟩ := hserves.shows
    exact ⟨w', hopen, fun read => answer_eq hshows hisOpen hfatal read⟩
  have hopens : LeavesWhole env (call.final env w).disk → ∃ w',
      openStore .reliable options (World.boot (call.final env w).disk) = .ok () w' ∧
        ((∀ read : ReadCall, answer read.run w' = answerOf s.map read) ∨
          ∀ read : ReadCall,
            answer read.run w' = answerOf (call.behind options.walSize s.map) read) := by
    intro hwhole
    rcases hsim.final_holds hlo hhi hallowed hlimits hwhole with hholds | ⟨_, hholds⟩
    · obtain ⟨w', hopen, hreads⟩ := hshown hholds
      exact ⟨w', hopen, Or.inl hreads⟩
    · obtain ⟨w', hopen, hreads⟩ := hshown hholds
      exact ⟨w', hopen, Or.inr hreads⟩
  have huntorn : ∀ w', openStore .reliable options (World.boot (call.final env w).disk) =
      .ok () w' → ¬ Torn (call.final env w).disk := by
    rintro w' hopen ⟨generation, fileNo, f, htorn⟩
    have hclosed : TornClosed generation fileNo f (World.boot (call.final env w).disk) :=
      ⟨htorn, rfl⟩
    exact hclosed.not_opened _ _ hopen
  refine ⟨⟨fun ⟨w', hopen⟩ => huntorn w' hopen, fun h => ?_⟩, fun hspares => ?_, s, hrun, hsim.holds,
    hsim.answers, fun w' hopen => ?_⟩
  · obtain ⟨w', hopen, _⟩ := hopens (Or.inr ⟨hfields, h⟩)
    exact ⟨w', hopen⟩
  · obtain ⟨w', hopen, _⟩ := hopens (Or.inl hspares)
    exact huntorn w' hopen
  · obtain ⟨w'', hopen'', hreads⟩ := hopens (Or.inr ⟨hfields, huntorn w' hopen⟩)
    obtain rfl : w' = w'' := by
      rw [hopen] at hopen''
      cases hopen''
      rfl
    exact hreads

/-- The process is killed at one store into a record, of which two bytes are there. -/
def Env.killedInRecord (t : ℕ) : Env := fun site t' =>
  if site = .mapping ∧ t' = t then .killed 2 else .succeeds

theorem Env.killedInRecord_sparesHeaders (t : ℕ) : (Env.killedInRecord t).SparesHeaders := by
  intro t' n hn
  rw [killedInRecord, if_neg (fun h => absurd h.1 (by decide))] at hn
  exact absurd hn (by simp)

/-- A `Put` is killed at the second store of its record. -/
theorem put_killed {seg : WalSegment} {key value : ByteView} (hopen : w.isOpen = true)
    (hfatal : w.fatal = none) (hkey : key.length ≤ kMaxKeySize)
    (hs : w.records.segments.get? w.records.activeFileNo = some seg)
    (hroom : seg.room key value = .ok seg.used) (hheader : kWalHeaderSize ≤ seg.used) :
    (PublicCall.put key value).Killed (Env.killedInRecord (w.clock + 1)) w := by
  have hsite : ∀ {offset : ℕ}, kWalHeaderSize ≤ offset → storeSite offset = .mapping :=
    fun h => if_neg (Nat.not_lt.mpr h)
  have hfirst : ∀ n, Env.killedInRecord (w.clock + 1) (storeSite (seg.used + kWalRecordOpOffset))
      w.clock ≠ .killed n := by
    intro n
    rw [Env.killedInRecord, if_neg (fun h => absurd h.2 (Nat.ne_of_lt (Nat.lt_succ_self _)))]
    exact Decision.noConfusion
  have hsecond : Env.killedInRecord (w.clock + 1) (storeSite (seg.used + kWalRecordKeyOffset))
      (w.clock + 1) = .killed 2 :=
    if_pos ⟨hsite (le_trans hheader (Nat.le_add_right _ _)), rfl⟩
  have hderef : WalSegment.deref w.records.activeFileNo w = .ok seg w := by
    rw [WalSegment.deref, hs]
  obtain ⟨w', hrecord⟩ : ∃ w', WalSegment.writeRecord (Env.killedInRecord (w.clock + 1))
      w.records.activeFileNo seg.used kWalOpPut key value w = .error .killed w' :=
    ⟨_, (Prog.bind_ok (storeBytes_stored hfirst _ _ _)).trans
      (Prog.bind_error (storeBytes_killed hsecond _ _ _))⟩
  have happend : WalSegment.append (Env.killedInRecord (w.clock + 1)) w.records.activeFileNo
      kWalOpPut key value w = .error .killed w' := by
    rw [WalSegment.append, Prog.bind_ok hderef, hroom, Prog.ofOutcome, Prog.pure_bind_run]
    exact Prog.bind_error hrecord
  refine ⟨w', ?_⟩
  rw [Store.put, Prog.bind_ok (checkOpen_ok hopen hfatal), if_neg (Nat.not_lt.mpr hkey), appendRecord,
    appendOrRollover]
  exact Prog.bind_error (Prog.bind_error (Prog.attempt_killed.mpr happend))

/-- The first `Open`, killed at its second store; and a `Put` behind an `Open` that ends, killed within
the key size of its record. -/
theorem reopens_iff_whole_first :
    (¬ ∃ w', openStore .reliable smallOptions (World.boot
      ((PublicCall.openStore smallOptions).final (Env.killedAt 11) (World.boot .empty)).disk) =
        .ok () w') ∧
    ∃ w, Run (SessionStep 8192) (World.boot .empty) [.openStore smallOptions (.ok ())] w ∧
      (PublicCall.put [1] [7]).Killed (Env.killedInRecord (w.clock + 1)) w ∧
      ∃ s w', Run (DurableMap.Step 8192) ⟨.empty, false⟩ [.openStore smallOptions (.ok ())] s ∧
        openStore .reliable smallOptions (World.boot
          ((PublicCall.put [1] [7]).final (Env.killedInRecord (w.clock + 1)) w).disk) = .ok () w' ∧
        ((∀ read : ReadCall, answer read.run w' = answerOf s.map read) ∨
          ∀ read : ReadCall, answer read.run w' =
            answerOf ((PublicCall.put [1] [7]).behind 8192 s.map) read) := by
  have hoptions : smallOptions.walSize = 8192 := rfl
  constructor
  · have hallowed : Allowed 8192 (World.boot .empty) (.openStore smallOptions) := ⟨rfl, rfl⟩
    have hlimits : WithinLimits (World.boot .empty) := fun h => absurd h Bool.false_ne_true
    exact fun h => (reopens_iff_whole (by decide) (by decide) (diskHolds_empty (by decide))
      deletable_empty (.nil _) hallowed hlimits (Env.killedAt_wholeFields 11) hoptions).1.mp h
      first_open_torn
  · obtain ⟨w, hrun, _, hopen, hfatal, hlimits, _, _, hs⟩ := first_open
    have hspares := Env.killedInRecord_sparesHeaders (w.clock + 1)
    have hallowed : Allowed 8192 w (.put [1] [7]) := trivial
    have hroom : WalSegment.room ⟨1, 8192, kWalHeaderSize, false, true, true⟩ [1] [7] =
        .ok kWalHeaderSize := by
      rw [WalSegment.room, if_neg (by decide), if_neg (by decide), if_neg (by decide)]
    obtain ⟨hiff, huntorn, s, habstract, _, _, hreads⟩ := reopens_iff_whole (by decide) (by decide)
      (diskHolds_empty (by decide)) deletable_empty hrun hallowed hlimits hspares.wholeFields hoptions
    obtain ⟨w', hopen'⟩ := hiff.mpr (huntorn hspares)
    have hkey : ([1] : ByteView).length ≤ kMaxKeySize := by decide
    exact ⟨w, hrun, put_killed hopen hfatal hkey hs hroom (le_refl _), s, w', habstract, hopen',
      hreads w' hopen'⟩

end Broken

end MinweightStore.Store
