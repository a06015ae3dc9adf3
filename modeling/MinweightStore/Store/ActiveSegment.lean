import MinweightStore.Store.CallEffects

/-!
# The active segment

Whether a store that is open and not fatal has an unsealed active segment, over runs of public calls
with any pattern of failures.

* `Flagged`, `returns_openStore` — `Open` gives a store that accepts records;
* `ResetsSucceed` — no reset of a checkpoint fails that may follow a write;
* `writeRule_accepting` — **a write then leaves a store that accepts records**.
-/

namespace MinweightStore.Store

open Minpatricia (ByteView Position Index kMaxKeySize)

/-! ### Opening -/

/-- **The sealed flags** of the open segments. -/
def Flagged (flag : ℕ → Bool) (w : World) : Prop :=
  ∀ id seg, w.records.segments.get? id = some seg → seg.fileNo = id ∧ seg.isSealed = flag id

section Flagged

variable {env : Env} {site : Site} {w : World} {flag : ℕ → Bool} {policy : WALReplayPolicy}
  {fileNo : ℕ}

theorem Flagged.congr {w' : World} (h : Flagged flag w)
    (hsegments : w'.records.segments = w.records.segments) : Flagged flag w' := by
  intro id seg hs
  rw [hsegments] at hs
  exact h id seg hs

theorem Flagged.setSegment (h : Flagged flag w) {seg : WalSegment}
    (hseg : seg.isSealed = flag seg.fileNo) : Flagged flag (w.setSegment seg) := by
  intro id seg' hs
  have hs' : (w.records.segments.insert seg.fileNo seg).get? id = some seg' := hs
  rw [SortedMap.get?_insert] at hs'
  split at hs'
  · rename_i hid
    obtain rfl := Option.some.inj hs'
    exact ⟨hid.symm, hid ▸ hseg⟩
  · exact h id seg' hs'

/-- The loop of `Open`: all segments but the active one are sealed. -/
theorem returns_openSegments_flagged (henv : env.Survives) (active : ℕ) (ids : List ℕ)
    (hlo : kWalHeaderSize + kWalRecordHeaderSize ≤ w.records.walSize)
    (hhi : w.records.walSize ≤ kRecordOffsetLimit) (h : Flagged (fun id => id ≠ active) w) :
    returns (openSegments env active ids) (fun _ w' => Flagged (fun id => id ≠ active) w' ∧
      w'.records.activeFileNo = w.records.activeFileNo ∧
      w'.records.generation = w.records.generation) w := by
  induction ids generalizing w with
  | nil => exact ⟨h, rfl, rfl⟩
  | cons id ids ih =>
    have hone : returns (openSegment env .openStore id (id ≠ active)) (fun _ w' =>
        Flagged (fun id => id ≠ active) w' ∧ w'.records.walSize = w.records.walSize ∧
          w'.records.activeFileNo = w.records.activeFileNo ∧
          w'.records.generation = w.records.generation) w := by
      rw [openSegment, returns, Prog.wp_bind, Prog.wp_get]
      refine returns_bind (Prog.wp_mono (wp_open henv hlo hhi) (fun _ _ h => h)
        (fun _ _ _ => trivial)) (fun seg w₁ h₁ => ?_)
      obtain ⟨hbeside, hnew, _⟩ := h₁
      have hrecords := hbeside.records
      refine Prog.wp_modify.mpr ⟨?_, ?_, ?_, ?_⟩
      · have hsegments : w₁.records.segments = w.records.segments := by rw [hrecords]
        refine (Flagged.congr h hsegments).setSegment ?_
        show decide (id ≠ active) = decide (seg.fileNo ≠ active)
        rw [hnew.ok.fileNo_eq]
      · show w₁.records.walSize = _
        rw [hrecords]
      · show w₁.records.activeFileNo = _
        rw [hrecords]
      · show w₁.records.generation = _
        rw [hrecords]
    refine returns_bind hone ?_
    rintro _ w₁ ⟨h₁, hwal, hactive, hgeneration⟩
    refine returns_mono (ih (hwal ▸ hlo) (hwal ▸ hhi) h₁) ?_
    rintro _ w₂ ⟨h₂, hactive₂, hgeneration₂⟩
    exact ⟨h₂, hactive₂.trans hactive, hgeneration₂.trans hgeneration⟩

/-- `SegmentedRecordStore::Open`. -/
theorem returns_openRecords_accepting (henv : env.Survives) (walSize generation : ℕ) :
    returns (openRecords env walSize generation) (fun _ w' => AcceptingIn generation w') w := by
  have hflagged : returns (openRecords env walSize generation) (fun _ w' =>
      Flagged (fun id => id ≠ w'.records.activeFileNo) w' ∧
        w'.records.generation = generation) w := by
    rw [openRecords]
    split
    · trivial
    split
    · trivial
    rename_i hsize _
    refine returns_bind (returns_trivial _ _) (fun _ w₁ _ => ?_)
    refine returns_bind (returns_trivial _ _) (fun listed w₂ _ => ?_)
    rw [returns, Prog.wp_bind, Prog.wp_modify]
    refine returns_mono (returns_openSegments_flagged henv _ _ (by show _ ≤ walSize; omega)
      (by show walSize ≤ _; omega) (fun id seg hs => ?_)) ?_
    · exact absurd hs (by simp [SortedMap.get?_empty])
    · rintro _ w' ⟨h, hactive, hgeneration⟩
      rw [hactive]
      exact ⟨h, hgeneration⟩
  refine Prog.wp_mono (Prog.wp_and (returns_openRecords henv walSize generation) hflagged) ?_
    (fun _ _ _ => trivial)
  rintro _ w' ⟨hlog, hflags, hgeneration⟩
  obtain ⟨seg, hs⟩ := hlog.active
  exact ⟨⟨hlog, seg, hs, (hflags _ seg hs).2.trans (decide_eq_false (not_not.mpr rfl))⟩, hgeneration⟩

/-- A store into a mapping changes no segment. -/
theorem ends_store_records {offset : ℕ} {data : List UInt8} :
    Prog.ends (WalSegment.store env fileNo offset data) (fun w' => w'.records = w.records) w := by
  rw [Prog.ends, Prog.wp, WalSegment.store, storeBytes]
  cases env (storeSite offset) w.clock with
  | succeeds => rfl
  | fails n => rfl
  | killed n => rfl

/-- The replay of a segment moves its used offset only. -/
theorem returns_writeUsed_flagged (h : Flagged flag w) (used : ℕ) :
    returns (WalSegment.writeUsed env fileNo used) (fun _ w' => Flagged flag w') w := by
  rw [WalSegment.writeUsed, returns, Prog.wp_bind, Prog.wp, WalSegment.deref]
  cases hs : w.records.segments.get? fileNo with
  | none => trivial
  | some seg =>
    have hseg := h fileNo seg hs
    have hset : Flagged flag (w.setSegment { seg with used := used, dataDirty := true }) :=
      h.setSegment (hseg.1.symm ▸ hseg.2)
    show returns (modify _ >>= _) _ w
    rw [returns, Prog.wp_bind, Prog.wp_modify]
    exact Prog.wp_mono ends_store_records (fun _ w' h' => hset.congr (congrArg _ h'))
      (fun _ _ _ => trivial)

theorem returns_stopReplay_flagged (h : Flagged flag w) (lastGood : ℕ) (status : Status) :
    returns (WalSegment.stopReplay env policy fileNo lastGood status)
      (fun _ w' => Flagged flag w') w := by
  cases policy with
  | strict => trivial
  | pointInTime => exact returns_bind (returns_writeUsed_flagged h lastGood) (fun _ _ h => h)

/-- The records of a segment go to the index. -/
theorem returns_replayLoop_flagged (fuel : ℕ) {offset : ℕ} (h : Flagged flag w) :
    returns (WalSegment.replayLoop env policy fileNo applyRecord fuel offset)
      (fun _ w' => Flagged flag w') w := by
  induction fuel generalizing w offset with
  | zero => trivial
  | succ fuel ih =>
    rw [WalSegment.replayLoop, returns, Prog.wp_bind, Prog.wp, WalSegment.deref]
    cases w.records.segments.get? fileNo with
    | none => trivial
    | some seg =>
      show returns (get >>= _) _ w
      rw [returns, Prog.wp_bind, Prog.wp_get]
      split
      · cases recordAtOffset (w.mapping fileNo) seg.used offset true with
        | ok record =>
          refine returns_bind (Q := fun _ w' => w = w') (returns_ofOutcome (fun _ _ => rfl)) ?_
          rintro pos _ rfl
          refine returns_bind (returns_applyRecord _ pos) ?_
          rintro _ _ ⟨ix, rfl⟩
          exact ih (h.congr rfl)
        | error fault =>
          cases fault with
          | status status => exact returns_stopReplay_flagged h offset status
          | undefined => trivial
          | diverges => trivial
          | killed => trivial
      · split
        · exact returns_stopReplay_flagged h offset _
        · exact h

/-- The loop of `ReplayAll`, by induction on the file numbers. -/
theorem returns_replaySegments_flagged (ids : List ℕ) (drop : Bool) (last : ℕ)
    (h : Flagged flag w) :
    returns (replaySegments env policy ids drop last) (fun _ w' => Flagged flag w') w := by
  induction ids generalizing w drop last with
  | nil => exact h
  | cons id ids ih =>
    cases drop with
    | true =>
      have hdrop : returns (dropSegment env id) (fun _ w' => Flagged flag w') w := by
        rw [dropSegment, returns, Prog.wp_bind, Prog.wp_get]
        refine returns_bind (Q := fun _ w' => OnlyDisk (fun _ => True) w w') (Prog.wp_mono
          (Prog.ends_ignore (ends_effect (OnlyDisk.refl trivial) (fun _ _ => trivial)))
          (fun _ _ h => h) (fun _ _ _ => trivial)) (fun _ w₁ h₁ => ?_)
        refine Prog.wp_modify.mpr (fun i seg hs => ?_)
        have hs' : (w₁.records.segments.erase id).get? i = some seg := hs
        rw [SortedMap.get?_erase, h₁.records] at hs'
        split at hs'
        · exact absurd hs' (by simp)
        · exact h i seg hs'
      exact returns_bind hdrop (fun _ w₁ h₁ => ih true last h₁)
    | false =>
      refine returns_bind (Q := fun _ w' => Flagged flag w') ?_
        (fun truncated w₁ h₁ => ih truncated id h₁)
      rw [WalSegment.replay]
      refine returns_bind (Q := fun _ w' => w = w') ?_ ?_
      · rw [returns, Prog.wp, WalSegment.deref]
        cases w.records.segments.get? id with
        | none => trivial
        | some seg => rfl
      · rintro seg _ rfl
        exact returns_replayLoop_flagged _ h

/-- **`ReplayAll`** leaves an unsealed active segment. -/
theorem returns_replayAll_accepting (henv : env.Survives) {generation : ℕ}
    (h : AcceptingIn generation w) :
    returns (replayAll env policy) (fun _ w' => AcceptingIn generation w') w := by
  obtain ⟨⟨hlog, hunsealed⟩, hgeneration⟩ := h
  let flag : ℕ → Bool := fun id => ((w.records.segments.get? id).map WalSegment.isSealed).getD true
  have hflagged : Flagged flag w := fun id seg hs =>
    ⟨(hlog.segment id seg hs).1.fileNo_eq, by simp only [flag, hs, Option.map_some, Option.getD_some]⟩
  have hactive : flag w.records.activeFileNo = false := by
    obtain ⟨seg, hs, hflag⟩ := hunsealed
    simp only [flag, hs, Option.map_some, Option.getD_some, hflag]
  have hflags : returns (replayAll env policy) (fun _ w' => (∀ seg,
      w'.records.segments.get? w'.records.activeFileNo = some seg → seg.isSealed = false) ∧
      w'.records.generation = generation) w := by
    rw [replayAll, returns, Prog.wp_bind, Prog.wp_get]
    refine returns_bind (Prog.wp_mono (Prog.wp_and (returns_replaySegments_flagged w.segmentIDs false _
      hflagged) (returns_replaySegments henv w.segmentIDs _ hlog.segment w.segmentIDs_sorted
      (fun i hi => World.mem_segmentIDs.mp hi) (fun i hi => Or.inl (World.mem_segmentIDs.mpr hi))))
      (fun _ _ h => h) (fun _ _ _ => trivial)) ?_
    rintro ⟨drop, last⟩ w₁ ⟨h₁, hrest⟩
    cases drop with
    | false =>
      have hrecords := (hrest.2.1 rfl).records
      refine ⟨fun seg hs => ?_, ?_⟩
      · have hsame : w₁.records.activeFileNo = w.records.activeFileNo := by rw [hrecords]
        rw [(h₁ _ seg hs).2, hsame, hactive]
      · rw [hrecords]
        exact hgeneration
    | true =>
      have hrecords := (hrest.2.2 rfl).1.records
      refine Prog.wp_modify.mpr ⟨fun seg hs => ?_, ?_⟩
      · have hs' : (w₁.records.segments.mapValues fun id (seg : WalSegment) =>
          { seg with isSealed := id ≠ last }).get? last = some seg := hs
        rw [SortedMap.get?_mapValues, Option.map_eq_some_iff] at hs'
        obtain ⟨seg', _, rfl⟩ := hs'
        exact decide_eq_false (not_not.mpr rfl)
      · show w₁.records.generation = generation
        rw [hrecords]
        exact hgeneration
  refine Prog.wp_mono (Prog.wp_and (returns_replayAll henv hlog) hflags) ?_ (fun _ _ _ => trivial)
  rintro _ w' ⟨hlog', hunsealed', hgeneration'⟩
  obtain ⟨seg, hs⟩ := hlog'.active
  exact ⟨⟨hlog', seg, hs, hunsealed' seg hs⟩, hgeneration'⟩

/-- **`Store::Open`** gives a store that accepts records. -/
theorem returns_openStore (henv : env.Survives) (options : Options) :
    returns (openStore env options) (fun _ w' => Accepting w' ∧ w'.fatal = none) w := by
  rw [openStore]
  split
  · trivial
  refine returns_bind (returns_trivial _ _) (fun _ w₁ _ => ?_)
  refine returns_bind (returns_trivial _ _) (fun manifest w₂ _ => ?_)
  refine returns_bind (returns_openRecords_accepting henv _ _) (fun _ w₃ h₃ => ?_)
  refine returns_bind (Q := fun _ w' => AcceptingIn manifest.walGeneration w') (Prog.wp_mono
    (Prog.ends_ofOutcome (o := fromMinpatricia (Minpatricia.newWithNodes w₃.key .new)) h₃)
    (fun _ _ h => h) (fun _ _ _ => trivial)) (fun empty w₄ h₄ => ?_)
  have hload : returns (loadSnapshot env manifest empty)
      (fun _ w' => AcceptingIn manifest.walGeneration w') w₄ := by
    rw [loadSnapshot]
    split
    · exact h₄
    refine returns_bind (Q := fun _ w' => AcceptingIn manifest.walGeneration w') (Prog.wp_mono
      (ends_readSnapshot (P := fun d => d = w₄.disk) (OnlyDisk.refl rfl))
      (fun _ w' h' => ⟨h₄.1.congr h'.records (fun n => by rw [h'.disk]),
        (congrArg _ h'.records).trans h₄.2⟩) (fun _ _ _ => trivial)) (fun entries w₅ h₅ => ?_)
    exact Prog.wp_mono (ends_loadSnapshotRecords entries empty h₅) (fun _ _ h => h)
      (fun _ _ _ => trivial)
  refine returns_bind hload (fun index w₅ h₅ => ?_)
  rw [returns, Prog.wp_bind, Prog.wp_modify]
  refine returns_bind (returns_replayAll_accepting henv ⟨h₅.1.congr rfl (fun _ => rfl), h₅.2⟩)
    (fun _ w₆ h₆ => ?_)
  split
  · refine returns_bind (Prog.wp_mono (ends_removeOld_accepting h₆) (fun _ _ h => h)
      (fun _ _ _ => trivial)) (fun _ w₇ h₇ => ?_)
    exact Prog.wp_modify.mpr ⟨h₇.1.congr rfl (fun _ => rfl), rfl⟩
  · exact Prog.wp_modify.mpr ⟨h₆.1.congr rfl (fun _ => rfl), rfl⟩

end Flagged

/-! ### Runs -/

/-- **The first segment of the next generation can be opened.** -/
def NextSegmentFree (w : World) : Prop :=
  Openable ((w.disk.walFile? (nextGeneration w.records.generation) kFirstWalSegmentNo).getD .empty)
    w.records.walSize

/-- A checkpoint may follow a write: there are as many segments as are tolerated already. -/
def MayCheckpoint (w : World) : Prop := kCheckpointWalSegmentThreshold ≤ w.records.segments.size

/-- **No reset of a checkpoint fails** that may follow a write: neither one of its file-system calls,
nor the check of what an earlier attempt may have left in the place of its segment. -/
def ResetsSucceed : CallCondition
  | env, .put _ _, w => MayCheckpoint w → env.ReliableAt .reset ∧ NextSegmentFree w
  | env, .delete _, w => MayCheckpoint w → env.ReliableAt .reset ∧ NextSegmentFree w
  | _, _, _ => True

section Runs

variable {env : Env} {w w' : World}

/-- A generation is not the next one. -/
theorem nextGeneration_ne (generation : ℕ) : nextGeneration generation ≠ generation := by
  rw [nextGeneration]
  omega

/-- The world in which a reset opens its segment. -/
def World.resetting (w : World) (generation t : ℕ) : World :=
  { w with
    clock := t
    records := ⟨w.records.walSize, generation, kFirstWalSegmentNo, kFirstWalSegmentNo + 1, [.dummy],
      .empty⟩ }

/-- **`ResetToSnapshot`** when its calls succeed, on a generation with a directory. -/
theorem resetToSnapshot_ok (hsite : env.ReliableAt .reset) (hmap : env.Stores) (h : LogOk w)
    {generation : ℕ} (hg : generation ≠ 0) {files : WalDir}
    (hdir : w.disk.wal.get? generation = some files) {f : WalFile}
    (hf : f = (files.get? kFirstWalSegmentNo).getD .empty) (hopen : Openable f w.records.walSize) :
    ∃ t t', resetToSnapshot env generation w = .ok () (((w.resetting generation t).onDisk
      (w.disk.setDir generation (files.insert kFirstWalSegmentNo (openedFile f w.records.walSize)))
      t').setSegment { openedSegment kFirstWalSegmentNo w.records.walSize f with
        isSealed := false }) := by
  obtain ⟨t, hclose⟩ := closeRecords_ok hsite false w
  have hcreate : createWalDir env .reset generation (w.drained.onDisk w.disk t) =
      .ok () (w.drained.onDisk w.disk (t + 1)) := by
    rw [createWalDir, syscall_ok hsite]
    simp only [World.onDisk_disk, World.onDisk_clock, World.onDisk_onDisk, hdir, Option.isSome_some,
      if_true]
  obtain ⟨t', hrun⟩ := openSegment_ok (w := w.resetting generation (t + 1)) hsite hmap h.size_lo
    h.size_hi (show 0 < kFirstWalSegmentNo by decide) (by decide) hdir hf hopen false
  refine ⟨t + 1, t', ?_⟩
  rw [resetToSnapshot, if_neg hg, Prog.bind_ok hclose, Prog.bind_ok hcreate, Prog.modify_bind]
  exact hrun

/-- **A write under the condition** leaves a store that accepts records. -/
theorem writeRule_accepting (henv : env.Survives) (h : Accepting w)
    (hreset : MayCheckpoint w → env.ReliableAt .reset ∧ NextSegmentFree w) :
    WriteRule env Accepting w := by
  refine ⟨h, fun ix w₁ h₁ ix' fatal => h₁.accepting.congr rfl (fun _ => rfl),
    fun ix w₁ h₁ hgrown hmany ix' => ?_⟩
  have hthreshold : MayCheckpoint w := by
    rw [MayCheckpoint]
    omega
  obtain ⟨hsite, hfree⟩ := hreset hthreshold
  have hgeneration : w₁.records.generation = w.records.generation := h₁.walOnly.generation
  have hwal : w₁.records.walSize = w.records.walSize := h₁.walOnly.walSize
  have haccepting : Accepting (w₁.withIndex ix') := h₁.accepting.congr rfl (fun _ => rfl)
  refine leaves_checkpointLocked haccepting (fun _ h => h) (fun content w₂ h₂ => ?_)
  have haccepting₂ : Accepting w₂ := haccepting.congr h₂.records
    (fun n => (Publishing.manifest h₂.disk).walFile? _ n)
  by_cases hg : nextGeneration w₁.records.generation = 0
  · rw [show nextGeneration (w₁.withIndex ix').records.generation = 0 from hg, resetToSnapshot,
      if_pos rfl]
    exact haccepting₂
  · -- the directory is there, and what it may hold has not changed since the call began
    have hdir : w₂.disk.wal.get? (nextGeneration w₁.records.generation) =
        some (w₁.disk.dir (nextGeneration w₁.records.generation)) := by
      rw [h₂.disk.wal_eq]
      exact withWalDir_get? _ _
    have hne := nextGeneration_ne w₁.records.generation
    have hsame : w₁.disk.dir (nextGeneration w₁.records.generation) =
        w.disk.dir (nextGeneration w₁.records.generation) :=
      h₁.walOnly.dir_eq _ (fun heq => hne (heq.trans hgeneration.symm))
    have hopen : Openable (((w₁.disk.dir (nextGeneration w₁.records.generation)).get?
        kFirstWalSegmentNo).getD .empty) w₂.records.walSize := by
      rw [hsame, h₂.records, World.withIndex_records, hwal, hgeneration]
      exact hfree
    obtain ⟨t, t', hrun⟩ := resetToSnapshot_ok hsite henv.stores haccepting₂.log hg hdir rfl hopen
    exact (Prog.wp_of_ok hrun).mpr (Prog.wp_run_ok (wp_resetToSnapshot henv haccepting₂) hrun)

end Runs

end MinweightStore.Store
