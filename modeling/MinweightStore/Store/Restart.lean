import MinweightStore.Store.Durable

/-!
# Opening a directory that holds a map

`Open` of a directory that holds a map, where the cleanup at its end may be stopped.

* `Stands` — a store that stands on its directory, with the index of its log;
* `Serves` — a store that shows a map, on a directory that holds it;
* `completes_prepareOpen` — `Open` up to the replay;
* `completes_openStore`, `openStore_absent` — **the store serves the map**, or `Open` is stopped and
  the directory holds it;
* `active_segment_unsealed` — an open store can append.
-/

namespace MinweightStore.Store

open Minpatricia (ByteView Position Index kMaxKeySize KnowsAll)
open ValidPrefix

/-- A bound on the pages of an index over a snapshot and a log. -/
def pagesOf (files : WalDir) (entries : List Item) : ℕ :=
  1 + entries.length + (dirRecovered files).length

/-- **A store with the index of its log**, on its directory. -/
structure Stands (w : World) (files : WalDir) (entries : List Item) : Prop where
  based : Based w files entries
  index : IndexFor w.index (positionsOf files entries) (pagesOf files entries)

section Stands

variable {w w' : World} {files : WalDir} {entries : List Item}

theorem Stands.shows (h : Stands w files entries) :
    Shows w (shownBy files entries) (pagesOf files entries) :=
  ⟨_, h.index, h.based.values⟩

/-- It depends on the record store, the index and the disk. -/
theorem Stands.congr (h : Stands w files entries) (hrecords : w'.records = w.records)
    (hdisk : w'.disk = w.disk) (hindex : w'.index = w.index) : Stands w' files entries :=
  ⟨h.based.congr hrecords hdisk, hindex ▸ h.index⟩

/-- **The pages of an index never run out**: a log is shorter. -/
theorem Based.pages_lt (h : Based w files entries) : pagesOf files entries < 2 ^ 62 := by
  have hcount := h.count
  have hmarked := length_marked_lt h.opened.segmentsOk
  rw [h.opened.pieces_eq, ← dirRecovered_complete h.complete] at hmarked
  rw [pagesOf]
  omega

/-- The cleanup leaves the store on its directory. -/
theorem Based.cleaned (h : Based w files entries)
    (hw' : OnlyDisk (Cleaned w.records.generation w.disk) w w') : Based w' files entries := by
  obtain ⟨d, t, rfl, hd⟩ := hw'
  have hwal := hd.wal_eq
  refine ⟨h.accepting.congr rfl (fun n => ?_), ?_, h.complete, h.snapshot,
    h.checkpointed.congr hd.manifest_eq hd.snapshot_eq, h.generation_pos, h.generation_lt, h.items,
    h.count, fun g hg => hd.none_new g (h.ahead g hg)⟩
  · rw [World.onDisk_disk, Disk.walFile?, Disk.walFile?, Disk.dir, Disk.dir, hwal]
  · exact ⟨h.opened.images, hwal.trans h.opened.dir, h.opened.segments, h.opened.segment⟩

/-- **The replay of a complete log** gives the store its index. -/
theorem Based.replay (h : Based w files entries)
    (hix : Indexed w w.index (snapshotMap 1 entries .empty) (1 + entries.length)) : ∃ ix',
    (∀ env policy, replayAll env policy w = .ok () (w.withIndex ix')) ∧
      Stands (w.withIndex ix') files entries := by
  have hcount := h.count
  obtain ⟨ix', happlied, hreplay⟩ := replay_opened h.opened hix (by omega)
  have hindex := happlied.indexed.1
  rw [h.opened.recovered_eq] at hindex
  refine ⟨ix', ?_, h.congr rfl rfl, hindex⟩
  rcases hreplay with ⟨_, hrun⟩ | ⟨_, _, _, _, _, hstop, _⟩
  · exact hrun
  · exact absurd h.complete hstop.not_complete

end Stands

/-! ### Stores that serve a map -/

/-- **A store that serves a map**: it shows the map, on a directory that holds it. -/
def Serves (walSize : ℕ) (v : SortedMap ByteView ByteView) (w : World) : Prop :=
  w.records.walSize = walSize ∧ ∃ files entries, Stands w files entries ∧ shownBy files entries = v

section Serves

variable {env : Env} {w w' : World} {walSize : ℕ} {v : SortedMap ByteView ByteView} {files : WalDir}
  {entries : List Item}

theorem Stands.serves (h : Stands w files entries) :
    Serves w.records.walSize (shownBy files entries) w := ⟨rfl, files, entries, h, rfl⟩

theorem Serves.congr (h : Serves walSize v w) (hrecords : w'.records = w.records)
    (hdisk : w'.disk = w.disk) (hindex : w'.index = w.index) : Serves walSize v w' := by
  obtain ⟨hsize, files, entries, hstands, hshown⟩ := h
  exact ⟨hrecords ▸ hsize, files, entries, hstands.congr hrecords hdisk hindex, hshown⟩

/-- **Its directory holds the map.** -/
theorem Serves.holds (h : Serves walSize v w) : DiskHolds walSize v w.disk := by
  obtain ⟨rfl, files, entries, hstands, rfl⟩ := h
  exact ⟨_, entries, hstands.based.holds⟩

theorem Serves.shows (h : Serves walSize v w) : ∃ pages, Shows w v pages := by
  obtain ⟨_, files, entries, hstands, rfl⟩ := h
  exact ⟨_, hstands.shows⟩

/-- **The cleanup** changes neither the store nor the directory, as far as the map goes. -/
theorem completes_cleanup {generation : ℕ} (h : Serves walSize v w)
    (hg : w.records.generation = generation) : completes env (DiskHolds walSize v)
      (removeOld env generation)
      (fun _ w' => Serves walSize v w' ∧ w'.isOpen = w.isOpen ∧ w'.fatal = w.fatal) w := by
  obtain ⟨rfl, files, entries, hstands, rfl⟩ := h
  subst hg
  refine completes_mono (completes_removeOld _ w)
    (fun d hd => ⟨_, _, hstands.based.holds.cleaned hd⟩) (fun _ w' hw' => ?_)
  have hbased := hstands.based.cleaned hw'
  obtain ⟨d, t, rfl, _⟩ := hw'
  exact ⟨⟨rfl, files, entries, ⟨hbased, hstands.index⟩, rfl⟩, rfl, rfl⟩

end Serves

/-! ### Up to the replay -/

section Prepared

variable {env : Env} {w : World} {walSize generation : ℕ} {entries : List Item} {files : WalDir}

/-- The world has a snapshot loaded. -/
theorem Accepting.withSnapshot (h : Accepting w) {records : List OwnedRecord}
    (hlo : 1 ≤ records.length) (hhi : records.length ≤ kRecordOffsetLimit) :
    Accepting (w.withSnapshot records) :=
  ⟨⟨h.log.size_lo, h.log.size_hi, h.log.segment, h.log.active, h.log.top, h.log.next, hlo, hhi⟩,
    h.unsealed⟩

/-- **A prepared record store** accepts records. -/
theorem accepting_prepared (hlo : kWalHeaderSize + kWalRecordHeaderSize ≤ walSize)
    (hhi : walSize ≤ kRecordOffsetLimit) (hg : generation ≠ 0)
    (hopen : OpenableDir (w.disk.dir generation) walSize) (hcount : entries.length < 2 ^ 30) (t : ℕ)
    (ix : Index) : Accepting (preparedWorld w walSize generation entries t ix) := by
  have hlimit : kRecordOffsetLimit = 2 ^ 30 := rfl
  obtain ⟨t', hrun⟩ := openRecords_ok (w := w) (fun _ => rfl : Env.reliable.ReliableAt .openStore)
    Env.reliable_survives.stores hlo hhi hg hopen
  have hopened := (Prog.wp_run_ok (returns_openRecords_accepting Env.reliable_survives walSize
    generation) hrun).1
  have hloaded : Accepting (World.withSnapshot _ (.dummy :: entries.map Item.owned)) :=
    hopened.withSnapshot (by simp) (by rw [List.length_cons, List.length_map]; omega)
  exact hloaded.congr rfl (fun _ => rfl)

variable {d : Disk} {v : SortedMap ByteView ByteView} {options : Options}

/-- `ReadManifest` finds the checkpoint. -/
theorem HoldsIn.readManifest (h : HoldsIn walSize generation entries w.disk v) :
    completes env (fun d => d = w.disk) (readManifest env .openStore) (fun manifest w' =>
      manifest = ⟨w.disk.manifest.isSome, generation⟩ ∧ ∃ t, w' = w.onDisk w.disk t) w := by
  have hsite := reliableAt_reliable .openStore
  have hreliable : ∃ t, Store.readManifest .reliable .openStore w =
      .ok ⟨w.disk.manifest.isSome, generation⟩ (w.onDisk w.disk t) := by
    cases h.checkpointed with
    | first absent =>
      refine ⟨w.clock + 1, ?_⟩
      rw [Store.readManifest, Prog.bind_ok (check_ok hsite "open" w), Prog.get_bind,
        World.onDisk_disk, absent]
      rfl
    | published manifest snapshot =>
      obtain ⟨t, hrun⟩ := readManifest_ok hsite (length_encodeManifest generation) manifest
      refine ⟨t, ?_⟩
      rw [hrun, decodeManifest_encode h.generation_pos h.generation_lt, manifest]
      rfl
  obtain ⟨t, hrun⟩ := hreliable
  have hends : endsOn env (fun d => d = w.disk) (Store.readManifest env .openStore) w :=
    endsOn_of_ends (Prog.ends_mono (ends_readManifest (OnlyDisk.refl (P := fun d => d = w.disk) rfl))
      (fun _ h => h.disk))
  exact completes_mono (completes_follows follows_readManifest hrun hends.faults) (fun _ h => h)
    (fun _ _ h => ⟨h.1, t, h.2⟩)

/-- A segment that is open is the file that was opened. -/
theorem openingFile_opened {size fileNo : ℕ} {f : WalFile} (hopen : Openable f size)
    (hlo : kWalHeaderSize + kWalRecordHeaderSize ≤ size) (d : Disk) :
    OpeningFile size generation fileNo f d (d.setWalFile generation fileNo (openedFile f size)) := by
  have hk : kWalHeaderSize = 4096 := rfl
  have hfile := hopen.fileOk (show kWalHeaderSize ≤ size by omega)
  exact Or.inr ⟨_, hfile.openable, hfile.openedFile_eq (by omega), rfl⟩

/-- The first segment of a directory without segments is an empty file. -/
theorem eq_getD_of_initialDir {files : WalDir} {id : ℕ} {f : WalFile}
    (hf : (initialDir files).get? id = some f) : f = (files.get? id).getD .empty := by
  rw [initialDir] at hf
  split at hf
  · rename_i hempty
    have hnone : files.get? id = none := by
      rw [SortedMap.get?, List.isEmpty_iff.mp hempty]
      rfl
    rw [SortedMap.get?_insert] at hf
    split at hf
    · rw [hnone, ← Option.some.inj hf]
      rfl
    · exact absurd hf (by simp [SortedMap.get?_empty])
  · rw [hf]
    rfl

/-- **While the segments are opened** the directory holds its map, by induction on them. -/
theorem HoldsIn.openSegments
    (hlo : kWalHeaderSize + kWalRecordHeaderSize ≤ walSize) (hhi : walSize ≤ kRecordOffsetLimit)
    (active : ℕ) (ids : List ℕ) (h : HoldsIn walSize generation entries w.disk v)
    (hsize : w.records.walSize = walSize) (hgeneration : w.records.generation = generation)
    (hdir : (w.disk.wal.get? generation).isSome)
    (hids : ∀ id ∈ ids, ((initialDir (w.disk.dir generation)).get? id).isSome) :
    endsOn env (fun d => HoldsIn walSize generation entries d v) (openSegments env active ids) w := by
  induction ids generalizing w with
  | nil => exact h
  | cons id ids ih =>
    subst hsize hgeneration
    obtain ⟨files, hfiles⟩ := Option.isSome_iff_exists.mp hdir
    obtain ⟨f, hf⟩ := Option.isSome_iff_exists.mp (hids id List.mem_cons_self)
    obtain ⟨hpos, hno, hopen⟩ := h.openable.initialDir id f hf
    have hinsert : ∀ f', (w.disk.setWalFile w.records.generation id f').dir w.records.generation =
        (w.disk.dir w.records.generation).insert id f' := fun f' => by
      rw [Disk.dir_setWalFile, if_pos rfl]
    rw [Store.openSegments, openSegment, bind_assoc, endsOn, Prog.wp_bind, Prog.wp_get, bind_assoc]
    refine Prog.wp_seq (completes_open h.generation?_eq hlo hhi hpos hno hfiles
      (eq_getD_of_initialDir hf) hopen) (fun seg w₁ h₁ => ?_)
      (fun _ _ h' => h'.2.mono fun _ hd => h.opening hf hd)
    obtain ⟨rfl, t, rfl⟩ := h₁
    rw [Prog.wp_bind, Prog.wp_modify]
    refine ih (h.opening hf (openingFile_opened hopen hlo w.disk)) rfl rfl ?_ (fun i hi => ?_)
    · show ((w.disk.wal.insert w.records.generation _).get? w.records.generation).isSome
      rw [SortedMap.get?_insert, if_pos rfl]
      rfl
    · show ((initialDir ((w.disk.setWalFile w.records.generation id _).dir
        w.records.generation)).get? i).isSome
      rw [hinsert, initialDir_insert hf, SortedMap.get?_insert]
      split
      · rfl
      · exact hids i (List.mem_cons_of_mem _ hi)

/-- **`SegmentedRecordStore::Open`** of a directory that holds a map. -/
theorem HoldsIn.openRecords
    (hlo : kWalHeaderSize + kWalRecordHeaderSize ≤ walSize) (hhi : walSize ≤ kRecordOffsetLimit)
    (h : HoldsIn walSize generation entries w.disk v) :
    endsOn env (fun d => HoldsIn walSize generation entries d v) (openRecords env walSize generation)
      w := by
  have hpos := h.generation_pos
  rw [Store.openRecords, if_neg (by omega), if_neg (by omega)]
  have hcreate : completes env (fun d => HoldsIn walSize generation entries d v)
      (createWalDir env .openStore generation) (fun _ w' =>
        HoldsIn walSize generation entries w'.disk v ∧
          (w'.disk.wal.get? generation).isSome) w := by
    refine completes_syscall h ?_
    simp only [World.onDisk_disk]
    split
    · rename_i hsome
      exact ⟨h, hsome⟩
    · rename_i hnone
      have hempty : w.disk.dir generation = .empty := by
        rw [Disk.dir, Option.not_isSome_iff_eq_none.mp hnone]
        rfl
      have hcreated := h.creating generation
      rw [hempty] at hcreated
      refine ⟨hcreated, ?_⟩
      rw [SortedMap.get?_insert, if_pos rfl]
      rfl
  refine Prog.wp_seq hcreate (fun _ w₁ h₁ => ?_) (fun _ _ h => h.2)
  obtain ⟨h₁, hdir⟩ := h₁
  have hlist : completes env (fun d => HoldsIn walSize generation entries d v)
      (listWalSegmentIDs env .openStore generation) (fun listed w' =>
        listed = ((w₁.disk.dir generation).entries.map Prod.fst).filter (0 < ·) ∧
          w'.disk = w₁.disk) w₁ :=
    completes_bind (completes_check (Q := fun _ w' => w'.disk = w₁.disk) h₁ rfl) fun _ w₂ h₂ =>
      completes_bind (completes_check (Q := fun _ w' => w'.disk = w₁.disk) (h₂ ▸ h₁) h₂) fun _ w₃ h₃ =>
      completes_bind (completes_check (Q := fun _ w' => w'.disk = w₁.disk) (h₃ ▸ h₁) h₃) fun _ w₄ h₄ =>
      (Prog.wp_bind.trans Prog.wp_get).mpr ⟨by rw [h₄], h₄⟩
  refine Prog.wp_seq hlist (fun listed w₂ h₂ => ?_) (fun _ _ h => h.2)
  obtain ⟨rfl, hdisk⟩ := h₂
  rw [initialIDs_eq h₁.openable, Prog.wp_bind, Prog.wp_modify]
  refine HoldsIn.openSegments hlo hhi _ _ (hdisk ▸ h₁) rfl rfl (hdisk ▸ hdir) (fun id hid => ?_)
  obtain ⟨e, he, rfl⟩ := List.mem_map.mp hid
  show ((initialDir (w₂.disk.dir generation)).get? e.1).isSome
  rw [hdisk, (SortedMap.mem_entries_iff _ e.1 e.2).mp he]
  rfl

/-- `ReadSnapshot` with `LoadSnapshotRecords` finds its items. -/
theorem HoldsIn.loadSnapshot (h : HoldsIn walSize generation entries d v)
    (hsnapshots : w.disk.snapshots = d.snapshots)
    (hrecords : w.records.snapshotRecords = [.dummy]) {ix : Index}
    (hix : Loadable w ix .empty 1) : completes env (fun d => d = w.disk)
      (loadSnapshot env ⟨d.manifest.isSome, generation⟩ ix) (fun ix' w' => ∃ t,
        w' = (w.onDisk w.disk t).withSnapshot (.dummy :: entries.map Item.owned) ∧
        Indexed w' ix' (snapshotMap 1 entries .empty) (1 + entries.length)) w := by
  have hcount := h.count
  cases h.checkpointed with
  | first absent =>
    have hself : (w.onDisk w.disk w.clock).withSnapshot
        (.dummy :: ([] : List Item).map Item.owned) = w := by
      rw [List.map_nil, ← hrecords]
      rfl
    rw [Store.loadSnapshot, absent]
    exact ⟨w.clock, hself.symm, hix.indexed⟩
  | published manifest snapshot =>
    have himage : w.disk.snapshots.get? generation =
        some (snapshotImage generation entries (List.replicate 4 0) []) := by
      rw [hsnapshots, snapshot, encodeSnapshot_eq]
    obtain ⟨t, hread⟩ := readSnapshot_image h.generation_pos h.generation_lt
      (reliableAt_reliable .openStore) h.count h.items
      (show (List.replicate 4 (0 : UInt8)).length = 4 from rfl) himage
    have hix' : Loadable (w.onDisk w.disk t) ix .empty 1 :=
      ⟨⟨hix.indexed.1, fun _ he => absurd he List.not_mem_nil⟩, hix.some_record, hix.pages_le,
        hix.records_le⟩
    obtain ⟨ix', hload, hloaded⟩ := loadSnapshotRecords_ok entries hix'
      (fun item hi => (h.items item hi).key_le) (by
        rw [World.onDisk_records, hrecords, List.length_singleton]
        omega)
    rw [World.onDisk_records, hrecords] at hload hloaded
    rw [Store.loadSnapshot, manifest, if_neg (by simp)]
    have hends : endsOn env (fun d => d = w.disk) (readSnapshot env .openStore generation) w :=
      endsOn_of_ends (Prog.ends_mono (ends_readSnapshot (OnlyDisk.refl (P := fun d => d = w.disk) rfl))
        (fun _ h => h.disk))
    refine completes_bind (completes_follows (follows_readSnapshot generation) hread hends.faults)
      (fun _ _ h₁ => ?_)
    obtain ⟨rfl, rfl⟩ := h₁
    exact (Prog.wp_of_ok hload).mpr ⟨t, rfl, hloaded.indexed⟩

/-- The world after the last assignments of `Open`. -/
def World.opened (w : World) (options : Options) : World :=
  { w with
    isOpen := true
    fatal := none
    verifyIndexOnRead := options.verifyIndexOnRead
    syncOnClose := options.syncOnClose }

/-- What `Open` does up to the replay: the manifest it has found. -/
def prepareOpen (env : Env) (options : Options) : StoreM ManifestState := do
  check env .openStore "mkdir"
  let manifest ← readManifest env .openStore
  openRecords env options.walSize manifest.walGeneration
  let empty ← newIndex
  let index ← loadSnapshot env manifest empty
  modify fun w => { w with index := index }
  pure manifest

/-- What `Open` does from the replay on. -/
def finishOpen (env : Env) (options : Options) (manifest : ManifestState) : StoreM Unit := do
  replayAll env options.walReplayPolicy
  if manifest.valid then removeOld env manifest.walGeneration
  modify fun w => w.opened options

theorem openStore_eq (hlo : kWalHeaderSize + kWalRecordHeaderSize ≤ options.walSize)
    (hhi : options.walSize ≤ kRecordOffsetLimit) :
    openStore env options = prepareOpen env options >>= finishOpen env options := by
  rw [openStore, if_neg (by omega), prepareOpen]
  simp only [bind_assoc, pure_bind]
  rfl

/-- **`Open` up to the replay.** -/
theorem completes_prepareOpen (hlo : kWalHeaderSize + kWalRecordHeaderSize ≤ options.walSize)
    (hhi : options.walSize ≤ kRecordOffsetLimit)
    (h : HoldsIn options.walSize generation entries w.disk v) :
    completes env (fun d => HoldsIn options.walSize generation entries d v) (prepareOpen env options)
      (fun manifest w' => manifest = ⟨w.disk.manifest.isSome, generation⟩ ∧ ∃ t ix,
        w' = preparedWorld w options.walSize generation entries t ix ∧
        Indexed w' ix (snapshotMap 1 entries .empty) (1 + entries.length)) w := by
  have hpos := h.generation_pos
  have h₁ : HoldsIn options.walSize generation entries (w.onDisk w.disk (w.clock + 1)).disk v := h
  refine completes_bind (completes_check (Q := fun _ w' => w' = w.onDisk w.disk (w.clock + 1)) h rfl)
    (fun _ _ hw₁ => ?_)
  subst hw₁
  refine completes_bind (completes_mono h₁.readManifest (fun _ hd => hd ▸ h) (fun _ _ h => h))
    (fun manifest w₂ h₂ => ?_)
  obtain ⟨rfl, t₁, rfl⟩ := h₂
  have hin : HoldsIn options.walSize generation entries (w.onDisk w.disk t₁).disk v := h
  obtain ⟨t₂, hrecords⟩ := openRecords_ok (w := w.onDisk w.disk t₁) (reliableAt_reliable .openStore)
    Env.reliable_survives.stores hlo hhi (show generation ≠ 0 by omega) h.openable
  have hopened := Prog.wp_run_ok (hin.openRecords hlo hhi) hrecords
  refine completes_bind (completes_follows (follows_openRecords _ _) hrecords
    (hin.openRecords hlo hhi).faults) (fun _ w₃ h₃ => ?_)
  obtain ⟨-, rfl⟩ := h₃
  obtain ⟨empty, hnew, hempty⟩ := newIndex_ok (w := { w with
    disk := w.disk.setDir generation (openedDir (w.disk.dir generation) options.walSize)
    clock := t₂
    records := openedRecords options.walSize generation (w.disk.dir generation) }) rfl
  refine (Prog.wp_bind.trans (Prog.wp_of_ok hnew)).mpr ?_
  have hload : completes env _ (loadSnapshot env ⟨w.disk.manifest.isSome, generation⟩ empty) _ _ :=
    h.loadSnapshot (by rfl) (by rfl) hempty
  refine completes_bind (completes_mono hload (fun _ hd => by rw [hd]; exact hopened) (fun _ _ h => h))
    (fun ix w₄ h₄ => ?_)
  obtain ⟨t, rfl, hix⟩ := h₄
  rw [completes, Prog.wp_bind, Prog.wp_modify]
  exact ⟨rfl, t, ix, rfl, hix⟩

/-- The prepared store is on the directory that `Open` found. -/
theorem based_prepared (hlo : kWalHeaderSize + kWalRecordHeaderSize ≤ walSize)
    (hhi : walSize ≤ kRecordOffsetLimit) (h : HoldsIn walSize generation entries w.disk v) (t : ℕ)
    (ix : Index) : Based (preparedWorld w walSize generation entries t ix)
      (openedDir (w.disk.dir generation) walSize) entries := by
  have hpos := h.generation_pos
  refine ⟨accepting_prepared hlo hhi (by omega) h.openable h.count t ix,
    opened_prepared hlo hhi h.openable t ix, h.complete, rfl, h.checkpointed.congr rfl rfl, hpos,
    h.generation_lt, h.items, h.count, fun g hg => ?_⟩
  have hlt : generation < g := hg
  show (w.disk.setDir generation _).dir g = .empty
  rw [Disk.dir_setDir, if_neg (by omega)]
  exact h.ahead g hlt

/-- **`Open` of a directory that holds a map**: the store serves it, or `Open` is stopped and the
directory still holds it. -/
theorem completes_openStore (hlo : kWalHeaderSize + kWalRecordHeaderSize ≤ options.walSize)
    (hhi : options.walSize ≤ kRecordOffsetLimit) (h : DiskHolds options.walSize v w.disk) :
    completes env (DiskHolds options.walSize v) (openStore env options) (fun _ w' =>
      Serves options.walSize v w' ∧ w'.isOpen = true ∧ w'.fatal = none) w := by
  obtain ⟨generation, entries, hin⟩ := h
  rw [openStore_eq hlo hhi]
  refine completes_bind (completes_mono (completes_prepareOpen hlo hhi hin)
    (fun _ hd => ⟨_, _, hd⟩) (fun _ _ h => h)) (fun manifest w₁ h₁ => ?_)
  obtain ⟨rfl, t, ix, rfl, hix⟩ := h₁
  obtain ⟨ix', hrun, hstands⟩ := (based_prepared hlo hhi hin t ix).replay hix
  have hserves : Serves options.walSize v _ := ⟨rfl, _, _, hstands, hin.shown⟩
  have hlast : ∀ w₁, Serves options.walSize v w₁ → completes env (DiskHolds options.walSize v)
      (modify fun w : World => w.opened options) (fun _ w' => Serves options.walSize v w' ∧
        w'.isOpen = true ∧ w'.fatal = none) w₁ := fun w₁ h₁ =>
    Prog.wp_modify.mpr ⟨h₁.congr rfl rfl rfl, rfl, rfl⟩
  rw [finishOpen, completes, Prog.wp_bind, Prog.wp_of_ok (hrun _ _)]
  split
  · exact completes_bind (completes_cleanup hserves rfl) (fun _ w₁ h₁ => hlast w₁ h₁.1)
  · exact hlast _ hserves

/-- **`Open` of a directory without a manifest**: nothing is to be cleaned up. -/
theorem openStore_absent (hlo : kWalHeaderSize + kWalRecordHeaderSize ≤ options.walSize)
    (hhi : options.walSize ≤ kRecordOffsetLimit)
    (h : HoldsIn options.walSize generation entries w.disk v) (habsent : w.disk.manifest = none) :
    ∃ t ix, openStore .reliable options w = .ok ()
        ((preparedWorld w options.walSize generation entries t ix).opened options) ∧
      Serves options.walSize v
        ((preparedWorld w options.walSize generation entries t ix).opened options) := by
  obtain ⟨manifest, w₁, hprepared, rfl, t, ix, rfl, hix⟩ := completes_run
    (completes_prepareOpen hlo hhi h)
  obtain ⟨ix', hreplay, hstands⟩ := (based_prepared hlo hhi h t ix).replay hix
  have hserves : Serves options.walSize v _ := ⟨rfl, _, _, hstands, h.shown⟩
  refine ⟨t, ix', ?_, hserves.congr rfl rfl rfl⟩
  rw [openStore_eq hlo hhi, Prog.bind_ok hprepared, finishOpen, Prog.bind_ok (hreplay _ _), habsent]
  rfl

end Prepared

/-! ### The active segment -/

section Active

/-- Options with small segments. -/
def smallOptions : Options := ⟨8192, .strict, false, true⟩

/-- The first `Open` in an empty directory. -/
theorem openStore_first : ∃ t ix, openStore .reliable smallOptions (World.boot .empty) = .ok ()
      ((preparedWorld (World.boot .empty) 8192 kFirstWalGeneration [] t ix).opened smallOptions) ∧
    Serves 8192 .empty
      ((preparedWorld (World.boot .empty) 8192 kFirstWalGeneration [] t ix).opened smallOptions) := by
  have hlo : kWalHeaderSize + kWalRecordHeaderSize ≤ smallOptions.walSize := by decide
  have hhi : smallOptions.walSize ≤ kRecordOffsetLimit := by decide
  obtain ⟨hcomplete, _, hshown⟩ := shownBy_fresh (show kWalHeaderSize ≤ 8192 by decide) []
  have hin : HoldsIn smallOptions.walSize kFirstWalGeneration [] (World.boot .empty).disk .empty :=
    ⟨.first rfl, by decide, by decide, fun _ hi => absurd hi List.not_mem_nil, by decide,
      openableDir_empty _, hcomplete, hshown, fun _ _ => rfl⟩
  exact openStore_absent hlo hhi hin rfl

/-- **An open store has an unsealed active segment**, fatal or not, in every run in which no reset of
a checkpoint fails, whichever other calls fail. -/
theorem active_segment_unsealed {w : World} (h : Reach ResetsSucceed w) (hopen : w.isOpen = true) :
    ∃ seg, w.records.segments.get? w.records.activeFileNo = some seg ∧ seg.isSealed = false := by
  have haccepting : Accepting w := by
    refine h.openInvariant (fun env options w henv => ?_) (fun env key value w henv hcond hw => ?_)
      (fun env key w henv hcond hw => ?_) hopen
    · exact returns_mono (returns_openStore henv options) (fun _ _ h => h.1)
    · exact leaves_put henv (writeRule_accepting henv hw hcond) key value
    · exact leaves_delete henv (writeRule_accepting henv hw hcond) key
  exact haccepting.unsealed

/-- The store that the first `Open` gives. -/
theorem active_segment_unsealed_first : ∃ w, Reach ResetsSucceed w ∧ w.isOpen = true ∧
    ∃ seg, w.records.segments.get? w.records.activeFileNo = some seg ∧ seg.isSealed = false := by
  obtain ⟨t, ix, hrun, _⟩ := openStore_first
  have hreach : Reach ResetsSucceed _ := ⟨.empty, .single ⟨.reliable, .openStore smallOptions,
    Env.reliable_survives, trivial, rfl, Or.inl ⟨(), hrun⟩⟩⟩
  exact ⟨_, hreach, rfl, active_segment_unsealed hreach rfl⟩

end Active

end MinweightStore.Store
