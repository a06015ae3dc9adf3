import MinweightStore.Store.Replay

/-!
# Opening segments

What `WalSegment::Open` makes of a file, and `SegmentedRecordStore::Open` of a directory, when the
calls succeed.

* `openedFile` — the file after `WalSegment::Open`, if it accepts the file at all;
* `open_ok`, `openRecords_ok` — the segments of a directory of acceptable files.
-/

namespace MinweightStore.Store

open Minpatricia (ByteView Position Index kMaxKeySize KnowsAll)
open ValidPrefix

/-! ### Files -/

/-- The used offset in a header. -/
def headerUsed (m : Mapping) : ℕ := (load64 (readBytes m kWalHeaderUsedOffset 8)).toNat

/-- The bytes after `InitHeader`. -/
def initBytes (m : Mapping) : Mapping :=
  writeBytes (writeBytes (writeBytes m 0 kWalHeaderMagic) kWalHeaderVersionOffset
    (store32 kWalVersion)) kWalHeaderUsedOffset (store64 (UInt64.ofNat kWalHeaderSize))

/-- A header that `LoadHeader` accepts. -/
structure HeaderOk (m : Mapping) (size : ℕ) : Prop where
  magic : readBytes m 0 8 = kWalHeaderMagic
  version : load32 (readBytes m kWalHeaderVersionOffset 4) = kWalVersion
  used_lo : kWalHeaderSize ≤ headerUsed m
  used_hi : headerUsed m ≤ size

theorem loadHeader_ok {m : Mapping} {size : ℕ} (h : HeaderOk m size) :
    WalSegment.loadHeader m size = .ok (headerUsed m) := by
  have hmagic : ¬ readBytes m 0 kWalHeaderMagic.length ≠ kWalHeaderMagic := not_not.mpr h.magic
  have hlo := h.used_lo
  have hhi := h.used_hi
  rw [WalSegment.loadHeader, if_neg hmagic, if_neg (not_not.mpr h.version)]
  show (if headerUsed m < kWalHeaderSize ∨ headerUsed m > size then _ else _) = _
  rw [if_neg (by omega)]
  rfl

theorem loadHeader_ok_iff {m : Mapping} {size used : ℕ} :
    WalSegment.loadHeader m size = .ok used ↔ HeaderOk m size ∧ used = headerUsed m := by
  constructor
  · intro h
    rw [WalSegment.loadHeader] at h
    split at h
    · exact absurd h (by simp [err])
    split at h
    · exact absurd h (by simp [err])
    simp only at h
    split at h
    · exact absurd h (by simp [err])
    · rename_i h1 h2 h3
      have h3' : ¬ (headerUsed m < kWalHeaderSize ∨ headerUsed m > size) := h3
      exact ⟨⟨not_not.mp h1, not_not.mp h2, by omega, by omega⟩, (Except.ok.inj h).symm⟩
  · rintro ⟨h, rfl⟩
    exact loadHeader_ok h

/-- A header that was accepted is not zero. -/
theorem HeaderOk.not_zero {m : Mapping} {size : ℕ} (h : HeaderOk m size) :
    isZeroBytes m kWalHeaderSize = false := by
  have h0 : m 0 = 77 := by
    have := congrArg (fun l : List UInt8 => l.getD 0 0) h.magic
    simpa [readBytes, kWalHeaderMagic] using this
  rw [isZeroBytes, List.all_eq_false]
  refine ⟨0, List.mem_range.mpr (by decide), ?_⟩
  rw [h0]
  decide

theorem headerOk_initBytes (m : Mapping) {size : ℕ} (h : kWalHeaderSize ≤ size) :
    HeaderOk (initBytes m) size ∧ headerUsed (initBytes m) = kWalHeaderSize := by
  have hused : readBytes (initBytes m) kWalHeaderUsedOffset 8 =
      store64 (UInt64.ofNat kWalHeaderSize) :=
    readBytes_writeBytes _ _ (store64 (UInt64.ofNat kWalHeaderSize))
  have hvalue : headerUsed (initBytes m) = kWalHeaderSize := by
    rw [headerUsed, hused, load64_store64]
    rfl
  refine ⟨⟨?_, ?_, le_of_eq hvalue.symm, hvalue ▸ h⟩, hvalue⟩
  · rw [initBytes, readBytes_writeBytes_of_disjoint (Or.inl (by decide)),
      readBytes_writeBytes_of_disjoint (Or.inl (by decide))]
    exact readBytes_writeBytes m 0 kWalHeaderMagic
  · rw [initBytes, readBytes_writeBytes_of_disjoint (Or.inl (by decide))]
    have := readBytes_writeBytes (writeBytes m 0 kWalHeaderMagic) kWalHeaderVersionOffset
      (store32 kWalVersion)
    rw [length_store32] at this
    rw [this, load32_store32]

/-- The file `WalSegment::Open` maps: an empty one is enlarged. -/
def sizedFile (f : WalFile) (size : ℕ) : WalFile := if f.size = 0 then f.resize size else f

/-- The file `WalSegment::Open` leaves. -/
def openedFile (f : WalFile) (size : ℕ) : WalFile :=
  if isZeroBytes (sizedFile f size).bytes kWalHeaderSize then
    ⟨size, initBytes (sizedFile f size).bytes⟩
  else sizedFile f size

/-- The files `WalSegment::Open` accepts: empty, or of the right size with a zero header or an
accepted one. -/
def Openable (f : WalFile) (size : ℕ) : Prop :=
  f.size = 0 ∨ (f.size = size ∧
    (isZeroBytes f.bytes kWalHeaderSize = true ∨ HeaderOk f.bytes size))

/-- What an open segment file is like. -/
structure FileOk (f : WalFile) (size : ℕ) : Prop where
  size_eq : f.size = size
  header : HeaderOk f.bytes size

theorem FileOk.openable {f : WalFile} {size : ℕ} (h : FileOk f size) : Openable f size :=
  Or.inr ⟨h.size_eq, Or.inr h.header⟩

/-- A file that is already a segment is not changed. -/
theorem FileOk.openedFile_eq {f : WalFile} {size : ℕ} (h : FileOk f size) (hsize : 0 < size) :
    openedFile f size = f := by
  have hsized : sizedFile f size = f := by
    rw [sizedFile, if_neg (by rw [h.size_eq]; omega)]
  rw [openedFile, hsized, if_neg (by rw [h.header.not_zero]; simp)]

theorem isZeroBytes_resize {f : WalFile} {size : ℕ} (h : f.size = 0) :
    isZeroBytes (f.resize size).bytes kWalHeaderSize = true := by
  rw [isZeroBytes, List.all_eq_true]
  intro i _
  simp [WalFile.resize, h]

theorem sizedFile_size {f : WalFile} {size : ℕ} (h : Openable f size) :
    (sizedFile f size).size = size := by
  rw [sizedFile]
  split
  · rfl
  · rename_i hne
    exact (h.resolve_left hne).1

/-- An enlarged file is opened as the file itself is. -/
theorem Openable.resized {f : WalFile} {size : ℕ} (h : Openable f size) (hsize : 0 < size) :
    Openable (sizedFile f size) size ∧
      openedFile (sizedFile f size) size = openedFile f size := by
  have hsame : sizedFile (sizedFile f size) size = sizedFile f size := by
    have heq := sizedFile_size h
    rw [sizedFile, if_neg (by omega)]
  refine ⟨?_, by rw [openedFile, openedFile, hsame]⟩
  rw [sizedFile]
  split
  · rename_i h0
    exact Or.inr ⟨rfl, Or.inl (isZeroBytes_resize h0)⟩
  · exact h

theorem Openable.fileOk {f : WalFile} {size : ℕ} (h : Openable f size)
    (hsize : kWalHeaderSize ≤ size) : FileOk (openedFile f size) size := by
  rw [openedFile]
  split
  · exact ⟨rfl, (headerOk_initBytes _ hsize).1⟩
  · rename_i hz
    refine ⟨sizedFile_size h, ?_⟩
    rw [sizedFile] at hz ⊢
    split at hz
    · rename_i h0
      exact absurd (isZeroBytes_resize h0) hz
    · rename_i h0
      rw [if_neg h0]
      exact (h.resolve_left h0).2.resolve_left hz

/-! ### `WalSegment::Open` -/

section Open

variable {env : Env} {site : Site} {w : World} {generation size fileNo : ℕ}

/-- A segment as `Open` returns it. -/
def openedSegment (fileNo size : ℕ) (f : WalFile) : WalSegment :=
  let fresh := isZeroBytes (sizedFile f size).bytes kWalHeaderSize
  ⟨fileNo, size, headerUsed (openedFile f size).bytes, false, fresh, f.size = 0⟩

/-- `InitHeader`. -/
theorem initHeader_ok (hmap : env.Stores) {f : WalFile}
    (hf : w.disk.walFile? generation fileNo = some f) :
    WalSegment.initHeader env generation fileNo w = .ok () (w.onDisk
      (w.disk.setWalFile generation fileNo ⟨f.size, initBytes f.bytes⟩) (w.clock + 3)) := by
  rw [WalSegment.initHeader, Prog.bind_ok (storeBytes_ok hmap _ _ _ _ _),
    Prog.bind_ok (storeBytes_ok hmap _ _ _ _ _), storeBytes_ok hmap]
  simp only [World.onDisk_disk, World.onDisk_clock, World.onDisk_onDisk]
  rw [Disk.storeBytes_eq hf, Disk.storeBytes_setWalFile, Disk.storeBytes_setWalFile]
  rfl

/-- A file that is opened is there; one that is created is empty. -/
theorem createFile_effect (d : Disk) {f : WalFile}
    (hf : f = (d.walFile? generation fileNo).getD .empty) :
    (if (d.walFile? generation fileNo).isSome then d
      else d.setWalFile generation fileNo .empty) = d.setWalFile generation fileNo f := by
  cases hget : d.walFile? generation fileNo with
  | none =>
    rw [hget] at hf
    rw [hf]
    rfl
  | some f' =>
    rw [hget] at hf
    rw [hf]
    exact (Disk.setWalFile_self hget).symm

/-- `open` and `fstat` with `ftruncate`: the file is there, and has its size. -/
theorem sizeFile_ok (hsite : env.ReliableAt site) {files : WalDir}
    (hdir : w.disk.wal.get? generation = some files) {f : WalFile}
    (hf : f = (w.disk.walFile? generation fileNo).getD .empty) (hsize : (sizedFile f size).size = size) :
    ∃ t, (do
      WalSegment.createFile env site generation fileNo
      WalSegment.sizeFile env site generation fileNo size) w =
        .ok (f.size = 0 : Bool) (w.onDisk
          (w.disk.setWalFile generation fileNo (sizedFile f size)) t) := by
  have hcreate : WalSegment.createFile env site generation fileNo w =
      .ok () (w.onDisk (w.disk.setWalFile generation fileNo f) (w.clock + 1)) := by
    rw [WalSegment.createFile, Prog.get_bind, hdir]
    simp only
    rw [syscall_ok hsite, createFile_effect w.disk hf]
  have hfile : (w.disk.setWalFile generation fileNo f).walFile? generation fileNo = some f := by
    rw [Disk.walFile?_setWalFile, if_pos ⟨rfl, rfl⟩]
  by_cases h0 : f.size = 0
  · refine ⟨w.clock + 3, ?_⟩
    rw [Prog.bind_ok hcreate, WalSegment.sizeFile, Prog.bind_ok (check_ok hsite _ _), Prog.get_bind]
    simp only [World.onDisk_disk, World.onDisk_clock, World.onDisk_onDisk, hfile, Option.getD_some,
      if_pos h0]
    rw [Prog.bind_ok (syscall_ok hsite _ _ _)]
    simp only [World.onDisk_disk, World.onDisk_clock, World.onDisk_onDisk, sizedFile, if_pos h0,
      Disk.setWalFile_setWalFile, decide_eq_true h0]
    rfl
  · have hsized : sizedFile f size = f := by rw [sizedFile, if_neg h0]
    rw [hsized] at hsize ⊢
    refine ⟨w.clock + 2, ?_⟩
    rw [Prog.bind_ok hcreate, WalSegment.sizeFile, Prog.bind_ok (check_ok hsite _ _), Prog.get_bind]
    simp only [World.onDisk_disk, World.onDisk_clock, World.onDisk_onDisk, hfile, Option.getD_some]
    rw [if_neg h0, if_neg (not_not.mpr hsize), decide_eq_false h0]
    rfl

/-- The header of a mapped file. -/
theorem mapHeader_ok (hmap : env.Stores) {f : WalFile} (hopen : Openable f size)
    (hsize : kWalHeaderSize ≤ size)
    (hf : w.disk.walFile? generation fileNo = some (sizedFile f size)) :
    ∃ t, WalSegment.mapHeader env generation fileNo size (f.size = 0 : Bool) w =
      .ok (openedSegment fileNo size f)
        (w.onDisk (w.disk.setWalFile generation fileNo (openedFile f size)) t) := by
  have hbytes : w.disk.mapping generation fileNo = (sizedFile f size).bytes := by
    rw [Disk.mapping, hf]
    rfl
  have hsized := sizedFile_size hopen
  by_cases hz : isZeroBytes (sizedFile f size).bytes kWalHeaderSize = true
  · have hopened : openedFile f size = ⟨size, initBytes (sizedFile f size).bytes⟩ := by
      rw [openedFile, if_pos hz]
    have hused : headerUsed (openedFile f size).bytes = kWalHeaderSize := by
      rw [hopened]
      exact (headerOk_initBytes _ hsize).2
    refine ⟨w.clock + 3, ?_⟩
    rw [WalSegment.mapHeader, Prog.get_bind, hbytes, if_pos hz, Prog.bind_ok (initHeader_ok hmap hf),
      hsized, openedSegment, hused, hz, hopened]
    rfl
  · have hopened : openedFile f size = sizedFile f size := by
      rw [openedFile, if_neg hz]
    have hheader : HeaderOk (sizedFile f size).bytes size := by
      rw [← hopened]
      exact (hopen.fileOk hsize).header
    refine ⟨w.clock, ?_⟩
    rw [WalSegment.mapHeader, Prog.get_bind, hbytes, if_neg hz, loadHeader_ok hheader, openedSegment,
      hopened, Disk.setWalFile_self hf, Bool.not_eq_true _ |>.mp hz]
    rfl

/-- **`WalSegment::Open`** on a file it accepts. -/
theorem open_ok (hsite : env.ReliableAt site) (hmap : env.Stores)
    (hlo : kWalHeaderSize + kWalRecordHeaderSize ≤ size) (hhi : size ≤ kRecordOffsetLimit)
    (hpos : 0 < fileNo) (hno : fileNo < 2 ^ 33) {files : WalDir}
    (hdir : w.disk.wal.get? generation = some files) {f : WalFile}
    (hf : f = (w.disk.walFile? generation fileNo).getD .empty) (hopen : Openable f size) :
    ∃ t, WalSegment.open' env site generation size fileNo w = .ok (openedSegment fileNo size f)
      (w.onDisk (w.disk.setWalFile generation fileNo (openedFile f size)) t) := by
  obtain ⟨t₁, hsized⟩ := sizeFile_ok hsite hdir hf (sizedFile_size hopen)
  have hmapped : ((w.onDisk (w.disk.setWalFile generation fileNo (sizedFile f size)) (t₁ + 1)).disk
      ).walFile? generation fileNo = some (sizedFile f size) := by
    rw [World.onDisk_disk, Disk.walFile?_setWalFile, if_pos ⟨rfl, rfl⟩]
  obtain ⟨t, hheader⟩ := mapHeader_ok hmap hopen (by omega) hmapped
  refine ⟨t, ?_⟩
  have hposition := makeRecordPosition_eq hno (show kWalHeaderSize < 2 ^ 30 by decide) hpos
  rw [WalSegment.open', if_neg (by omega), hposition]
  simp only
  rw [← bind_assoc, Prog.bind_ok hsized, Prog.bind_ok (check_ok hsite _ _)]
  simp only [World.onDisk_disk, World.onDisk_clock, World.onDisk_onDisk]
  rw [hheader, World.onDisk_onDisk, World.onDisk_disk, Disk.setWalFile_setWalFile]

end Open

/-! ### `SegmentedRecordStore::Open` -/

/-- The files a record store opens: a first segment where there is none. -/
def initialDir (files : WalDir) : WalDir :=
  if files.entries.isEmpty then SortedMap.empty.insert kFirstWalSegmentNo .empty else files

/-- The directory after `SegmentedRecordStore::Open`. -/
def openedDir (files : WalDir) (walSize : ℕ) : WalDir :=
  (initialDir files).mapValues fun _ f => openedFile f walSize

/-- The file number of the last segment. -/
def lastFileNo (files : WalDir) : ℕ := ((initialDir files).entries.map Prod.fst).getLastD 0

/-- The segments after `SegmentedRecordStore::Open`. -/
def openedSegments (files : WalDir) (walSize : ℕ) : SortedMap ℕ WalSegment :=
  (initialDir files).mapValues fun id f =>
    { openedSegment id walSize f with isSealed := id ≠ lastFileNo files }

/-- The record store after `SegmentedRecordStore::Open`. -/
def openedRecords (walSize generation : ℕ) (files : WalDir) : SegmentedRecordStore :=
  ⟨walSize, generation, lastFileNo files, lastFileNo files + 1, [.dummy],
    openedSegments files walSize⟩

/-- A directory that `SegmentedRecordStore::Open` accepts. -/
def OpenableDir (files : WalDir) (walSize : ℕ) : Prop :=
  ∀ id f, files.get? id = some f → 0 < id ∧ id < 2 ^ 33 ∧ Openable f walSize

theorem OpenableDir.initialDir {files : WalDir} {walSize : ℕ} (h : OpenableDir files walSize) :
    OpenableDir (initialDir files) walSize := by
  rw [Store.initialDir]
  split
  · intro id f hf
    rw [SortedMap.get?_insert, SortedMap.get?_empty] at hf
    split at hf
    · rename_i hid
      subst hid
      obtain rfl := Option.some.inj hf
      exact ⟨by decide, by decide, Or.inl rfl⟩
    · exact absurd hf (by simp)
  · exact h

section OpenRecords

variable {env : Env} {w : World} {walSize generation : ℕ}

/-- One segment of a record store. -/
theorem openSegment_ok {site : Site} (hsite : env.ReliableAt site) (hmap : env.Stores)
    (hlo : kWalHeaderSize + kWalRecordHeaderSize ≤ w.records.walSize)
    (hhi : w.records.walSize ≤ kRecordOffsetLimit) {id : ℕ} (hpos : 0 < id) (hno : id < 2 ^ 33)
    {files : WalDir} (hdir : w.disk.wal.get? w.records.generation = some files) {f : WalFile}
    (hf : f = (files.get? id).getD .empty) (hopen : Openable f w.records.walSize) (isSealed : Bool) :
    ∃ t, openSegment env site id isSealed w = .ok ()
      ((w.onDisk (w.disk.setDir w.records.generation
        (files.insert id (openedFile f w.records.walSize))) t).setSegment
        { openedSegment id w.records.walSize f with isSealed := isSealed }) := by
  have hfiles : w.disk.dir w.records.generation = files := by rw [Disk.dir, hdir]; rfl
  have hf' : f = (w.disk.walFile? w.records.generation id).getD .empty := by
    rw [Disk.walFile?, hfiles, hf]
  obtain ⟨t, hrun⟩ := open_ok hsite hmap hlo hhi hpos hno hdir hf' hopen
  refine ⟨t, ?_⟩
  rw [openSegment, Prog.get_bind, Prog.bind_ok hrun, Disk.setWalFile, hfiles]
  rfl

/-- The segments opened one after the other. -/
theorem openSegments_ok (hsite : env.ReliableAt .openStore) (hmap : env.Stores)
    (hlo : kWalHeaderSize + kWalRecordHeaderSize ≤ walSize) (hhi : walSize ≤ kRecordOffsetLimit)
    (active : ℕ) {source : WalDir} (hsource : OpenableDir source walSize) :
    ∀ (ids : List ℕ) (w : World) (files : WalDir), w.records.walSize = walSize →
    w.disk.wal.get? w.records.generation = some files →
    (∀ id ∈ ids, ∃ f, source.get? id = some f ∧ f = (files.get? id).getD .empty) → ids.Nodup →
    ∃ t files' segments, openSegments env active ids w = .ok ()
      { w with
        disk := w.disk.setDir w.records.generation files'
        clock := t
        records := { w.records with segments := segments } } ∧
      (∀ id, files'.get? id = if id ∈ ids then
        (source.get? id).map (openedFile · walSize) else files.get? id) ∧
      ∀ id, segments.get? id = if id ∈ ids then (source.get? id).map fun f =>
        { openedSegment id walSize f with isSealed := id ≠ active }
        else w.records.segments.get? id
  | [], w, files, _, hdir, _, _ => by
    refine ⟨w.clock, files, w.records.segments, ?_, fun id => by simp, fun id => by simp⟩
    rw [Disk.setDir_self hdir]
    rfl
  | id :: ids, w, files, hsize, hdir, hids, hnd => by
    obtain ⟨f, hsrc, hf⟩ := hids id List.mem_cons_self
    obtain ⟨hpos, hno, hopen⟩ := hsource id f hsrc
    obtain ⟨hnot, hnd'⟩ := List.nodup_cons.mp hnd
    obtain ⟨t, hrun⟩ := openSegment_ok hsite hmap (hsize ▸ hlo) (hsize ▸ hhi) hpos hno hdir hf
      (hsize ▸ hopen) (id ≠ active)
    have hrest : ∀ i ∈ ids, ∃ f', source.get? i = some f' ∧
        f' = ((files.insert id (openedFile f walSize)).get? i).getD .empty := by
      intro i hi
      obtain ⟨f', h1, h2⟩ := hids i (List.mem_cons_of_mem _ hi)
      refine ⟨f', h1, ?_⟩
      rw [SortedMap.get?_insert, if_neg (fun h : i = id => hnot (h ▸ hi))]
      exact h2
    rw [hsize] at hrun
    obtain ⟨t', files', segments, hloop, hfiles, hsegs⟩ := openSegments_ok hsite hmap hlo hhi active
      hsource ids ((w.onDisk (w.disk.setDir w.records.generation
        (files.insert id (openedFile f walSize))) t).setSegment
        { openedSegment id walSize f with isSealed := id ≠ active })
      (files.insert id (openedFile f walSize)) hsize
      (by
        show (w.disk.wal.insert w.records.generation _).get? w.records.generation = _
        rw [SortedMap.get?_insert, if_pos rfl]) hrest hnd'
    refine ⟨t', files', segments, ?_, fun i => ?_, fun i => ?_⟩
    · rw [openSegments, Prog.bind_ok hrun, hloop]
      show EStateM.Result.ok () { w with
        disk := (w.disk.setDir w.records.generation _).setDir w.records.generation files'
        clock := t'
        records := { w.records with segments := segments } } = _
      rw [Disk.setDir_setDir]
    · rw [hfiles, SortedMap.get?_insert]
      by_cases hi : i ∈ ids
      · rw [if_pos hi, if_pos (List.mem_cons_of_mem _ hi)]
      · rw [if_neg hi]
        by_cases hid : i = id
        · subst hid
          rw [if_pos rfl, if_pos List.mem_cons_self, hsrc]
          rfl
        · rw [if_neg hid, if_neg (fun h => (List.mem_cons.mp h).elim hid hi)]
    · rw [hsegs]
      show (if i ∈ ids then _ else (w.records.segments.insert id _).get? i) = _
      rw [SortedMap.get?_insert]
      by_cases hi : i ∈ ids
      · rw [if_pos hi, if_pos (List.mem_cons_of_mem _ hi)]
      · rw [if_neg hi]
        by_cases hid : i = id
        · subst hid
          rw [if_pos rfl, if_pos List.mem_cons_self, hsrc]
          rfl
        · rw [if_neg hid, if_neg (fun h => (List.mem_cons.mp h).elim hid hi)]

theorem createWalDir_ok {site : Site} (hsite : env.ReliableAt site) :
    createWalDir env site generation w =
      .ok () (w.onDisk (w.disk.setDir generation (w.disk.dir generation)) (w.clock + 1)) := by
  rw [createWalDir, syscall_ok hsite]
  cases hd : w.disk.wal.get? generation with
  | none =>
    simp only [Option.isSome_none, Bool.false_eq_true, if_false]
    rw [Disk.dir, hd]
    rfl
  | some files =>
    simp only [Option.isSome_some, if_true]
    rw [Disk.dir, hd, Option.getD_some, Disk.setDir_self hd]

theorem listWalSegmentIDs_ok {site : Site} (hsite : env.ReliableAt site) :
    listWalSegmentIDs env site generation w =
      .ok (((w.disk.dir generation).entries.map Prod.fst).filter (0 < ·))
        (w.onDisk w.disk (w.clock + 3)) := by
  rw [listWalSegmentIDs, Prog.bind_ok (check_ok hsite _ _), Prog.bind_ok (check_ok hsite _ _),
    Prog.bind_ok (check_ok hsite _ _)]
  rfl

/-- The file numbers of an acceptable directory. -/
theorem initialIDs_eq {files : WalDir} (hopen : OpenableDir files walSize) :
    initialIDs ((files.entries.map Prod.fst).filter (0 < ·)) =
      (initialDir files).entries.map Prod.fst := by
  have hall : (files.entries.map Prod.fst).filter (0 < ·) = files.entries.map Prod.fst := by
    refine List.filter_eq_self.mpr (fun id hid => ?_)
    obtain ⟨e, he, rfl⟩ := List.mem_map.mp hid
    exact decide_eq_true (hopen e.1 e.2 ((SortedMap.mem_entries_iff _ _ _).mp he)).1
  rw [hall, initialIDs, initialDir]
  cases hentries : files.entries with
  | nil => rfl
  | cons e l =>
    simp only [List.map_cons, List.isEmpty_cons, Bool.false_eq_true, if_false, hentries]

/-- **`SegmentedRecordStore::Open`** on a directory it accepts. -/
theorem openRecords_ok (hsite : env.ReliableAt .openStore) (hmap : env.Stores)
    (hlo : kWalHeaderSize + kWalRecordHeaderSize ≤ walSize) (hhi : walSize ≤ kRecordOffsetLimit)
    (hg : generation ≠ 0) (hopen : OpenableDir (w.disk.dir generation) walSize) :
    ∃ t, openRecords env walSize generation w = .ok () { w with
      disk := w.disk.setDir generation (openedDir (w.disk.dir generation) walSize)
      clock := t
      records := openedRecords walSize generation (w.disk.dir generation) } := by
  have hsource := hopen.initialDir
  have hids : ∀ id ∈ (initialDir (w.disk.dir generation)).entries.map Prod.fst,
      ∃ f, (initialDir (w.disk.dir generation)).get? id = some f ∧
        f = ((w.disk.dir generation).get? id).getD .empty := by
    intro id hid
    obtain ⟨e, he, rfl⟩ := List.mem_map.mp hid
    have hget := (SortedMap.mem_entries_iff _ _ _).mp he
    refine ⟨e.2, hget, ?_⟩
    rw [initialDir] at hget
    split at hget
    · rename_i hempty
      rw [SortedMap.get?_insert, SortedMap.get?_empty] at hget
      have hnone : (w.disk.dir generation).get? e.1 = none := by
        rw [SortedMap.get?, List.isEmpty_iff.mp hempty]
        rfl
      split at hget
      · rw [hnone, ← Option.some.inj hget]
        rfl
      · exact absurd hget (by simp)
    · rw [hget]
      rfl
  have hnd : ((initialDir (w.disk.dir generation)).entries.map Prod.fst).Nodup :=
    (List.pairwise_map.mpr (initialDir (w.disk.dir generation)).sorted).imp (fun h => ne_of_lt h)
  have hmem : ∀ id, id ∈ (initialDir (w.disk.dir generation)).entries.map Prod.fst ↔
      ((initialDir (w.disk.dir generation)).get? id).isSome := by
    intro id
    rw [Option.isSome_iff_exists, List.mem_map]
    constructor
    · rintro ⟨e, he, rfl⟩
      exact ⟨e.2, (SortedMap.mem_entries_iff _ _ _).mp he⟩
    · rintro ⟨f, hf⟩
      exact ⟨(id, f), (SortedMap.mem_entries_iff _ _ _).mpr hf, rfl⟩
  obtain ⟨t, files', segments, hrun, hfiles, hsegs⟩ := openSegments_ok hsite hmap hlo hhi
    (lastFileNo (w.disk.dir generation)) hsource _
    { w with
      disk := w.disk.setDir generation (w.disk.dir generation)
      clock := w.clock + 4
      records := ⟨walSize, generation, lastFileNo (w.disk.dir generation),
        lastFileNo (w.disk.dir generation) + 1, [.dummy], .empty⟩ }
    (w.disk.dir generation) rfl
    (by
      show (w.disk.wal.insert generation _).get? generation = _
      rw [SortedMap.get?_insert, if_pos rfl]) hids hnd
  have hnone : ∀ id, ¬ id ∈ (initialDir (w.disk.dir generation)).entries.map Prod.fst →
      (initialDir (w.disk.dir generation)).get? id = none := by
    intro id hid
    rw [hmem, Option.not_isSome_iff_eq_none] at hid
    exact hid
  have hdir' : files' = openedDir (w.disk.dir generation) walSize := by
    refine SortedMap.ext_get? (fun id => ?_)
    rw [hfiles, openedDir, SortedMap.get?_mapValues]
    by_cases hid : id ∈ (initialDir (w.disk.dir generation)).entries.map Prod.fst
    · rw [if_pos hid]
    · rw [if_neg hid, hnone id hid]
      rw [initialDir] at hnone
      split at hnone
      · rename_i hempty
        rw [SortedMap.get?, List.isEmpty_iff.mp hempty]
        rfl
      · rename_i hne
        have := hnone id (by rwa [initialDir, if_neg hne] at hid)
        rw [this]
        rfl
  have hsegs' : segments = openedSegments (w.disk.dir generation) walSize := by
    refine SortedMap.ext_get? (fun id => ?_)
    rw [hsegs, openedSegments, SortedMap.get?_mapValues]
    by_cases hid : id ∈ (initialDir (w.disk.dir generation)).entries.map Prod.fst
    · rw [if_pos hid]
    · rw [if_neg hid, hnone id hid]
      rfl
  refine ⟨t, ?_⟩
  subst hdir' hsegs'
  rw [openRecords, if_neg (by omega), if_neg hg, Prog.bind_ok (createWalDir_ok hsite),
    Prog.bind_ok (listWalSegmentIDs_ok hsite)]
  simp only [World.onDisk_disk, World.onDisk_clock, World.onDisk_onDisk]
  have hdir : (w.disk.setDir generation (w.disk.dir generation)).dir generation =
      w.disk.dir generation := by rw [Disk.dir_setDir, if_pos rfl]
  rw [hdir, initialIDs_eq hopen, Prog.modify_bind]
  refine hrun.trans ?_
  show EStateM.Result.ok () { w with
    disk := (w.disk.setDir generation _).setDir generation _
    clock := t
    records := _ } = _
  rw [Disk.setDir_setDir]
  rfl

end OpenRecords

end MinweightStore.Store
