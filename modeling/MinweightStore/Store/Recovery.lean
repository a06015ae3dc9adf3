import MinweightStore.Store.Loading

/-!
# Recovery of a directory

`Open` from the segments to the replayed index, on a directory of segment images and the items of a
snapshot.

* `prepare`, `recoverStore` — the part of `Open` before the replay, and with it;
* `dirPieces`, `dirRecovered` — what a directory holds, and the valid prefix of it;
* `Opened` — a record store whose segments are the files of its directory;
* `prepare_ok` — what `Open` has before the replay.
-/

namespace MinweightStore.Store

open Minpatricia (ByteView Position Index kMaxKeySize KnowsAll)
open ValidPrefix

/-- `Open` before the replay: the segments, and the index over the items of the snapshot. -/
def prepare (env : Env) (walSize generation : ℕ) (entries : List Item) : StoreM Unit := do
  openRecords env walSize generation
  let empty ← newIndex
  let index ← loadSnapshotRecords entries empty
  modify fun w => { w with index := index }

/-- `Open` up to the end of the replay. -/
def recoverStore (env : Env) (policy : WALReplayPolicy) (walSize generation : ℕ)
    (entries : List Item) : StoreM Unit := do
  prepare env walSize generation entries
  replayAll env policy

/-! ### Directories -/

/-- A segment file as a piece of a log. -/
def filePiece (id : ℕ) (f : WalFile) : Piece ℕ (ℕ × WalRecord) :=
  segmentPiece id f.bytes (headerUsed f.bytes)

/-- The segment files of a directory as pieces. -/
def dirPieces (files : WalDir) : List (Piece ℕ (ℕ × WalRecord)) :=
  files.entries.map fun e => filePiece e.1 e.2

/-- The valid prefix of a directory. -/
def dirRecovered (files : WalDir) : List Logged := recover (dirPieces files)

/-- **A set of segment images** with accepted headers. -/
structure Images (files : WalDir) (walSize : ℕ) : Prop where
  size_lo : kWalHeaderSize + kWalRecordHeaderSize ≤ walSize
  size_hi : walSize ≤ kRecordOffsetLimit
  image : ∀ id f, files.get? id = some f → 0 < id ∧ id < 2 ^ 33 ∧ FileOk f walSize

theorem Images.openable {files : WalDir} {walSize : ℕ} (h : Images files walSize) :
    OpenableDir files walSize := fun id f hf =>
  ⟨(h.image id f hf).1, (h.image id f hf).2.1, (h.image id f hf).2.2.openable⟩

/-- Opening a directory of openable files gives a directory of images. -/
theorem OpenableDir.images {files : WalDir} {walSize : ℕ} (h : OpenableDir files walSize)
    (hlo : kWalHeaderSize + kWalRecordHeaderSize ≤ walSize) (hhi : walSize ≤ kRecordOffsetLimit) :
    Images (openedDir files walSize) walSize := by
  refine ⟨hlo, hhi, fun id f hf => ?_⟩
  rw [openedDir, SortedMap.get?_mapValues, Option.map_eq_some_iff] at hf
  obtain ⟨f', hf', rfl⟩ := hf
  obtain ⟨h1, h2, h3⟩ := h.initialDir id f' hf'
  exact ⟨h1, h2, h3.fileOk (le_trans (Nat.le_add_right _ _) hlo)⟩

/-- Images are opened as they are. -/
theorem Images.openedDir_eq {files : WalDir} {walSize : ℕ} (h : Images files walSize)
    (hne : files.entries ≠ []) : openedDir files walSize = files := by
  have hinit : initialDir files = files := by
    rw [initialDir, if_neg (by simpa using hne)]
  have hlo := h.size_lo
  refine SortedMap.ext_get? (fun id => ?_)
  rw [openedDir, SortedMap.get?_mapValues, hinit]
  cases hf : files.get? id with
  | none => rfl
  | some f =>
    rw [Option.map_some, (h.image id f hf).2.2.openedFile_eq (lt_of_lt_of_le (by decide) hlo)]

/-- A new segment file holds no records. -/
theorem filePiece_fresh (id : ℕ) {walSize : ℕ} (h : kWalHeaderSize ≤ walSize) :
    filePiece id (openedFile .empty walSize) = ⟨id, [], true⟩ := by
  have hz : isZeroBytes (sizedFile .empty walSize).bytes kWalHeaderSize = true :=
    isZeroBytes_resize rfl
  have hused : headerUsed (openedFile .empty walSize).bytes = kWalHeaderSize := by
    rw [openedFile, if_pos hz]
    exact (headerOk_initBytes _ h).2
  rw [filePiece, segmentPiece, hused, scanSegment_empty]
  rfl

/-- A first segment is as good as none. -/
theorem Images.dirPieces_openedDir {files : WalDir} {walSize : ℕ} (h : Images files walSize) :
    dirRecovered (openedDir files walSize) = dirRecovered files ∧
      firstIncomplete (dirPieces (openedDir files walSize)) = firstIncomplete (dirPieces files) := by
  by_cases hne : files.entries = []
  · have hinit : initialDir files = SortedMap.empty.insert kFirstWalSegmentNo .empty := by
      rw [initialDir, hne]
      exact if_pos rfl
    have hopened : dirPieces (openedDir files walSize) =
        [filePiece kFirstWalSegmentNo (openedFile .empty walSize)] := by
      rw [openedDir, hinit, dirPieces, SortedMap.mapValues, List.map_map]
      exact List.map_singleton
    have hnil : dirPieces files = [] := by rw [dirPieces, hne, List.map_nil]
    rw [filePiece_fresh _ (le_trans (Nat.le_add_right _ _) h.size_lo)] at hopened
    rw [dirRecovered, dirRecovered, hopened, hnil]
    exact ⟨rfl, rfl⟩
  · rw [h.openedDir_eq hne]
    exact ⟨rfl, rfl⟩

/-- Directories that agree below their used offsets. -/
def AgreeBelowUsed (files files' : WalDir) : Prop :=
  ∀ id, Option.Rel (fun f f' => headerUsed f'.bytes = headerUsed f.bytes ∧
    AgreeBelow f.bytes f'.bytes (headerUsed f.bytes)) (files.get? id) (files'.get? id)

/-- **Nothing behind a used offset is read.** -/
theorem dirPieces_congr {files files' : WalDir} (h : AgreeBelowUsed files files') :
    dirPieces files' = dirPieces files := by
  have hpieces : ∀ m : WalDir, dirPieces m = (m.mapValues filePiece).entries.map Prod.snd := by
    intro m
    rw [dirPieces, SortedMap.mapValues, List.map_map]
    rfl
  have hsame : files'.mapValues filePiece = files.mapValues filePiece := by
    refine SortedMap.ext_get? (fun id => ?_)
    have hid := h id
    rw [SortedMap.get?_mapValues, SortedMap.get?_mapValues]
    cases hf : files.get? id with
    | none =>
      rw [hf] at hid
      cases hf' : files'.get? id with
      | none => rfl
      | some f' =>
        rw [hf'] at hid
        cases hid
    | some f =>
      rw [hf] at hid
      cases hf' : files'.get? id with
      | none =>
        rw [hf'] at hid
        cases hid
      | some f' =>
        rw [hf'] at hid
        cases hid with
        | some hagree =>
          rw [Option.map_some, Option.map_some, filePiece, filePiece, segmentPiece, segmentPiece,
            hagree.1, scanSegment_congr hagree.2]
  rw [hpieces, hpieces, hsame]

/-! ### The opened world -/

/-- A record store whose segments are the files of its directory. -/
structure Opened (w : World) (files : WalDir) : Prop where
  images : Images files w.records.walSize
  dir : w.disk.wal.get? w.records.generation = some files
  segments : ∀ id, (w.records.segments.get? id).isSome ↔ (files.get? id).isSome
  segment : ∀ id seg f, w.records.segments.get? id = some seg → files.get? id = some f →
    seg.fileNo = id ∧ seg.size = w.records.walSize ∧ seg.used = headerUsed f.bytes

section Opened

variable {w : World} {files : WalDir}

/-- The index plays no part in it. -/
theorem Opened.withIndex (h : Opened w files) (ix : Index) : Opened (w.withIndex ix) files :=
  ⟨h.images, h.dir, h.segments, h.segment⟩

theorem Opened.dir_eq (h : Opened w files) : w.disk.dir w.records.generation = files := by
  rw [Disk.dir, h.dir]
  rfl

theorem Opened.mapping_eq (h : Opened w files) {id : ℕ} {f : WalFile} (hf : files.get? id = some f) :
    w.mapping id = f.bytes := by
  rw [World.mapping, Disk.mapping, Disk.walFile?, h.dir_eq, hf]
  rfl

theorem Opened.file (h : Opened w files) {id : ℕ} {seg : WalSegment}
    (hs : w.records.segments.get? id = some seg) : ∃ f, files.get? id = some f :=
  Option.isSome_iff_exists.mp ((h.segments id).mp (by rw [hs]; rfl))

theorem Opened.segmentsOk (h : Opened w files) : SegmentsOk w := by
  intro id seg hs
  obtain ⟨f, hf⟩ := h.file hs
  obtain ⟨h1, h2, h3⟩ := h.segment id seg f hs hf
  obtain ⟨hpos, hlt, hok⟩ := h.images.image id f hf
  have hhi := h.images.size_hi
  have hk : kRecordOffsetLimit = 2 ^ 30 := rfl
  exact ⟨h1, hpos, hlt, h3 ▸ hok.header.used_lo, by rw [h3, h2]; exact hok.header.used_hi,
    by rw [h2]; omega⟩

theorem Opened.piece_eq (h : Opened w files) {id : ℕ} {f : WalFile} (hf : files.get? id = some f) :
    w.piece id = filePiece id f := by
  obtain ⟨seg, hs⟩ := Option.isSome_iff_exists.mp ((h.segments id).mpr (by rw [hf]; rfl))
  rw [World.piece_eq hs, h.mapping_eq hf, (h.segment id seg f hs hf).2.2]
  rfl

theorem Opened.segmentIDs_eq (h : Opened w files) : w.segmentIDs = files.entries.map Prod.fst := by
  have hs : ∀ {V : Type} (m : SortedMap ℕ V), (m.entries.map Prod.fst).Pairwise (· < ·) :=
    fun m => List.pairwise_map.mpr m.sorted
  have hmem : ∀ {V : Type} (m : SortedMap ℕ V) (id : ℕ),
      id ∈ m.entries.map Prod.fst ↔ (m.get? id).isSome := by
    intro V m id
    rw [Option.isSome_iff_exists, List.mem_map]
    constructor
    · rintro ⟨e, he, rfl⟩
      exact ⟨e.2, (SortedMap.mem_entries_iff _ _ _).mp he⟩
    · rintro ⟨v, hv⟩
      exact ⟨(id, v), (SortedMap.mem_entries_iff _ _ _).mpr hv, rfl⟩
  refine ((List.perm_ext_iff_of_nodup ((hs _).imp (fun h => ne_of_lt h))
    ((hs _).imp (fun h => ne_of_lt h))).mpr (fun id => ?_)).eq_of_pairwise ?_ (hs _) (hs _)
  · show id ∈ w.records.segments.entries.map Prod.fst ↔ _
    rw [hmem, hmem]
    exact h.segments id
  · intro a b _ _ hab hba
    exact absurd (lt_trans hab hba) (lt_irrefl _)

/-- **The segments are the pieces of the directory.** -/
theorem Opened.pieces_eq (h : Opened w files) : w.pieces = dirPieces files := by
  rw [World.pieces, h.segmentIDs_eq, List.map_map, dirPieces]
  refine List.map_congr_left (fun e he => ?_)
  exact h.piece_eq ((SortedMap.mem_entries_iff _ _ _).mp he)

theorem Opened.recovered_eq (h : Opened w files) : w.recovered = dirRecovered files := by
  rw [World.recovered, h.pieces_eq, dirRecovered]

end Opened

/-! ### Preparation -/

section Prepare

variable {env : Env} {w : World} {walSize generation : ℕ} {entries : List Item}

/-- The items of a snapshot that can be loaded. -/
def LoadableItems (entries : List Item) : Prop :=
  (∀ item ∈ entries, item.key.length ≤ kMaxKeySize) ∧ entries.length < 2 ^ 30

/-- The world after the preparation. -/
def preparedWorld (w : World) (walSize generation : ℕ) (entries : List Item) (t : ℕ) (ix : Index) :
    World :=
  { w with
    disk := w.disk.setDir generation (openedDir (w.disk.dir generation) walSize)
    clock := t
    records := { openedRecords walSize generation (w.disk.dir generation) with
      snapshotRecords := .dummy :: entries.map Item.owned }
    index := ix }

theorem openedSegment_used (id : ℕ) (f : WalFile) :
    (openedSegment id walSize f).used = headerUsed (openedFile f walSize).bytes := rfl

/-- The prepared segments are the files of the directory. -/
theorem opened_prepared (hlo : kWalHeaderSize + kWalRecordHeaderSize ≤ walSize)
    (hhi : walSize ≤ kRecordOffsetLimit) (hopen : OpenableDir (w.disk.dir generation) walSize)
    (t : ℕ) (ix : Index) : Opened (preparedWorld w walSize generation entries t ix)
      (openedDir (w.disk.dir generation) walSize) := by
  refine ⟨hopen.images hlo hhi, ?_, fun id => ?_, fun id seg f hseg hf => ?_⟩
  · show (w.disk.wal.insert generation _).get? generation = _
    rw [SortedMap.get?_insert, if_pos rfl]
  · show ((openedSegments _ walSize).get? id).isSome ↔ _
    rw [openedSegments, openedDir, SortedMap.get?_mapValues, SortedMap.get?_mapValues,
      Option.isSome_map, Option.isSome_map]
  · have hseg' : (openedSegments (w.disk.dir generation) walSize).get? id = some seg := hseg
    rw [openedSegments, SortedMap.get?_mapValues, Option.map_eq_some_iff] at hseg'
    rw [openedDir, SortedMap.get?_mapValues, Option.map_eq_some_iff] at hf
    obtain ⟨f₁, hf₁, rfl⟩ := hseg'
    obtain ⟨f₂, hf₂, rfl⟩ := hf
    obtain rfl : f₁ = f₂ := Option.some.inj (hf₁.symm.trans hf₂)
    exact ⟨rfl, rfl, openedSegment_used id f₁⟩

/-- **The preparation** of a directory of acceptable files and a snapshot that can be loaded. -/
theorem prepare_ok (hsite : env.ReliableAt .openStore) (hmap : env.Stores)
    (hlo : kWalHeaderSize + kWalRecordHeaderSize ≤ walSize) (hhi : walSize ≤ kRecordOffsetLimit)
    (hg : generation ≠ 0) (hopen : OpenableDir (w.disk.dir generation) walSize)
    (hentries : LoadableItems entries) : ∃ t ix,
    prepare env walSize generation entries w =
      .ok () (preparedWorld w walSize generation entries t ix) ∧
    Indexed (preparedWorld w walSize generation entries t ix) ix
      (snapshotMap 1 entries .empty) (1 + entries.length) := by
  obtain ⟨t, hrecords⟩ := openRecords_ok hsite hmap hlo hhi hg hopen
  obtain ⟨empty, hnew, hempty⟩ := newIndex_ok (w := { w with
    disk := w.disk.setDir generation (openedDir (w.disk.dir generation) walSize)
    clock := t
    records := openedRecords walSize generation (w.disk.dir generation) }) rfl
  obtain ⟨ix, hload, hix⟩ := loadSnapshotRecords_ok entries hempty hentries.1
    (by show 1 + entries.length ≤ 2 ^ 30; have := hentries.2; omega)
  refine ⟨t, ix, ?_, hix.indexed⟩
  rw [prepare, Prog.bind_ok hrecords, Prog.bind_ok hnew, Prog.bind_ok hload]
  rfl

end Prepare

end MinweightStore.Store
