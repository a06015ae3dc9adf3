import MinweightStore.Store.Shown

/-!
# Behind the first invalid record

Point-in-time recovery truncates the segment that holds the first invalid record and unlinks the
segments behind it.  An `unlink` may fail, and the process may be killed on the way.

* `WalFile.cut` — a file truncated behind its valid records;
* `StopsAt` — a directory split at its first incomplete segment;
* `StopsAt.recovered_cut` — what is recovered after the truncation and some of the unlinks;
* `rearrange_disk`, `rearrange_survives` — what becomes of the disk and of the segments.
-/

namespace MinweightStore.Store

open Minpatricia (ByteView Position Index kMaxKeySize KnowsAll)
open ValidPrefix

/-! ### A truncated file -/

/-- Where the valid records of a file stop. -/
def WalFile.stop (f : WalFile) : ℕ := (scanSegment f.bytes (headerUsed f.bytes)).2

/-- `WriteUsed` on a file. -/
def WalFile.setUsed (f : WalFile) (used : ℕ) : WalFile :=
  ⟨f.size, writeBytes f.bytes kWalHeaderUsedOffset (store64 (UInt64.ofNat used))⟩

/-- A file truncated behind its valid records. -/
def WalFile.cut (f : WalFile) : WalFile := f.setUsed f.stop

section File

variable {f : WalFile} {size used : ℕ}

theorem headerUsed_setUsed (h : used < 2 ^ 64) : headerUsed (f.setUsed used).bytes = used := by
  have hread : readBytes (f.setUsed used).bytes kWalHeaderUsedOffset 8 =
      store64 (UInt64.ofNat used) := readBytes_writeBytes _ _ (store64 (UInt64.ofNat used))
  rw [headerUsed, hread, load64_store64, UInt64.toNat_ofNat']
  omega

theorem FileOk.setUsed (h : FileOk f size) (hlo : kWalHeaderSize ≤ used) (hhi : used ≤ size)
    (hsize : size ≤ 2 ^ 30) : FileOk (f.setUsed used) size := by
  have hused : headerUsed (f.setUsed used).bytes = used := headerUsed_setUsed (by omega)
  refine ⟨h.size_eq, ⟨?_, ?_, ?_, ?_⟩⟩
  · rw [← h.header.magic]
    exact readBytes_writeBytes_of_disjoint (Or.inl (by decide))
  · rw [← h.header.version]
    exact congrArg load32 (readBytes_writeBytes_of_disjoint (Or.inl (by decide)))
  · rw [hused]
    exact hlo
  · rw [hused]
    exact hhi

/-- `WriteUsed` leaves the records alone. -/
theorem agreeBelow_setUsed (f : WalFile) (used n : ℕ) :
    AgreeBelow f.bytes (f.setUsed used).bytes n := by
  intro i hi _
  refine (writeBytes_of_le ?_).symm
  rw [length_store64]
  exact le_trans (by decide) hi

theorem FileOk.stop_bounds (h : FileOk f size) : kWalHeaderSize ≤ f.stop ∧ f.stop ≤ size := by
  obtain ⟨hlo, hhi⟩ := scanSegment_stop (m := f.bytes) h.header.used_lo
  exact ⟨hlo, le_trans hhi h.header.used_hi⟩

theorem FileOk.cut (h : FileOk f size) (hsize : size ≤ 2 ^ 30) :
    FileOk f.cut size ∧ headerUsed f.cut.bytes = f.stop := by
  obtain ⟨hlo, hhi⟩ := h.stop_bounds
  exact ⟨h.setUsed hlo hhi hsize, headerUsed_setUsed (by omega)⟩

/-- **A truncated file** has the same valid records, and nothing behind them. -/
theorem filePiece_cut (id : ℕ) (h : FileOk f size) (hsize : size ≤ 2 ^ 30) :
    filePiece id f.cut = ⟨id, (filePiece id f).records, true⟩ := by
  have hscan := scanSegment_truncate h.header.used_lo
    (agreeBelow_setUsed f f.stop (scanSegment f.bytes (headerUsed f.bytes)).2)
  rw [filePiece, (h.cut hsize).2, segmentPiece]
  have hsame : scanSegment f.cut.bytes f.stop = scanSegment f.bytes (headerUsed f.bytes) := hscan
  rw [hsame, decide_eq_true (show (scanSegment f.bytes (headerUsed f.bytes)).2 = f.stop from rfl)]
  rfl

end File

/-- A new segment file. -/
def freshFile (size : ℕ) : WalFile := openedFile .empty size

/-- A segment file whose used offset covers bytes that were never written. -/
def damagedFile (size : ℕ) : WalFile := (freshFile size).setUsed (kWalHeaderSize + 13)

theorem fileOk_freshFile {size : ℕ} (h : kWalHeaderSize ≤ size) : FileOk (freshFile size) size :=
  Openable.fileOk (Or.inl rfl) h

theorem fileOk_damagedFile {size : ℕ} (hlo : kWalHeaderSize + 13 ≤ size) (hhi : size ≤ 2 ^ 30) :
    FileOk (damagedFile size) size :=
  (fileOk_freshFile (le_trans (Nat.le_add_right _ _) hlo)).setUsed (Nat.le_add_right _ _) hlo hhi

/-- A new segment file has used its header only. -/
theorem headerUsed_freshFile {size : ℕ} (h : kWalHeaderSize ≤ size) :
    headerUsed (freshFile size).bytes = kWalHeaderSize := by
  have hz : isZeroBytes (sizedFile .empty size).bytes kWalHeaderSize = true :=
    isZeroBytes_resize rfl
  rw [freshFile, openedFile, if_pos hz]
  exact (headerOk_initBytes _ h).2

/-- The segment that `WalSegment::Open` makes of a new file. -/
theorem openedSegment_fresh {fileNo size : ℕ} (h : kWalHeaderSize ≤ size) :
    openedSegment fileNo size .empty = ⟨fileNo, size, kWalHeaderSize, false, true, true⟩ := by
  have hz : isZeroBytes (sizedFile .empty size).bytes kWalHeaderSize = true :=
    isZeroBytes_resize rfl
  have hused := headerUsed_freshFile h
  rw [openedSegment, hz]
  rw [freshFile] at hused
  simp only [hused]
  rfl

/-- Behind the header a new segment file is zero. -/
theorem freshFile_zero {size i : ℕ} (hi : kWalHeaderSize ≤ i) : (freshFile size).bytes i = 0 := by
  have hz : isZeroBytes (sizedFile .empty size).bytes kWalHeaderSize = true :=
    isZeroBytes_resize rfl
  have hk : kWalHeaderSize = 4096 := rfl
  rw [freshFile, openedFile, if_pos hz]
  show writeBytes (writeBytes (writeBytes _ _ _) _ _) _ _ i = 0
  rw [writeBytes_of_le (by rw [length_store64, kWalHeaderUsedOffset]; omega),
    writeBytes_of_le (by rw [length_store32, kWalHeaderVersionOffset]; omega),
    writeBytes_of_le (by show 0 + 8 ≤ i; omega)]
  rfl

/-- A byte that was never written starts no record. -/
theorem readAt_zero {m : Mapping} {used o : ℕ} (h : m o = 0) : readAt m used o = none := by
  refine readAt_eq_none.mpr (fun ha => ?_)
  have hop : m o = kWalOpPut ∨ m o = kWalOpDelete := ha.op
  rw [h] at hop
  exact absurd hop (by decide)

/-- The bytes that were never written are no record. -/
theorem filePiece_damagedFile (id size : ℕ) :
    filePiece id (damagedFile size) = ⟨id, [], false⟩ := by
  have hk : kWalHeaderSize = 4096 := rfl
  have hused : headerUsed (damagedFile size).bytes = kWalHeaderSize + 13 :=
    headerUsed_setUsed (by omega)
  have hzero : (damagedFile size).bytes kWalHeaderSize = 0 :=
    (agreeBelow_setUsed (freshFile size) (kWalHeaderSize + 13) (kWalHeaderSize + 1) kWalHeaderSize
      (le_refl _) (Nat.lt_succ_self _)).symm.trans (freshFile_zero (le_refl _))
  have hscan : scanSegment (damagedFile size).bytes (kWalHeaderSize + 13) = ([], kWalHeaderSize) :=
    scanFrom_none (readAt_zero hzero)
  rw [filePiece, segmentPiece, hused, hscan, decide_eq_false (by simp)]

/-! ### A directory split at its first incomplete segment -/

/-- A directory whose recovery stops in the file `f`. -/
structure StopsAt (files : WalDir) (id : ℕ) (f : WalFile) (pre post : List (ℕ × WalFile)) :
    Prop where
  split : files.entries = pre ++ [(id, f)] ++ post
  complete : AllComplete (pre.map fun e => filePiece e.1 e.2)
  incomplete : (filePiece id f).complete = false

/-- Some file is incomplete, or none is. -/
theorem exists_stopsAt {files : WalDir} {p : Piece ℕ (ℕ × WalRecord)}
    (h : firstIncomplete (dirPieces files) = some p) :
    ∃ id f pre post, StopsAt files id f pre post ∧ p = filePiece id f := by
  obtain ⟨pre, post, hsplit, hpre, hincomplete, _⟩ := firstIncomplete_split h
  obtain ⟨epre, erest, hentries, hpre', hrest⟩ := List.map_eq_append_iff.mp hsplit
  obtain ⟨e, epost, rfl, rfl, _⟩ := List.map_eq_cons_iff.mp hrest
  refine ⟨e.1, e.2, epre, epost, ⟨?_, hpre' ▸ hpre, hincomplete⟩, rfl⟩
  rw [hentries, List.append_assoc]
  rfl

section Stops

variable {files : WalDir} {id : ℕ} {f : WalFile} {pre post : List (ℕ × WalFile)} {walSize : ℕ}

/-- The directory after the truncation and some unlinks. -/
def cutDir (files : WalDir) (id : ℕ) (f : WalFile) (unlinked : List ℕ) : WalDir :=
  (files.insert id f.cut).eraseAll unlinked

theorem StopsAt.get? (h : StopsAt files id f pre post) : files.get? id = some f := by
  refine (SortedMap.mem_entries_iff _ _ _).mp ?_
  rw [h.split]
  exact List.mem_append_left _ (List.mem_append_right _ List.mem_cons_self)

/-- The pieces around the stop. -/
theorem StopsAt.pieces (h : StopsAt files id f pre post) :
    dirPieces files = (pre.map fun e => filePiece e.1 e.2) ++
      filePiece id f :: (post.map fun e => filePiece e.1 e.2) := by
  rw [dirPieces, h.split, List.map_append, List.map_append, List.append_assoc]
  rfl

theorem StopsAt.first (h : StopsAt files id f pre post) :
    firstIncomplete (dirPieces files) = some (filePiece id f) := by
  rw [h.pieces, firstIncomplete_append h.complete, firstIncomplete, h.incomplete]
  rfl

theorem StopsAt.not_complete (h : StopsAt files id f pre post) : ¬ AllComplete (dirPieces files) := by
  intro hall
  rw [← firstIncomplete_eq_none, h.first] at hall
  exact absurd hall (by simp)

/-- The file numbers around the stop. -/
theorem StopsAt.order (h : StopsAt files id f pre post) :
    (∀ e ∈ pre, e.1 < id) ∧ (∀ e ∈ post, id < e.1) ∧ ∀ e ∈ pre, ∀ e' ∈ post, e.1 < e'.1 := by
  have hs := files.sorted
  rw [h.split, List.append_assoc, List.pairwise_append, List.singleton_append,
    List.pairwise_cons] at hs
  obtain ⟨_, ⟨hpost, _⟩, hpre⟩ := hs
  exact ⟨fun e he => hpre e he (id, f) List.mem_cons_self, fun e he => hpost e he,
    fun e he e' he' => hpre e he e' (List.mem_cons_of_mem _ he')⟩

theorem StopsAt.not_behind (h : StopsAt files id f pre post) : id ∉ post.map Prod.fst := by
  intro hmem
  obtain ⟨e, he, hid⟩ := List.mem_map.mp hmem
  exact absurd (h.order.2.1 e he) (by rw [hid]; exact lt_irrefl _)

/-- The pieces behind the stop. -/
theorem StopsAt.mem_behind (h : StopsAt files id f pre post) {q : Piece ℕ (ℕ × WalRecord)} :
    (q ∈ dirPieces files ∧ id < q.id) ↔ ∃ e ∈ post, q = filePiece e.1 e.2 := by
  rw [h.pieces, List.mem_append, List.mem_cons, List.mem_map, List.mem_map]
  constructor
  · rintro ⟨⟨e, he, rfl⟩ | rfl | ⟨e, he, rfl⟩, hlt⟩
    · exact absurd (h.order.1 e he) (Nat.not_lt.mpr (Nat.le_of_lt hlt))
    · exact absurd hlt (lt_irrefl _)
    · exact ⟨e, he, rfl⟩
  · rintro ⟨e, he, rfl⟩
    exact ⟨Or.inr (Or.inr ⟨e, he, rfl⟩), h.order.2.1 e he⟩

/-- The files after the truncation and some unlinks. -/
theorem StopsAt.entries_cut (h : StopsAt files id f pre post) {unlinked : List ℕ}
    (hunlinked : ∀ i ∈ unlinked, id < i) : (cutDir files id f unlinked).entries =
      pre ++ [(id, f.cut)] ++ post.filter (fun e => e.1 ∉ unlinked) := by
  have hkeep : ∀ l : List (ℕ × WalFile), (∀ e ∈ l, e.1 ≤ id) →
      l.filter (fun e => e.1 ∉ unlinked) = l := by
    intro l hl
    refine List.filter_eq_self.mpr (fun e he => decide_eq_true (fun hmem => ?_))
    exact absurd (hunlinked e.1 hmem) (Nat.not_lt.mpr (hl e he))
  rw [cutDir, SortedMap.entries_eraseAll, SortedMap.insert_entries_middle h.split, List.filter_append,
    hkeep]
  intro e he
  rcases List.mem_append.mp he with he | he
  · exact le_of_lt (h.order.1 e he)
  · rw [List.mem_singleton.mp he]

/-- What a directory holds is not changed by the truncation. -/
theorem StopsAt.images_cut (h : StopsAt files id f pre post) (himages : Images files walSize)
    (unlinked : List ℕ) : Images (cutDir files id f unlinked) walSize := by
  have hhi : walSize ≤ 2 ^ 30 := himages.size_hi
  refine ⟨himages.size_lo, himages.size_hi, fun i f' hf' => ?_⟩
  rw [cutDir, SortedMap.get?_eraseAll] at hf'
  split at hf'
  · exact absurd hf' (by simp)
  · rw [SortedMap.get?_insert] at hf'
    split at hf'
    · rename_i hi
      obtain ⟨h1, h2, h3⟩ := himages.image id f h.get?
      rw [← Option.some.inj hf', hi]
      exact ⟨h1, h2, (h3.cut hhi).1⟩
    · exact himages.image i f' hf'

/-- **What is recovered after the truncation and some unlinks**: the same records, and those of the
segments that are still there. -/
theorem StopsAt.recovered_cut (h : StopsAt files id f pre post) (himages : Images files walSize)
    {unlinked : List ℕ} (hunlinked : ∀ i ∈ unlinked, id < i) :
    dirRecovered (cutDir files id f unlinked) = dirRecovered files ++
      recover ((post.filter (fun e => e.1 ∉ unlinked)).map fun e => filePiece e.1 e.2) := by
  have hcut := filePiece_cut id (himages.image id f h.get?).2.2 himages.size_hi
  rw [dirRecovered, dirRecovered, h.pieces, dirPieces, h.entries_cut hunlinked, List.map_append,
    List.map_append, List.append_assoc, recover_append h.complete, recover_append h.complete,
    List.append_assoc]
  refine congrArg _ ?_
  show recover (filePiece id f.cut :: _) = _
  rw [recover, recover, hcut, if_pos rfl, h.incomplete]
  simp only [Bool.false_eq_true, if_false, List.append_nil]
  rfl

/-- With all segments behind it gone, the directory is complete. -/
theorem StopsAt.complete_cut (h : StopsAt files id f pre post) (himages : Images files walSize) :
    dirRecovered (cutDir files id f (post.map Prod.fst)) = dirRecovered files ∧
      AllComplete (dirPieces (cutDir files id f (post.map Prod.fst))) := by
  have hunlinked : ∀ i ∈ post.map Prod.fst, id < i := by
    intro i hi
    obtain ⟨e, he, rfl⟩ := List.mem_map.mp hi
    exact h.order.2.1 e he
  have hnil : post.filter (fun e => e.1 ∉ post.map Prod.fst) = [] :=
    List.filter_eq_nil_iff.mpr (fun e he => by simpa using ⟨e.2, he⟩)
  have hcut := filePiece_cut id (himages.image id f h.get?).2.2 himages.size_hi
  refine ⟨?_, ?_⟩
  · rw [h.recovered_cut himages hunlinked, hnil]
    exact List.append_nil _
  · rw [dirPieces, h.entries_cut hunlinked, hnil, List.append_nil, List.map_append]
    intro p hp
    rcases List.mem_append.mp hp with hp | hp
    · exact h.complete p hp
    · rw [List.mem_singleton.mp hp]
      show (filePiece id f.cut).complete = true
      rw [hcut]

end Stops

/-! ### The calls -/

/-- The segments whose `unlink` succeeds, when the first one is called at the moment `t`. -/
def unlinked (env : Env) : ℕ → List ℕ → List ℕ
  | _, [] => []
  | t, id :: ids =>
    if env .replay t = .succeeds then id :: unlinked env (t + 1) ids else unlinked env (t + 1) ids

theorem mem_of_unlinked {env : Env} {i : ℕ} : ∀ {ids : List ℕ} {t : ℕ},
    i ∈ unlinked env t ids → i ∈ ids
  | [], _, h => absurd h List.not_mem_nil
  | id :: ids, t, h => by
    rw [unlinked] at h
    split at h
    · rcases List.mem_cons.mp h with rfl | h
      · exact List.mem_cons_self
      · exact List.mem_cons_of_mem _ (mem_of_unlinked h)
    · exact List.mem_cons_of_mem _ (mem_of_unlinked h)

theorem unlinked_reliable {env : Env} (h : env.ReliableAt .replay) : ∀ (ids : List ℕ) (t : ℕ),
    unlinked env t ids = ids
  | [], _ => rfl
  | id :: ids, t => by rw [unlinked, if_pos (h t), unlinked_reliable h]

section Calls

variable {w : World} {files : WalDir}

/-- A world with other segment files in its directory. -/
def World.withDir (w : World) (files : WalDir) : Disk := w.disk.setDir w.records.generation files

theorem World.withDir_dir (w : World) (files : WalDir) :
    (w.withDir files).wal.get? w.records.generation = some files := by
  show (w.disk.wal.insert w.records.generation files).get? w.records.generation = _
  rw [SortedMap.get?_insert, if_pos rfl]

/-- Dropping a segment: its file may stay, unless the process is killed. -/
theorem dropSegment_cases (env : Env) (hdir : w.disk.wal.get? w.records.generation = some files)
    (id : ℕ) :
    dropSegment env id w = .ok () { w with
      disk := w.withDir (files.eraseAll (unlinked env w.clock [id]))
      clock := w.clock + 1
      records := { w.records with segments := w.records.segments.erase id } } ∨
    (dropSegment env id w = .error .killed w ∧ ¬ env.Survives) := by
  have herase : w.disk.eraseWalFile w.records.generation id = w.withDir (files.erase id) := by
    rw [Disk.eraseWalFile, hdir]
    rfl
  have hself : w.withDir files = w.disk := Disk.setDir_self hdir
  rw [dropSegment, Prog.get_bind]
  cases hd : env .replay w.clock with
  | succeeds =>
    left
    have hrun : syscall env .replay "unlink" (fun d => d.eraseWalFile w.records.generation id) w =
        .ok () { w.tick with disk := w.withDir (files.erase id) } := by
      rw [syscall, hd, ← herase]
    have hignore := Prog.bind_ok (f := fun _ => (pure () : StoreM Unit)) (Prog.attempt_ok hrun)
    rw [unlinked, if_pos hd, unlinked, Prog.bind_ok (x := Prog.ignore _) hignore]
    rfl
  | fails n =>
    left
    have hrun : syscall env .replay "unlink" (fun d => d.eraseWalFile w.records.generation id) w =
        .error (.status (ioError "unlink")) w.tick := by
      rw [syscall, hd]
    have hignore := Prog.bind_ok (f := fun _ => (pure () : StoreM Unit)) (Prog.attempt_status hrun)
    rw [unlinked, if_neg (by rw [hd]; simp), unlinked, SortedMap.eraseAll, List.foldl_nil, hself,
      Prog.bind_ok (x := Prog.ignore _) hignore]
    rfl
  | killed n =>
    right
    have hrun : syscall env .replay "unlink" (fun d => d.eraseWalFile w.records.generation id) w =
        .error .killed w := by
      rw [syscall, hd]
    have hattempt : Prog.attempt (syscall env .replay "unlink"
        (fun d => d.eraseWalFile w.records.generation id)) w = .error .killed w := by
      rw [Prog.attempt, hrun]
    have hignore := Prog.bind_error (f := fun _ => (pure () : StoreM Unit)) hattempt
    exact ⟨Prog.bind_error (x := Prog.ignore _) hignore, fun h => h _ _ n hd⟩

/-- **Dropping segments**, when the process survives. -/
theorem dropSegments_survives {env : Env} (henv : env.Survives) : ∀ (ids : List ℕ) {w : World}
    {files : WalDir}, w.disk.wal.get? w.records.generation = some files →
    dropSegments env ids w = .ok () { w with
      disk := w.withDir (files.eraseAll (unlinked env w.clock ids))
      clock := w.clock + ids.length
      records := { w.records with segments := w.records.segments.eraseAll ids } }
  | [], w, files, hdir => by
    have hself : w.withDir files = w.disk := Disk.setDir_self hdir
    rw [unlinked, SortedMap.eraseAll, List.foldl_nil, hself]
    rfl
  | id :: ids, w, files, hdir => by
    have hone := (dropSegment_cases env hdir id).resolve_right (fun h => h.2 henv)
    have hnext := dropSegments_survives henv ids (w := { w with
      disk := w.withDir (files.eraseAll (unlinked env w.clock [id]))
      clock := w.clock + 1
      records := { w.records with segments := w.records.segments.erase id } })
      (World.withDir_dir w _)
    rw [dropSegments, Prog.bind_ok hone, hnext]
    have hdisk : (w.withDir (files.eraseAll (unlinked env w.clock [id]))).setDir
        w.records.generation ((files.eraseAll (unlinked env w.clock [id])).eraseAll
          (unlinked env (w.clock + 1) ids)) =
        w.withDir (files.eraseAll (unlinked env w.clock (id :: ids))) := by
      rw [World.withDir, Disk.setDir_setDir, ← World.withDir]
      refine congrArg _ ?_
      rw [unlinked, unlinked, unlinked]
      split <;> rfl
    rw [List.length_cons, ← hdisk]
    show EStateM.Result.ok () { w with
      disk := _
      clock := w.clock + 1 + ids.length
      records := _ } = _
    rw [Nat.add_assoc, Nat.add_comm 1]
    rfl

/-- **Dropping segments**, however far the process gets: some of the files are gone. -/
theorem dropSegments_disk (env : Env) : ∀ (ids : List ℕ) {w : World} {files : WalDir},
    w.disk.wal.get? w.records.generation = some files → ∃ gone : List ℕ, (∀ i ∈ gone, i ∈ ids) ∧
    (Prog.final (dropSegments env ids) w).disk = w.withDir (files.eraseAll gone)
  | [], w, files, hdir =>
    ⟨[], fun _ h => absurd h List.not_mem_nil, (Disk.setDir_self hdir).symm⟩
  | id :: ids, w, files, hdir => by
    rcases dropSegment_cases env hdir id with hone | ⟨hone, _⟩
    · obtain ⟨gone, hgone, hdisk⟩ := dropSegments_disk env ids (w := { w with
        disk := w.withDir (files.eraseAll (unlinked env w.clock [id]))
        clock := w.clock + 1
        records := { w.records with segments := w.records.segments.erase id } })
        (World.withDir_dir w _)
      refine ⟨unlinked env w.clock [id] ++ gone, fun i hi => ?_, ?_⟩
      · rcases List.mem_append.mp hi with hi | hi
        · rw [List.mem_singleton.mp (mem_of_unlinked hi)]
          exact List.mem_cons_self
        · exact List.mem_cons_of_mem _ (hgone i hi)
      · rw [dropSegments, Prog.final_bind_ok hone, hdisk]
        show (w.disk.setDir _ _).setDir _ _ = _
        rw [Disk.setDir_setDir, SortedMap.eraseAll, SortedMap.eraseAll, ← List.foldl_append]
        rfl
    · refine ⟨[], fun _ h => absurd h List.not_mem_nil, ?_⟩
      rw [dropSegments, Prog.final_bind_error hone]
      exact (Disk.setDir_self hdir).symm

/-- A segment truncated. -/
def WalSegment.cut (seg : WalSegment) (used : ℕ) : WalSegment :=
  { seg with used := used, dataDirty := true }

/-- `used_ = used; WriteUsed()`: of the one store into the mapping, only some bytes may be made. -/
theorem writeUsed_cases (env : Env) {id : ℕ} {seg : WalSegment}
    (hs : w.records.segments.get? id = some seg) (used : ℕ) :
    WalSegment.writeUsed env id used w = .ok () ((w.setSegment (seg.cut used)).onDisk
      (w.disk.storeBytes w.records.generation id kWalHeaderUsedOffset
        (store64 (UInt64.ofNat used))) (w.clock + 1)) ∨
    ∃ n, env .header w.clock = .killed n ∧ WalSegment.writeUsed env id used w = .error .killed
      ((w.setSegment (seg.cut used)).onDisk (w.disk.storeBytes w.records.generation id
        kWalHeaderUsedOffset ((store64 (UInt64.ofNat used)).take n)) w.clock) := by
  have hsite : storeSite kWalHeaderUsedOffset = .header := storeSite_header (by decide)
  have hderef : WalSegment.deref id w = .ok seg w := by rw [WalSegment.deref, hs]
  rw [WalSegment.writeUsed, Prog.bind_ok hderef, Prog.modify_bind]
  show storeBytes env _ _ _ _ _ = _ ∨ ∃ n, _ ∧ storeBytes env _ _ _ _ _ = _
  by_cases hkilled : ∃ n, env .header w.clock = .killed n
  · obtain ⟨n, hn⟩ := hkilled
    refine Or.inr ⟨n, hn, ?_⟩
    apply storeBytes_killed
    rw [hsite]
    exact hn
  · left
    apply storeBytes_stored
    intro n hn
    rw [hsite] at hn
    exact hkilled ⟨n, hn⟩

/-- When the process is not killed there, the store is made. -/
theorem writeUsed_stored {env : Env} (henv : env.SparesHeaders) {id : ℕ} {seg : WalSegment}
    (hs : w.records.segments.get? id = some seg) (used : ℕ) :
    WalSegment.writeUsed env id used w = .ok () ((w.setSegment (seg.cut used)).onDisk
      (w.disk.storeBytes w.records.generation id kWalHeaderUsedOffset
        (store64 (UInt64.ofNat used))) (w.clock + 1)) :=
  (writeUsed_cases env hs used).resolve_right (fun ⟨n, hn, _⟩ => henv _ n hn)

/-- When no field is split, the store is made or is not. -/
theorem writeUsed_whole {env : Env} (henv : env.WholeFields) {id : ℕ} {seg : WalSegment}
    (hs : w.records.segments.get? id = some seg) (used : ℕ) :
    WalSegment.writeUsed env id used w = .ok () ((w.setSegment (seg.cut used)).onDisk
      (w.disk.storeBytes w.records.generation id kWalHeaderUsedOffset
        (store64 (UInt64.ofNat used))) (w.clock + 1)) ∨
    WalSegment.writeUsed env id used w = .error .killed (w.setSegment (seg.cut used)) := by
  refine (writeUsed_cases env hs used).imp_right (fun ⟨n, hn, hrun⟩ => ?_)
  obtain rfl := henv _ n hn
  rw [hrun, List.take_zero, Disk.storeBytes_nil]
  rfl

end Calls

/-! ### The rearrangement as a whole -/

section Rearrange

variable {w : World} {files : WalDir} {id : ℕ} {f : WalFile} {pre post : List (ℕ × WalFile)}
  {seg : WalSegment}

/-- The world after the rearrangement. -/
def rearranged (w : World) (files : WalDir) (id : ℕ) (f : WalFile) (seg : WalSegment)
    (behind gone : List ℕ) (t : ℕ) : World :=
  { w with
    disk := w.withDir (cutDir files id f gone)
    clock := t
    records := { w.records with
      segments := (w.records.segments.insert id (seg.cut f.stop)).eraseAll behind }.activate id }

/-- The segments after the rearrangement. -/
theorem rearranged_segment {behind gone : List ℕ} {t : ℕ} (i : ℕ) :
    (rearranged w files id f seg behind gone t).records.segments.get? i =
      (if i ∈ behind then none else
        if i = id then some (seg.cut f.stop) else w.records.segments.get? i).map
        fun s => { s with isSealed := i ≠ id } := by
  show (SortedMap.mapValues _ ((w.records.segments.insert id _).eraseAll _)).get? i = _
  rw [SortedMap.get?_mapValues, SortedMap.get?_eraseAll, SortedMap.get?_insert]

theorem rearranged_cut {behind gone : List ℕ} {t : ℕ} (hkept : id ∉ behind) :
    (rearranged w files id f seg behind gone t).records.segments.get? id =
      some { seg.cut f.stop with isSealed := id ≠ id } := by
  rw [rearranged_segment, if_neg hkept, if_pos rfl]
  rfl

theorem StopsAt.behind_eq (h : Opened w files) (hstop : StopsAt files id f pre post) :
    w.behind id = post.map Prod.fst := by
  have hids : w.segmentIDs = pre.map Prod.fst ++ id :: post.map Prod.fst := by
    rw [h.segmentIDs_eq, hstop.split, List.map_append, List.map_append, List.append_assoc]
    rfl
  exact (Store.behind_eq hids).1

/-- The truncated file on the disk. -/
theorem StopsAt.truncate_eq (h : Opened w files) (hstop : StopsAt files id f pre post) :
    w.disk.storeBytes w.records.generation id kWalHeaderUsedOffset
      (store64 (UInt64.ofNat f.stop)) = w.withDir (files.insert id f.cut) := by
  have hfile : w.disk.walFile? w.records.generation id = some f := by
    rw [Disk.walFile?, h.dir_eq, hstop.get?]
  rw [Disk.storeBytes_eq hfile, Disk.setWalFile, h.dir_eq]
  rfl

theorem withDir_cut (gone : List ℕ) : (w.withDir (files.insert id f.cut)).setDir
    w.records.generation ((files.insert id f.cut).eraseAll gone) =
      w.withDir (cutDir files id f gone) := by
  rw [World.withDir, Disk.setDir_setDir]
  rfl

/-- **The rearrangement**, when the process survives. -/
theorem rearrange_survives {env : Env} (henv : env.Survives) (h : Opened w files)
    (hstop : StopsAt files id f pre post) (hs : w.records.segments.get? id = some seg) :
    rearrange env (w.behind id) id f.stop w = .ok () (rearranged w files id f seg
      (post.map Prod.fst) (unlinked env (w.clock + 1) (post.map Prod.fst))
      (w.clock + 1 + post.length)) := by
  have hno := (h.segment id seg f hs hstop.get?).1
  have hwrite := writeUsed_stored henv.stores.sparesHeaders hs f.stop
  rw [hstop.truncate_eq h] at hwrite
  have hdrop := dropSegments_survives henv (post.map Prod.fst)
    (w := (w.setSegment (seg.cut f.stop)).onDisk (w.withDir (files.insert id f.cut)) (w.clock + 1))
    (World.withDir_dir w _)
  rw [rearrange, hstop.behind_eq h, Prog.bind_ok hwrite, Prog.bind_ok hdrop, List.length_map,
    rearranged, ← withDir_cut]
  subst hno
  rfl

/-- **The rearrangement**, however far the process gets: nothing is done, or the segment is
truncated and some of the files behind it are gone. -/
theorem rearrange_disk {env : Env} (henv : env.WholeFields) (h : Opened w files)
    (hstop : StopsAt files id f pre post) (hs : w.records.segments.get? id = some seg) :
    (Prog.final (rearrange env (w.behind id) id f.stop) w).disk = w.disk ∨
    ∃ gone : List ℕ, (∀ i ∈ gone, id < i) ∧
      (Prog.final (rearrange env (w.behind id) id f.stop) w).disk =
        w.withDir (cutDir files id f gone) := by
  rcases writeUsed_whole henv hs f.stop with hwrite | hwrite
  · right
    rw [hstop.truncate_eq h] at hwrite
    obtain ⟨gone, hgone, hdisk⟩ := dropSegments_disk env (post.map Prod.fst)
      (w := (w.setSegment (seg.cut f.stop)).onDisk (w.withDir (files.insert id f.cut))
        (w.clock + 1)) (World.withDir_dir w _)
    refine ⟨gone, fun i hi => ?_, ?_⟩
    · obtain ⟨e, he, rfl⟩ := List.mem_map.mp (hgone i hi)
      exact hstop.order.2.1 e he
    · rw [← withDir_cut, rearrange, hstop.behind_eq h, Prog.final_bind_ok hwrite]
      cases hd : dropSegments env (post.map Prod.fst)
          ((w.setSegment (seg.cut f.stop)).onDisk (w.withDir (files.insert id f.cut))
            (w.clock + 1)) with
      | ok a w' =>
        rw [Prog.final_ok hd] at hdisk
        rw [Prog.final_bind_ok hd]
        exact hdisk
      | error e w' =>
        rw [Prog.final_error hd] at hdisk
        rw [Prog.final_bind_error hd]
        exact hdisk
  · left
    rw [rearrange, Prog.final_bind_error hwrite]
    rfl

/-- **The rearranged segments** are the files of the rearranged directory, when all are unlinked. -/
theorem opened_rearranged (h : Opened w files) (hstop : StopsAt files id f pre post)
    (hs : w.records.segments.get? id = some seg) (t : ℕ) :
    Opened (rearranged w files id f seg (post.map Prod.fst) (post.map Prod.fst) t)
      (cutDir files id f (post.map Prod.fst)) := by
  have hhi : w.records.walSize ≤ 2 ^ 30 := h.images.size_hi
  have hfiles : ∀ i, (cutDir files id f (post.map Prod.fst)).get? i =
      if i ∈ post.map Prod.fst then none else if i = id then some f.cut else files.get? i := by
    intro i
    rw [cutDir, SortedMap.get?_eraseAll, SortedMap.get?_insert]
  refine ⟨hstop.images_cut h.images _, World.withDir_dir w _, fun i => ?_, fun i s f' hi hf' => ?_⟩
  · rw [rearranged_segment, hfiles, Option.isSome_map]
    split
    · exact Iff.rfl
    · split
      · exact Iff.rfl
      · exact h.segments i
  · rw [rearranged_segment, Option.map_eq_some_iff] at hi
    obtain ⟨s', hs', rfl⟩ := hi
    rw [hfiles] at hf'
    split at hs'
    · exact absurd hs' (by simp)
    · rename_i hmem
      rw [if_neg hmem] at hf'
      split at hs'
      · rename_i hid
        rw [if_pos hid] at hf'
        obtain rfl := Option.some.inj hs'
        obtain rfl := Option.some.inj hf'
        obtain ⟨h1, h2, _⟩ := h.segment id seg f hs hstop.get?
        have hcut := (h.images.image id f hstop.get?).2.2.cut hhi
        exact ⟨h1.trans hid.symm, h2, hcut.2.symm⟩
      · rename_i hid
        rw [if_neg hid] at hf'
        exact h.segment i s' f' hs' hf'

end Rearrange

end MinweightStore.Store
