import MinweightStore.Store.LogFiles
import MinweightStore.Store.Reads
import MinweightStore.Store.Following

/-!
# The map a directory holds

A directory holds the map that `Open` recovers from it: the log of its generation over the snapshot
that the manifest names.

* `Checkpointed`, `HoldsIn`, `DiskHolds` — the checkpoint a directory is based on, and its map;
* `HoldsIn.publishing`, `HoldsIn.opening`, `HoldsIn.cleaned` — **it holds the map in every state a
  checkpoint or a cleanup goes through**;
* `Based` — a store that works on such a directory.
-/

namespace MinweightStore.Store

open Minpatricia (ByteView Position Index kMaxKeySize KnowsAll)
open ValidPrefix

/-! ### Maps and items -/

/-- Items put one after the other, in ascending order of their keys. -/
theorem foldl_insert_entries (l : List (ByteView × ByteView)) (m : SortedMap ByteView ByteView)
    (h : (m.entries ++ l).Pairwise fun a b => a.1 < b.1) :
    ((l.map fun e => (⟨e.1, e.2⟩ : Item)).foldl (fun v item => v.insert item.key item.value)
      m).entries = m.entries ++ l := by
  induction l generalizing m with
  | nil => exact (List.append_nil _).symm
  | cons e l ih =>
    have hlast : ∀ a ∈ m.entries, a.1 < e.1 := fun a ha =>
      (List.pairwise_append.mp h).2.2 a ha e List.mem_cons_self
    have hentries := SortedMap.insert_entries_last e.2 hlast
    have hsorted : ((m.insert e.1 e.2).entries ++ l).Pairwise fun a b => a.1 < b.1 := by
      rw [hentries, List.append_assoc]
      exact h
    rw [List.map_cons, List.foldl_cons, ih _ hsorted, hentries, List.append_assoc]
    rfl

/-- **The items of a map** make the map again. -/
theorem valuesOf_itemsOf (v : SortedMap ByteView ByteView) : valuesOf (itemsOf v) = v :=
  SortedMap.ext_entries (foldl_insert_entries v.entries .empty v.sorted)

theorem length_itemsOf (v : SortedMap ByteView ByteView) : (itemsOf v).length = v.size :=
  List.length_map _

/-! ### Directories -/

/-- **The checkpoint a directory is based on**: none in the first generation, or the one that the
manifest names. -/
inductive Checkpointed (d : Disk) : ℕ → List Item → Prop where
  | first (absent : d.manifest = none) : Checkpointed d kFirstWalGeneration []
  | published {generation : ℕ} {entries : List Item}
      (manifest : d.manifest = some (encodeManifest generation))
      (snapshot : d.snapshots.get? generation = some (encodeSnapshot generation entries)) :
      Checkpointed d generation entries

/-- **A directory with a map**, in a generation and over a snapshot. -/
structure HoldsIn (walSize generation : ℕ) (entries : List Item) (d : Disk)
    (v : SortedMap ByteView ByteView) : Prop where
  checkpointed : Checkpointed d generation entries
  generation_pos : 0 < generation
  generation_lt : generation < 2 ^ 64
  items : ∀ item ∈ entries, item.Fits
  count : entries.length < 2 ^ 30
  openable : OpenableDir (d.dir generation) walSize
  complete : AllComplete (dirPieces (openedDir (d.dir generation) walSize))
  shown : shownBy (openedDir (d.dir generation) walSize) entries = v
  ahead : ∀ g, generation < g → d.dir g = .empty

/-- **A directory holds a map.** -/
def DiskHolds (walSize : ℕ) (v : SortedMap ByteView ByteView) (d : Disk) : Prop :=
  ∃ generation entries, HoldsIn walSize generation entries d v

section Directory

variable {walSize generation : ℕ} {entries : List Item} {d d' : Disk}
  {v : SortedMap ByteView ByteView}

/-- A directory of one segment. -/
theorem openedDir_single (id : ℕ) (f : WalFile) (walSize : ℕ) :
    openedDir (SortedMap.empty.insert id f) walSize =
      SortedMap.empty.insert id (openedFile f walSize) := by
  have hinit : initialDir (SortedMap.empty.insert id f) = SortedMap.empty.insert id f :=
    if_neg Bool.false_ne_true
  refine SortedMap.ext_get? (fun i => ?_)
  rw [openedDir, hinit, SortedMap.get?_mapValues, SortedMap.get?_insert, SortedMap.get?_insert]
  split <;> rfl

/-- A directory without segments is opened with a new one. -/
theorem openedDir_empty (walSize : ℕ) :
    openedDir .empty walSize = SortedMap.empty.insert kFirstWalSegmentNo (freshFile walSize) := by
  have hinit : initialDir .empty = initialDir (SortedMap.empty.insert kFirstWalSegmentNo .empty) := rfl
  rw [openedDir, hinit, ← openedDir, openedDir_single, freshFile]

theorem dirPieces_fresh (h : kWalHeaderSize ≤ walSize) :
    dirPieces (openedDir .empty walSize) = [⟨kFirstWalSegmentNo, [], true⟩] := by
  have hentries : (SortedMap.empty.insert kFirstWalSegmentNo (freshFile walSize)).entries =
      [(kFirstWalSegmentNo, freshFile walSize)] :=
    SortedMap.insert_entries_last _ (fun _ he => absurd he List.not_mem_nil)
  rw [openedDir_empty, dirPieces, hentries, List.map_singleton, freshFile, filePiece_fresh _ h]

/-- **A directory without segments** holds its snapshot. -/
theorem shownBy_fresh (h : kWalHeaderSize ≤ walSize) (entries : List Item) :
    AllComplete (dirPieces (openedDir .empty walSize)) ∧
      dirRecovered (openedDir .empty walSize) = [] ∧
      shownBy (openedDir .empty walSize) entries = valuesOf entries := by
  have hcomplete : AllComplete (dirPieces (openedDir .empty walSize)) := by
    intro p hp
    rw [dirPieces_fresh h] at hp
    rw [List.mem_singleton.mp hp]
  have hrecovered : dirRecovered (openedDir .empty walSize) = [] := by
    rw [dirRecovered_complete hcomplete, dirPieces_fresh h]
    rfl
  exact ⟨hcomplete, hrecovered, by rw [shownBy, hrecovered]; rfl⟩

theorem openableDir_empty (walSize : ℕ) : OpenableDir .empty walSize :=
  fun _ _ hf => absurd hf (by simp [SortedMap.get?_empty])

/-- **A new directory** holds the empty map. -/
theorem diskHolds_empty (h : kWalHeaderSize ≤ walSize) : DiskHolds walSize .empty .empty := by
  obtain ⟨hcomplete, _, hshown⟩ := shownBy_fresh h []
  exact ⟨kFirstWalGeneration, [], .first rfl, by decide, by decide,
    fun _ hi => absurd hi List.not_mem_nil, by decide, openableDir_empty walSize, hcomplete, hshown,
    fun _ _ => rfl⟩

theorem Checkpointed.congr (h : Checkpointed d generation entries)
    (hmanifest : d'.manifest = d.manifest)
    (hsnapshot : d'.snapshots.get? generation = d.snapshots.get? generation) :
    Checkpointed d' generation entries := by
  cases h with
  | first absent => exact .first (hmanifest.trans absent)
  | published manifest snapshot =>
    exact .published (hmanifest.trans manifest) (hsnapshot.trans snapshot)

/-- `ReadManifest` finds the generation. -/
theorem HoldsIn.generation?_eq (h : HoldsIn walSize generation entries d v) :
    d.generation? = some generation := by
  cases h.checkpointed with
  | first absent => rw [Disk.generation?, absent]
  | published manifest snapshot =>
    have htake : (encodeManifest generation).take 32 = encodeManifest generation :=
      List.take_of_length_le (le_of_eq (length_encodeManifest generation))
    rw [Disk.generation?, manifest]
    simp only [htake, decodeManifest_encode h.generation_pos h.generation_lt]

/-- Another directory with the same checkpoint, whose segments are opened as the same. -/
theorem HoldsIn.congr (h : HoldsIn walSize generation entries d v)
    (hmanifest : d'.manifest = d.manifest)
    (hsnapshot : d'.snapshots.get? generation = d.snapshots.get? generation)
    (hopenable : OpenableDir (d'.dir generation) walSize)
    (hopened : openedDir (d'.dir generation) walSize = openedDir (d.dir generation) walSize)
    (hahead : ∀ g, generation < g → d.dir g = .empty → d'.dir g = .empty) :
    HoldsIn walSize generation entries d' v := by
  refine ⟨h.checkpointed.congr hmanifest hsnapshot, h.generation_pos, h.generation_lt, h.items,
    h.count, hopenable, ?_, ?_, fun g hg => hahead g hg (h.ahead g hg)⟩
  · rw [hopened]
    exact h.complete
  · rw [hopened]
    exact h.shown

/-- The same directory of segments. -/
theorem HoldsIn.congr_dir (h : HoldsIn walSize generation entries d v)
    (hmanifest : d'.manifest = d.manifest)
    (hsnapshot : d'.snapshots.get? generation = d.snapshots.get? generation)
    (hdir : d'.dir generation = d.dir generation)
    (hahead : ∀ g, generation < g → d.dir g = .empty → d'.dir g = .empty) :
    HoldsIn walSize generation entries d' v :=
  h.congr hmanifest hsnapshot (hdir ▸ h.openable) (by rw [hdir]) hahead

/-- **A directory with a new checkpoint** and no segments yet. -/
theorem holdsIn_published (hlo : kWalHeaderSize ≤ walSize) (hpos : 0 < generation)
    (hlt : generation < 2 ^ 64) (hitems : ∀ item ∈ entries, item.Fits)
    (hcount : entries.length < 2 ^ 30) (hmanifest : d.manifest = some (encodeManifest generation))
    (hsnapshot : d.snapshots.get? generation = some (encodeSnapshot generation entries))
    (hahead : ∀ g, generation ≤ g → d.dir g = .empty) :
    HoldsIn walSize generation entries d (valuesOf entries) := by
  have hdir := hahead generation (le_refl _)
  obtain ⟨hcomplete, _, hshown⟩ := shownBy_fresh hlo entries
  exact ⟨.published hmanifest hsnapshot, hpos, hlt, hitems, hcount,
    hdir ▸ openableDir_empty walSize, hdir ▸ hcomplete, hdir ▸ hshown,
    fun g hg => hahead g (le_of_lt hg)⟩

/-- **A published checkpoint** is what the directory holds now. -/
theorem HoldsIn.published (h : HoldsIn walSize generation entries d v)
    (hlo : kWalHeaderSize ≤ walSize) {v' : SortedMap ByteView ByteView} (hv : v'.size < 2 ^ 30)
    (hitems : ∀ item ∈ itemsOf v', item.Fits) (hg : generation + 1 < 2 ^ 64)
    (hd : Published (generation + 1) (encodeSnapshot (generation + 1) (itemsOf v')) d d') :
    HoldsIn walSize (generation + 1) (itemsOf v') d' v' := by
  have hnew : HoldsIn walSize (generation + 1) (itemsOf v') d' (valuesOf (itemsOf v')) := by
    refine holdsIn_published hlo (Nat.succ_pos _) hg hitems ?_ hd.manifest_eq ?_ (fun g hle => ?_)
    · rw [length_itemsOf]
      exact hv
    · rw [hd.snapshots_eq, SortedMap.get?_insert, if_pos rfl]
    · rw [Disk.dir, hd.wal_eq, withWalDir_getD]
      exact h.ahead g hle
  rw [valuesOf_itemsOf] at hnew
  exact hnew

/-- **While a checkpoint is published** the directory holds the old map or the new one. -/
theorem HoldsIn.publishing (h : HoldsIn walSize generation entries d v)
    (hlo : kWalHeaderSize ≤ walSize) {v' : SortedMap ByteView ByteView} (hv : v'.size < 2 ^ 30)
    (hitems : ∀ item ∈ itemsOf v', item.Fits) (hg : generation + 1 < 2 ^ 64)
    (hd : Publishing (generation + 1) (encodeSnapshot (generation + 1) (itemsOf v')) d d') :
    HoldsIn walSize generation entries d' v ∨
      HoldsIn walSize (generation + 1) (itemsOf v') d' v' := by
  have hother : ∀ content : List UInt8, (d.snapshots.insert (generation + 1) content).get?
      generation = d.snapshots.get? generation := fun content => by
    rw [SortedMap.get?_insert, if_neg (by omega)]
  -- the directories of segments are the old ones, but for a new one that is empty
  have hold : d'.manifest = d.manifest →
      d'.snapshots.get? generation = d.snapshots.get? generation →
      (∀ g, d'.dir g = d.dir g) → HoldsIn walSize generation entries d' v := fun hm hs hdir =>
    h.congr_dir hm hs (hdir _) (fun g _ hempty => (hdir g).trans hempty)
  cases hd with
  | before files =>
    exact Or.inl (hold files.manifest_eq (by rw [files.snapshots_eq])
      (fun g => by rw [Disk.dir, Disk.dir, files.wal_eq]))
  | snapshot files =>
    exact Or.inl (hold files.manifest_eq (by rw [files.snapshots_eq, hother])
      (fun g => by rw [Disk.dir, Disk.dir, files.wal_eq]))
  | directory files =>
    exact Or.inl (hold files.manifest_eq (by rw [files.snapshots_eq, hother])
      (fun g => by rw [Disk.dir, Disk.dir, files.wal_eq, withWalDir_getD]))
  | manifest files => exact Or.inr (h.published hlo hv hitems hg files)

/-- A file that is opened is among those there are. -/
theorem initialDir_insert {files : WalDir} {id : ℕ} {f : WalFile}
    (hf : (initialDir files).get? id = some f) (f' : WalFile) :
    initialDir (files.insert id f') = (initialDir files).insert id f' := by
  have hsome : (files.insert id f').entries.isEmpty = false := by
    cases hentries : (files.insert id f').entries with
    | nil =>
      have hget := SortedMap.get?_insert files id id f'
      rw [if_pos rfl, SortedMap.get?, hentries] at hget
      exact absurd hget (by simp)
    | cons e l => rfl
  have hinsert : initialDir (files.insert id f') = files.insert id f' :=
    if_neg (by rw [hsome]; exact Bool.false_ne_true)
  rw [hinsert]
  rw [initialDir] at hf ⊢
  split at hf
  · rename_i hempty
    rw [SortedMap.get?_insert] at hf
    split at hf
    · rename_i hid
      rw [if_pos hempty, hid, SortedMap.insert_insert]
      refine congrArg (fun files : WalDir => files.insert kFirstWalSegmentNo f') ?_
      exact SortedMap.ext_entries (List.isEmpty_iff.mp hempty)
    · exact absurd hf (by simp [SortedMap.get?_empty])
  · rename_i hsome
    rw [if_neg hsome]

/-- **While a segment is opened** the directory holds its map. -/
theorem HoldsIn.opening (h : HoldsIn walSize generation entries d v) {id : ℕ} {f : WalFile}
    (hf : (initialDir (d.dir generation)).get? id = some f)
    (hd : OpeningFile walSize generation id f d d') : HoldsIn walSize generation entries d' v := by
  rcases hd with rfl | ⟨f', hopen, hsame, rfl⟩
  · exact h
  have hdir : (d.setWalFile generation id f').dir generation = (d.dir generation).insert id f' := by
    rw [Disk.dir_setWalFile, if_pos rfl]
  refine h.congr rfl rfl ?_ ?_ (fun g hg hnone => ?_)
  · rw [hdir]
    intro i f'' hf''
    rw [SortedMap.get?_insert] at hf''
    split at hf''
    · rename_i hi
      obtain ⟨hpos, hno, _⟩ := h.openable.initialDir id f hf
      rw [hi, ← Option.some.inj hf'']
      exact ⟨hpos, hno, hopen⟩
    · exact h.openable i f'' hf''
  · rw [hdir, openedDir, openedDir, initialDir_insert hf]
    refine SortedMap.ext_get? (fun i => ?_)
    rw [SortedMap.get?_mapValues, SortedMap.get?_mapValues, SortedMap.get?_insert]
    split
    · rename_i hi
      rw [hi, hf, Option.map_some, Option.map_some, hsame]
    · rfl
  · rw [Disk.dir_setWalFile, if_neg (by omega), hnone]

/-- A file with the same records in the place of another. -/
theorem dirPieces_insert {files : WalDir} {id : ℕ} {f f' : WalFile} (hf : files.get? id = some f)
    (hsame : filePiece id f' = filePiece id f) :
    dirPieces (files.insert id f') = dirPieces files := by
  obtain ⟨l, r, hlr⟩ := SortedMap.exists_middle hf
  rw [dirPieces, dirPieces, SortedMap.insert_entries_middle hlr, hlr]
  simp only [List.map_append, List.map_cons, List.map_nil, hsame]

/-- **While a record is stored** behind the used part of a segment, the directory holds its map. -/
theorem HoldsIn.storing (h : HoldsIn walSize generation entries d v) (hlo : 0 < walSize) {id : ℕ}
    {f : WalFile} (hf : (d.dir generation).get? id = some f) (hfile : FileOk f walSize)
    (hd : StoringFile generation id f d d') : HoldsIn walSize generation entries d' v := by
  obtain ⟨f', huntouched, rfl⟩ := hd
  have hfile' := huntouched.fileOk hfile
  have hdir : (d.setWalFile generation id f').dir generation = (d.dir generation).insert id f' := by
    rw [Disk.dir_setWalFile, if_pos rfl]
  have hinit : (initialDir (d.dir generation)).get? id = some f := by
    rw [initialDir, if_neg (fun hempty => ?_)]
    · exact hf
    · rw [SortedMap.get?, List.isEmpty_iff.mp hempty] at hf
      exact absurd hf (by simp)
  have hopened : openedDir ((d.dir generation).insert id f') walSize =
      (openedDir (d.dir generation) walSize).insert id f' := by
    refine SortedMap.ext_get? (fun i => ?_)
    rw [openedDir, openedDir, initialDir_insert hinit, SortedMap.get?_mapValues,
      SortedMap.get?_insert, SortedMap.get?_insert, SortedMap.get?_mapValues]
    split
    · rw [Option.map_some, hfile'.openedFile_eq hlo]
    · rfl
  have hget : (openedDir (d.dir generation) walSize).get? id = some f := by
    rw [openedDir, SortedMap.get?_mapValues, hinit, Option.map_some, hfile.openedFile_eq hlo]
  have hpieces : dirPieces (openedDir ((d.dir generation).insert id f') walSize) =
      dirPieces (openedDir (d.dir generation) walSize) := by
    rw [hopened]
    exact dirPieces_insert hget (huntouched.filePiece hfile)
  refine ⟨h.checkpointed.congr rfl rfl, h.generation_pos, h.generation_lt, h.items, h.count, ?_, ?_, ?_,
    fun g hg => ?_⟩
  · rw [hdir]
    intro i f'' hf''
    rw [SortedMap.get?_insert] at hf''
    split at hf''
    · rename_i hi
      obtain ⟨hpos, hno, _⟩ := h.openable id f hf
      rw [hi, ← Option.some.inj hf'']
      exact ⟨hpos, hno, hfile'.openable⟩
    · exact h.openable i f'' hf''
  · rw [hdir, hpieces]
    exact h.complete
  · rw [hdir, shownBy, dirRecovered, hpieces]
    exact h.shown
  · rw [Disk.dir_setWalFile, if_neg (by omega)]
    exact h.ahead g hg

/-- **While a new segment is opened** behind the others, the directory holds its map. -/
theorem HoldsIn.rolling (h : HoldsIn walSize generation entries d v) (hlo : kWalHeaderSize ≤ walSize)
    {id : ℕ} (hpos : 0 < id) (hno : id < 2 ^ 33) (hne : (d.dir generation).entries ≠ [])
    (hlast : ∀ e ∈ (d.dir generation).entries, e.1 < id)
    (hd : OpeningFile walSize generation id .empty d d') :
    HoldsIn walSize generation entries d' v := by
  rcases hd with rfl | ⟨f, hopen, hsame, rfl⟩
  · exact h
  have hdir : (d.setWalFile generation id f).dir generation = (d.dir generation).insert id f := by
    rw [Disk.dir_setWalFile, if_pos rfl]
  have hentries := SortedMap.insert_entries_last f hlast
  have hinit : initialDir (d.dir generation) = d.dir generation :=
    if_neg (fun hempty => hne (List.isEmpty_iff.mp hempty))
  have hinsert : initialDir ((d.dir generation).insert id f) = (d.dir generation).insert id f := by
    refine if_neg (fun hempty => ?_)
    rw [hentries] at hempty
    exact absurd (List.isEmpty_iff.mp hempty) (by simp)
  have hopened : openedDir ((d.dir generation).insert id f) walSize =
      (openedDir (d.dir generation) walSize).insert id (freshFile walSize) := by
    refine SortedMap.ext_get? (fun i => ?_)
    rw [openedDir, openedDir, hinsert, hinit, SortedMap.get?_mapValues, SortedMap.get?_insert,
      SortedMap.get?_insert, SortedMap.get?_mapValues]
    split
    · rw [Option.map_some, hsame, freshFile]
    · rfl
  have hbehind : ∀ e ∈ (openedDir (d.dir generation) walSize).entries, e.1 < id := by
    intro e he
    have hget := (SortedMap.mem_entries_iff _ _ _).mp he
    rw [openedDir, hinit, SortedMap.get?_mapValues, Option.map_eq_some_iff] at hget
    obtain ⟨f', hf', _⟩ := hget
    exact hlast (e.1, f') ((SortedMap.mem_entries_iff _ _ _).mpr hf')
  obtain ⟨hcomplete, hrecovered⟩ := dirRecovered_fresh hbehind h.complete hlo
  refine ⟨h.checkpointed.congr rfl rfl, h.generation_pos, h.generation_lt, h.items, h.count, ?_, ?_, ?_,
    fun g hg => ?_⟩
  · rw [hdir]
    intro i f' hf'
    rw [SortedMap.get?_insert] at hf'
    split at hf'
    · rename_i hi
      rw [hi, ← Option.some.inj hf']
      exact ⟨hpos, hno, hopen⟩
    · exact h.openable i f' hf'
  · rw [hdir, hopened]
    exact hcomplete
  · rw [hdir, hopened, shownBy, hrecovered]
    exact h.shown
  · rw [Disk.dir_setWalFile, if_neg (by omega)]
    exact h.ahead g hg

/-- A directory for segments that is not there yet is an empty one. -/
theorem HoldsIn.creating (h : HoldsIn walSize generation entries d v) (g : ℕ) :
    HoldsIn walSize generation entries (d.setDir g (d.dir g)) v := by
  have hdir : ∀ g', (d.setDir g (d.dir g)).dir g' = d.dir g' := by
    intro g'
    rw [Disk.dir_setDir]
    split
    · rename_i hg
      rw [hg]
    · rfl
  exact h.congr_dir rfl rfl (hdir _) (fun g' _ hnone => (hdir g').trans hnone)

/-- **While old generations are removed** the directory holds its map. -/
theorem HoldsIn.cleaned (h : HoldsIn walSize generation entries d v)
    (hd : Cleaned generation d d') : HoldsIn walSize generation entries d' v := by
  refine h.congr_dir hd.manifest_eq hd.snapshot_eq ?_ (fun g _ => hd.none_new g)
  rw [Disk.dir, Disk.dir, hd.wal_eq]

end Directory

/-! ### Stores -/

/-- **A store on its directory**: the segments are the files of the generation, over its snapshot. -/
structure Based (w : World) (files : WalDir) (entries : List Item) : Prop where
  accepting : Accepting w
  opened : Opened w files
  complete : AllComplete (dirPieces files)
  snapshot : w.records.snapshotRecords = .dummy :: entries.map Item.owned
  checkpointed : Checkpointed w.disk w.records.generation entries
  generation_pos : 0 < w.records.generation
  generation_lt : w.records.generation < 2 ^ 64
  items : ∀ item ∈ entries, item.Fits
  count : entries.length < 2 ^ 30
  ahead : ∀ g, w.records.generation < g → w.disk.dir g = .empty

section Based

variable {w w' : World} {files files' : WalDir} {entries : List Item} {more : List Logged} {x : Logged}

/-- It depends on the record store and on the disk. -/
theorem Based.congr (h : Based w files entries) (hrecords : w'.records = w.records)
    (hdisk : w'.disk = w.disk) : Based w' files entries := by
  obtain ⟨haccepting, hopened, hcomplete, hsnapshot, hcheckpointed, hpos, hlt, hitems, hcount,
    hahead⟩ := h
  refine ⟨haccepting.congr hrecords (fun _ => by rw [hdisk]), ?_, hcomplete, ?_, ?_, ?_, ?_, hitems,
    hcount, ?_⟩
  · exact ⟨hrecords ▸ hopened.images, by rw [hdisk, hrecords]; exact hopened.dir,
      hrecords ▸ hopened.segments, hrecords ▸ hopened.segment⟩
  · exact hrecords ▸ hsnapshot
  · rw [hdisk, hrecords]
    exact hcheckpointed
  · exact hrecords ▸ hpos
  · exact hrecords ▸ hlt
  · rw [hrecords, hdisk]
    exact hahead

theorem Based.files_ne (h : Based w files entries) : files.entries ≠ [] := by
  obtain ⟨seg, hs⟩ := h.accepting.log.active
  obtain ⟨f, hf⟩ := h.opened.file hs
  intro hnil
  have hmem := (SortedMap.mem_entries_iff _ _ _).mpr hf
  rw [hnil] at hmem
  exact absurd hmem List.not_mem_nil

/-- **Its directory holds what its log shows.** -/
theorem Based.holds (h : Based w files entries) : HoldsIn w.records.walSize w.records.generation
    entries w.disk (shownBy files entries) := by
  have hsame := h.opened.images.openedDir_eq h.files_ne
  refine ⟨h.checkpointed, h.generation_pos, h.generation_lt, h.items, h.count, ?_, ?_, ?_, h.ahead⟩
  · rw [h.opened.dir_eq]
    exact h.opened.images.openable
  · rw [h.opened.dir_eq, hsame]
    exact h.complete
  · rw [h.opened.dir_eq, hsame]

/-- **What is logged** leaves the store on its directory. -/
theorem Based.logs (h : Based w files entries) (hlogs : Logs w files more w' files') :
    Based w' files' entries := by
  have hwrote := hlogs.wrote
  have hgeneration := hwrote.walOnly.generation
  have hsnapshots : w'.records.snapshotRecords = w.records.snapshotRecords := by
    rw [hwrote.walOnly.rest]
  refine ⟨hwrote.accepting, hlogs.opened, hlogs.complete, hsnapshots.trans h.snapshot, ?_,
    hgeneration ▸ h.generation_pos, hgeneration ▸ h.generation_lt, h.items, h.count, fun g hg => ?_⟩
  · rw [hgeneration]
    exact h.checkpointed.congr hwrote.walOnly.manifest_eq (by rw [hwrote.walOnly.snapshots_eq])
  · rw [hgeneration] at hg
    rw [hwrote.walOnly.dir_eq g (by omega)]
    exact h.ahead g hg

/-- The map of its log, and the same map after more has been logged. -/
theorem Based.values_logs (h : Based w files entries) (hlogs : Logs w files more w' files') :
    Values w' (positionsOf files entries) (shownBy files entries) := by
  have h' := h.logs hlogs
  refine values_foldl _ (values_of_snapshot h.count h'.snapshot) (fun x hx hop => ?_)
  refine has_of_recovered h'.opened.segmentsOk ?_ hop
  rw [h'.opened.recovered_eq, hlogs.recovered]
  exact List.mem_append_left _ hx

theorem Based.values (h : Based w files entries) :
    Values w (positionsOf files entries) (shownBy files entries) := by
  rw [positionsOf, shownBy, ← h.opened.recovered_eq]
  exact values_of_recovered h.opened.segmentsOk h.count h.snapshot

theorem Logs.positionsOf_eq (hlogs : Logs w files [x] w' files') :
    positionsOf files' entries = applyPosition (positionsOf files entries) x := by
  rw [positionsOf, hlogs.recovered, List.foldl_append]
  rfl

theorem Logs.shownBy_eq (hlogs : Logs w files [x] w' files') :
    shownBy files' entries = applyValue (shownBy files entries) x := by
  rw [shownBy, hlogs.recovered, List.foldl_append]
  rfl

theorem Logs.nothing (hlogs : Logs w files [] w' files') (entries : List Item) :
    positionsOf files' entries = positionsOf files entries ∧
      shownBy files' entries = shownBy files entries := by
  have hsame := hlogs.recovered
  rw [List.append_nil] at hsame
  exact ⟨by rw [positionsOf, positionsOf, hsame], by rw [shownBy, shownBy, hsame]⟩

end Based

end MinweightStore.Store
