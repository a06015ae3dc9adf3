import MinweightStore.Base.SortedMap
import MinweightStore.Base.Wp
import MinweightStore.Minpatricia.Index
import MinweightStore.Store.Record

/-!
# The world of a store

What a store lives in: the files of its directory, and an environment that decides of every
file-system call whether it succeeds, fails, or the process is killed at it.  The mapping of an open
WAL segment is its file, so what was stored into it survives a kill.

* `Disk` — `MANIFEST`, the snapshots, the WAL directories and their segments;
* `Env` — the decisions, by call site and by the number of calls made so far;
* `World` — the disk and the state of one process;
* `syscall`, `writeFile`, `storeBytes` — the calls everything else is made of.
-/

namespace MinweightStore.Store

open Minpatricia (ByteView Position Index)

/-! ### Files -/

/-- A WAL segment file. -/
structure WalFile where
  size : ℕ
  bytes : Mapping

/-- The file that `open(O_CREAT)` creates. -/
def WalFile.empty : WalFile := ⟨0, fun _ => 0⟩

/-- `ftruncate`. -/
def WalFile.resize (f : WalFile) (size : ℕ) : WalFile :=
  ⟨size, fun i => if i < f.size then f.bytes i else 0⟩

/-- The segment files of one generation, by file number. -/
abbrev WalDir := SortedMap ℕ WalFile

/-- The directory of a store. -/
structure Disk where
  manifest : Option (List UInt8)
  manifestTmp : Option (List UInt8)
  snapshots : SortedMap ℕ (List UInt8)
  snapshotTmps : SortedMap ℕ (List UInt8)
  wal : SortedMap ℕ WalDir

/-- The directory before the first `Open`. -/
def Disk.empty : Disk := ⟨none, none, .empty, .empty, .empty⟩

namespace Disk

/-- The segments of a generation. -/
def dir (d : Disk) (generation : ℕ) : WalDir := (d.wal.get? generation).getD .empty

/-- A segment file. -/
def walFile? (d : Disk) (generation fileNo : ℕ) : Option WalFile := (d.dir generation).get? fileNo

/-- The bytes of a segment file. -/
def mapping (d : Disk) (generation fileNo : ℕ) : Mapping :=
  ((d.walFile? generation fileNo).getD .empty).bytes

/-- Replace the segments of a generation. -/
def setDir (d : Disk) (generation : ℕ) (files : WalDir) : Disk :=
  { d with wal := d.wal.insert generation files }

/-- Put a segment file into the directory of its generation. -/
def setWalFile (d : Disk) (generation fileNo : ℕ) (f : WalFile) : Disk :=
  d.setDir generation ((d.dir generation).insert fileNo f)

/-- Remove a segment file. -/
def eraseWalFile (d : Disk) (generation fileNo : ℕ) : Disk :=
  match d.wal.get? generation with
  | none => d
  | some dir => { d with wal := d.wal.insert generation (dir.erase fileNo) }

/-- A store into the mapping of a segment file. -/
def storeBytes (d : Disk) (generation fileNo offset : ℕ) (data : List UInt8) : Disk :=
  match d.walFile? generation fileNo with
  | none => d
  | some f => d.setWalFile generation fileNo { f with bytes := writeBytes f.bytes offset data }

section Dir

variable (d : Disk) {generation generation' fileNo fileNo' offset : ℕ} {f : WalFile}
  {data : List UInt8}

theorem dir_setDir (files : WalDir) : (d.setDir generation files).dir generation' =
    if generation' = generation then files else d.dir generation' := by
  rw [dir, setDir, SortedMap.get?_insert]
  split <;> rfl

theorem setDir_setDir (files files' : WalDir) :
    (d.setDir generation files).setDir generation files' = d.setDir generation files' := by
  simp only [setDir, SortedMap.insert_insert]

theorem dir_setWalFile : (d.setWalFile generation fileNo f).dir generation' =
    if generation' = generation then (d.dir generation).insert fileNo f else d.dir generation' := by
  rw [setWalFile, dir_setDir]

theorem dir_eraseWalFile : (d.eraseWalFile generation fileNo).dir generation' =
    if generation' = generation then (d.dir generation).erase fileNo else d.dir generation' := by
  rw [eraseWalFile]
  cases hd : d.wal.get? generation with
  | none =>
    simp only
    split
    · rename_i h
      subst h
      rw [dir, hd]
      exact (SortedMap.erase_eq_self rfl).symm
    · rfl
  | some files =>
    simp only
    rw [dir, SortedMap.get?_insert]
    split
    · rw [dir, hd]
      rfl
    · rfl

theorem walFile?_setWalFile : (d.setWalFile generation fileNo f).walFile? generation' fileNo' =
    if generation' = generation ∧ fileNo' = fileNo then some f else d.walFile? generation' fileNo' := by
  rw [walFile?, dir_setWalFile]
  by_cases hg : generation' = generation
  · subst hg
    rw [if_pos rfl, SortedMap.get?_insert]
    by_cases hn : fileNo' = fileNo
    · rw [if_pos hn, if_pos ⟨rfl, hn⟩]
    · rw [if_neg hn, if_neg (fun h => hn h.2)]
      rfl
  · rw [if_neg hg, if_neg (fun h => hg h.1)]
    rfl

theorem walFile?_eraseWalFile : (d.eraseWalFile generation fileNo).walFile? generation' fileNo' =
    if generation' = generation ∧ fileNo' = fileNo then none else d.walFile? generation' fileNo' := by
  rw [walFile?, dir_eraseWalFile]
  by_cases hg : generation' = generation
  · subst hg
    rw [if_pos rfl, SortedMap.get?_erase]
    by_cases hn : fileNo' = fileNo
    · rw [if_pos hn, if_pos ⟨rfl, hn⟩]
    · rw [if_neg hn, if_neg (fun h => hn h.2)]
      rfl
  · rw [if_neg hg, if_neg (fun h => hg h.1)]
    rfl

variable {d} in
theorem setDir_self {files : WalDir} (h : d.wal.get? generation = some files) :
    d.setDir generation files = d := by
  rw [setDir, SortedMap.insert_eq_self h]

variable {d} in
theorem setWalFile_self (h : d.walFile? generation fileNo = some f) :
    d.setWalFile generation fileNo f = d := by
  have hdir : (d.dir generation).insert fileNo f = d.dir generation := SortedMap.insert_eq_self h
  cases hd : d.wal.get? generation with
  | none =>
    rw [walFile?, dir, hd] at h
    exact absurd h (by simp [SortedMap.get?_empty])
  | some files =>
    rw [setWalFile, hdir, dir, hd, Option.getD_some, setDir_self hd]

theorem setWalFile_setWalFile (f' : WalFile) :
    (d.setWalFile generation fileNo f).setWalFile generation fileNo f' =
      d.setWalFile generation fileNo f' := by
  have hdir : (d.setWalFile generation fileNo f).dir generation =
      (d.dir generation).insert fileNo f := by
    rw [dir_setWalFile, if_pos rfl]
  rw [setWalFile, hdir, SortedMap.insert_insert, setWalFile, setDir_setDir]
  rfl

variable {d} in
theorem storeBytes_eq (h : d.walFile? generation fileNo = some f) :
    d.storeBytes generation fileNo offset data =
      d.setWalFile generation fileNo ⟨f.size, writeBytes f.bytes offset data⟩ := by
  rw [storeBytes, h]

theorem storeBytes_nil : d.storeBytes generation fileNo offset [] = d := by
  cases hf : d.walFile? generation fileNo with
  | none => rw [storeBytes, hf]
  | some f =>
    rw [storeBytes_eq hf, writeBytes_nil]
    exact setWalFile_self hf

theorem storeBytes_setWalFile :
    (d.setWalFile generation fileNo f).storeBytes generation fileNo offset data =
      d.setWalFile generation fileNo ⟨f.size, writeBytes f.bytes offset data⟩ := by
  have hf : (d.setWalFile generation fileNo f).walFile? generation fileNo = some f := by
    rw [walFile?_setWalFile, if_pos ⟨rfl, rfl⟩]
  rw [storeBytes_eq hf, setWalFile_setWalFile]

theorem walFile?_storeBytes : (d.storeBytes generation fileNo offset data).walFile? generation'
    fileNo' = if generation' = generation ∧ fileNo' = fileNo
      then (d.walFile? generation fileNo).map fun f => ⟨f.size, writeBytes f.bytes offset data⟩
      else d.walFile? generation' fileNo' := by
  cases hf : d.walFile? generation fileNo with
  | none =>
    have hsame : d.storeBytes generation fileNo offset data = d := by rw [storeBytes, hf]
    rw [hsame]
    by_cases h : generation' = generation ∧ fileNo' = fileNo
    · rw [if_pos h, h.1, h.2, hf]
      rfl
    · rw [if_neg h]
  | some f =>
    rw [storeBytes_eq hf, walFile?_setWalFile]
    rfl

end Dir

end Disk

/-! ### The environment -/

/-- The part of the code that makes a call.  A store into a mapping is one into the header of the
segment, or into its records. -/
inductive Site where
  | openStore
  | replay
  | append
  | checkpoint
  | reset
  | cleanup
  | close
  | header
  | mapping
  deriving DecidableEq, Repr

/-- What becomes of a call.  A failed or killed `write` has written some bytes, and so has a store into
a mapping that is killed. -/
inductive Decision where
  | succeeds
  | fails (written : ℕ)
  | killed (written : ℕ)
  deriving DecidableEq, Repr

/-- The decisions, by site and by the number of calls made before. -/
abbrev Env := Site → ℕ → Decision

/-- Every call succeeds. -/
def Env.reliable : Env := fun _ _ => .succeeds

/-- The process is not killed. -/
def Env.Survives (env : Env) : Prop := ∀ site t n, env site t ≠ .killed n

theorem Env.reliable_survives : Env.reliable.Survives := fun _ _ _ h => absurd h (by simp [reliable])

/-! ### The process -/

/-- `WalSegment`, without its path, descriptor and mapping, which its file stands for. -/
structure WalSegment where
  fileNo : ℕ
  size : ℕ
  used : ℕ
  isSealed : Bool
  dataDirty : Bool
  metadataDirty : Bool
  deriving DecidableEq, Repr

/-- `OwnedRecord`. -/
structure OwnedRecord where
  key : ByteView
  value : ByteView
  live : Bool
  deriving DecidableEq, Repr

/-- `OwnedRecord{}`. -/
def OwnedRecord.dummy : OwnedRecord := ⟨[], [], false⟩

/-- `SegmentedRecordStore`. -/
structure SegmentedRecordStore where
  walSize : ℕ
  generation : ℕ
  activeFileNo : ℕ
  nextFileNo : ℕ
  snapshotRecords : List OwnedRecord
  segments : SortedMap ℕ WalSegment

/-- `SegmentedRecordStore()`. -/
def SegmentedRecordStore.new : SegmentedRecordStore where
  walSize := 0
  generation := kFirstWalGeneration
  activeFileNo := 0
  nextFileNo := 0
  snapshotRecords := []
  segments := .empty

/-- The disk, and the process: `Store::Impl` with its record store and its index.  `isOpen` also
stands for `records_` and `index_` being there, which are set and reset together with it. -/
structure World where
  disk : Disk
  clock : ℕ
  records : SegmentedRecordStore
  index : Index
  isOpen : Bool
  fatal : Option Status
  verifyIndexOnRead : Bool
  syncOnClose : Bool

/-- A new process on a disk. -/
def World.boot (disk : Disk) : World where
  disk := disk
  clock := 0
  records := .new
  index := ⟨.new, Minpatricia.HeapNodeStore.root, 0⟩
  isOpen := false
  fatal := none
  verifyIndexOnRead := false
  syncOnClose := true

/-- A program of the store. -/
abbrev StoreM (α : Type) := Prog Status World α

namespace World

/-- The next moment. -/
def tick (w : World) : World := { w with clock := w.clock + 1 }

/-- The world with another disk, at another moment. -/
def onDisk (w : World) (disk : Disk) (clock : ℕ) : World := { w with disk := disk, clock := clock }

@[simp] theorem onDisk_disk (w : World) (d : Disk) (t : ℕ) : (w.onDisk d t).disk = d := rfl

@[simp] theorem onDisk_clock (w : World) (d : Disk) (t : ℕ) : (w.onDisk d t).clock = t := rfl

@[simp] theorem onDisk_records (w : World) (d : Disk) (t : ℕ) :
    (w.onDisk d t).records = w.records := rfl

@[simp] theorem onDisk_index (w : World) (d : Disk) (t : ℕ) : (w.onDisk d t).index = w.index := rfl

@[simp] theorem onDisk_onDisk (w : World) (d d' : Disk) (t t' : ℕ) :
    (w.onDisk d t).onDisk d' t' = w.onDisk d' t' := rfl

/-- The mapping of a segment of the current generation. -/
def mapping (w : World) (fileNo : ℕ) : Mapping := w.disk.mapping w.records.generation fileNo

/-- Change a segment. -/
def setSegment (w : World) (seg : WalSegment) : World :=
  { w with records := { w.records with segments := w.records.segments.insert seg.fileNo seg } }

end World

/-! ### Calls -/

section Calls

variable (env : Env)

/-- A file-system call without data: on success the disk changes by `effect`. -/
def syscall (site : Site) (op : String) (effect : Disk → Disk) : StoreM Unit := fun w =>
  match env site w.clock with
  | .succeeds => .ok () { w.tick with disk := effect w.disk }
  | .fails _ => .error (.status (ioError op)) w.tick
  | .killed _ => .error .killed w

/-- A call that changes no file. -/
def check (site : Site) (op : String) : StoreM Unit := syscall env site op id

/-- `write`: all of the data, or a part of it and an error. -/
def writeFile (site : Site) (data : List UInt8) (append : List UInt8 → Disk → Disk) :
    StoreM Unit := fun w =>
  match env site w.clock with
  | .succeeds => .ok () { w.tick with disk := append data w.disk }
  | .fails n => .error (.status (ioError "write")) { w.tick with disk := append (data.take n) w.disk }
  | .killed n => .error .killed { w with disk := append (data.take n) w.disk }

/-- The site of a store into a mapping. -/
def storeSite (offset : ℕ) : Site := if offset < kWalHeaderSize then .header else .mapping

/-- One store into the mapping of a segment of a generation, byte by byte. -/
def storeBytes (generation fileNo offset : ℕ) (data : List UInt8) : StoreM Unit := fun w =>
  match env (storeSite offset) w.clock with
  | .killed n => .error .killed
      { w with disk := w.disk.storeBytes generation fileNo offset (data.take n) }
  | _ => .ok () { w.tick with disk := w.disk.storeBytes generation fileNo offset data }

/-- The calls of a site all succeed. -/
def Env.ReliableAt (site : Site) : Prop := ∀ t, env site t = .succeeds

/-- The process is not killed inside a store to a mapping, which cannot fail. -/
def Env.Stores : Prop := ∀ offset t n, env (storeSite offset) t ≠ .killed n

/-- The process is not killed at a store into a header. -/
def Env.SparesHeaders : Prop := ∀ t n, env .header t ≠ .killed n

/-- The process is not killed between the bytes of one field of a header. -/
def Env.WholeFields : Prop := ∀ t n, env .header t = .killed n → n = 0

theorem Env.Survives.stores {env : Env} (h : env.Survives) : env.Stores :=
  fun offset => h (storeSite offset)

theorem Env.Stores.sparesHeaders {env : Env} (h : env.Stores) : env.SparesHeaders := h 0

theorem Env.SparesHeaders.wholeFields {env : Env} (h : env.SparesHeaders) : env.WholeFields :=
  fun t n hkilled => absurd hkilled (h t n)

theorem storeSite_header {offset : ℕ} (h : offset < kWalHeaderSize) : storeSite offset = .header :=
  if_pos h

variable {env}

theorem syscall_ok {site : Site} (h : env.ReliableAt site) (op : String) (effect : Disk → Disk)
    (w : World) : syscall env site op effect w =
      .ok () (w.onDisk (effect w.disk) (w.clock + 1)) := by
  rw [syscall, h]
  rfl

theorem check_ok {site : Site} (h : env.ReliableAt site) (op : String) (w : World) :
    check env site op w = .ok () (w.onDisk w.disk (w.clock + 1)) := syscall_ok h op id w

/-- A kill inside a store to a mapping, and every other decision. -/
theorem storeBytes_killed {offset n : ℕ} {w : World} (h : env (storeSite offset) w.clock = .killed n)
    (generation fileNo : ℕ) (data : List UInt8) :
    storeBytes env generation fileNo offset data w = .error .killed
      (w.onDisk (w.disk.storeBytes generation fileNo offset (data.take n)) w.clock) := by
  rw [storeBytes, h]
  rfl

theorem storeBytes_stored {offset : ℕ} {w : World}
    (h : ∀ n, env (storeSite offset) w.clock ≠ .killed n) (generation fileNo : ℕ)
    (data : List UInt8) :
    storeBytes env generation fileNo offset data w =
      .ok () (w.onDisk (w.disk.storeBytes generation fileNo offset data) (w.clock + 1)) := by
  rw [storeBytes]
  cases hd : env (storeSite offset) w.clock with
  | killed n => exact absurd hd (h n)
  | succeeds => rfl
  | fails n => rfl

theorem storeBytes_ok (h : env.Stores) (generation fileNo offset : ℕ) (data : List UInt8)
    (w : World) : storeBytes env generation fileNo offset data w =
      .ok () (w.onDisk (w.disk.storeBytes generation fileNo offset data) (w.clock + 1)) :=
  storeBytes_stored (h _ _) generation fileNo data

variable (env)

/-- A surviving call has its effect or leaves the disk alone. -/
theorem ignore_syscall_survives (h : env.Survives) (site : Site) (op : String)
    (effect : Disk → Disk) (w : World) : ∃ d, (d = effect w.disk ∨ d = w.disk) ∧
      Prog.ignore (syscall env site op effect) w = .ok () (w.onDisk d (w.clock + 1)) := by
  cases hd : env site w.clock with
  | succeeds =>
    refine ⟨effect w.disk, Or.inl rfl, ?_⟩
    have hrun : syscall env site op effect w = .ok () { w.tick with disk := effect w.disk } := by
      rw [syscall, hd]
    rw [Prog.ignore, Prog.bind_ok (Prog.attempt_ok hrun)]
    rfl
  | fails n =>
    refine ⟨w.disk, Or.inr rfl, ?_⟩
    have hrun : syscall env site op effect w = .error (.status (ioError op)) w.tick := by
      rw [syscall, hd]
    rw [Prog.ignore, Prog.bind_ok (Prog.attempt_status hrun)]
    rfl
  | killed n => exact absurd hd (h _ _ n)

end Calls

end MinweightStore.Store
