import MinweightStore.Store.World

/-!
# A WAL segment

`WalSegment` of `store.cc`: opening its file, appending a record by single stores into the mapping,
replaying its records under a policy, and closing it.

* `WalSegment.open'` — a fresh file gets a header, any other must have one;
* `WalSegment.append` — the seven stores of a record, the used offset last;
* `WalSegment.replay` — the records in order, up to the used offset or the first invalid one.
-/

namespace MinweightStore.Store

open Minpatricia (ByteView Position)

/-- `WALReplayPolicy`. -/
inductive WALReplayPolicy where
  | pointInTime
  | strict
  deriving DecidableEq, Repr

/-- `IsZeroBytes`. -/
def isZeroBytes (m : Mapping) (size : ℕ) : Bool := (List.range size).all fun i => m i == 0

namespace WalSegment

/-- `LoadHeader`: the used offset. -/
def loadHeader (m : Mapping) (size : ℕ) : Result ℕ :=
  if readBytes m 0 kWalHeaderMagic.length ≠ kWalHeaderMagic then
    err (corruptWal "invalid WAL magic")
  else if load32 (readBytes m kWalHeaderVersionOffset 4) ≠ kWalVersion then
    err (corruptWal "unsupported WAL version")
  else
    let used := (load64 (readBytes m kWalHeaderUsedOffset 8)).toNat
    if used < kWalHeaderSize ∨ used > size then err (corruptWal "invalid WAL used offset")
    else .ok used

/-- The checks of `Append`: the offset of the new record. -/
def room (seg : WalSegment) (key value : ByteView) : Result ℕ :=
  if seg.isSealed then err ⟨.walFull, "WAL segment is sealed"⟩
  else if key.length > 2 ^ 32 - 1 ∨ value.length > 2 ^ 32 - 1 then
    err ⟨.walFull, "WAL record is too large"⟩
  else if recordSize key value > seg.size - seg.used ∨
      seg.used + recordSize key value > kRecordOffsetLimit then
    err ⟨.walFull, "WAL segment is full"⟩
  else .ok seg.used

/-- `RecordAt`. -/
def recordAt (seg : WalSegment) (m : Mapping) (pos : Position) (verifyCRC : Bool) :
    Result WalRecord :=
  if recordPositionFileNo pos ≠ seg.fileNo then
    err (corruptWal "record position points at a different WAL segment")
  else recordAtOffset m seg.used (recordPositionOffset pos) verifyCRC

section Calls

variable (env : Env)

/-! ### Opening -/

/-- `InitHeader`: three stores into the mapping. -/
def initHeader (generation fileNo : ℕ) : StoreM Unit := do
  storeBytes env generation fileNo 0 kWalHeaderMagic
  storeBytes env generation fileNo kWalHeaderVersionOffset (store32 kWalVersion)
  storeBytes env generation fileNo kWalHeaderUsedOffset (store64 (UInt64.ofNat kWalHeaderSize))

/-- `open(O_RDWR | O_CREAT)`. -/
def createFile (site : Site) (generation fileNo : ℕ) : StoreM Unit := do
  let w ← get
  match w.disk.wal.get? generation with
  | none => Prog.fail (ioError "open")
  | some _ => syscall env site "open" fun d =>
    if (d.walFile? generation fileNo).isSome then d else d.setWalFile generation fileNo .empty

/-- `fstat`, and `ftruncate` of an empty file: whether the file was empty. -/
def sizeFile (site : Site) (generation fileNo size : ℕ) : StoreM Bool := do
  check env site "fstat"
  let w ← get
  let file := (w.disk.walFile? generation fileNo).getD .empty
  if file.size = 0 then do
    syscall env site "ftruncate" fun d => d.setWalFile generation fileNo (file.resize size)
    pure true
  else if file.size ≠ size then Prog.fail (corruptWal "WAL segment size mismatch")
  else pure false

/-- The header of a mapped file: initialised when the file is fresh, else loaded. -/
def mapHeader (generation fileNo size : ℕ) (metadataDirty : Bool) : StoreM WalSegment := do
  let w ← get
  let m := w.disk.mapping generation fileNo
  if isZeroBytes m kWalHeaderSize then do
    initHeader env generation fileNo
    pure ⟨fileNo, size, kWalHeaderSize, false, true, metadataDirty⟩
  else do
    let used ← Prog.ofOutcome (loadHeader m size)
    pure ⟨fileNo, size, used, false, false, metadataDirty⟩

/-- `WalSegment::Open`.  Descriptors are not modelled: closing one on an error path changes
nothing. -/
def open' (site : Site) (generation size fileNo : ℕ) : StoreM WalSegment :=
  if size < kWalHeaderSize + kWalRecordHeaderSize ∨ size > kRecordOffsetLimit then
    Prog.fail ⟨.walFull, "invalid WAL segment size"⟩
  else match makeRecordPosition fileNo kWalHeaderSize with
    | .error _ => Prog.fail (corruptWal "invalid WAL file number")
    | .ok _ => do
      createFile env site generation fileNo
      let metadataDirty ← sizeFile env site generation fileNo size
      check env site "mmap"
      mapHeader env generation fileNo size metadataDirty

/-! ### Open segments -/

/-- A use of a segment pointer. -/
def deref (fileNo : ℕ) : StoreM WalSegment := fun w =>
  match w.records.segments.get? fileNo with
  | none => .error .undefined w
  | some seg => .ok seg w

/-- One store into the mapping of an open segment. -/
def store (fileNo offset : ℕ) (data : List UInt8) : StoreM Unit := fun w =>
  storeBytes env w.records.generation fileNo offset data w

/-- `used_ = used; WriteUsed()`. -/
def writeUsed (fileNo used : ℕ) : StoreM Unit := do
  let seg ← deref fileNo
  modify fun w => w.setSegment { seg with used := used, dataDirty := true }
  store env fileNo kWalHeaderUsedOffset (store64 (UInt64.ofNat used))

/-- The stores of a record at an offset. -/
def writeRecord (fileNo start : ℕ) (op : UInt8) (key value : ByteView) : StoreM Unit := do
  store env fileNo (start + kWalRecordOpOffset) [op]
  store env fileNo (start + kWalRecordKeyOffset) (store32 (UInt32.ofNat key.length))
  store env fileNo (start + kWalRecordValueOffset) (store32 (UInt32.ofNat value.length))
  store env fileNo (start + kWalRecordHeaderSize) key
  store env fileNo (start + kWalRecordHeaderSize + key.length) value
  let w ← get
  store env fileNo (start + kWalRecordCRCOffset)
    (store32 (walRecordCRC (readBytes (w.mapping fileNo) start (recordSize key value))))

/-- `Append`. -/
def append (fileNo : ℕ) (op : UInt8) (key value : ByteView) : StoreM Position := do
  let seg ← deref fileNo
  let start ← Prog.ofOutcome (seg.room key value)
  writeRecord env fileNo start op key value
  writeUsed env fileNo (start + recordSize key value)
  Prog.ofOutcome (makeRecordPosition fileNo start)

/-- The end of a replay that stopped before the used offset: whether the segment was truncated. -/
def stopReplay (policy : WALReplayPolicy) (fileNo lastGood : ℕ) (status : Status) : StoreM Bool :=
  match policy with
  | .strict => Prog.fail status
  | .pointInTime => do
    writeUsed env fileNo lastGood
    pure true

/-- The loop of `Replay`.  `last_good` is `offset` whenever the loop condition is tested. -/
def replayLoop (policy : WALReplayPolicy) (fileNo : ℕ) (fn : WalRecord → Position → StoreM Unit) :
    ℕ → ℕ → StoreM Bool
  | 0, _ => throw .diverges
  | fuel + 1, offset => do
    let seg ← deref fileNo
    let w ← get
    if offset < seg.used then
      match recordAtOffset (w.mapping fileNo) seg.used offset true with
      | .ok record => do
        let pos ← Prog.ofOutcome (makeRecordPosition fileNo offset)
        fn record pos
        replayLoop policy fileNo fn fuel record.endOffset
      | .error (.status status) => stopReplay env policy fileNo offset status
      | .error fault => throw fault
    else if offset ≠ seg.used then
      stopReplay env policy fileNo offset (corruptWal "WAL replay ended off the used offset")
    else pure false

/-- `Replay`: whether the segment was truncated.  Every turn of the loop passes a record. -/
def replay (policy : WALReplayPolicy) (fileNo : ℕ) (fn : WalRecord → Position → StoreM Unit) :
    StoreM Bool := do
  let seg ← deref fileNo
  replayLoop env policy fileNo fn (seg.used + 1) kWalHeaderSize

/-- `Sync`. -/
def sync (site : Site) (seg : WalSegment) : StoreM Unit := do
  if seg.dataDirty then check env site "msync"
  if seg.metadataDirty then check env site "fsync"

/-- `Close`.  The caller drops the segment afterwards, with its dirty flags. -/
def close (site : Site) (sync' : Bool) (seg : WalSegment) : StoreM Unit :=
  Prog.both (if sync' then sync env site seg else pure ())
    (Prog.both (check env site "munmap") (check env site "close"))

end Calls

end WalSegment

end MinweightStore.Store
