import MinweightStore.Store.WalSegment

/-!
# The segmented record store

`SegmentedRecordStore` of `store.cc`: the WAL segments of one generation and the records of its
snapshot, which together are the record store of the index.

* `openRecords`, `closeRecords`, `resetToSnapshot` — the segments of a generation as a whole;
* `appendRecord`, `deleteRecord` — one attempt on the active segment, a rollover, one retry;
* `World.key`, `World.valueView` — the record store as the index and the reads see it;
* `replayAll` — recovery of the index from the segments.
-/

namespace MinweightStore.Store

open Minpatricia (ByteView Position IndexM)

/-! ### Reading records -/

/-- `IsSnapshotPosition`. -/
def isSnapshotPosition (pos : Position) : Bool := 0 < pos.toNat && pos.toNat < kRecordOffsetLimit

namespace SegmentedRecordStore

/-- `SnapshotRecord`. -/
def snapshotRecord (s : SegmentedRecordStore) (pos : Position) : Option OwnedRecord :=
  if pos.toNat = 0 ∨ pos.toNat ≥ s.snapshotRecords.length then none
  else s.snapshotRecords[pos.toNat]?.filter OwnedRecord.live

end SegmentedRecordStore

namespace World

/-- `Key`: the record store of the index. -/
def key (w : World) (pos : Position) : Minpatricia.Result ByteView :=
  if isSnapshotPosition pos then
    match w.records.snapshotRecord pos with
    | none => Minpatricia.err .missingKey
    | some record => .ok record.key
  else match w.records.segments.get? (recordPositionFileNo pos) with
    | none => Minpatricia.err .missingKey
    | some seg => match seg.recordAt (w.mapping seg.fileNo) pos false with
      | .ok record => if record.op ≠ kWalOpPut then Minpatricia.err .missingKey else .ok record.key
      | .error _ => Minpatricia.err .missingKey

/-- `ValueView`, and `OwnedValue`, which copies it. -/
def valueView (w : World) (pos : Position) : Result ByteView :=
  if isSnapshotPosition pos then
    match w.records.snapshotRecord pos with
    | none => err ⟨.corruptIndex, "snapshot record not found"⟩
    | some record => .ok record.value
  else match w.records.segments.get? (recordPositionFileNo pos) with
    | none => err ⟨.corruptIndex, "record segment not found"⟩
    | some seg => do
      let record ← seg.recordAt (w.mapping seg.fileNo) pos false
      if record.op ≠ kWalOpPut then err ⟨.corruptIndex, "index points to a non-put record"⟩
      else .ok record.value

end World

/-- A call on the index, with the record store as it is at the moment. -/
def onIndex {α : Type} (m : (Position → Minpatricia.Result ByteView) → IndexM α) :
    StoreM (Except Minpatricia.StatusCode α) := fun w =>
  match m w.key w.index with
  | .ok a ix => .ok (.ok a) { w with index := ix }
  | .error (.status code) ix => .ok (.error code) { w with index := ix }
  | .error .undefined ix => .error .undefined { w with index := ix }
  | .error .diverges ix => .error .diverges { w with index := ix }
  | .error .killed ix => .error .killed { w with index := ix }

/-- The status of a call on the index. -/
def fromIndex {α : Type} : Except Minpatricia.StatusCode α → StoreM α
  | .ok a => pure a
  | .error code => Prog.fail (fromMinpatriciaStatus code)

section Calls

variable (env : Env)

/-! ### Directories -/

/-- `CreateDirs` of a generation: its directory, if it is missing. -/
def createWalDir (site : Site) (generation : ℕ) : StoreM Unit :=
  syscall env site "mkdir" fun d =>
    if (d.wal.get? generation).isSome then d
    else { d with wal := d.wal.insert generation .empty }

/-- `ListWalSegmentIDs`: the file numbers in ascending order. -/
def listWalSegmentIDs (site : Site) (generation : ℕ) : StoreM (List ℕ) := do
  check env site "opendir"
  check env site "readdir"
  check env site "closedir"
  let w ← get
  pure (((w.disk.dir generation).entries.map Prod.fst).filter (0 < ·))

/-! ### Opening and closing -/

/-- Open one segment of a record store and enter it. -/
def openSegment (site : Site) (fileNo : ℕ) (isSealed : Bool) : StoreM Unit := do
  let w ← get
  let seg ← WalSegment.open' env site w.records.generation w.records.walSize fileNo
  modify fun w => w.setSegment { seg with isSealed := isSealed }

/-- The loop of `Open` over the file numbers. -/
def openSegments (active : ℕ) : List ℕ → StoreM Unit
  | [] => pure ()
  | id :: ids => do
    openSegment env .openStore id (id ≠ active)
    openSegments active ids

/-- The file numbers a record store opens. -/
def initialIDs (ids : List ℕ) : List ℕ := if ids.isEmpty then [kFirstWalSegmentNo] else ids

/-- `SegmentedRecordStore::Open`. -/
def openRecords (walSize generation : ℕ) : StoreM Unit :=
  if walSize < kWalHeaderSize + kWalRecordHeaderSize ∨ walSize > kRecordOffsetLimit then
    Prog.fail ⟨.invalidArgument, "invalid WAL segment size"⟩
  else if generation = 0 then Prog.fail (corruptManifest "invalid WAL generation")
  else do
    createWalDir env .openStore generation
    let listed ← listWalSegmentIDs env .openStore generation
    let ids := initialIDs listed
    let active := ids.getLastD 0
    modify fun w => { w with records := ⟨walSize, generation, active, active + 1, [.dummy], .empty⟩ }
    openSegments env active ids

/-- `Close`.  The order of `segments_` is not specified; here it is by file number. -/
def closeRecords (site : Site) (sync : Bool) : StoreM Unit := do
  let w ← get
  let status ← Prog.attempt
    (Prog.allOf (w.records.segments.entries.map fun e => e.2.close env site sync))
  modify fun w => { w with records := { w.records with segments := .empty } }
  match status with
  | .ok _ => pure ()
  | .error e => Prog.fail e

/-- `ResetToSnapshot`. -/
def resetToSnapshot (generation : ℕ) : StoreM Unit :=
  if generation = 0 then Prog.fail (corruptManifest "invalid WAL generation")
  else do
    closeRecords env .reset false
    createWalDir env .reset generation
    modify fun w => { w with records := { w.records with
      snapshotRecords := [.dummy]
      generation := generation
      activeFileNo := kFirstWalSegmentNo
      nextFileNo := kFirstWalSegmentNo + 1 } }
    openSegment env .reset kFirstWalSegmentNo false

/-! ### Writing -/

/-- Change the sealed flag of a segment. -/
def setSealed (fileNo : ℕ) (isSealed : Bool) : StoreM Unit := do
  let seg ← WalSegment.deref fileNo
  modify fun w => w.setSegment { seg with isSealed := isSealed }

/-- `Rollover`. -/
def rollover : StoreM Unit := do
  let w ← get
  let old := w.records.activeFileNo
  let id := w.records.nextFileNo
  if (w.records.segments.get? old).isNone then Prog.fail ⟨.closed, "WAL is closed"⟩
  else do
    setSealed old true
    modify fun w => { w with records := { w.records with nextFileNo := id + 1 } }
    match ← Prog.attempt (openSegment env .append id false) with
    | .error status => do
      setSealed old false
      modify fun w => { w with records := { w.records with nextFileNo := id } }
      Prog.fail status
    | .ok _ => modify fun w => { w with records := { w.records with activeFileNo := id } }

/-- `Active()->Append`. -/
def appendActive (op : UInt8) (key value : ByteView) : StoreM Position := do
  let w ← get
  WalSegment.append env w.records.activeFileNo op key value

/-- The common body of `Append` and `DeleteRecord`: a full segment is rolled over once. -/
def appendOrRollover (op : UInt8) (key value : ByteView) : StoreM Position := do
  match ← Prog.attempt (appendActive env op key value) with
  | .ok pos => pure pos
  | .error status =>
    if status.code ≠ .walFull then Prog.fail status
    else do
      rollover env
      appendActive env op key value

/-- `SegmentedRecordStore::Append`. -/
def appendRecord (key value : ByteView) : StoreM Position := appendOrRollover env kWalOpPut key value

/-- `SegmentedRecordStore::DeleteRecord`. -/
def deleteRecord (key : ByteView) : StoreM Position := appendOrRollover env kWalOpDelete key []

/-- `AddSnapshotRecord`. -/
def addSnapshotRecord (key value : ByteView) : StoreM Position := do
  let w ← get
  let records := w.records.snapshotRecords
  if records.length ≥ kRecordOffsetLimit then Prog.fail (corruptSnapshot "too many snapshot records")
  else do
    modify fun w => { w with records := { w.records with
      snapshotRecords := records ++ [⟨key, value, true⟩] } }
    pure (UInt64.ofNat records.length)

/-! ### Replay -/

/-- The callback of `ReplayAll`. -/
def applyRecord (record : WalRecord) (pos : Position) : StoreM Unit :=
  if record.op = kWalOpPut then do
    let result ← onIndex fun records => Minpatricia.put records record.key pos
    let _ ← fromIndex result
  else if record.op = kWalOpDelete then do
    let result ← onIndex fun records => Minpatricia.delete records record.key
    let _ ← fromIndex result
  else Prog.fail (corruptWal "unsupported WAL op")

/-- Drop a segment behind the first invalid record.  The status of `unlink` is ignored. -/
def dropSegment (fileNo : ℕ) : StoreM Unit := do
  let w ← get
  Prog.ignore (syscall env .replay "unlink" fun d => d.eraseWalFile w.records.generation fileNo)
  modify fun w => { w with records := { w.records with
    segments := w.records.segments.erase fileNo } }

/-- The loop of `ReplayAll`: whether segments were dropped, and the last one kept. -/
def replaySegments (policy : WALReplayPolicy) : List ℕ → Bool → ℕ → StoreM (Bool × ℕ)
  | [], drop, lastKept => pure (drop, lastKept)
  | id :: ids, true, lastKept => do
    dropSegment env id
    replaySegments policy ids true lastKept
  | id :: ids, false, _ => do
    let truncated ← WalSegment.replay env policy id applyRecord
    replaySegments policy ids truncated id

/-- Make a segment the active one. -/
def SegmentedRecordStore.activate (s : SegmentedRecordStore) (fileNo : ℕ) : SegmentedRecordStore :=
  { s with
    activeFileNo := fileNo
    nextFileNo := fileNo + 1
    segments := s.segments.mapValues fun id seg => { seg with isSealed := id ≠ fileNo } }

/-- The file numbers of the segments, sorted. -/
def World.segmentIDs (w : World) : List ℕ := w.records.segments.entries.map Prod.fst

/-- `ReplayAll`. -/
def replayAll (policy : WALReplayPolicy) : StoreM Unit := do
  let w ← get
  let (drop, lastKept) ← replaySegments env policy w.segmentIDs false w.records.activeFileNo
  if drop then modify fun w => { w with records := w.records.activate lastKept }

end Calls

end MinweightStore.Store
