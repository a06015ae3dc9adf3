import MinweightStore.Minpatricia.Iter
import MinweightStore.Store.Checkpoint

/-!
# The store

`Store::Impl` of `store.cc`: opening a directory, the public calls, and the checkpoint that moves
the store to the next generation.

* `openStore` — manifest, segments, snapshot, replay, cleanup;
* `put`, `get`, `delete`, `len`, the scans and the seeks;
* `checkpointLocked` — snapshot, directory, manifest, reset, rebuilt index, cleanup;
* `close` — a last checkpoint with `sync_on_close`, then the segments.
-/

namespace MinweightStore.Store

open Minpatricia (ByteView Position Index kMaxKeySize)

/-- `Options`, without the runtime. -/
structure Options where
  walSize : ℕ
  walReplayPolicy : WALReplayPolicy
  verifyIndexOnRead : Bool
  syncOnClose : Bool
  deriving DecidableEq, Repr

/-- `GetResult`. -/
structure GetResult where
  value : ByteView
  found : Bool
  deriving DecidableEq, Repr

/-- `SeekResult`. -/
structure SeekResult where
  item : Item
  found : Bool
  deriving DecidableEq, Repr

/-- `VisitFunc`, with a state of its own. -/
abbrev VisitFunc (σ : Type) := Item → σ → Bool × σ

/-- An outcome of the index as one of the store: `FromMinpatriciaStatus` on its status. -/
def fromMinpatricia {α : Type} : Minpatricia.Result α → Result α
  | .ok a => .ok a
  | .error (.status code) => err (fromMinpatriciaStatus code)
  | .error .undefined => .error .undefined
  | .error .diverges => .error .diverges
  | .error .killed => .error .killed

/-! ### Checks -/

/-- `CheckOpen`. -/
def checkOpen : StoreM Unit := do
  let w ← get
  if w.isOpen = false then Prog.fail ⟨.closed, "store is closed"⟩
  else match w.fatal with
    | some status => Prog.fail status
    | none => pure ()

/-- `MarkFatal`. -/
def markFatal {α : Type} (cause : Status) : StoreM α := do
  let w ← get
  match w.fatal with
  | some status => Prog.fail status
  | none =>
    if cause.code = .closed then Prog.fail cause
    else do
      let status : Status := ⟨.fatal,
        if cause.message.isEmpty then "store is fatal" else "store is fatal: " ++ cause.message⟩
      modify fun w => { w with fatal := some status }
      Prog.fail status

namespace World

/-- `VerifyReadPosition`. -/
def verifyReadPosition (w : World) (key : ByteView) (pos : Position) : Result Unit :=
  if w.verifyIndexOnRead = false then .ok ()
  else do
    let probe ← fromMinpatricia (w.index.probe key)
    if probe.found = false ∨ probe.pos ≠ pos then
      err ⟨.corruptIndex, "index verification failed"⟩
    else .ok ()

/-- `MakeItem`. -/
def makeItem (w : World) (key : ByteView) (pos : Position) : Result Item := do
  w.verifyReadPosition key pos
  let value ← w.valueView pos
  .ok ⟨key, value⟩

end World

/-! ### Scans -/

/-- The visitor of `VisitIndex`, over `visit_status` and the state of the visited function. -/
def itemVisitor {σ : Type} (w : World) (fn : VisitFunc σ) :
    Minpatricia.Visitor (Option (Fault Status) × σ) := fun key pos s =>
  match w.makeItem key pos with
  | .error fault => (false, (some fault, s.2))
  | .ok item => ((fn item s.2).1, (s.1, (fn item s.2).2))

/-- A walk over the index with a visitor of the index. -/
abbrev IndexVisit (σ : Type) :=
  Minpatricia.Visitor (Option (Fault Status) × σ) →
    Prog Minpatricia.StatusCode (Option (Fault Status) × σ) Unit

/-- `VisitIndex`: the status of the walk, and the state of the visited function. -/
def visitIndex {σ : Type} (w : World) (visit : IndexVisit σ) (fn : VisitFunc σ) (s : σ) :
    Result Unit × σ :=
  match visit (itemVisitor w fn) (none, s) with
  | .ok _ (none, s') => (.ok (), s')
  | .ok _ (some fault, s') => (.error fault, s')
  | .error _ (some fault, s') => (.error fault, s')
  | .error fault (none, s') => (fromMinpatricia (.error fault), s')

section Scans

variable {σ : Type}

/-- `Scan`. -/
def scan (fn : VisitFunc σ) (s : σ) : StoreM (Result Unit × σ) := do
  checkOpen
  let w ← get
  pure (visitIndex w (Minpatricia.ascend w.key w.index) fn s)

/-- `ScanRange`. -/
def scanRange (ge lt : ByteView) (fn : VisitFunc σ) (s : σ) : StoreM (Result Unit × σ) :=
  if Minpatricia.compareKeys ge lt > 0 then Prog.fail ⟨.invalidArgument, "invalid scan range"⟩
  else do
    checkOpen
    let w ← get
    pure (visitIndex w (Minpatricia.ascendRange w.key w.index ge lt) fn s)

/-- `ReverseScan`. -/
def reverseScan (fn : VisitFunc σ) (s : σ) : StoreM (Result Unit × σ) := do
  checkOpen
  let w ← get
  pure (visitIndex w (Minpatricia.descend w.key w.index) fn s)

/-- `ReverseScanRange`. -/
def reverseScanRange (le gt : ByteView) (fn : VisitFunc σ) (s : σ) : StoreM (Result Unit × σ) :=
  if Minpatricia.compareKeys gt le > 0 then
    Prog.fail ⟨.invalidArgument, "invalid reverse scan range"⟩
  else do
    checkOpen
    let w ← get
    pure (visitIndex w (Minpatricia.descendRange w.key w.index le gt) fn s)

end Scans

/-- What a seek does with the item it finds: it stops there. -/
def seekVisitor : VisitFunc SeekResult := fun item _ => (false, ⟨item, true⟩)

/-- The result of a seek. -/
def seekResult : Result Unit × SeekResult → StoreM SeekResult
  | (.ok _, result) => pure result
  | (.error fault, _) => throw fault

/-- `SeekGE`. -/
def seekGE (key : ByteView) : StoreM SeekResult := do
  checkOpen
  let w ← get
  seekResult (visitIndex w (Minpatricia.ascendGreaterOrEqual w.key w.index key) seekVisitor
    ⟨⟨[], []⟩, false⟩)

/-- `SeekLE`. -/
def seekLE (key : ByteView) : StoreM SeekResult := do
  checkOpen
  let w ← get
  seekResult (visitIndex w (Minpatricia.descendLessOrEqual w.key w.index key) seekVisitor
    ⟨⟨[], []⟩, false⟩)

/-! ### Point reads -/

/-- `Len`. -/
def len : StoreM UInt64 := do
  checkOpen
  let w ← get
  pure w.index.len.toInt64.toUInt64

/-- `Get`. -/
def get' (key : ByteView) : StoreM GetResult := do
  checkOpen
  let w ← get
  let pos ← Prog.ofOutcome (fromMinpatricia (w.index.get w.key key))
  if pos.found = false then pure ⟨[], false⟩
  else do
    Prog.ofOutcome (w.verifyReadPosition key pos.pos)
    let value ← Prog.ofOutcome (w.valueView pos.pos)
    pure ⟨value, true⟩

/-! ### Checkpoints -/

/-- `CollectLiveItemsLocked`. -/
def collectLiveItems (w : World) : Result (List Item) :=
  match visitIndex w (Minpatricia.ascend w.key w.index)
      (fun item entries => (true, entries ++ [item])) [] with
  | (.ok _, entries) => .ok entries
  | (.error fault, _) => .error fault

/-- `index->Put` on an index that is being built. -/
def putInto (index : Index) (key : ByteView) (pos : Position) : StoreM Index := fun w =>
  match Minpatricia.put w.key key pos index with
  | .ok _ index' => .ok index' w
  | .error fault _ => Prog.ofOutcome (fromMinpatricia (.error fault)) w

/-- `LoadSnapshotRecords`: the index with the records. -/
def loadSnapshotRecords : List Item → Index → StoreM Index
  | [], index => pure index
  | item :: entries, index => do
    let pos ← addSnapshotRecord item.key item.value
    let index' ← putInto index item.key pos
    loadSnapshotRecords entries index'

/-- `Index::NewWithNodes` on a new node store. -/
def newIndex : StoreM Index := fun w =>
  Prog.ofOutcome (fromMinpatricia (Minpatricia.newWithNodes w.key .new)) w

/-- `RebuildIndexFromSnapshotLocked`. -/
def rebuildIndex (entries : List Item) : StoreM Unit := do
  let index ← newIndex
  let index' ← loadSnapshotRecords entries index
  modify fun w => { w with index := index' }

/-- The generation after this one, in 64 bits. -/
def nextGeneration (generation : ℕ) : ℕ := (generation + 1) % 2 ^ 64

section Calls

variable (env : Env)

/-- The part of `CheckpointLocked` that publishes the next generation. -/
def publishCheckpoint (generation : ℕ) (entries : List Item) : StoreM Unit := do
  writeSnapshot env .checkpoint generation entries
  createWalDir env .checkpoint generation
  writeManifest env .checkpoint generation

/-- `CheckpointLocked`. -/
def checkpointLocked : StoreM Unit := do
  let w ← get
  let entries ← Prog.ofOutcome (collectLiveItems w)
  let generation := nextGeneration w.records.generation
  publishCheckpoint env generation entries
  resetToSnapshot env generation
  rebuildIndex entries
  removeOld env generation

/-- `CheckpointIfNeededLocked`. -/
def checkpointIfNeeded : StoreM Unit := do
  let w ← get
  if w.records.segments.size ≤ kCheckpointWalSegmentThreshold then pure ()
  else checkpointLocked env

/-! ### Writes -/

/-- `Put`. -/
def put (key value : ByteView) : StoreM Unit := do
  checkOpen
  if key.length > kMaxKeySize then Prog.fail ⟨.invalidArgument, "key too large"⟩
  else do
    let pos ← appendRecord env key value
    let result ← onIndex fun records => Minpatricia.put records key pos
    match result with
    | .error code => markFatal (fromMinpatriciaStatus code)
    | .ok _ => checkpointIfNeeded env

/-- The part of `Delete` behind the removal from the index: the tombstone, or the old position
again. -/
def writeTombstone (key : ByteView) (pos : Position) : StoreM Bool := do
  let tombstone ← Prog.attempt (deleteRecord env key)
  match tombstone with
  | .error status => do
    let restore ← onIndex fun records => Minpatricia.put records key pos
    match restore with
    | .error code => markFatal (fromMinpatriciaStatus code)
    | .ok _ => Prog.fail status
  | .ok _ => do
    checkpointIfNeeded env
    pure true

/-- `Delete`. -/
def delete (key : ByteView) : StoreM Bool := do
  checkOpen
  let w ← get
  let pos ← Prog.ofOutcome (fromMinpatricia (w.index.get w.key key))
  if pos.found = false then pure false
  else if key.length > kMaxKeySize then Prog.fail ⟨.invalidArgument, "key too large"⟩
  else do
    let result ← onIndex fun records => Minpatricia.delete records key
    match result with
    | .error code => markFatal (fromMinpatriciaStatus code)
    | .ok deleted =>
      if deleted.deleted = false ∨ deleted.pos ≠ pos.pos then
        markFatal ⟨.corruptIndex, "delete position mismatch"⟩
      else writeTombstone env key pos.pos

/-! ### Opening and closing -/

/-- The snapshot of a valid manifest, loaded into the index. -/
def loadSnapshot (manifest : ManifestState) (index : Index) : StoreM Index :=
  if manifest.valid = false then pure index
  else do
    let entries ← readSnapshot env .openStore manifest.walGeneration
    loadSnapshotRecords entries index

/-- `Store::Impl::Open`. -/
def openStore (options : Options) : StoreM Unit :=
  if options.walSize < kWalHeaderSize + kWalRecordHeaderSize ∨ options.walSize > kRecordOffsetLimit then
    Prog.fail ⟨.invalidArgument, "invalid WAL size"⟩
  else do
    check env .openStore "mkdir"
    let manifest ← readManifest env .openStore
    openRecords env options.walSize manifest.walGeneration
    let empty ← newIndex
    let index ← loadSnapshot env manifest empty
    modify fun w => { w with index := index }
    replayAll env options.walReplayPolicy
    if manifest.valid then removeOld env manifest.walGeneration
    modify fun w => { w with
      isOpen := true
      fatal := none
      verifyIndexOnRead := options.verifyIndexOnRead
      syncOnClose := options.syncOnClose }

/-- `Store::Impl::Close`. -/
def close : StoreM Unit := do
  let w ← get
  if w.isOpen = false then pure ()
  else do
    let checkpointStatus ← Prog.attempt (if w.syncOnClose then checkpointLocked env else pure ())
    modify fun w => { w with isOpen := false }
    let closeStatus ← Prog.attempt (closeRecords env .close w.syncOnClose)
    Prog.firstError checkpointStatus closeStatus

end Calls

end MinweightStore.Store
