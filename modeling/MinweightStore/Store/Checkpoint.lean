import MinweightStore.Store.Records

/-!
# Manifest, snapshots and cleanup

The files beside the WAL (`store.cc`): `MANIFEST`, which names the current generation, the snapshot
of a generation, and the removal of what belongs to other generations.

* `encodeManifest`, `decodeManifest`, `writeManifest`, `readManifest`;
* `encodeItem`, `writeSnapshot`, `readSnapshot` — a snapshot, written and read item by item;
* `removeOldWalGenerations`, `removeOldSnapshots` — every removal is tried, the first error returned.
-/

namespace MinweightStore.Store

open Minpatricia (ByteView Position kMaxKeySize)

/-- `Item`. -/
structure Item where
  key : ByteView
  value : ByteView
  deriving DecidableEq, Repr

/-- `ManifestState`. -/
structure ManifestState where
  valid : Bool
  walGeneration : ℕ
  deriving DecidableEq, Repr

/-- `ManifestState{}`. -/
def ManifestState.absent : ManifestState := ⟨false, kFirstWalGeneration⟩

/-! ### File contents -/

/-- The manifest before its CRC. -/
def manifestHead (generation : ℕ) : List UInt8 :=
  kManifestMagic ++ store32 kManifestVersion ++ List.replicate 4 0 ++
    store64 (UInt64.ofNat generation) ++ List.replicate 4 0

/-- The 32 bytes of a manifest. -/
def encodeManifest (generation : ℕ) : List UInt8 :=
  manifestHead generation ++ store32 (bytesCRC (manifestHead generation ++ store32 0))

/-- The checks of `ReadManifest` on the 32 bytes it has read. -/
def decodeManifest (data : List UInt8) : Result ManifestState :=
  if data.take 8 ≠ kManifestMagic then err (corruptManifest "invalid manifest magic")
  else if load32 (data.drop 8) ≠ kManifestVersion then
    err (corruptManifest "unsupported manifest version")
  else
    let walGeneration := (load64 (data.drop 16)).toNat
    if walGeneration = 0 then err (corruptManifest "invalid WAL generation")
    else if bytesCRC (data.take 28 ++ store32 0) ≠ load32 (data.drop 28) then
      err (corruptManifest "manifest CRC mismatch")
    else .ok ⟨true, walGeneration⟩

/-- The 32 bytes of a snapshot header. -/
def snapshotHeader (generation count : ℕ) : List UInt8 :=
  kSnapshotMagic ++ store32 kSnapshotVersion ++ List.replicate 4 0 ++
    store64 (UInt64.ofNat count) ++ store64 (UInt64.ofNat generation)

/-- The lengths of a snapshot item. -/
def itemLengths (item : Item) : List UInt8 :=
  store32 (UInt32.ofNat item.key.length) ++ store32 (UInt32.ofNat item.value.length)

/-- The CRC of a snapshot item with given lengths. -/
def itemCRC (lengths : List UInt8) (item : Item) : UInt32 :=
  crc32Update (crc32Update (crc32Update 0 lengths) item.key) item.value

/-- The 12 bytes in front of a snapshot item. -/
def itemHeader (item : Item) : List UInt8 :=
  itemLengths item ++ store32 (itemCRC (itemLengths item) item)

/-- The bytes of a snapshot item. -/
def encodeItem (item : Item) : List UInt8 := itemHeader item ++ item.key ++ item.value

/-- The bytes of a snapshot. -/
def encodeSnapshot (generation : ℕ) (entries : List Item) : List UInt8 :=
  snapshotHeader generation entries.length ++ (entries.map encodeItem).flatten

section Calls

variable (env : Env)

/-! ### Reading and writing a descriptor -/

/-- `WriteAll`: nothing is called for no bytes. -/
def writeAll (site : Site) (data : List UInt8) (append : List UInt8 → Disk → Disk) : StoreM Unit :=
  if data.isEmpty then pure () else writeFile env site data append

/-- `ReadAll`: the bytes read and the bytes left. -/
def readAll (site : Site) (rest : List UInt8) (size : ℕ) : StoreM (List UInt8 × List UInt8) := do
  check env site "read"
  if rest.length < size then Prog.fail (ioError "short read")
  else pure (rest.take size, rest.drop size)

/-- `ReadAll` of a part that may be empty. -/
def readPart (site : Site) (rest : List UInt8) (size : ℕ) : StoreM (List UInt8 × List UInt8) :=
  if size = 0 then pure ([], rest) else readAll env site rest size

/-- `SyncDir`. -/
def syncDir (site : Site) : StoreM Unit := do
  check env site "open_dir"
  Prog.both (check env site "fsync_dir") (check env site "close_dir")

/-- What follows the writes of a temporary file: `fsync`, `close`, `rename`, or `unlink` when
something failed, and `SyncDir`. -/
def publish (site : Site) (writes : StoreM Unit) (rename unlink : Disk → Disk) : StoreM Unit := do
  let written ← Prog.attempt (Prog.both (do writes; check env site "fsync") (check env site "close"))
  match written with
  | .error status => do
    Prog.ignore (syscall env site "unlink" unlink)
    Prog.fail status
  | .ok _ => do
    let renamed ← Prog.attempt (syscall env site "rename" rename)
    match renamed with
    | .error status => do
      Prog.ignore (syscall env site "unlink" unlink)
      Prog.fail status
    | .ok _ => syncDir env site

/-! ### The manifest -/

/-- `ReadManifest`. -/
def readManifest (site : Site) : StoreM ManifestState := do
  check env site "open"
  let w ← get
  match w.disk.manifest with
  | none => pure .absent
  | some content => do
    let data ← Prog.attempt (readAll env site content 32)
    let closed ← Prog.attempt (check env site "close")
    match data, closed with
    | .error status, _ => Prog.fail status
    | .ok _, .error status => Prog.fail status
    | .ok (data, _), .ok _ => Prog.ofOutcome (decodeManifest data)

/-- Append to `MANIFEST.tmp`. -/
def appendManifestTmp (data : List UInt8) (d : Disk) : Disk :=
  { d with manifestTmp := d.manifestTmp.map (· ++ data) }

/-- `WriteManifest`. -/
def writeManifest (site : Site) (walGeneration : ℕ) : StoreM Unit :=
  if walGeneration = 0 then Prog.fail (corruptManifest "invalid WAL generation")
  else do
    syscall env site "open" fun d => { d with manifestTmp := some [] }
    publish env site (writeAll env site (encodeManifest walGeneration) appendManifestTmp)
      (fun d => { d with manifest := d.manifestTmp, manifestTmp := none })
      (fun d => { d with manifestTmp := none })

/-! ### Snapshots -/

/-- Append to the temporary file of a snapshot. -/
def appendSnapshotTmp (generation : ℕ) (data : List UInt8) (d : Disk) : Disk :=
  let content := (d.snapshotTmps.get? generation).getD []
  { d with snapshotTmps := d.snapshotTmps.insert generation (content ++ data) }

/-- One turn of the loop of `WriteSnapshot`. -/
def writeItem (site : Site) (generation : ℕ) (item : Item) : StoreM Unit :=
  if item.key.length > 2 ^ 32 - 1 ∨ item.value.length > 2 ^ 32 - 1 then
    Prog.fail (corruptSnapshot "snapshot item is too large")
  else do
    writeAll env site (itemHeader item) (appendSnapshotTmp generation)
    writeAll env site item.key (appendSnapshotTmp generation)
    writeAll env site item.value (appendSnapshotTmp generation)

/-- The loop of `WriteSnapshot`. -/
def writeItems (site : Site) (generation : ℕ) : List Item → StoreM Unit
  | [] => pure ()
  | item :: items => do
    writeItem env site generation item
    writeItems site generation items

/-- `WriteSnapshot`. -/
def writeSnapshot (site : Site) (generation : ℕ) (entries : List Item) : StoreM Unit :=
  if generation = 0 then Prog.fail (corruptSnapshot "invalid snapshot generation")
  else do
    syscall env site "open" fun d =>
      { d with snapshotTmps := d.snapshotTmps.insert generation [] }
    publish env site
      (do
        writeAll env site (snapshotHeader generation entries.length) (appendSnapshotTmp generation)
        writeItems env site generation entries)
      (fun d => { d with
        snapshots := d.snapshots.insert generation ((d.snapshotTmps.get? generation).getD [])
        snapshotTmps := d.snapshotTmps.erase generation })
      (fun d => { d with snapshotTmps := d.snapshotTmps.erase generation })

/-- The checks of `ReadSnapshot` on the header: the number of records. -/
def decodeSnapshotHeader (generation : ℕ) (header : List UInt8) : Result ℕ :=
  if header.take 8 ≠ kSnapshotMagic then err (corruptSnapshot "invalid snapshot magic")
  else if load32 (header.drop 8) ≠ kSnapshotVersion then
    err (corruptSnapshot "unsupported snapshot version")
  else
    let count := (load64 (header.drop 16)).toNat
    if (load64 (header.drop 24)).toNat ≠ generation then
      err (corruptSnapshot "snapshot generation mismatch")
    else if count > kRecordOffsetLimit - 1 then err (corruptSnapshot "snapshot has too many records")
    else .ok count

/-- One turn of the loop of `ReadSnapshot`: the item and the bytes left. -/
def readItem (site : Site) (rest : List UInt8) : StoreM (Item × List UInt8) := do
  let (header, rest) ← readAll env site rest 12
  let keySize := (load32 header).toNat
  let valueSize := (load32 (header.drop 4)).toNat
  if keySize > kMaxKeySize then Prog.fail (corruptSnapshot "snapshot key is too large")
  else do
    let (key, rest) ← readPart env site rest keySize
    let (value, rest) ← readPart env site rest valueSize
    if itemCRC (header.take 8) ⟨key, value⟩ ≠ load32 (header.drop 8) then
      Prog.fail (corruptSnapshot "snapshot record CRC mismatch")
    else pure (⟨key, value⟩, rest)

/-- The loop of `ReadSnapshot`. -/
def readItems (site : Site) : ℕ → List UInt8 → StoreM (List Item)
  | 0, _ => pure []
  | count + 1, rest => do
    let (item, rest) ← readItem env site rest
    let items ← readItems site count rest
    pure (item :: items)

/-- `ReadSnapshot`. -/
def readSnapshot (site : Site) (generation : ℕ) : StoreM (List Item) :=
  if generation = 0 then Prog.fail (corruptSnapshot "invalid snapshot generation")
  else do
    check env site "open"
    let w ← get
    match w.disk.snapshots.get? generation with
    | none => Prog.fail (corruptSnapshot "snapshot missing for manifest generation")
    | some content => do
      let (header, rest) ← readAll env site content 32
      let count ← Prog.ofOutcome (decodeSnapshotHeader generation header)
      let entries ← readItems env site count rest
      check env site "close"
      pure entries

/-! ### Cleanup -/

/-- The names `readdir` gives, of a listing that may break off, and its status. -/
def readDir (names : List ℕ) : StoreM (List ℕ × Except Status Unit) := fun w =>
  match env .cleanup w.clock with
  | .succeeds => .ok (names, .ok ()) w.tick
  | .fails n => .ok (names.take n, .error (ioError "readdir")) w.tick
  | .killed _ => .error .killed w

/-- A status as a call. -/
def returnStatus : Except Status Unit → StoreM Unit
  | .ok _ => pure ()
  | .error status => Prog.fail status

/-- `rmdir` of a WAL directory; it must be empty. -/
def removeDir (generation : ℕ) : StoreM Unit := do
  let w ← get
  match w.disk.wal.get? generation with
  | none => pure ()
  | some dir =>
    if dir.entries.isEmpty then
      syscall env .cleanup "rmdir" fun d => { d with wal := d.wal.erase generation }
    else do
      check env .cleanup "rmdir"
      Prog.fail (ioError "rmdir")

/-- `RemoveTree` of a WAL directory, which holds segment files only. -/
def removeTree (generation : ℕ) : StoreM Unit := do
  let w ← get
  match w.disk.wal.get? generation with
  | none => pure ()
  | some dir => do
    check env .cleanup "remove"
    let (names, status) ← readDir env (dir.entries.map Prod.fst)
    Prog.allOf (names.map (fun fileNo =>
        syscall env .cleanup "remove" fun d => d.eraseWalFile generation fileNo) ++
      [returnStatus status, check env .cleanup "closedir", removeDir env generation])

/-- A listing of generations in ascending order. -/
def listGenerations (generations : Disk → List ℕ) : StoreM (List ℕ) := do
  check env .cleanup "opendir"
  check env .cleanup "readdir"
  check env .cleanup "closedir"
  let w ← get
  pure ((generations w.disk).filter (0 < ·))

/-- `RemoveOldWalGenerations`. -/
def removeOldWalGenerations (keep : ℕ) : StoreM Unit := do
  let generations ← listGenerations env fun d => d.wal.entries.map Prod.fst
  Prog.allOf ((generations.filter (· ≠ keep)).map (removeTree env))

/-- `RemoveOldSnapshots`. -/
def removeOldSnapshots (keep : ℕ) : StoreM Unit := do
  let generations ← listGenerations env fun d => d.snapshots.entries.map Prod.fst
  Prog.allOf ((generations.filter (· ≠ keep)).map fun generation =>
    syscall env .cleanup "unlink" fun d => { d with snapshots := d.snapshots.erase generation })

/-- The cleanup after a checkpoint and at the end of `Open`. -/
def removeOld (keep : ℕ) : StoreM Unit :=
  Prog.both (removeOldWalGenerations env keep) (removeOldSnapshots env keep)

end Calls

end MinweightStore.Store
