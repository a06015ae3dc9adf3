import MinweightStore.Minpatricia.Cartesian
import MinweightStore.Minpatricia.NodeStore

/-!
# The index

The operations of `Index` (`index.h`) over a heap node store: lookups, insertion with promotion and
splitting, deletion with its merges, and retargeting.  A page pointer is the page's number, and a
read or write through it goes to the store.

* reading — `minPos`, `diffBetweenReps`, `buildDiffs`, `probe`, `get`;
* writing pages — `rebuildNode`, `writeNodeWithDiffs`, `splitAndWriteNodeAt`;
* `put`, `delete`, `retarget` — the three updates, with everything they call.

A walk down the pages that meets more pages than there are has met one twice; pages do not change
on the way down, so it never ends.  That is what the fuel of the descents stands for.
-/

namespace MinweightStore.Minpatricia

structure ProbeResult where
  pos : Position
  found : Bool
  deriving DecidableEq, Repr

structure PutResult where
  oldPos : Position
  replaced : Bool
  deriving DecidableEq, Repr

structure DeleteResult where
  pos : Position
  deleted : Bool
  deriving DecidableEq, Repr

/-- `PutFrame`: a page on the way down and the leaf taken there. -/
structure PutFrame where
  id : UInt64
  leaf : ℕ
  deriving DecidableEq, Repr

/-- `detail::InsertSlot`. -/
structure InsertSlot where
  target : ℕ
  slot : ℕ
  deriving DecidableEq, Repr

/-- `Index`, without its scratch space, which no call reads before writing it. -/
structure Index where
  nodes : HeapNodeStore
  rootId : UInt64
  count : Int32

/-- A call on an index. -/
abbrev IndexM (α : Type) := Prog StatusCode Index α

/-! ### Pages of the index -/

/-- A computation that only reads the pages. -/
def readNodes {α : Type} (f : HeapNodeStore → Result α) : IndexM α := fun ix =>
  Prog.ofOutcome (f ix.nodes) ix

/-- `NodeByID`. -/
def nodeByID (id : UInt64) : IndexM NodePage := readNodes fun ns => ns.get id

/-- A read through a page pointer. -/
def derefNode (id : UInt64) : IndexM NodePage := readNodes fun ns => ns.deref id

/-- A write through a page pointer. -/
def writePage (id : UInt64) (page : NodePage) : IndexM Unit := fun ix =>
  match ix.nodes.write id page with
  | .ok ns => .ok () { ix with nodes := ns }
  | .error e => .error e ix

/-- `AllocNode`. -/
def allocNode : IndexM UInt64 := fun ix =>
  match ix.nodes.alloc with
  | .ok (id, ns) => .ok id { ix with nodes := ns }
  | .error e => .error e ix

/-- `FreeNode`. -/
def freeNode (id : UInt64) : IndexM Unit := fun ix =>
  match ix.nodes.freePage id with
  | .ok ns => .ok () { ix with nodes := ns }
  | .error e => .error e ix

/-! ### Reading -/

section Read

variable (records : Position → Result ByteView) (ns : HeapNodeStore)

/-- `Key`: the key of a record, checked for its size. -/
def recordKey (pos : Position) : Result ByteView := do
  let key ← records pos
  checkKeySize key
  .ok key

/-- `MinPos`. -/
def minPos (rep : Rep) : Result Position :=
  if rep.isChild then do
    let child ← ns.get rep.childId
    if child.size = 0 then err .corruptLayout else .ok child.firstPos
  else .ok rep.position

/-- `MaxPos`. -/
def maxPos (rep : Rep) : Result Position :=
  if rep.isChild then do
    let child ← ns.get rep.childId
    if child.size = 0 then err .corruptLayout else .ok child.lastPos
  else .ok rep.position

/-- The smallest position when it is asked for, else the one already known. -/
def minPosIf (cond : Prop) [Decidable cond] (rep : Rep) (known : Position) : Result Position :=
  if cond then minPos ns rep else .ok known

/-- The largest position when it is asked for, else the one already known. -/
def maxPosIf (cond : Prop) [Decidable cond] (rep : Rep) (known : Position) : Result Position :=
  if cond then maxPos ns rep else .ok known

/-- `DiffBetweenReps`. -/
def diffBetweenReps (left right : Rep) : Result ℕ := do
  let leftPos ← maxPos ns left
  let rightPos ← minPos ns right
  let leftKey ← recordKey records leftPos
  let rightKey ← recordKey records rightPos
  match compareAndDiffBit leftKey rightKey with
  | .error (.status .equalKeys) => err .duplicateKey
  | .error e => .error e
  | .ok diff => if diff.compare > 0 then err .unsortedKeys else .ok diff.diff

/-- `BuildDiffs`. -/
def buildDiffs : List Rep → Result (List ℕ)
  | left :: right :: reps => do
    let diff ← diffBetweenReps records ns left right
    let diffs ← buildDiffs (right :: reps)
    .ok (diff :: diffs)
  | _ => .ok []

/-- `CountRecords`, with the depth of the recursion as fuel. -/
def countRecords : ℕ → NodePage → Result Int32
  | 0, _ => .error .diverges
  | fuel + 1, node =>
    (node.reps.toList.take node.size).foldlM (fun total rep =>
      if rep.isChild then do
        let child ← ns.get rep.childId
        let childCount ← countRecords fuel child
        .ok (total + childCount)
      else .ok (total + 1)) 0

/-- The loop of `Probe`. -/
def probeLoop (key : ByteView) : ℕ → NodePage → Result ProbeResult
  | 0, _ => .error .diverges
  | fuel + 1, node => do
    let leaf ← node.lookup key
    if leaf.2 = false then .ok ⟨0, false⟩
    else do
      let rep ← node.repAt leaf.1
      if rep.isChild then do
        let child ← ns.get rep.childId
        probeLoop key fuel child
      else .ok ⟨rep.position, true⟩

end Read

/-- A bound on the pages a walk down can meet before it meets one twice. -/
def Index.fuel (ix : Index) : ℕ := ix.nodes.nodes.length + 1

/-- `Len`. -/
def Index.len (ix : Index) : Int32 := ix.count

/-- `LiveNodes`. -/
def Index.liveNodes (ix : Index) : Int := ix.nodes.liveNodes

/-- `Probe`. -/
def Index.probe (ix : Index) (key : ByteView) : Result ProbeResult := do
  checkKeySize key
  let root ← ix.nodes.get ix.rootId
  probeLoop ix.nodes key ix.fuel root

/-- `Get`. -/
def Index.get (records : Position → Result ByteView) (ix : Index) (key : ByteView) :
    Result ProbeResult := do
  let probe ← ix.probe key
  if probe.found = false then .ok probe
  else do
    let stored ← recordKey records probe.pos
    if compareKeys stored key ≠ 0 then .ok ⟨0, false⟩ else .ok probe

/-! ### Writing pages -/

section Write

variable (alloc : IndexM UInt64) (records : Position → Result ByteView)

/-- The array after `reps.fill(Rep{})` and a copy of a list. -/
def fillReps (reps : List Rep) : Vector Rep kMaxNodeReps :=
  Vector.ofFn fun i => reps.getD i.val Rep.zero

/-- A page without routes. -/
def clearRoutes (page : NodePage) : NodePage :=
  { page with routes := Vector.replicate _ Route.zero }

/-- The routes written over the table, and zeros behind the span they were written to. -/
def setRoutes (page : NodePage) (diffCount : ℕ) (written : List Route) : NodePage :=
  { page with
    routes := Vector.ofFn fun i =>
      if i.val < diffCount then written.getD i.val page.routes[i] else Route.zero }

/-- `RebuildRoutesWithDiffs`. -/
def rebuildRoutesWithDiffs (id : UInt64) (diffs : List ℕ) : IndexM Unit := do
  let node ← derefNode id
  let cartesian ← Prog.ofOutcome (buildCartesian diffs)
  let written ← Prog.ofOutcome (writePreorderRoutes diffs cartesian node.size)
  writePage id (setRoutes node diffs.length written)

/-- The boundary reads that `RebuildNode` and `RebuildNodeWithDiffs` start with on a page that is
not empty. -/
def rebuildBoundary (id : UInt64) (node : NodePage) : IndexM Unit := do
  let firstRep ← Prog.ofOutcome (node.repAt 0)
  let firstPos ← readNodes fun ns => minPos ns firstRep
  let lastRep ← Prog.ofOutcome (node.repAt (node.size - 1))
  let lastPos ← readNodes fun ns => maxPos ns lastRep
  writePage id { node with firstPos := firstPos, lastPos := lastPos }

/-- What both rebuilds do with an empty page. -/
def rebuildEmpty (id : UInt64) (node : NodePage) : IndexM Unit :=
  writePage id (clearRoutes { node with firstPos := 0, lastPos := 0 })

/-- `RebuildNodeWithDiffs`. -/
def rebuildNodeWithDiffs (id : UInt64) (diffs : List ℕ) : IndexM Unit := do
  let node ← derefNode id
  if node.size = 0 then
    if diffs ≠ [] then Prog.fail .corruptLayout else rebuildEmpty id node
  else if diffs.length ≠ node.size - 1 then Prog.fail .corruptLayout
  else do
    rebuildBoundary id node
    if node.size = 1 then do
      let node ← derefNode id
      writePage id (clearRoutes node)
    else rebuildRoutesWithDiffs id diffs

/-- `RebuildNode`. -/
def rebuildNode (id : UInt64) : IndexM Unit := do
  let node ← derefNode id
  if node.size = 0 then rebuildEmpty id node
  else do
    rebuildBoundary id node
    if node.size = 1 then do
      let node ← derefNode id
      writePage id (clearRoutes node)
    else do
      let diffs ← readNodes fun ns => buildDiffs records ns (node.reps.toList.take node.size)
      rebuildRoutesWithDiffs id diffs

/-- The reps of a page replaced, its size with them. -/
def setReps (node : NodePage) (reps : List Rep) : NodePage :=
  { node with reps := fillReps reps, size := reps.length }

/-- `WriteNodeWithDiffs`. -/
def writeNodeWithDiffs (id : UInt64) (reps : List Rep) (diffs : List ℕ) : IndexM Unit :=
  if reps.length > kMaxNodeReps then Prog.fail .corruptLayout
  else if (reps = [] ∧ diffs ≠ []) ∨ (reps ≠ [] ∧ diffs.length ≠ reps.length - 1) then
    Prog.fail .corruptLayout
  else do
    let node ← nodeByID id
    writePage id (setReps node reps)
    rebuildNodeWithDiffs id diffs

/-- `WriteNode` on a list that fits a page. -/
def writeSmallNode (id : UInt64) (reps : List Rep) : IndexM Unit := do
  let node ← nodeByID id
  writePage id (setReps node reps)
  rebuildNode records id

/-- `RemapInsertSlotAfterSplit`. -/
def remapInsertSlotAfterSplit (slot : Int) (start stop count : ℕ) : Int :=
  if slot < 0 then slot
  else if slot < start then slot
  else if slot < stop then start
  else slot - count + 1

mutual

/-- `WriteNode`.  Every split leaves a shorter list, which is what the fuel counts. -/
def writeNode : ℕ → UInt64 → List Rep → IndexM Unit
  | 0, _, _ => throw .diverges
  | fuel + 1, id, reps =>
    if reps.length > kMaxNodeReps then splitAndWriteNodeAt fuel id reps (-1)
    else writeSmallNode records id reps

/-- `SplitAndWriteNodeAt`. -/
def splitAndWriteNodeAt : ℕ → UInt64 → List Rep → Int → IndexM Unit
  | 0, _, _, _ => throw .diverges
  | fuel + 1, id, reps, insertSlot =>
    if reps.length > kMaxNodeReps then do
      let diffs ← readNodes fun ns => buildDiffs records ns reps
      let range ← Prog.ofOutcome (chooseSplitRange diffs reps.length insertSlot)
      let childId ← alloc
      let stop := range.start + range.count
      writeNode fuel childId ((reps.drop range.start).take range.count)
      let child ← derefNode childId
      if child.size = 0 then Prog.fail .corruptLayout
      else do
        let childRep ← Prog.ofOutcome (Rep.makeChild childId)
        splitAndWriteNodeAt fuel id (reps.take range.start ++ childRep :: reps.drop stop)
          (remapInsertSlotAfterSplit insertSlot range.start stop range.count)
    else writeNode fuel id reps

end

/-- Enough fuel for a list of that length: every second call is on a shorter one. -/
def splitFuel (reps : List Rep) : ℕ := 2 * reps.length + 2

end Write

/-! ### Boundaries -/

/-- The loop of `PropagateBoundary` over the frames above the changed page, the nearest first. -/
def propagateLoop (child : UInt64) (firstChanged lastChanged : Bool) :
    List PutFrame → IndexM Unit
  | [] => pure ()
  | frame :: rest => do
    let parent ← nodeByID frame.id
    let childPage ← derefNode child
    if frame.leaf ≥ parent.size then Prog.fail .corruptLayout
    else do
      let childRep ← Prog.ofOutcome (parent.repAt frame.leaf)
      if childRep.isChild = false ∨ childRep.childId ≠ child then Prog.fail .corruptLayout
      else do
        let firstPos := if firstChanged ∧ frame.leaf = 0 then childPage.firstPos
          else parent.firstPos
        let lastPos := if lastChanged ∧ frame.leaf = parent.size - 1 then childPage.lastPos
          else parent.lastPos
        writePage frame.id { parent with firstPos := firstPos, lastPos := lastPos }
        if firstPos = parent.firstPos ∧ lastPos = parent.lastPos then pure ()
        else propagateLoop frame.id (firstPos ≠ parent.firstPos) (lastPos ≠ parent.lastPos) rest

/-- The read `frames[i]`. -/
def frameAt (frames : List PutFrame) (i : ℕ) : Result PutFrame :=
  match frames[i]? with
  | some frame => .ok frame
  | none => .error .undefined

/-- `PropagateBoundary`. -/
def propagateBoundary (frames : List PutFrame) (changed : ℕ) (oldFirst oldLast : Position) :
    IndexM Unit := do
  let frame ← Prog.ofOutcome (frameAt frames changed)
  let child ← nodeByID frame.id
  if child.firstPos = oldFirst ∧ child.lastPos = oldLast then pure ()
  else
    propagateLoop frame.id (child.firstPos ≠ oldFirst) (child.lastPos ≠ oldLast)
      (frames.take changed).reverse

/-! ### Insertion -/

section Insert

variable (alloc : IndexM UInt64) (records : Position → Result ByteView)

/-- The first `size` reps of a page. -/
def NodePage.repList (page : NodePage) : List Rep := page.reps.toList.take page.size

/-- The reps of a page with a new one at a slot. -/
def insertedReps (node : NodePage) (slot : ℕ) (newRep : Rep) : List Rep :=
  node.repList.take slot ++ newRep :: node.repList.drop slot

/-- `InsertFullAt`. -/
def insertFullAt (id : UInt64) (node : NodePage) (slot : ℕ) (newRep : Rep) : IndexM Unit :=
  let reps := insertedReps node slot newRep
  splitAndWriteNodeAt alloc records (splitFuel reps) id reps (-1)

/-- `InsertAtIncremental`. -/
def insertAtIncremental (id : UInt64) (slot : ℕ) (newRep : Rep) (key : ByteView) (diff : ℕ) :
    IndexM Unit := do
  let node ← nodeByID id
  if slot > node.size then Prog.fail .corruptLayout
  else if node.size ≥ kMaxNodeReps then insertFullAt alloc records id node slot newRep
  else do
    let firstPos ← readNodes fun ns =>
      minPosIf ns (node.size = 0 ∨ slot = 0) newRep node.firstPos
    let lastPos ← readNodes fun ns =>
      maxPosIf ns (node.size = 0 ∨ slot = node.size) newRep node.lastPos
    let routed ← Prog.ofOutcome
      (if node.size = 0 then .ok node else node.insertRoute slot key diff)
    writePage id { routed with
      reps := (shiftUp routed.reps slot node.size).setIfInBounds slot newRep
      size := node.size + 1
      firstPos := firstPos
      lastPos := lastPos }

/-- `InsertSlotFromPath`; the head of the list is the root's frame. -/
def insertSlotFromPath (ns : HeapNodeStore) (key : ByteView) (cmp : Int) (diff : ℕ) :
    ℕ → List PutFrame → Result InsertSlot
  | _, [] => .error .undefined
  | i, frame :: rest => do
    let node ← ns.get frame.id
    let slot ← node.insertSlotAbovePath key diff frame.leaf
    if slot.2 then .ok ⟨i, slot.1⟩
    else match rest with
      | [] => if cmp < 0 then .ok ⟨i, frame.leaf⟩ else .ok ⟨i, frame.leaf + 1⟩
      | next :: rest => insertSlotFromPath ns key cmp diff (i + 1) (next :: rest)

/-- The loop of `PathEdgeInsertSlot` over the frames above the target. -/
def pathEdgeLoop (ns : HeapNodeStore) (slot : ℕ) : List PutFrame → Result Int
  | [] => .ok slot
  | frame :: rest =>
    if slot = 0 then
      if frame.leaf ≠ 0 then .ok (-1) else pathEdgeLoop ns slot rest
    else do
      let node ← ns.get frame.id
      if frame.leaf ≠ node.size - 1 then .ok (-1) else pathEdgeLoop ns slot rest

/-- `PathEdgeInsertSlot`. -/
def pathEdgeInsertSlot (ns : HeapNodeStore) (frames : List PutFrame) (target slot oldSize : ℕ) :
    Result Int :=
  if slot ≠ 0 ∧ slot ≠ oldSize then .ok (-1)
  else pathEdgeLoop ns slot (frames.take target)

/-- `PromoteSibling`. -/
def promoteSibling (parentId : UInt64) (childSlot : ℕ) (childId : UInt64) (reps : List Rep) :
    IndexM Unit :=
  if reps.length ≠ kMaxNodeReps + 1 then Prog.fail .corruptLayout
  else do
    let parent ← nodeByID parentId
    if childSlot ≥ parent.size ∨ parent.size ≥ kMaxNodeReps then Prog.fail .corruptLayout
    else do
      let childRep ← Prog.ofOutcome (parent.repAt childSlot)
      if childRep.isChild = false ∨ childRep.childId ≠ childId then Prog.fail .corruptLayout
      else do
        let diffs ← readNodes fun ns => buildDiffs records ns reps
        let cartesian ← Prog.ofOutcome (buildCartesian diffs)
        let split := cartesian.root + 1
        let splitDiff := diffs.getD cartesian.root 0
        let siblingId ← alloc
        writeNodeWithDiffs childId (reps.take split) (diffs.take (split - 1))
        writeNodeWithDiffs siblingId (reps.drop split) (diffs.drop split)
        let siblingRep ← Prog.ofOutcome (Rep.makeChild siblingId)
        let parent ← derefNode parentId
        let oldDiffs ← Prog.ofOutcome (parent.routeDiffs (List.replicate (parent.size - 1) 0))
        writeNodeWithDiffs parentId
          (parent.repList.take (childSlot + 1) ++ siblingRep :: parent.repList.drop (childSlot + 1))
          (oldDiffs.take childSlot ++ splitDiff :: oldDiffs.drop childSlot)

/-- `InsertAtPath` on a full target whose parent cannot take a sibling. -/
def splitAtPath (frames : List PutFrame) (target : ℕ) (targetId : UInt64) (slot size : ℕ)
    (reps : List Rep) (oldFirst oldLast : Position) : IndexM Unit := do
  let edgeSlot ← readNodes fun ns => pathEdgeInsertSlot ns frames target slot size
  splitAndWriteNodeAt alloc records (splitFuel reps) targetId reps edgeSlot
  propagateBoundary frames target oldFirst oldLast

/-- `InsertAtPath`. -/
def insertAtPath (frames : List PutFrame) (target slot : ℕ) (newRep : Rep) (key : ByteView)
    (diff : ℕ) : IndexM Unit := do
  let frame ← Prog.ofOutcome (frameAt frames target)
  let node ← nodeByID frame.id
  if node.size < kMaxNodeReps then do
    insertAtIncremental alloc records frame.id slot newRep key diff
    propagateBoundary frames target node.firstPos node.lastPos
  else
    let reps := insertedReps node slot newRep
    if target > 0 then do
      let parentFrame ← Prog.ofOutcome (frameAt frames (target - 1))
      let parent ← nodeByID parentFrame.id
      if parent.size < kMaxNodeReps then do
        promoteSibling alloc records parentFrame.id parentFrame.leaf frame.id reps
        propagateBoundary frames (target - 1) parent.firstPos parent.lastPos
      else
        splitAtPath alloc records frames target frame.id slot node.size reps node.firstPos
          node.lastPos
    else
      splitAtPath alloc records frames target frame.id slot node.size reps node.firstPos node.lastPos

/-- `InsertOrReplace` at the record the descent ended at: its page, its leaf, its position. -/
def insertOrReplaceAt (key : ByteView) (newRep : Rep) (frames : List PutFrame) (id : UInt64)
    (node : NodePage) (leaf : ℕ) (oldPos : Position) : IndexM PutResult := do
  let stored ← Prog.ofOutcome (recordKey records oldPos)
  let cmp := compareKeys key stored
  if cmp = 0 then do
    let firstPos ← readNodes fun ns => minPosIf ns (leaf = 0) newRep node.firstPos
    let lastPos ← readNodes fun ns => maxPosIf ns (leaf = node.size - 1) newRep node.lastPos
    writePage id { node with
      reps := node.reps.setIfInBounds leaf newRep
      firstPos := firstPos
      lastPos := lastPos }
    propagateBoundary frames (frames.length - 1) node.firstPos node.lastPos
    pure ⟨oldPos, true⟩
  else do
    let diff ← Prog.ofOutcome (findDiffBit key stored)
    let slot ← readNodes fun ns => insertSlotFromPath ns key cmp diff 0 frames
    insertAtPath alloc records frames slot.target slot.slot newRep key diff
    pure ⟨0, false⟩

/-- The descent of `InsertOrReplace`. -/
def insertLoop (key : ByteView) (newRep : Rep) : ℕ → List PutFrame → UInt64 → IndexM PutResult
  | 0, _, _ => throw .diverges
  | fuel + 1, frames, id => do
    let node ← nodeByID id
    if node.size = 0 then do
      insertAtIncremental alloc records id 0 newRep key 0
      pure ⟨0, false⟩
    else do
      let leaf ← Prog.ofOutcome (node.lookup key)
      if leaf.2 = false then Prog.fail .corruptLayout
      else do
        let rep ← Prog.ofOutcome (node.repAt leaf.1)
        if rep.isChild then insertLoop key newRep fuel (frames ++ [⟨id, leaf.1⟩]) rep.childId
        else
          insertOrReplaceAt alloc records key newRep (frames ++ [⟨id, leaf.1⟩]) id node leaf.1
            rep.position

/-- `InsertOrReplace`. -/
def insertOrReplace (key : ByteView) (newRep : Rep) : IndexM PutResult := do
  let ix ← get
  insertLoop alloc records key newRep ix.fuel [] ix.rootId

/-- `Put` over any way of taking a new page. -/
def putWith (key : ByteView) (pos : Position) : IndexM PutResult := do
  Prog.ofOutcome (checkKeySize key)
  let rep ← Prog.ofOutcome (Rep.makeRecord pos)
  let result ← insertOrReplace alloc records key rep
  if result.replaced = false then do
    modify fun ix => { ix with count := ix.count + 1 }
    pure result
  else pure result

/-- `Put`, with the pages of the heap node store. -/
def put (key : ByteView) (pos : Position) : IndexM PutResult := putWith allocNode records key pos

end Insert

/-! ### Deletion -/

section Delete

variable (records : Position → Result ByteView)

/-- `DeleteAtIncremental`. -/
def deleteAtIncremental (id : UInt64) (slot : ℕ) : IndexM Unit := do
  let node ← derefNode id
  if slot ≥ node.size then Prog.fail .corruptLayout
  else if node.size = 1 then
    writePage id { node with
      reps := node.reps.setIfInBounds 0 Rep.zero
      size := 0
      firstPos := 0
      lastPos := 0 }
  else do
    let second ← Prog.ofOutcome (node.repAt 1)
    let firstPos ← readNodes fun ns => minPosIf ns (slot = 0) second node.firstPos
    let beforeLast ← Prog.ofOutcome (node.repAt (node.size - 2))
    let lastPos ← readNodes fun ns => maxPosIf ns (slot = node.size - 1) beforeLast node.lastPos
    let routed ← Prog.ofOutcome (node.deleteRoute slot)
    writePage id { routed with
      reps := (shiftDown routed.reps slot (node.size - 1)).setIfInBounds (node.size - 1) Rep.zero
      size := node.size - 1
      firstPos := firstPos
      lastPos := lastPos }

/-- `RebuildParentAfterChildBoundary`. -/
def rebuildParentAfterChildBoundary (id : UInt64) (slot : ℕ) (child : NodePage)
    (oldFirst oldLast : Position) : IndexM Unit := do
  let node ← derefNode id
  let firstPos := if child.firstPos ≠ oldFirst ∧ slot = 0 then child.firstPos else node.firstPos
  let lastPos := if child.lastPos ≠ oldLast ∧ slot = node.size - 1 then child.lastPos
    else node.lastPos
  writePage id { node with firstPos := firstPos, lastPos := lastPos }

/-- The loop of `CompressRoot`; every turn frees a page. -/
def compressRootLoop (rootId : UInt64) : ℕ → IndexM Unit
  | 0 => throw .diverges
  | fuel + 1 => do
    let root ← derefNode rootId
    let rep ← Prog.ofOutcome (root.repAt 0)
    if root.size = 1 ∧ rep.isChild then do
      let child ← nodeByID rep.childId
      writePage rootId child
      freeNode rep.childId
      compressRootLoop rootId fuel
    else pure ()

/-- `CompressRoot`. -/
def compressRoot : IndexM Unit := do
  let ix ← get
  let _ ← nodeByID ix.rootId
  compressRootLoop ix.rootId ix.fuel

/-- The diffs of a page that has any. -/
def diffsOf (page : NodePage) : Result (List ℕ) :=
  if page.size > 1 then page.routeDiffs (List.replicate (page.size - 1) 0) else .ok []

/-- The reps of `MergeChildIntoParent`: those behind the slot move up, the child's go in their
place.  The child is not empty. -/
def mergedReps (node : NodePage) (slot : ℕ) (child : NodePage) : Vector Rep kMaxNodeReps :=
  let moved := moveUp node.reps slot (node.size - 1) (child.size - 1)
  let copied := copyAt moved slot child.reps child.size
  clearRange Rep.zero copied (node.size - 1 + child.size) node.size

/-- `MergeChildIntoParent`. -/
def mergeChildIntoParent (id : UInt64) (slot : ℕ) (childId : UInt64) : IndexM Unit := do
  let node ← derefNode id
  let child ← derefNode childId
  let oldDiffs ← Prog.ofOutcome (node.routeDiffs (List.replicate (node.size - 1) 0))
  let childDiffs ← Prog.ofOutcome (diffsOf child)
  writePage id { node with
    reps := mergedReps node slot child
    size := node.size - 1 + child.size }
  rebuildNodeWithDiffs id (oldDiffs.take slot ++ childDiffs ++ oldDiffs.drop slot)
  freeNode childId

/-- `RemoveMergedParentRep`. -/
def removeMergedParentRep (id : UInt64) (slot dropDiff : ℕ) : IndexM Unit := do
  let node ← derefNode id
  if slot ≥ node.size ∨ dropDiff ≥ node.size - 1 then Prog.fail .corruptLayout
  else do
    let oldDiffs ← Prog.ofOutcome (node.routeDiffs (List.replicate (node.size - 1) 0))
    writePage id { node with
      reps := (shiftDown node.reps slot (node.size - 1)).setIfInBounds (node.size - 1) Rep.zero
      size := node.size - 1 }
    rebuildNodeWithDiffs id (oldDiffs.eraseIdx dropDiff)

/-- What `MergeLeftSibling` and `MergeRightSibling` both do: the right page of two neighbours is
appended to the left one, and the parent loses its slot. -/
def mergeSiblings (id : UInt64) (leftSlot : ℕ) (leftId : UInt64) (left : NodePage)
    (rightSlot : ℕ) (rightId : UInt64) (right : NodePage) : IndexM Unit := do
  let node ← derefNode id
  let oldDiffs ← Prog.ofOutcome (node.routeDiffs (List.replicate (node.size - 1) 0))
  let leftDiffs ← Prog.ofOutcome (diffsOf left)
  let rightDiffs ← Prog.ofOutcome (diffsOf right)
  writeNodeWithDiffs leftId (left.repList ++ right.repList)
    (leftDiffs ++ oldDiffs.getD leftSlot 0 :: rightDiffs)
  removeMergedParentRep id rightSlot leftSlot
  freeNode rightId

/-- `MergeLeftSibling`. -/
def mergeLeftSibling (id : UInt64) (leftSlot : ℕ) (leftId : UInt64) (left : NodePage)
    (slot : ℕ) (childId : UInt64) (child : NodePage) : IndexM Unit :=
  mergeSiblings id leftSlot leftId left slot childId child

/-- `MergeRightSibling`. -/
def mergeRightSibling (id : UInt64) (slot : ℕ) (childId : UInt64) (child : NodePage)
    (rightSlot : ℕ) (rightId : UInt64) (right : NodePage) : IndexM Unit :=
  mergeSiblings id slot childId child rightSlot rightId right

/-- The page behind a neighbour slot, when that slot holds a child. -/
def siblingAt (ns : HeapNodeStore) (node : NodePage) (slot : Option ℕ) :
    Result (Option (UInt64 × NodePage)) :=
  match slot with
  | none => .ok none
  | some slot => do
    let rep ← node.repAt slot
    if rep.isChild then do
      let sibling ← ns.get rep.childId
      .ok (some (rep.childId, sibling))
    else .ok none

/-- Whether a neighbour and the child fit one page and meet at a direct branch. -/
def canMerge (node child : NodePage) (sibling : Option (UInt64 × NodePage)) (diffIdx : Int) :
    Result Bool :=
  match sibling with
  | none => .ok false
  | some (_, page) =>
    if page.size + child.size ≤ kMaxNodeReps then node.isDirectRoutePair diffIdx else .ok false

/-- The end of `MergeChildWithSibling`: the merge with the smaller of two admitted siblings, or with
the one that is admitted. -/
def mergeChosen (id : UInt64) (slot : ℕ) (childId : UInt64) (child : NodePage) :
    Option (UInt64 × NodePage) → Option (UInt64 × NodePage) → Bool → Bool → IndexM Bool
  | some (leftId, leftPage), some (rightId, rightPage), true, true =>
    if rightPage.size > leftPage.size then do
      mergeRightSibling id slot childId child (slot + 1) rightId rightPage
      pure true
    else do
      mergeLeftSibling id (slot - 1) leftId leftPage slot childId child
      pure true
  | some (leftId, leftPage), _, true, _ => do
    mergeLeftSibling id (slot - 1) leftId leftPage slot childId child
    pure true
  | _, some (rightId, rightPage), _, true => do
    mergeRightSibling id slot childId child (slot + 1) rightId rightPage
    pure true
  | _, _, _, _ => pure false

/-- `MergeChildWithSibling`. -/
def mergeChildWithSibling (id : UInt64) (slot : ℕ) (childId : UInt64) : IndexM Bool := do
  let node ← derefNode id
  let child ← derefNode childId
  let left ← readNodes fun ns => siblingAt ns node (if slot ≥ 1 then some (slot - 1) else none)
  let right ← readNodes fun ns =>
    siblingAt ns node (if slot + 1 < node.size then some (slot + 1) else none)
  let canMergeLeft ← Prog.ofOutcome (canMerge node child left ((slot : Int) - 1))
  let canMergeRight ← Prog.ofOutcome (canMerge node child right slot)
  mergeChosen id slot childId child left right canMergeLeft canMergeRight

/-- The call of `MergeChildWithSibling`, made for small children only. -/
def mergeIfSmall (id : UInt64) (slot : ℕ) (childId : UInt64) (childSize : ℕ) : IndexM Bool :=
  if childSize < kMaxNodeReps / 32 then mergeChildWithSibling id slot childId else pure false

/-- `DeleteFromChild` once the key is gone from the child below. -/
def afterChildDelete (id : UInt64) (slot : ℕ) (childId : UInt64) (oldFirst oldLast : Position) :
    IndexM Unit := do
  let node ← derefNode id
  let child ← derefNode childId
  if child.size = 0 then do
    deleteAtIncremental id slot
    freeNode childId
  else if node.size - 1 + child.size ≤ kMaxNodeReps then
    mergeChildIntoParent id slot childId
  else do
    let merged ← mergeIfSmall id slot childId child.size
    if merged = true then pure ()
    else if child.firstPos = oldFirst ∧ child.lastPos = oldLast then pure ()
    else rebuildParentAfterChildBoundary id slot child oldFirst oldLast

/-- `DeleteFrom` and `DeleteFromChild`; the fuel is the depth of the recursion. -/
def deleteFrom (key : ByteView) : ℕ → UInt64 → IndexM DeleteResult
  | 0, _ => throw .diverges
  | fuel + 1, id => do
    let node ← nodeByID id
    let leaf ← Prog.ofOutcome (node.lookup key)
    if leaf.2 = false then pure ⟨0, false⟩
    else do
      let rep ← Prog.ofOutcome (node.repAt leaf.1)
      if rep.isChild then do
        let child ← nodeByID rep.childId
        if child.size = 0 then Prog.fail .corruptLayout
        else do
          let result ← deleteFrom key fuel rep.childId
          if result.deleted = false then pure result
          else do
            afterChildDelete id leaf.1 rep.childId child.firstPos child.lastPos
            pure result
      else do
        let stored ← Prog.ofOutcome (recordKey records rep.position)
        if compareKeys stored key = 0 then do
          deleteAtIncremental id leaf.1
          pure ⟨rep.position, true⟩
        else pure ⟨0, false⟩

/-- `Delete`. -/
def delete (key : ByteView) : IndexM DeleteResult := do
  Prog.ofOutcome (checkKeySize key)
  let ix ← get
  let result ← deleteFrom records key ix.fuel ix.rootId
  if result.deleted = true then do
    modify fun ix => { ix with count := ix.count - 1 }
    compressRoot
    pure result
  else pure result

end Delete

/-! ### Retargeting -/

/-- The descent of `Retarget`. -/
def retargetLoop (key : ByteView) (oldPos : Position) (newRep : Rep) :
    ℕ → List PutFrame → UInt64 → IndexM Unit
  | 0, _, _ => throw .diverges
  | fuel + 1, frames, id => do
    let node ← nodeByID id
    let leaf ← Prog.ofOutcome (node.lookup key)
    if leaf.2 = false then Prog.fail .positionMismatch
    else do
      let rep ← Prog.ofOutcome (node.repAt leaf.1)
      if rep.isChild then
        retargetLoop key oldPos newRep fuel (frames ++ [⟨id, leaf.1⟩]) rep.childId
      else if rep.position ≠ oldPos then Prog.fail .positionMismatch
      else do
        writePage id { node with
          firstPos := if leaf.1 = 0 then newRep.position else node.firstPos
          lastPos := if leaf.1 = node.size - 1 then newRep.position else node.lastPos
          reps := node.reps.setIfInBounds leaf.1 newRep }
        propagateBoundary (frames ++ [⟨id, leaf.1⟩]) frames.length node.firstPos node.lastPos

/-- `Retarget`. -/
def retarget (key : ByteView) (oldPos newPos : Position) : IndexM Unit := do
  Prog.ofOutcome (checkKeySize key)
  let rep ← Prog.ofOutcome (Rep.makeRecord newPos)
  let ix ← get
  retargetLoop key oldPos rep ix.fuel [] ix.rootId

/-! ### Creation -/

/-- `NewIndex`. -/
def newIndex (records : Position → Result ByteView) (nodes : HeapNodeStore) (initRoot : Bool) :
    Result Index :=
  let ix : Index := ⟨nodes, HeapNodeStore.root, 0⟩
  let run : IndexM Unit := do
    let _ ← nodeByID HeapNodeStore.root
    if initRoot then rebuildNode records HeapNodeStore.root else pure ()
    let root ← nodeByID HeapNodeStore.root
    let total ← readNodes fun ns => countRecords ns ix.fuel root
    modify fun ix => { ix with count := total }
  match run ix with
  | .ok _ ix => .ok ix
  | .error e _ => .error e

/-- `NewWithNodes`. -/
def newWithNodes (records : Position → Result ByteView) (nodes : HeapNodeStore) : Result Index :=
  newIndex records nodes true

/-- `OpenWithNodes`. -/
def openWithNodes (records : Position → Result ByteView) (nodes : HeapNodeStore) : Result Index :=
  newIndex records nodes false

end MinweightStore.Minpatricia
