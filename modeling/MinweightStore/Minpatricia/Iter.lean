import MinweightStore.Minpatricia.Index

/-!
# Iterators

The iterators of `Index`: a path of frames on a small stack with an overflow list, moved from
record to record.  Every function of the source comes twice, once for each direction, and the two
differ in which slot they take; here the direction is a parameter.

* `IterPath` — the stack, with `Push`, `At`, `Truncate` and `FramesForInsert`;
* `seek`, `positionAt` — to the first record at or behind a key;
* `edgeRecord`, `movePath` — to the first record below a page, and to the next one;
* `fromPath` — the loop that calls the visitor, and the eight public iterators.
-/

namespace MinweightStore.Minpatricia

/-- The order the records are visited in. -/
inductive Direction where
  | ascend
  | descend
  deriving DecidableEq, Repr

def kIterStackDepth : ℕ := 16

/-- `detail::IterPath`. -/
structure IterPath where
  stack : Vector PutFrame kIterStackDepth
  overflow : List PutFrame
  len : ℕ
  overflow_length : overflow.length = len - kIterStackDepth

namespace IterPath

/-- `Reset`. -/
def reset : IterPath := ⟨Vector.replicate _ ⟨0, 0⟩, [], 0, rfl⟩

/-- `PushNode`. -/
def pushNode (path : IterPath) (id : UInt64) (leaf : ℕ) : IterPath :=
  if h : path.len < kIterStackDepth then
    ⟨path.stack.set path.len ⟨id, leaf⟩ h, path.overflow, path.len + 1, by
      have := path.overflow_length
      omega⟩
  else
    ⟨path.stack, path.overflow ++ [⟨id, leaf⟩], path.len + 1, by
      have := path.overflow_length
      rw [List.length_append, List.length_singleton]
      omega⟩

/-- The read `*At(index)`. -/
def at? (path : IterPath) (index : ℕ) : Option PutFrame :=
  if h : index < kIterStackDepth then some (path.stack.get ⟨index, h⟩)
  else path.overflow[index - kIterStackDepth]?

/-- The write `At(index)->leaf = leaf`. -/
def setLeaf (path : IterPath) (index leaf : ℕ) : IterPath :=
  if h : index < kIterStackDepth then
    ⟨path.stack.set index ⟨(path.stack.get ⟨index, h⟩).id, leaf⟩ h, path.overflow, path.len,
      path.overflow_length⟩
  else
    ⟨path.stack, path.overflow.modify (index - kIterStackDepth) (fun frame => ⟨frame.id, leaf⟩),
      path.len, by rw [List.length_modify, path.overflow_length]⟩

/-- `std::vector::resize`. -/
def resize (l : List PutFrame) (n : ℕ) : List PutFrame :=
  l.take n ++ List.replicate (n - l.length) ⟨0, 0⟩

/-- `Truncate`. -/
def truncate (path : IterPath) (newLen : ℕ) : IterPath :=
  if h : newLen ≤ kIterStackDepth then
    ⟨path.stack, [], newLen, by rw [List.length_nil]; omega⟩
  else
    ⟨path.stack, resize path.overflow (newLen - kIterStackDepth), newLen, by
      rw [resize, List.length_append, List.length_take, List.length_replicate]
      omega⟩

/-- `FramesForInsert`. -/
def framesForInsert (path : IterPath) : List PutFrame :=
  path.stack.toList.take (min path.len kIterStackDepth) ++ path.overflow

end IterPath

section Iter

variable (records : Position → Result ByteView) (ns : HeapNodeStore)

/-- The read of the last frame of a path. -/
def lastFrame (path : IterPath) : Result PutFrame :=
  match path.at? (path.len - 1) with
  | some frame => .ok frame
  | none => .error .undefined

/-- The slot `LeftmostRecord` and `RightmostRecord` take on a page. -/
def edgeSlot (size : ℕ) : Direction → ℕ
  | .ascend => 0
  | .descend => size - 1

/-- `LeftmostRecord` and `RightmostRecord`. -/
def edgeRecord (dir : Direction) : ℕ → IterPath → UInt64 → Result (Bool × IterPath)
  | 0, _, _ => .error .diverges
  | fuel + 1, path, id => do
    let node ← ns.get id
    if node.size = 0 then err .corruptLayout
    else do
      let leaf := edgeSlot node.size dir
      let path := path.pushNode id leaf
      let rep ← node.repAt leaf
      if rep.isChild then edgeRecord dir fuel path rep.childId else .ok (true, path)

/-- The descents on the way to a record go through pages that are all different. -/
def iterFuel : ℕ := ns.nodes.length + 1

/-- The end of `PositionAtOrAfter`, `NextPath` and their twins: down from the slot taken. -/
def enterSlot (dir : Direction) (path : IterPath) (node : NodePage) (slot : ℕ) :
    Result (Bool × IterPath) := do
  let path := path.setLeaf (path.len - 1) slot
  let rep ← node.repAt slot
  if rep.isChild then edgeRecord ns dir (iterFuel ns) path rep.childId else .ok (true, path)

/-- The slot taken on a page from the gap before the slot of that number: the one behind the gap,
or the one before it. -/
def gapSlot (slot size : ℕ) : Direction → Option ℕ
  | .ascend => if slot < size then some slot else none
  | .descend => if slot > 0 then some (slot - 1) else none

/-- The gap a path goes on from behind the slot it came through. -/
def gapAfter (leaf : ℕ) : Direction → ℕ
  | .ascend => leaf + 1
  | .descend => leaf

/-- The loop of `PositionAtOrAfter` and `PositionAtOrBefore`; every turn shortens the path. -/
def positionLoop (dir : Direction) : ℕ → IterPath → ℕ → Result (Bool × IterPath)
  | 0, _, _ => .error .diverges
  | fuel + 1, path, slot => do
    let frame ← lastFrame path
    let node ← ns.get frame.id
    if slot > node.size then err .corruptLayout
    else match gapSlot slot node.size dir with
      | some slot => enterSlot ns dir path node slot
      | none =>
        if path.len = 1 then .ok (false, path)
        else do
          let path := path.truncate (path.len - 1)
          let frame ← lastFrame path
          positionLoop dir fuel path (gapAfter frame.leaf dir)

/-- `PositionAtOrAfter` and `PositionAtOrBefore`. -/
def positionAt (dir : Direction) (path : IterPath) (target slot : ℕ) : Result (Bool × IterPath) :=
  if target ≥ path.len then err .corruptLayout
  else positionLoop ns dir (target + 1) (path.truncate (target + 1)) slot

/-- `PositionAtOrAfter`. -/
def positionAtOrAfter := positionAt ns .ascend

/-- `PositionAtOrBefore`. -/
def positionAtOrBefore := positionAt ns .descend

/-- The loop of `SeekGreaterOrEqual` and `SeekLessOrEqual`. -/
def seekLoop (dir : Direction) (key : ByteView) : ℕ → IterPath → UInt64 → Result (Bool × IterPath)
  | 0, _, _ => .error .diverges
  | fuel + 1, path, id => do
    let node ← ns.get id
    if node.size = 0 then .ok (false, path)
    else do
      let leaf ← node.lookup key
      if leaf.2 = false then err .corruptLayout
      else do
        let path := path.pushNode id leaf.1
        let rep ← node.repAt leaf.1
        if rep.isChild then seekLoop dir key fuel path rep.childId
        else do
          let stored ← recordKey records rep.position
          match compareAndDiffBit key stored with
          | .error (.status .equalKeys) => .ok (true, path)
          | .error fault => .error fault
          | .ok cmp => do
            let slot ← insertSlotFromPath ns key cmp.compare cmp.diff 0 path.framesForInsert
            positionAt ns dir path slot.target slot.slot

/-- The move of `NextPath` and `PrevPath`; every turn shortens the path. -/
def movePath (dir : Direction) : ℕ → IterPath → Result (Bool × IterPath)
  | 0, path => .ok (false, path)
  | fuel + 1, path => do
    let frame ← lastFrame path
    let node ← ns.get frame.id
    match gapSlot (gapAfter frame.leaf dir) node.size dir with
    | some slot => enterSlot ns dir path node slot
    | none => movePath dir fuel (path.truncate (path.len - 1))

/-- `NextPath`. -/
def nextPath (path : IterPath) := movePath ns .ascend path.len path

/-- `PrevPath`. -/
def prevPath (path : IterPath) := movePath ns .descend path.len path

/-- `CurrentRecord`. -/
def currentRecord (path : IterPath) : Result (ByteView × Position) :=
  if path.len = 0 then err .corruptLayout
  else do
    let frame ← lastFrame path
    let node ← ns.get frame.id
    if frame.leaf ≥ node.size then err .corruptLayout
    else do
      let rep ← node.repAt frame.leaf
      if rep.isChild then err .corruptLayout
      else do
        let key ← recordKey records rep.position
        .ok (key, rep.position)

/-- A visitor with a state of its own; it goes on as long as it returns `true`. -/
abbrev Visitor (σ : Type) := ByteView → Position → σ → Bool × σ

/-- Whether the loop stops at a key because of its bound. -/
def beyond (bound : Option ByteView) (key : ByteView) : Direction → Bool
  | .ascend => match bound with
    | some upper => compareKeys key upper ≥ 0
    | none => false
  | .descend => match bound with
    | some lower => compareKeys key lower ≤ 0
    | none => false

/-- `AscendFromPath` and `DescendFromPath`, over the state of the visitor. -/
def fromPath {σ : Type} (dir : Direction) (bound : Option ByteView) (fn : Visitor σ) :
    ℕ → IterPath → Prog StatusCode σ Unit
  | 0, _ => throw .diverges
  | fuel + 1, path =>
    if path.len = 0 then pure ()
    else do
      let item ← Prog.ofOutcome (currentRecord records ns path)
      if beyond bound item.1 dir then pure ()
      else do
        let more ← modifyGet (fn item.1 item.2)
        if more = false then pure ()
        else do
          let moved ← Prog.ofOutcome (movePath ns dir path.len path)
          if moved.1 = false then pure ()
          else fromPath dir bound fn fuel moved.2

end Iter

/-- No loop over records takes more turns than there are slots. -/
def Index.visitFuel (ix : Index) : ℕ := ix.nodes.nodes.length * kMaxNodeReps + 1

section Public

variable (records : Position → Result ByteView) (ix : Index)

/-- `LeftmostRoot` and `RightmostRoot`. -/
def edgeRoot (dir : Direction) : Result (Bool × IterPath) := do
  let root ← ix.nodes.get ix.rootId
  if root.size = 0 then .ok (false, IterPath.reset)
  else edgeRecord ix.nodes dir (iterFuel ix.nodes) IterPath.reset ix.rootId

/-- `SeekGreaterOrEqual` and `SeekLessOrEqual`. -/
def seek (dir : Direction) (key : ByteView) : Result (Bool × IterPath) :=
  seekLoop records ix.nodes dir key (iterFuel ix.nodes) IterPath.reset ix.rootId

/-- What every public iterator does with the path it starts from. -/
def visitFrom {σ : Type} (dir : Direction) (bound : Option ByteView) (fn : Visitor σ)
    (start : Result (Bool × IterPath)) : Prog StatusCode σ Unit := do
  let found ← Prog.ofOutcome start
  if found.1 = false then pure ()
  else fromPath records ix.nodes dir bound fn ix.visitFuel found.2

variable {σ : Type}

/-- `Ascend`. -/
def ascend (fn : Visitor σ) : Prog StatusCode σ Unit :=
  visitFrom records ix .ascend none fn (edgeRoot ix .ascend)

/-- `AscendRange`. -/
def ascendRange (greaterOrEqual lessThan : ByteView) (fn : Visitor σ) : Prog StatusCode σ Unit := do
  Prog.ofOutcome (checkKeySize greaterOrEqual)
  Prog.ofOutcome (checkKeySize lessThan)
  visitFrom records ix .ascend (some lessThan) fn (seek records ix .ascend greaterOrEqual)

/-- `AscendLessThan`. -/
def ascendLessThan (pivot : ByteView) (fn : Visitor σ) : Prog StatusCode σ Unit := do
  Prog.ofOutcome (checkKeySize pivot)
  visitFrom records ix .ascend (some pivot) fn (edgeRoot ix .ascend)

/-- `AscendGreaterOrEqual`. -/
def ascendGreaterOrEqual (pivot : ByteView) (fn : Visitor σ) : Prog StatusCode σ Unit := do
  Prog.ofOutcome (checkKeySize pivot)
  visitFrom records ix .ascend none fn (seek records ix .ascend pivot)

/-- `Descend`. -/
def descend (fn : Visitor σ) : Prog StatusCode σ Unit :=
  visitFrom records ix .descend none fn (edgeRoot ix .descend)

/-- `DescendRange`. -/
def descendRange (lessOrEqual greaterThan : ByteView) (fn : Visitor σ) :
    Prog StatusCode σ Unit := do
  Prog.ofOutcome (checkKeySize lessOrEqual)
  Prog.ofOutcome (checkKeySize greaterThan)
  visitFrom records ix .descend (some greaterThan) fn (seek records ix .descend lessOrEqual)

/-- `DescendLessOrEqual`. -/
def descendLessOrEqual (pivot : ByteView) (fn : Visitor σ) : Prog StatusCode σ Unit := do
  Prog.ofOutcome (checkKeySize pivot)
  visitFrom records ix .descend none fn (seek records ix .descend pivot)

/-- `DescendGreaterThan`. -/
def descendGreaterThan (pivot : ByteView) (fn : Visitor σ) : Prog StatusCode σ Unit := do
  Prog.ofOutcome (checkKeySize pivot)
  visitFrom records ix .descend (some pivot) fn (edgeRoot ix .descend)

end Public

end MinweightStore.Minpatricia
