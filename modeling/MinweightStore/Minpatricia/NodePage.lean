import MinweightStore.Minpatricia.Key

/-!
# Node pages

The page of the index (`node_page.h`): a packed preorder table of routes over its reps, with the
walks that search, extend and shrink the table.  The fixed arrays are vectors, so every page has
all its slots; a read outside an array is `Fault.undefined`, a walk that stalls is
`Fault.diverges`.

* `Route.diff_make`, `Route.leftCount_make`, `Route.bit_make` — a packed route holds its two
  numbers and tests the slot `GetDiffBit` tests;
* `Route.route_agrees_with_diffBit` — the same at one place, with the steps of the left count;
* `Rep.makeRecord_eq`, `Rep.makeChild_eq` — an untagged word survives the tag bit.
-/

namespace MinweightStore.Minpatricia

/-! ### Reps -/

/-- `Rep`: a record position or a child page, told apart by the top bit. -/
structure Rep where
  bits : UInt64
  deriving DecidableEq, Repr

namespace Rep

def zero : Rep := ⟨0⟩

instance : Inhabited Rep := ⟨zero⟩

def makeRecord (pos : Position) : Result Rep :=
  if pos &&& kChildTag ≠ 0 then err .positionTag else .ok ⟨pos⟩

def makeChild (id : UInt64) : Result Rep :=
  if id &&& kChildTag ≠ 0 then err .positionTag else .ok ⟨kChildTag ||| id⟩

def isChild (rep : Rep) : Bool := rep.bits &&& kChildTag ≠ 0

def position (rep : Rep) : Position := rep.bits &&& ~~~kChildTag

def childId (rep : Rep) : UInt64 := rep.bits &&& ~~~kChildTag

end Rep

/-! ### Routes -/

/-- `Route`: 13 bits of byte index, 4 bits of bit operation, 15 bits of left count. -/
structure Route where
  bits : UInt32
  deriving DecidableEq, Repr

namespace Route

def kByteMask : UInt32 := 0x1FFF
def kBitOpOffset : UInt32 := 13
def kBitOpMask : UInt32 := 0xF
def kTermBitOp : UInt32 := 8
def kLeftCountOffset : UInt32 := 17

def zero : Route := ⟨0⟩

instance : Inhabited Route := ⟨zero⟩

/-- `Route::Make`. -/
def make (diff leftCount : ℕ) : Route :=
  let d := UInt32.ofNat diff
  let byteIdx := d / 9
  let bitIdx := d % 9
  let bitOp := if bitIdx ≠ 0 then 8 - bitIdx else kTermBitOp
  ⟨byteIdx ||| (bitOp <<< kBitOpOffset) ||| (UInt32.ofNat leftCount <<< kLeftCountOffset)⟩

/-- `Route::diff`, a 16-bit value. -/
def diff (r : Route) : ℕ :=
  let byteIdx := r.bits &&& kByteMask
  let bitOp := (r.bits >>> kBitOpOffset) &&& kBitOpMask
  if bitOp = kTermBitOp then (byteIdx * 9).toNat % 2 ^ 16
  else (byteIdx * 9 + 8 - bitOp).toNat % 2 ^ 16

/-- `Route::left_count`, a 16-bit value. -/
def leftCount (r : Route) : ℕ := (r.bits >>> kLeftCountOffset).toNat % 2 ^ 16

def incLeftCount (r : Route) : Route := ⟨r.bits + ((1 : UInt32) <<< kLeftCountOffset)⟩

def decLeftCount (r : Route) : Route := ⟨r.bits - ((1 : UInt32) <<< kLeftCountOffset)⟩

/-- `Route::bit`, the packed slot test. -/
def bit (r : Route) (key : ByteView) : ℕ :=
  let byteIdx := (r.bits &&& kByteMask).toNat
  if byteIdx ≥ key.length then 0
  else
    let byte := (key.getD byteIdx 0).toNat
    let bitOp := ((r.bits >>> kBitOpOffset) &&& kBitOpMask).toNat
    (bitOp >>> 3) ||| ((byte >>> (bitOp &&& 7)) &&& 1)

end Route

/-- `RouteFrame`. -/
structure RouteFrame where
  node : ℕ
  leafL : Int
  leafR : Int
  deriving DecidableEq, Repr

/-! ### Pages -/

/-- `NodePage`. -/
structure NodePage where
  size : ℕ
  firstPos : Position
  lastPos : Position
  routes : Vector Route (kMaxNodeReps - 1)
  reps : Vector Rep kMaxNodeReps
  deriving DecidableEq

/-- The loop `for (i = hi; i > lo; --i) a[i] = a[i - 1]`. -/
def shiftUp {α : Type} {n : ℕ} (a : Vector α n) (lo hi : ℕ) : Vector α n :=
  Vector.ofFn fun i => if lo < i.val ∧ i.val ≤ hi then a[i.val - 1] else a[i]

/-- The loop `for (i = lo; i < hi; ++i) a[i] = a[i + 1]`. -/
def shiftDown {α : Type} {n : ℕ} (a : Vector α n) (lo hi : ℕ) : Vector α n :=
  Vector.ofFn fun i => if lo ≤ i.val ∧ i.val < hi then a[i.val + 1]?.getD a[i] else a[i]

/-- The loop `for (i = hi; i > lo; --i) a[i + shift] = a[i]`. -/
def moveUp {α : Type} {n : ℕ} (a : Vector α n) (lo hi shift : ℕ) : Vector α n :=
  Vector.ofFn fun i =>
    if lo + shift < i.val ∧ i.val ≤ hi + shift then a[i.val - shift] else a[i]

/-- The loop `for (i = 0; i < count; ++i) a[start + i] = b[i]`. -/
def copyAt {α : Type} {n : ℕ} (a : Vector α n) (start : ℕ) (b : Vector α n) (count : ℕ) :
    Vector α n :=
  Vector.ofFn fun i =>
    if start ≤ i.val ∧ i.val < start + count then b[i.val - start] else a[i]

/-- The loop `for (i = lo; i < hi; ++i) a[i] = zero`. -/
def clearRange {α : Type} {n : ℕ} (zero : α) (a : Vector α n) (lo hi : ℕ) : Vector α n :=
  Vector.ofFn fun i => if lo ≤ i.val ∧ i.val < hi then zero else a[i]

namespace NodePage

/-- A page as `NodePage{}` initialises it. -/
def empty : NodePage :=
  ⟨0, 0, 0, Vector.replicate _ Route.zero, Vector.replicate _ Rep.zero⟩

instance : Inhabited NodePage := ⟨empty⟩

/-- The read `routes[i]`. -/
def routeAt (page : NodePage) (i : ℕ) : Result Route :=
  match page.routes[i]? with
  | some r => .ok r
  | none => .error .undefined

/-- The read `reps[i]`. -/
def repAt (page : NodePage) (i : ℕ) : Result Rep :=
  match page.reps[i]? with
  | some r => .ok r
  | none => .error .undefined

/-- The loop of `LookupRouteOnly`.  Every turn that does not stall moves `route_idx` up, so a walk
that is still going after `kMaxNodeReps` turns never ends. -/
def lookupLoop (page : NodePage) (key : ByteView) (fuel routeIdx leafBase : ℕ)
    (leafCount : Int) : Result ℕ :=
  if leafCount ≤ 1 then .ok leafBase
  else match fuel with
    | 0 => .error .diverges
    | fuel + 1 => do
      let route ← page.routeAt routeIdx
      let leftCount := route.leftCount
      if route.bit key = 0 then
        lookupLoop page key fuel (routeIdx + 1) leafBase leftCount
      else
        lookupLoop page key fuel (routeIdx + leftCount) (leafBase + leftCount)
          (leafCount - leftCount)

/-- `LookupRouteOnly`: the leaf, and whether the page has one. -/
def lookupRouteOnly (page : NodePage) (key : ByteView) : Result (ℕ × Bool) :=
  if page.size = 0 then .ok (0, false)
  else do
    let leaf ← page.lookupLoop key kMaxNodeReps 0 0 page.size
    .ok (leaf, true)

def lookup (page : NodePage) (key : ByteView) : Result (ℕ × Bool) := page.lookupRouteOnly key

/-- A push on the fixed stack of `kMaxNodeReps` frames. -/
def pushFrame (frame : RouteFrame) (stack : List RouteFrame) : Result (List RouteFrame) :=
  if stack.length < kMaxNodeReps then .ok (frame :: stack) else .error .undefined

/-- The push of a side of a branch, made when that side has a branch of its own. -/
def pushIf (cond : Prop) [Decidable cond] (frame : RouteFrame) (stack : List RouteFrame) :
    Result (List RouteFrame) :=
  if cond then pushFrame frame stack else .ok stack

/-- The loop of `RouteDiffs`; the head of the list is the top of the stack.  Each turn decodes one
route, so the fuel is the number of routes a page can have. -/
def routeDiffsLoop (page : NodePage) : ℕ → List RouteFrame → List ℕ → Result (List ℕ)
  | _, [], out => .ok out
  | 0, _ :: _, _ => .error .diverges
  | fuel + 1, frame :: stack, out => do
    if frame.node ≥ page.size - 1 then err .corruptLayout
    else
      let route ← page.routeAt frame.node
      let leftCount := route.leftCount
      let diffIdx : Int := frame.leafL + leftCount - 1
      if leftCount ≤ 0 ∨ diffIdx < frame.leafL ∨ diffIdx ≥ frame.leafR - 1 then
        err .corruptLayout
      else
        let out := out.set diffIdx.toNat route.diff
        let rightIdx := frame.node + leftCount
        let stack ← pushIf (diffIdx + 1 < frame.leafR - 1)
          ⟨rightIdx, diffIdx + 1, frame.leafR⟩ stack
        let stack ← pushIf (frame.leafL < diffIdx)
          ⟨frame.node + 1, frame.leafL, diffIdx + 1⟩ stack
        routeDiffsLoop page fuel stack out

/-- `RouteDiffs(out)`: the decoded diffs, written over `out`. -/
def routeDiffs (page : NodePage) (out : List ℕ) : Result (List ℕ) :=
  if out.length + 1 ≠ page.size then err .corruptLayout
  else if page.size ≤ 1 then .ok out
  else page.routeDiffsLoop kMaxNodeReps [⟨0, 0, page.size⟩] out

/-- The loop of `InsertSlotAbovePath`. -/
def insertSlotAboveLoop (page : NodePage) (key : ByteView) (diff wantLeaf : ℕ)
    (fuel routeIdx leafBase leafCount : ℕ) : Result (ℕ × Bool) :=
  if leafCount ≤ 1 then
    if leafBase ≠ wantLeaf then err .corruptLayout else .ok (0, false)
  else match fuel with
    | 0 => .error .diverges
    | fuel + 1 => do
      if routeIdx ≥ page.size - 1 then err .corruptLayout
      else
        let route ← page.routeAt routeIdx
        let leftCount := route.leftCount
        if leftCount ≤ 0 ∨ leftCount ≥ leafCount then err .corruptLayout
        else if diff < route.diff then
          if getDiffBit key diff = 0 then .ok (leafBase, true)
          else .ok (leafBase + leafCount, true)
        else if route.bit key = 0 then
          insertSlotAboveLoop page key diff wantLeaf fuel (routeIdx + 1) leafBase leftCount
        else
          insertSlotAboveLoop page key diff wantLeaf fuel (routeIdx + leftCount)
            (leafBase + leftCount) (leafCount - leftCount)

/-- `InsertSlotAbovePath`. -/
def insertSlotAbovePath (page : NodePage) (key : ByteView) (diff wantLeaf : ℕ) :
    Result (ℕ × Bool) :=
  if page.size = 0 then .ok (0, false)
  else if wantLeaf ≥ page.size then err .corruptLayout
  else page.insertSlotAboveLoop key diff wantLeaf kMaxNodeReps 0 0 page.size

/-- `InsertRouteAt`. -/
def insertRouteAt (page : NodePage) (routeIdx diff leftCount : ℕ) (leftAncestors : List ℕ) :
    NodePage :=
  let routes := shiftUp page.routes routeIdx (page.size - 1)
  let routes := routes.setIfInBounds routeIdx (Route.make diff leftCount)
  { page with
    routes := leftAncestors.foldl
      (fun rs a => rs.setIfInBounds a (rs[a]?.getD Route.zero).incLeftCount) routes }

/-- The loop of `InsertRoute`. -/
def insertRouteLoop (page : NodePage) (slot : ℕ) (key : ByteView) (diff : ℕ)
    (fuel routeIdx leafBase leafCount : ℕ) (leftAncestors : List ℕ) : Result NodePage :=
  if leafCount ≤ 1 then
    let expectedSlot := if getDiffBit key diff ≠ 0 then leafBase + 1 else leafBase
    if slot ≠ expectedSlot then err .corruptLayout
    else .ok (page.insertRouteAt routeIdx diff 1 leftAncestors)
  else match fuel with
    | 0 => .error .diverges
    | fuel + 1 => do
      if routeIdx ≥ page.size - 1 then err .corruptLayout
      else
        let route ← page.routeAt routeIdx
        let leftCount := route.leftCount
        if leftCount ≤ 0 ∨ leftCount ≥ leafCount then err .corruptLayout
        else if diff < route.diff then
          let newLeftCount := if getDiffBit key diff ≠ 0 then leafCount else 1
          let expectedSlot := if getDiffBit key diff ≠ 0 then leafBase + leafCount else leafBase
          if slot ≠ expectedSlot then err .corruptLayout
          else .ok (page.insertRouteAt routeIdx diff newLeftCount leftAncestors)
        else if route.bit key = 0 then
          insertRouteLoop page slot key diff fuel (routeIdx + 1) leafBase leftCount
            (leftAncestors ++ [routeIdx])
        else
          insertRouteLoop page slot key diff fuel (routeIdx + leftCount)
            (leafBase + leftCount) (leafCount - leftCount) leftAncestors

/-- `InsertRoute`. -/
def insertRoute (page : NodePage) (slot : ℕ) (key : ByteView) (diff : ℕ) : Result NodePage :=
  if page.size ≤ 0 ∨ page.size ≥ kMaxNodeReps then err .corruptLayout
  else page.insertRouteLoop slot key diff kMaxNodeReps 0 0 page.size []

/-- `DeleteRouteAt`. -/
def deleteRouteAt (page : NodePage) (routeIdx : ℕ) (leftAncestors : List ℕ) : NodePage :=
  let routes := shiftDown page.routes routeIdx (page.size - 2)
  let routes := routes.setIfInBounds (page.size - 2) Route.zero
  { page with
    routes := leftAncestors.foldl
      (fun rs a => rs.setIfInBounds a (rs[a]?.getD Route.zero).decLeftCount) routes }

/-- The loop of `DeleteRoute`; `parent` is `parent_route_idx`, with `none` for its initial `-1`. -/
def deleteRouteLoop (page : NodePage) (slot fuel routeIdx leafBase leafCount : ℕ)
    (parent : Option ℕ) (leftAncestors : List ℕ) : Result NodePage :=
  if leafCount ≤ 1 then
    match parent with
    | none => err .corruptLayout
    | some parentRouteIdx =>
      if leafBase ≠ slot then err .corruptLayout
      else .ok (page.deleteRouteAt parentRouteIdx leftAncestors)
  else match fuel with
    | 0 => .error .diverges
    | fuel + 1 => do
      if routeIdx ≥ page.size - 1 then err .corruptLayout
      else
        let route ← page.routeAt routeIdx
        let leftCount := route.leftCount
        if leftCount ≤ 0 ∨ leftCount ≥ leafCount then err .corruptLayout
        else if slot < leafBase + leftCount then
          deleteRouteLoop page slot fuel (routeIdx + 1) leafBase leftCount (some routeIdx)
            (if leftCount > 1 then leftAncestors ++ [routeIdx] else leftAncestors)
        else
          deleteRouteLoop page slot fuel (routeIdx + leftCount) (leafBase + leftCount)
            (leafCount - leftCount) (some routeIdx) leftAncestors

/-- `DeleteRoute`. -/
def deleteRoute (page : NodePage) (slot : ℕ) : Result NodePage :=
  if page.size ≤ 1 ∨ slot ≥ page.size then err .corruptLayout
  else page.deleteRouteLoop slot kMaxNodeReps 0 0 page.size none []

/-- The loop of `IsDirectRoutePair`.  A turn that does not stall only pushes frames of later
routes, so more than `2 ^ kMaxNodeReps` turns mean a stalled walk. -/
def directRoutePairLoop (page : NodePage) (diffIdx : Int) : ℕ → List RouteFrame → Result Bool
  | _, [] => .ok false
  | 0, _ :: _ => .error .diverges
  | fuel + 1, frame :: stack => do
    let route ← page.routeAt frame.node
    let leftCount := route.leftCount
    let currentDiff : Int := frame.leafL + leftCount - 1
    if currentDiff = diffIdx then
      .ok (frame.leafL = diffIdx ∧ frame.leafR = diffIdx + 2)
    else
      let rightIdx := frame.node + leftCount
      let stack ← pushIf (currentDiff + 1 < frame.leafR - 1)
        ⟨rightIdx, currentDiff + 1, frame.leafR⟩ stack
      let stack ← pushIf (frame.leafL < currentDiff)
        ⟨frame.node + 1, frame.leafL, currentDiff + 1⟩ stack
      directRoutePairLoop page diffIdx fuel stack

/-- `IsDirectRoutePair`. -/
def isDirectRoutePair (page : NodePage) (diffIdx : Int) : Result Bool :=
  if diffIdx < 0 ∨ diffIdx ≥ page.size - 1 then .ok false
  else page.directRoutePairLoop diffIdx (2 ^ kMaxNodeReps) [⟨0, 0, page.size⟩]

end NodePage

/-! ### Tagged words -/

theorem and_kChildTag_eq_zero {w : UInt64} (h : w.toNat < 2 ^ 63) : w &&& kChildTag = 0 := by
  apply UInt64.toNat_inj.mp
  rw [UInt64.toNat_and, show kChildTag.toNat = 2 ^ 63 by decide, Nat.and_two_pow,
    Nat.testBit_lt_two_pow h]
  rfl

theorem and_not_kChildTag {w : UInt64} (h : w.toNat < 2 ^ 63) : w &&& ~~~kChildTag = w := by
  apply UInt64.toNat_inj.mp
  rw [UInt64.toNat_and, show (~~~kChildTag).toNat = 2 ^ 63 - 1 by decide,
    Nat.and_two_pow_sub_one_eq_mod, Nat.mod_eq_of_lt h]

theorem Rep.makeRecord_eq {pos : Position} (h : pos.toNat < 2 ^ 63) :
    Rep.makeRecord pos = .ok ⟨pos⟩ := by
  rw [Rep.makeRecord, if_neg (by simp [and_kChildTag_eq_zero h])]

theorem Rep.makeRecord_err {pos : Position} (h : ¬ pos.toNat < 2 ^ 63) :
    Rep.makeRecord pos = err .positionTag := by
  rw [Rep.makeRecord, if_pos]
  intro h0
  have := congrArg UInt64.toNat h0
  rw [UInt64.toNat_and, show kChildTag.toNat = 2 ^ 63 by decide, Nat.and_two_pow] at this
  have hlt : pos.toNat < 2 ^ 64 := pos.toNat_lt
  have hbit : pos.toNat.testBit 63 = true := by
    rw [Nat.testBit_eq_decide_div_mod_eq, decide_eq_true_eq]
    omega
  rw [hbit] at this
  exact absurd this (by decide)

/-- An untagged record rep is no child and keeps its position. -/
theorem Rep.record_spec {pos : Position} (h : pos.toNat < 2 ^ 63) :
    (Rep.mk pos).isChild = false ∧ (Rep.mk pos).position = pos :=
  ⟨by simp [Rep.isChild, and_kChildTag_eq_zero h], and_not_kChildTag h⟩

theorem Rep.makeChild_eq {id : UInt64} (h : id.toNat < 2 ^ 63) :
    Rep.makeChild id = .ok ⟨kChildTag ||| id⟩ := by
  rw [Rep.makeChild, if_neg (by simp [and_kChildTag_eq_zero h])]

/-- A child rep is a child and keeps its page number. -/
theorem Rep.child_spec {id : UInt64} (h : id.toNat < 2 ^ 63) :
    (Rep.mk (kChildTag ||| id)).isChild = true ∧ (Rep.mk (kChildTag ||| id)).childId = id := by
  have hor : (kChildTag ||| id).toNat = 2 ^ 63 + id.toNat := by
    rw [UInt64.toNat_or, show kChildTag.toNat = 1 <<< 63 by decide,
      ← Nat.shiftLeft_add_eq_or_of_lt h]
    rfl
  constructor
  · have hne : (kChildTag ||| id) &&& kChildTag ≠ 0 := by
      intro h0
      have h1 := congrArg UInt64.toNat h0
      rw [UInt64.toNat_and, show kChildTag.toNat = 2 ^ 63 by decide, Nat.and_two_pow, hor,
        Nat.testBit_eq_decide_div_mod_eq] at h1
      have hdiv : (2 ^ 63 + id.toNat) / 2 ^ 63 = 1 := by omega
      rw [hdiv] at h1
      exact absurd h1 (by decide)
    simpa [Rep.isChild] using hne
  · apply UInt64.toNat_inj.mp
    show ((kChildTag ||| id) &&& ~~~kChildTag).toNat = id.toNat
    rw [UInt64.toNat_and, show (~~~kChildTag).toNat = 2 ^ 63 - 1 by decide,
      Nat.and_two_pow_sub_one_eq_mod, hor]
    omega

/-! ### Packed routes -/

namespace Route

/-- The three fields of a packed route. -/
theorem toNat_make {d lc : ℕ} (hd : d < 2 ^ 16) (hlc : lc < 2 ^ 15) :
    (make d lc).bits.toNat
      = d / 9 + 2 ^ 13 * (if d % 9 ≠ 0 then 8 - d % 9 else 8) + 2 ^ 17 * lc := by
  have hdn : (UInt32.ofNat d).toNat = d := by
    rw [UInt32.toNat_ofNat']
    exact Nat.mod_eq_of_lt (by omega)
  have hln : (UInt32.ofNat lc).toNat = lc := by
    rw [UInt32.toNat_ofNat']
    exact Nat.mod_eq_of_lt (by omega)
  have hb : (UInt32.ofNat d / 9).toNat = d / 9 := by
    rw [UInt32.toNat_div, hdn]
    rfl
  have hm : (UInt32.ofNat d % 9).toNat = d % 9 := by
    rw [UInt32.toNat_mod, hdn]
    rfl
  have hop : (if UInt32.ofNat d % 9 ≠ 0 then 8 - UInt32.ofNat d % 9 else kTermBitOp).toNat
      = if d % 9 ≠ 0 then 8 - d % 9 else 8 := by
    have hiff : (UInt32.ofNat d % 9 ≠ 0) ↔ (d % 9 ≠ 0) := by
      rw [not_iff_not, ← UInt32.toNat_inj, hm]
      rfl
    by_cases h : d % 9 ≠ 0
    · rw [if_pos (hiff.mpr h), if_pos h, UInt32.toNat_sub_of_le]
      · rw [hm]
        rfl
      · rw [UInt32.le_iff_toNat_le, hm]
        show d % 9 ≤ 8
        omega
    · rw [if_neg (fun h' => h (hiff.mp h')), if_neg h]
      rfl
  have hop16 : (if d % 9 ≠ 0 then 8 - d % 9 else 8) < 16 := by split <;> omega
  generalize hopv : (if d % 9 ≠ 0 then 8 - d % 9 else 8) = op at *
  simp only [make]
  rw [UInt32.toNat_or, UInt32.toNat_or, UInt32.toNat_shiftLeft, UInt32.toNat_shiftLeft, hop, hb,
    hln, show kBitOpOffset.toNat = 13 by decide, show kLeftCountOffset.toNat = 17 by decide,
    Nat.shiftLeft_eq, Nat.shiftLeft_eq, Nat.mod_eq_of_lt (show op * 2 ^ (13 % 32) < 2 ^ 32 by norm_num; omega),
    Nat.mod_eq_of_lt (show lc * 2 ^ (17 % 32) < 2 ^ 32 by norm_num; omega)]
  have h1 : d / 9 ||| op * 2 ^ (13 % 32) = d / 9 + op * 2 ^ 13 := by
    rw [Nat.or_comm, show op * 2 ^ (13 % 32) = op <<< 13 by rw [Nat.shiftLeft_eq],
      ← Nat.shiftLeft_add_eq_or_of_lt (show d / 9 < 2 ^ 13 by omega), Nat.shiftLeft_eq]
    omega
  rw [h1, Nat.or_comm, show lc * 2 ^ (17 % 32) = lc <<< 17 by rw [Nat.shiftLeft_eq],
    ← Nat.shiftLeft_add_eq_or_of_lt (show d / 9 + op * 2 ^ 13 < 2 ^ 17 by omega),
    Nat.shiftLeft_eq]
  omega

theorem toNat_byteIdx (r : Route) : (r.bits &&& kByteMask).toNat = r.bits.toNat % 2 ^ 13 := by
  rw [UInt32.toNat_and, show kByteMask.toNat = 2 ^ 13 - 1 by decide,
    Nat.and_two_pow_sub_one_eq_mod]

theorem toNat_bitOp (r : Route) :
    ((r.bits >>> kBitOpOffset) &&& kBitOpMask).toNat = r.bits.toNat / 2 ^ 13 % 2 ^ 4 := by
  rw [UInt32.toNat_and, show kBitOpMask.toNat = 2 ^ 4 - 1 by decide,
    Nat.and_two_pow_sub_one_eq_mod, UInt32.toNat_shiftRight,
    show kBitOpOffset.toNat % 32 = 13 by decide, Nat.shiftRight_eq_div_pow]

/-- `left_count` gives the packed left count back. -/
theorem leftCount_make {d lc : ℕ} (hd : d < 2 ^ 16) (hlc : lc < 2 ^ 15) :
    (make d lc).leftCount = lc := by
  have hop16 : (if d % 9 ≠ 0 then 8 - d % 9 else 8) < 16 := by split <;> omega
  rw [leftCount, UInt32.toNat_shiftRight, show kLeftCountOffset.toNat % 32 = 17 by decide,
    Nat.shiftRight_eq_div_pow, toNat_make hd hlc]
  omega

/-- `diff` gives the packed diff back. -/
theorem diff_make {d lc : ℕ} (hd : d < 2 ^ 16) (hlc : lc < 2 ^ 15) : (make d lc).diff = d := by
  have hbyte : ((make d lc).bits &&& kByteMask).toNat = d / 9 := by
    have hop16 : (if d % 9 ≠ 0 then 8 - d % 9 else 8) < 16 := by split <;> omega
    rw [toNat_byteIdx, toNat_make hd hlc]
    omega
  have hop : (((make d lc).bits >>> kBitOpOffset) &&& kBitOpMask).toNat
      = if d % 9 ≠ 0 then 8 - d % 9 else 8 := by
    have hop16 : (if d % 9 ≠ 0 then 8 - d % 9 else 8) < 16 := by split <;> omega
    rw [toNat_bitOp, toNat_make hd hlc]
    omega
  have hmul : (((make d lc).bits &&& kByteMask) * 9).toNat = d / 9 * 9 := by
    rw [UInt32.toNat_mul, hbyte]
    exact Nat.mod_eq_of_lt (show d / 9 * 9 < 2 ^ 32 by omega)
  simp only [diff]
  by_cases h : d % 9 = 0
  · rw [if_neg (by simp [h])] at hop
    rw [if_pos (UInt32.toNat_inj.mp hop), hmul]
    omega
  · rw [if_pos h] at hop
    rw [if_neg]
    · rw [UInt32.toNat_sub_of_le]
      · rw [UInt32.toNat_add, hmul, hop, show (8 : UInt32).toNat = 8 from rfl]
        omega
      · rw [UInt32.le_iff_toNat_le, UInt32.toNat_add, hmul, hop,
          show (8 : UInt32).toNat = 8 from rfl]
        omega
    · intro h8
      have := congrArg UInt32.toNat h8
      rw [hop, show kTermBitOp.toNat = 8 by decide] at this
      omega

/-- **The packed test is the plain one.** -/
theorem bit_make {d lc : ℕ} (hd : d < 2 ^ 16) (hlc : lc < 2 ^ 15) (key : ByteView) :
    (make d lc).bit key = getDiffBit key d := by
  have hop16 : (if d % 9 ≠ 0 then 8 - d % 9 else 8) < 16 := by split <;> omega
  have hbyte : ((make d lc).bits &&& kByteMask).toNat = d / 9 := by
    rw [toNat_byteIdx, toNat_make hd hlc]
    omega
  have hop : (((make d lc).bits >>> kBitOpOffset) &&& kBitOpMask).toNat
      = if d % 9 ≠ 0 then 8 - d % 9 else 8 := by
    rw [toNat_bitOp, toNat_make hd hlc]
    omega
  simp only [bit, getDiffBit, hbyte, hop]
  by_cases hk : d / 9 ≥ key.length
  · rw [if_pos hk]
    split
    · rw [if_neg (by omega)]
    · rfl
  · rw [if_neg hk]
    by_cases h : d % 9 = 0
    · rw [if_neg (by simp [h]), if_pos h, if_pos (by omega)]
      have hle : ((key.getD (d / 9) 0).toNat >>> (8 &&& 7)) &&& 1 ≤ 1 := Nat.and_le_right
      generalize ((key.getD (d / 9) 0).toNat >>> (8 &&& 7)) &&& 1 = b at *
      interval_cases b <;> decide
    · rw [if_pos h, if_neg h]
      have hlt : 8 - d % 9 < 2 ^ 3 := by omega
      have h3 : (8 - d % 9) >>> 3 = 0 := by
        rw [Nat.shiftRight_eq_div_pow]
        exact Nat.div_eq_of_lt hlt
      have h7 : (8 - d % 9) &&& 7 = 8 - d % 9 := by
        rw [show 7 = 2 ^ 3 - 1 by decide, Nat.and_two_pow_sub_one_eq_mod, Nat.mod_eq_of_lt hlt]
      rw [h3, h7, Nat.zero_or, if_neg hk]

/-- One more on the left. -/
theorem incLeftCount_make {d lc : ℕ} (hd : d < 2 ^ 16) (hlc : lc + 1 < 2 ^ 15) :
    (make d lc).incLeftCount = make d (lc + 1) := by
  have hop16 : (if d % 9 ≠ 0 then 8 - d % 9 else 8) < 16 := by split <;> omega
  have hone : ((1 : UInt32) <<< kLeftCountOffset).toNat = 2 ^ 17 := by decide
  have hbits : (make d lc).bits + ((1 : UInt32) <<< kLeftCountOffset) = (make d (lc + 1)).bits := by
    apply UInt32.toNat_inj.mp
    rw [UInt32.toNat_add, hone, toNat_make hd (by omega), toNat_make hd hlc]
    omega
  rw [incLeftCount, hbits]

/-- One less on the left. -/
theorem decLeftCount_make {d : ℕ} (lc : ℕ) (hd : d < 2 ^ 16) (hlc : lc + 1 < 2 ^ 15) :
    (make d (lc + 1)).decLeftCount = make d lc := by
  rw [← incLeftCount_make hd hlc, decLeftCount, incLeftCount, UInt32.add_sub_cancel]

/-- **A route that tests a diff** and counts the leaves on its left. -/
structure Tests (r : Route) (d lc : ℕ) : Prop where
  diff_eq : r.diff = d
  leftCount_eq : r.leftCount = lc
  bit_eq : ∀ key, r.bit key = getDiffBit key d

theorem tests_make {d lc : ℕ} (hd : d < 2 ^ 16) (hlc : lc < 2 ^ 15) : Tests (make d lc) d lc :=
  ⟨diff_make hd hlc, leftCount_make hd hlc, bit_make hd hlc⟩

/-- **The packed route is the plain bit test**: the two numbers come back, the test is that of
`GetDiffBit`, and a step of the count leaves the rest alone. -/
theorem route_agrees_with_diffBit {d lc : ℕ} (hd : d < 2 ^ 16) (hlc : lc < 2 ^ 15) :
    Tests (make d lc) d lc ∧
      (lc + 1 < 2 ^ 15 → Tests (make d lc).incLeftCount d (lc + 1)) ∧
      (0 < lc → Tests (make d lc).decLeftCount d (lc - 1)) := by
  refine ⟨tests_make hd hlc, fun hinc => ?_, fun hdec => ?_⟩
  · rw [incLeftCount_make hd hinc]
    exact tests_make hd hinc
  · obtain ⟨n, rfl⟩ := Nat.exists_eq_succ_of_ne_zero (Nat.ne_of_gt hdec)
    rw [decLeftCount_make n hd hlc]
    exact tests_make hd (Nat.lt_of_succ_lt hlc)

/-- The largest diff, and a count in the middle. -/
theorem route_agrees_with_diffBit_max : Tests (make 65535 7) 65535 7 ∧
    Tests (make 65535 7).incLeftCount 65535 8 ∧ Tests (make 65535 7).decLeftCount 65535 6 := by
  have hd : 65535 < 2 ^ 16 := by decide
  have hlc : 7 < 2 ^ 15 := by decide
  obtain ⟨hmake, hinc, hdec⟩ := route_agrees_with_diffBit hd hlc
  exact ⟨hmake, hinc (by decide), hdec (by decide)⟩

end Route

end MinweightStore.Minpatricia
