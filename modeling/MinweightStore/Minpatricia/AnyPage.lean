import Mathlib.Logic.Relation
import MinweightStore.Minpatricia.NodePage

/-!
# Walks of any page

`LookupRouteOnly` and `IsDirectRoutePair` on pages with arbitrary route words.  Neither checks the
left counts it meets, as `RouteDiffs`, `InsertSlotAbovePath`, `InsertRoute` and `DeleteRoute` do.

* `LookupTurn`, `LookupStays` — the turns of a lookup, none of which goes wrong;
* `lookupEnds_iff` — a lookup ends within its page exactly then;
* `PairTurn`, `PairStays`, `pairEnds_iff` — the same for the stack walk;
* `ProperAt`, `routeDiffs_accepts_iff` — the left counts that `RouteDiffs` accepts; no turn goes wrong
  on them;
* `PairMeets`, `pairMeets_of_improper` — on all others a stack walk runs into what it should refuse;
* `page_walks_end` — **when both walks end within the page**.
-/

namespace MinweightStore.Minpatricia

open Relation (ReflTransGen)

namespace NodePage

/-- The routes the loop of `LookupRouteOnly` reads. -/
def lookupReads (page : NodePage) (key : ByteView) (fuel routeIdx : ℕ) (leafCount : Int) : List ℕ :=
  if leafCount ≤ 1 then []
  else match fuel with
    | 0 => []
    | fuel + 1 => routeIdx :: match page.routeAt routeIdx with
      | .error _ => []
      | .ok route =>
        if route.bit key = 0 then lookupReads page key fuel (routeIdx + 1) route.leftCount
        else lookupReads page key fuel (routeIdx + route.leftCount) (leafCount - route.leftCount)

/-- The diff index of a frame of the stack walk. -/
def currentDiff (frame : RouteFrame) (route : Route) : Int := frame.leafL + route.leftCount - 1

/-- The frames a turn of the stack walk pushes, the top one first. -/
def nextFrames (frame : RouteFrame) (route : Route) : List RouteFrame :=
  (if frame.leafL < currentDiff frame route then
    [⟨frame.node + 1, frame.leafL, currentDiff frame route + 1⟩] else []) ++
  (if currentDiff frame route + 1 < frame.leafR - 1 then
    [⟨frame.node + route.leftCount, currentDiff frame route + 1, frame.leafR⟩] else [])

/-- The routes the loop of `IsDirectRoutePair` reads. -/
def directRoutePairReads (page : NodePage) (diffIdx : Int) : ℕ → List RouteFrame → List ℕ
  | _, [] => []
  | 0, _ :: _ => []
  | fuel + 1, frame :: stack => frame.node :: match page.routeAt frame.node with
    | .error _ => []
    | .ok route =>
      if currentDiff frame route = diffIdx then []
      else directRoutePairReads page diffIdx fuel (nextFrames frame route ++ stack)

end NodePage

/-! ### Lookups -/

/-- **A lookup ends within its page**: it reads only routes below `size - 1` and returns a leaf
below `size`. -/
def LookupEnds (page : NodePage) (key : ByteView) : Prop :=
  (∃ leaf, page.lookupRouteOnly key = .ok (leaf, true) ∧ leaf < page.size) ∧
    ∀ i ∈ page.lookupReads key kMaxNodeReps 0 page.size, i < page.size - 1

/-- The loop variables of a lookup. -/
structure Descent where
  routeIdx : ℕ
  leafBase : ℕ
  leafCount : Int

/-- **A turn of a lookup.** -/
inductive LookupTurn (page : NodePage) (key : ByteView) : Descent → Descent → Prop where
  | left {i l : ℕ} {c : Int} {route : Route} (more : 1 < c) (read : page.routeAt i = .ok route)
      (bit : route.bit key = 0) : LookupTurn page key ⟨i, l, c⟩ ⟨i + 1, l, route.leftCount⟩
  | right {i l : ℕ} {c : Int} {route : Route} (more : 1 < c) (read : page.routeAt i = .ok route)
      (bit : route.bit key ≠ 0) :
      LookupTurn page key ⟨i, l, c⟩ ⟨i + route.leftCount, l + route.leftCount, c - route.leftCount⟩

/-- **A turn does not go wrong**: its route is one of the page, and if it goes right it passes a leaf
and stays within the page. -/
def Descent.Inside (page : NodePage) (key : ByteView) (s : Descent) : Prop :=
  1 < s.leafCount → s.routeIdx < page.size - 1 ∧
    ∀ route, page.routeAt s.routeIdx = .ok route → route.bit key ≠ 0 →
      0 < route.leftCount ∧ s.leafBase + route.leftCount < page.size

/-- **No turn of a lookup goes wrong.** -/
def LookupStays (page : NodePage) (key : ByteView) : Prop :=
  ∀ s, ReflTransGen (LookupTurn page key) ⟨0, 0, page.size⟩ s → s.Inside page key

section Lookup

variable {page : NodePage} {key : ByteView} {fuel i l leaf : ℕ} {c : Int} {route : Route}

theorem routeAt_ok (page : NodePage) {i : ℕ} (hi : i < kMaxNodeReps - 1) : ∃ route, page.routeAt i = .ok route :=
  ⟨page.routes[i], by rw [NodePage.routeAt, Vector.getElem?_eq_getElem hi]⟩

/-- One turn of the loop, to the left. -/
theorem lookupLoop_left (fuel l : ℕ) (hc : 1 < c) (hr : page.routeAt i = .ok route) (hb : route.bit key = 0) :
    page.lookupLoop key (fuel + 1) i l c = page.lookupLoop key fuel (i + 1) l route.leftCount ∧
      page.lookupReads key (fuel + 1) i c =
        i :: page.lookupReads key fuel (i + 1) route.leftCount := by
  have hc' : ¬c ≤ 1 := by omega
  rw [NodePage.lookupLoop, NodePage.lookupReads, if_neg hc', if_neg hc', hr]
  exact ⟨if_pos hb, congrArg (i :: ·) (if_pos hb)⟩

/-- One turn of the loop, to the right. -/
theorem lookupLoop_right (fuel l : ℕ) (hc : 1 < c) (hr : page.routeAt i = .ok route) (hb : route.bit key ≠ 0) :
    page.lookupLoop key (fuel + 1) i l c = page.lookupLoop key fuel (i + route.leftCount)
        (l + route.leftCount) (c - route.leftCount) ∧
      page.lookupReads key (fuel + 1) i c =
        i :: page.lookupReads key fuel (i + route.leftCount) (c - route.leftCount) := by
  have hc' : ¬c ≤ 1 := by omega
  rw [NodePage.lookupLoop, NodePage.lookupReads, if_neg hc', if_neg hc', hr]
  exact ⟨if_neg hb, congrArg (i :: ·) (if_neg hb)⟩

/-- A turn over a left count of zero to the right stands still for ever, by induction on the turns. -/
theorem lookupLoop_stalls (hc : 1 < c) (hr : page.routeAt i = .ok route) (hb : route.bit key ≠ 0)
    (hzero : route.leftCount = 0) (fuel : ℕ) :
    page.lookupLoop key fuel i l c = .error .diverges := by
  induction fuel with
  | zero => rw [NodePage.lookupLoop, if_neg (by omega)]
  | succ fuel ih =>
    rw [(lookupLoop_right fuel l hc hr hb).1, hzero, Nat.add_zero, Nat.add_zero, Nat.cast_zero, sub_zero, ih]

/-- A lookup that ends: no turn has gone wrong, by induction on the turns that are left. -/
theorem lookupLoop_inside (h : page.lookupLoop key fuel i l c = .ok leaf) (hleaf : leaf < page.size)
    (hreads : ∀ j ∈ page.lookupReads key fuel i c, j < page.size - 1) :
    l ≤ leaf ∧ ∀ s, ReflTransGen (LookupTurn page key) ⟨i, l, c⟩ s → s.Inside page key := by
  induction fuel generalizing i l c with
  | zero =>
    rw [NodePage.lookupLoop] at h
    split at h
    · rename_i hc
      refine ⟨Nat.le_of_eq (Except.ok.inj h), fun s hs => ?_⟩
      rcases hs.cases_head with rfl | ⟨_, hturn, _⟩
      · exact fun hmore => absurd hmore (by show ¬1 < c; omega)
      · cases hturn <;> omega
    · exact absurd h (by simp)
  | succ fuel ih =>
    by_cases hc : c ≤ 1
    · rw [NodePage.lookupLoop, if_pos hc] at h
      refine ⟨Nat.le_of_eq (Except.ok.inj h), fun s hs => ?_⟩
      rcases hs.cases_head with rfl | ⟨_, hturn, _⟩
      · exact fun hmore => absurd hmore (by show ¬1 < c; omega)
      · cases hturn <;> omega
    · have hc' : 1 < c := by omega
      cases hr : page.routeAt i with
      | error fault =>
        rw [NodePage.lookupLoop, if_neg hc, hr] at h
        exact absurd h (by simp [bind, Except.bind])
      | ok route =>
        by_cases hb : route.bit key = 0
        · obtain ⟨hloop, hread⟩ := lookupLoop_left fuel l hc' hr hb
          rw [hloop] at h
          rw [hread] at hreads
          obtain ⟨hi, hreads'⟩ := List.forall_mem_cons.mp hreads
          obtain ⟨hle, hinside⟩ := ih h hreads'
          refine ⟨hle, fun s hs => ?_⟩
          rcases hs.cases_head with rfl | ⟨s', hturn, hs'⟩
          · exact fun _ => ⟨hi, fun route' hr' hb' => by
              obtain rfl := Except.ok.inj (hr.symm.trans hr')
              exact absurd hb hb'⟩
          · cases hturn with
            | left _ hr' _ =>
              obtain rfl := Except.ok.inj (hr.symm.trans hr')
              exact hinside s hs'
            | right _ hr' hb' =>
              obtain rfl := Except.ok.inj (hr.symm.trans hr')
              exact absurd hb hb'
        · have hpos : 0 < route.leftCount := by
            by_contra hzero
            rw [lookupLoop_stalls hc' hr hb (by omega)] at h
            exact absurd h (by simp)
          obtain ⟨hloop, hread⟩ := lookupLoop_right fuel l hc' hr hb
          rw [hloop] at h
          rw [hread] at hreads
          obtain ⟨hi, hreads'⟩ := List.forall_mem_cons.mp hreads
          obtain ⟨hle, hinside⟩ := ih h hreads'
          refine ⟨by omega, fun s hs => ?_⟩
          rcases hs.cases_head with rfl | ⟨s', hturn, hs'⟩
          · exact fun _ => ⟨hi, fun route' hr' _ => by
              obtain rfl := Except.ok.inj (hr.symm.trans hr')
              exact ⟨hpos, by show l + _ < _; omega⟩⟩
          · cases hturn with
            | left _ hr' hb' =>
              obtain rfl := Except.ok.inj (hr.symm.trans hr')
              exact absurd hb' hb
            | right _ hr' _ =>
              obtain rfl := Except.ok.inj (hr.symm.trans hr')
              exact hinside s hs'

/-- If no turn goes wrong, the lookup ends: every turn moves on in the table, so the routes that are
left are enough turns. -/
theorem lookupLoop_ends (hsize : page.size ≤ kMaxNodeReps) (hl : l < page.size)
    (hfuel : page.size ≤ i + fuel)
    (h : ∀ s, ReflTransGen (LookupTurn page key) ⟨i, l, c⟩ s → s.Inside page key) :
    (∃ leaf, page.lookupLoop key fuel i l c = .ok leaf ∧ leaf < page.size) ∧
      ∀ j ∈ page.lookupReads key fuel i c, j < page.size - 1 := by
  induction fuel generalizing i l c with
  | zero =>
    have hc : c ≤ 1 := by
      by_contra hc
      have hi : i < page.size - 1 := (h _ .refl (by show 1 < c; omega)).1
      omega
    rw [NodePage.lookupLoop, NodePage.lookupReads, if_pos hc, if_pos hc]
    exact ⟨⟨l, rfl, hl⟩, fun _ hj => absurd hj List.not_mem_nil⟩
  | succ fuel ih =>
    by_cases hc : c ≤ 1
    · rw [NodePage.lookupLoop, NodePage.lookupReads, if_pos hc, if_pos hc]
      exact ⟨⟨l, rfl, hl⟩, fun _ hj => absurd hj List.not_mem_nil⟩
    · have hc' : 1 < c := by omega
      obtain ⟨hi, hright⟩ : i < page.size - 1 ∧ ∀ route, page.routeAt i = .ok route →
        route.bit key ≠ 0 → 0 < route.leftCount ∧ l + route.leftCount < page.size :=
          h _ .refl hc'
      obtain ⟨route, hr⟩ := routeAt_ok page (show i < kMaxNodeReps - 1 by omega)
      by_cases hb : route.bit key = 0
      · obtain ⟨hloop, hread⟩ := lookupLoop_left fuel l hc' hr hb
        rw [hloop, hread]
        obtain ⟨hleaf, hreads⟩ := ih hl (by omega) (c := route.leftCount)
          (fun s hs => h s (.head (.left hc' hr hb) hs))
        exact ⟨hleaf, List.forall_mem_cons.mpr ⟨hi, hreads⟩⟩
      · obtain ⟨hpos, hlt⟩ := hright route hr hb
        obtain ⟨hloop, hread⟩ := lookupLoop_right fuel l hc' hr hb
        rw [hloop, hread]
        obtain ⟨hleaf, hreads⟩ := ih hlt (by omega) (c := c - route.leftCount)
          (fun s hs => h s (.head (.right hc' hr hb) hs))
        exact ⟨hleaf, List.forall_mem_cons.mpr ⟨hi, hreads⟩⟩

/-- **A lookup ends within its page exactly when no turn of it goes wrong.** -/
theorem lookupEnds_iff (hpos : 1 ≤ page.size) (hsize : page.size ≤ kMaxNodeReps) (key : ByteView) :
    LookupEnds page key ↔ LookupStays page key := by
  have hrun : ∀ leaf, page.lookupRouteOnly key = .ok (leaf, true) ↔
      page.lookupLoop key kMaxNodeReps 0 0 page.size = .ok leaf := fun leaf => by
    rw [NodePage.lookupRouteOnly, if_neg (by omega)]
    cases page.lookupLoop key kMaxNodeReps 0 0 page.size with
    | ok leaf' => simp [bind, Except.bind]
    | error fault => simp [bind, Except.bind]
  constructor
  · rintro ⟨⟨leaf, hleaf, hlt⟩, hreads⟩
    exact (lookupLoop_inside ((hrun leaf).mp hleaf) hlt hreads).2
  · intro h
    have hfuel : page.size ≤ 0 + kMaxNodeReps := by omega
    obtain ⟨⟨leaf, hleaf, hlt⟩, hreads⟩ := lookupLoop_ends hsize hpos hfuel h
    exact ⟨⟨leaf, (hrun leaf).mpr hleaf, hlt⟩, hreads⟩

end Lookup

/-! ### The stack walk -/

/-- **`IsDirectRoutePair` ends within its page**: it reads only routes below `size - 1`. -/
def PairEnds (page : NodePage) (diffIdx : Int) : Prop :=
  (∃ b, page.isDirectRoutePair diffIdx = .ok b) ∧ (0 ≤ diffIdx ∧ diffIdx < page.size - 1 →
    ∀ i ∈ page.directRoutePairReads diffIdx (2 ^ kMaxNodeReps) [⟨0, 0, page.size⟩],
      i < page.size - 1)

/-- **A turn of the stack walk.** -/
inductive PairTurn (page : NodePage) (diffIdx : Int) : List RouteFrame → List RouteFrame → Prop where
  | next {frame : RouteFrame} {stack : List RouteFrame} {route : Route}
      (read : page.routeAt frame.node = .ok route)
      (other : NodePage.currentDiff frame route ≠ diffIdx) :
      PairTurn page diffIdx (frame :: stack) (NodePage.nextFrames frame route ++ stack)

/-- **A turn does not go wrong**: the route of its frame is one of the page, and it passes a leaf if
the diff is not the one that is looked for. -/
def RouteFrame.Inside (page : NodePage) (diffIdx : Int) (frame : RouteFrame) : Prop :=
  frame.node < page.size - 1 ∧ ∀ route, page.routeAt frame.node = .ok route →
    NodePage.currentDiff frame route ≠ diffIdx → 0 < route.leftCount

/-- **No turn of the stack walk goes wrong.** -/
def PairStays (page : NodePage) (diffIdx : Int) : Prop :=
  ∀ frame stack, ReflTransGen (PairTurn page diffIdx) [⟨0, 0, page.size⟩] (frame :: stack) →
    frame.Inside page diffIdx

/-- The frames a walk pushes hold two leaves or more. -/
def RouteFrame.Wide (frame : RouteFrame) : Prop := frame.leafL + 1 < frame.leafR

/-- Every frame stands for a later route than the frames below it on the stack. -/
def Stacked : List RouteFrame → Prop
  | [] => True
  | frame :: stack => stack.length ≤ frame.node ∧ Stacked stack

/-- The turns that the frames of a stack may still take. -/
def turnsLeft (size : ℕ) (stack : List RouteFrame) : ℕ :=
  (stack.map fun frame => 2 ^ (size - frame.node) - 1).sum

section Pair

variable {page : NodePage} {diffIdx : Int} {frame : RouteFrame} {stack : List RouteFrame}
  {route : Route} {fuel : ℕ} {b : Bool}

theorem mem_nextFrames {frame' : RouteFrame} (h : frame' ∈ NodePage.nextFrames frame route) :
    frame' = ⟨frame.node + 1, frame.leafL, NodePage.currentDiff frame route + 1⟩ ∧
        frame.leafL < NodePage.currentDiff frame route ∨
      frame' = ⟨frame.node + route.leftCount, NodePage.currentDiff frame route + 1, frame.leafR⟩ ∧
        NodePage.currentDiff frame route + 1 < frame.leafR - 1 := by
  rw [NodePage.nextFrames, List.mem_append] at h
  rcases h with h | h
  · split at h
    · exact Or.inl ⟨List.mem_singleton.mp h, by assumption⟩
    · exact absurd h List.not_mem_nil
  · split at h
    · exact Or.inr ⟨List.mem_singleton.mp h, by assumption⟩
    · exact absurd h List.not_mem_nil

theorem wide_nextFrames {frame' : RouteFrame} (h : frame' ∈ NodePage.nextFrames frame route) :
    frame'.Wide := by
  rcases mem_nextFrames h with ⟨rfl, hlt⟩ | ⟨rfl, hlt⟩
  · show frame.leafL + 1 < NodePage.currentDiff frame route + 1
    omega
  · show NodePage.currentDiff frame route + 1 + 1 < frame.leafR
    omega

/-- A push finds its place on the stack, or the stack is full. -/
theorem pushIf_cases (cond : Prop) [Decidable cond] (frame : RouteFrame) (stack : List RouteFrame) :
    NodePage.pushIf cond frame stack = .ok ((if cond then [frame] else []) ++ stack) ∨
      NodePage.pushIf cond frame stack = .error .undefined ∧ kMaxNodeReps ≤ stack.length := by
  rw [NodePage.pushIf, NodePage.pushFrame]
  by_cases hc : cond
  · by_cases hroom : stack.length < kMaxNodeReps
    · left
      rw [if_pos hc, if_pos hc, if_pos hroom]
      rfl
    · right
      rw [if_pos hc, if_neg hroom]
      exact ⟨rfl, Nat.not_lt.mp hroom⟩
  · left
    rw [if_neg hc, if_neg hc]
    rfl

/-- One turn of the loop. -/
theorem pairLoop_turn (hr : page.routeAt frame.node = .ok route) :
    page.directRoutePairLoop diffIdx (fuel + 1) (frame :: stack) =
      if NodePage.currentDiff frame route = diffIdx then
        .ok (frame.leafL = diffIdx ∧ frame.leafR = diffIdx + 2)
      else (do
        let stack ← NodePage.pushIf (NodePage.currentDiff frame route + 1 < frame.leafR - 1)
          ⟨frame.node + route.leftCount, NodePage.currentDiff frame route + 1, frame.leafR⟩ stack
        let stack ← NodePage.pushIf (frame.leafL < NodePage.currentDiff frame route)
          ⟨frame.node + 1, frame.leafL, NodePage.currentDiff frame route + 1⟩ stack
        page.directRoutePairLoop diffIdx fuel stack) := by
  rw [NodePage.directRoutePairLoop, hr]
  rfl

/-- One turn of the loop that finds the diff. -/
theorem pairLoop_found (fuel : ℕ) (stack : List RouteFrame)
    (hr : page.routeAt frame.node = .ok route)
    (hd : NodePage.currentDiff frame route = diffIdx) :
    (∃ b, page.directRoutePairLoop diffIdx (fuel + 1) (frame :: stack) = .ok b) ∧
      page.directRoutePairReads diffIdx (fuel + 1) (frame :: stack) = [frame.node] := by
  refine ⟨⟨decide (frame.leafL = diffIdx ∧ frame.leafR = diffIdx + 2), ?_⟩, ?_⟩
  · rw [pairLoop_turn hr, if_pos hd]
  · rw [NodePage.directRoutePairReads, hr]
    simp only [if_pos hd]

/-- One turn of the loop that goes on: the stack overflows, or its sides are pushed. -/
theorem pairLoop_next (fuel : ℕ) (stack : List RouteFrame)
    (hr : page.routeAt frame.node = .ok route)
    (hd : NodePage.currentDiff frame route ≠ diffIdx) :
    (page.directRoutePairLoop diffIdx (fuel + 1) (frame :: stack) = .error .undefined ∧
        kMaxNodeReps ≤ stack.length + 1 ∨
      page.directRoutePairLoop diffIdx (fuel + 1) (frame :: stack) =
        page.directRoutePairLoop diffIdx fuel (NodePage.nextFrames frame route ++ stack)) ∧
      page.directRoutePairReads diffIdx (fuel + 1) (frame :: stack) =
        frame.node :: page.directRoutePairReads diffIdx fuel
          (NodePage.nextFrames frame route ++ stack) := by
  refine ⟨?_, ?_⟩
  · rw [pairLoop_turn hr, if_neg hd]
    rcases pushIf_cases (NodePage.currentDiff frame route + 1 < frame.leafR - 1)
      ⟨frame.node + route.leftCount, NodePage.currentDiff frame route + 1, frame.leafR⟩ stack with
      hright | ⟨hright, hfull⟩
    · rw [hright]
      rcases pushIf_cases (frame.leafL < NodePage.currentDiff frame route)
        ⟨frame.node + 1, frame.leafL, NodePage.currentDiff frame route + 1⟩
        ((if NodePage.currentDiff frame route + 1 < frame.leafR - 1 then
          [⟨frame.node + route.leftCount, NodePage.currentDiff frame route + 1, frame.leafR⟩]
          else []) ++ stack) with hleft | ⟨hleft, hfull⟩
      · right
        simp only [bind, Except.bind, hleft]
        rw [NodePage.nextFrames, List.append_assoc]
      · refine Or.inl ⟨by simp only [bind, Except.bind, hleft], ?_⟩
        rw [List.length_append] at hfull
        split at hfull
        · rw [List.length_singleton] at hfull
          omega
        · rw [List.length_nil] at hfull
          omega
    · rw [hright]
      exact Or.inl ⟨rfl, by omega⟩
  · rw [NodePage.directRoutePairReads, hr]
    simp only [if_neg hd]

/-- A turn over a left count of zero stands still for ever, by induction on the turns. -/
theorem pairLoop_stalls (hwide : frame.Wide) (hr : page.routeAt frame.node = .ok route)
    (hd : NodePage.currentDiff frame route ≠ diffIdx) (hzero : route.leftCount = 0) (fuel : ℕ) :
    page.directRoutePairLoop diffIdx fuel (frame :: stack) ≠ .ok b := by
  have hwide' : frame.leafL + 1 < frame.leafR := hwide
  have hsame : NodePage.nextFrames frame route = [frame] := by
    have hcurrent : NodePage.currentDiff frame route = frame.leafL - 1 := by
      rw [NodePage.currentDiff, hzero]
      omega
    rw [NodePage.nextFrames, hcurrent, if_neg (by omega), if_pos (by omega), hzero]
    show [(⟨frame.node + 0, frame.leafL - 1 + 1, frame.leafR⟩ : RouteFrame)] = [frame]
    rw [Nat.add_zero, sub_add_cancel]
  induction fuel with
  | zero =>
    rw [NodePage.directRoutePairLoop]
    simp
  | succ fuel ih =>
    rcases (pairLoop_next fuel stack hr hd).1 with ⟨hover, _⟩ | hnext
    · rw [hover]
      simp
    · rw [hnext, hsame]
      exact ih

/-- A walk that ends: no turn has gone wrong, by induction on the turns that are left. -/
theorem pairLoop_inside (h : page.directRoutePairLoop diffIdx fuel stack = .ok b)
    (hreads : ∀ i ∈ page.directRoutePairReads diffIdx fuel stack, i < page.size - 1)
    (hwide : ∀ frame ∈ stack, frame.Wide) {rest : List RouteFrame}
    (hs : ReflTransGen (PairTurn page diffIdx) stack (frame :: rest)) :
    frame.Inside page diffIdx := by
  induction fuel generalizing stack with
  | zero =>
    cases stack with
    | nil =>
      rcases hs.cases_head with heq | ⟨_, hturn, _⟩
      · exact absurd heq (by simp)
      · cases hturn
    | cons top below =>
      rw [NodePage.directRoutePairLoop] at h
      exact absurd h (by simp)
  | succ fuel ih =>
    cases stack with
    | nil =>
      rcases hs.cases_head with heq | ⟨_, hturn, _⟩
      · exact absurd heq (by simp)
      · cases hturn
    | cons top below =>
      obtain ⟨hwideTop, hwideBelow⟩ := List.forall_mem_cons.mp hwide
      cases hr : page.routeAt top.node with
      | error fault =>
        rw [NodePage.directRoutePairLoop, hr] at h
        exact absurd h (by simp [bind, Except.bind])
      | ok route =>
        by_cases hd : NodePage.currentDiff top route = diffIdx
        · rw [(pairLoop_found fuel below hr hd).2] at hreads
          rcases hs.cases_head with heq | ⟨_, hturn, _⟩
          · obtain ⟨rfl, rfl⟩ := List.cons.inj heq
            refine ⟨hreads _ List.mem_cons_self, fun route' hr' hd' => ?_⟩
            obtain rfl := Except.ok.inj (hr.symm.trans hr')
            exact absurd hd hd'
          · cases hturn with
            | next hr' hd' =>
              obtain rfl := Except.ok.inj (hr.symm.trans hr')
              exact absurd hd hd'
        · obtain ⟨hloop, hread⟩ := pairLoop_next fuel below hr hd
          rw [hread] at hreads
          obtain ⟨htop, hreads'⟩ := List.forall_mem_cons.mp hreads
          rcases hs.cases_head with heq | ⟨stack', hturn, hs'⟩
          · obtain ⟨rfl, rfl⟩ := List.cons.inj heq
            refine ⟨htop, fun route' hr' hd' => ?_⟩
            by_contra hzero
            exact pairLoop_stalls hwideTop hr' hd' (by omega) _ h
          · rcases hloop with ⟨hover, _⟩ | hnext
            · rw [hover] at h
              exact absurd h (by simp)
            · rw [hnext] at h
              cases hturn with
              | next hr' _ =>
                obtain rfl := Except.ok.inj (hr.symm.trans hr')
                refine ih h hreads' (fun frame' hframe => ?_) hs'
                rcases List.mem_append.mp hframe with hnew | hold
                · exact wide_nextFrames hnew
                · exact hwideBelow frame' hold

theorem stacked_nextFrames (h : Stacked (frame :: stack)) (hpos : 0 < route.leftCount) :
    Stacked (NodePage.nextFrames frame route ++ stack) := by
  obtain ⟨hle, hstack⟩ := h
  have hright : Stacked ((if NodePage.currentDiff frame route + 1 < frame.leafR - 1 then
      [⟨frame.node + route.leftCount, NodePage.currentDiff frame route + 1, frame.leafR⟩]
      else []) ++ stack) ∧ ((if NodePage.currentDiff frame route + 1 < frame.leafR - 1 then
      [(⟨frame.node + route.leftCount, NodePage.currentDiff frame route + 1, frame.leafR⟩ :
        RouteFrame)] else []) ++ stack).length ≤ stack.length + 1 := by
    split
    · exact ⟨⟨by show stack.length ≤ frame.node + route.leftCount; omega, hstack⟩, le_refl _⟩
    · exact ⟨hstack, Nat.le_succ _⟩
  rw [NodePage.nextFrames, List.append_assoc]
  split
  · exact ⟨le_trans hright.2 (Nat.succ_le_succ hle), hright.1⟩
  · exact hright.1

/-- A turn takes one of the turns that are left. -/
theorem turnsLeft_nextFrames (stack : List RouteFrame) (hnode : frame.node < page.size - 1) (hpos : 0 < route.leftCount) :
    turnsLeft page.size (NodePage.nextFrames frame route ++ stack) <
      turnsLeft page.size (frame :: stack) := by
  have hhalf : 2 ^ (page.size - frame.node) = 2 * 2 ^ (page.size - (frame.node + 1)) := by
    rw [← pow_succ', show page.size - (frame.node + 1) + 1 = page.size - frame.node by omega]
  have hone : 1 ≤ 2 ^ (page.size - (frame.node + 1)) := Nat.one_le_two_pow
  have hright : 2 ^ (page.size - (frame.node + route.leftCount)) ≤
      2 ^ (page.size - (frame.node + 1)) := Nat.pow_le_pow_right (by decide) (by omega)
  have hsum : ((NodePage.nextFrames frame route).map
      fun f => 2 ^ (page.size - f.node) - 1).sum ≤
      2 * (2 ^ (page.size - (frame.node + 1)) - 1) := by
    rw [NodePage.nextFrames, List.map_append, List.sum_append, two_mul]
    refine Nat.add_le_add ?_ ?_
    · split
      · exact le_refl _
      · exact Nat.zero_le _
    · split
      · show 2 ^ (page.size - (frame.node + route.leftCount)) - 1 + 0 ≤ _
        omega
      · exact Nat.zero_le _
  rw [turnsLeft, turnsLeft, List.map_append, List.sum_append, List.map_cons, List.sum_cons]
  omega

/-- If no turn goes wrong, the walk ends, by induction on the turns that are left. -/
theorem pairLoop_ends (hsize : page.size ≤ kMaxNodeReps) (hstacked : Stacked stack)
    (hfuel : turnsLeft page.size stack ≤ fuel)
    (h : ∀ frame rest, ReflTransGen (PairTurn page diffIdx) stack (frame :: rest) →
      frame.Inside page diffIdx) :
    (∃ b, page.directRoutePairLoop diffIdx fuel stack = .ok b) ∧
      ∀ i ∈ page.directRoutePairReads diffIdx fuel stack, i < page.size - 1 := by
  induction fuel generalizing stack with
  | zero =>
    cases stack with
    | nil => exact ⟨⟨false, by rw [NodePage.directRoutePairLoop]⟩, fun _ hi => by
        rw [NodePage.directRoutePairReads] at hi
        exact absurd hi List.not_mem_nil⟩
    | cons top below =>
      have htop := (h top below .refl).1
      have hpow : 2 ≤ 2 ^ (page.size - top.node) :=
        Nat.le_self_pow (by omega) 2
      rw [turnsLeft, List.map_cons, List.sum_cons] at hfuel
      omega
  | succ fuel ih =>
    cases stack with
    | nil => exact ⟨⟨false, by rw [NodePage.directRoutePairLoop]⟩, fun _ hi => by
        rw [NodePage.directRoutePairReads] at hi
        exact absurd hi List.not_mem_nil⟩
    | cons top below =>
      obtain ⟨htop, hleft⟩ := h top below .refl
      obtain ⟨route, hr⟩ := routeAt_ok page (show top.node < kMaxNodeReps - 1 by omega)
      by_cases hd : NodePage.currentDiff top route = diffIdx
      · obtain ⟨hfound, hread⟩ := pairLoop_found fuel below hr hd
        rw [hread]
        exact ⟨hfound, List.forall_mem_cons.mpr ⟨htop, fun _ hi => absurd hi List.not_mem_nil⟩⟩
      · have hpos := hleft route hr hd
        obtain ⟨hloop, hread⟩ := pairLoop_next fuel below hr hd
        have hroom : below.length ≤ top.node := hstacked.1
        have hless := turnsLeft_nextFrames below htop hpos
        rw [hread, hloop.resolve_left (fun hover => by omega)]
        obtain ⟨hend, hreads⟩ := ih (stacked_nextFrames hstacked hpos) (by omega)
          (fun frame rest hs => h frame rest (.head (.next hr hd) hs))
        exact ⟨hend, List.forall_mem_cons.mpr ⟨htop, hreads⟩⟩

/-- **The stack walk ends within its page exactly when no turn of it goes wrong.** -/
theorem pairEnds_iff (hsize : page.size ≤ kMaxNodeReps) (diffIdx : Int) : PairEnds page diffIdx ↔
    (0 ≤ diffIdx ∧ diffIdx < page.size - 1 → PairStays page diffIdx) := by
  by_cases hrange : 0 ≤ diffIdx ∧ diffIdx < page.size - 1
  · have hout : ¬(diffIdx < 0 ∨ diffIdx ≥ page.size - 1) := by omega
    have hwide : ∀ frame ∈ [(⟨0, 0, page.size⟩ : RouteFrame)], frame.Wide := by
      refine List.forall_mem_singleton.mpr ?_
      show (0 : Int) + 1 < page.size
      omega
    rw [PairEnds, NodePage.isDirectRoutePair, if_neg hout]
    constructor
    · rintro ⟨⟨b, hb⟩, hreads⟩ _ frame stack hs
      exact pairLoop_inside hb (hreads hrange) hwide hs
    · intro h
      have hturns : turnsLeft page.size [⟨0, 0, page.size⟩] ≤ 2 ^ kMaxNodeReps := by
        have hpow : 2 ^ page.size ≤ 2 ^ kMaxNodeReps := Nat.pow_le_pow_right (by decide) hsize
        show 2 ^ (page.size - 0) - 1 + 0 ≤ _
        rw [Nat.sub_zero]
        exact le_trans (Nat.sub_le _ _) hpow
      have hstacked : Stacked [(⟨0, 0, page.size⟩ : RouteFrame)] := ⟨Nat.zero_le _, trivial⟩
      obtain ⟨hend, hreads⟩ := pairLoop_ends hsize hstacked hturns (h hrange)
      exact ⟨hend, fun _ => hreads⟩
  · have hout : diffIdx < 0 ∨ diffIdx ≥ page.size - 1 := by omega
    rw [PairEnds, NodePage.isDirectRoutePair, if_pos hout]
    exact ⟨fun _ hin => absurd hin hrange, fun _ => ⟨⟨false, rfl⟩, fun hin => absurd hin hrange⟩⟩

end Pair

/-! ### Checked pages -/

/-- **Proper left counts**: the routes from one place on are the packed preorder of a tree with so
many leaves. -/
inductive ProperAt (page : NodePage) : ℕ → ℕ → Prop where
  | leaf (i : ℕ) : ProperAt page i 1
  | branch {i c : ℕ} {route : Route} (read : page.routeAt i = .ok route)
      (pos : 0 < route.leftCount) (lt : route.leftCount < c)
      (left : ProperAt page (i + 1) route.leftCount)
      (right : ProperAt page (i + route.leftCount) (c - route.leftCount)) : ProperAt page i c

/-- What a proper table says about a frame of the stack walk. -/
def RouteFrame.Proper (page : NodePage) (frame : RouteFrame) : Prop :=
  ∃ c : ℕ, frame.leafR = frame.leafL + c ∧ 2 ≤ c ∧ ProperAt page frame.node c ∧
    frame.node + c ≤ page.size

section Checked

variable {page : NodePage} {key : ByteView} {diffIdx : Int}

theorem ProperAt.root {i c : ℕ} (h : ProperAt page i c) (hc : 2 ≤ c) : ∃ route,
    page.routeAt i = .ok route ∧ 0 < route.leftCount ∧ route.leftCount < c ∧
      ProperAt page (i + 1) route.leftCount ∧
      ProperAt page (i + route.leftCount) (c - route.leftCount) := by
  cases h with
  | leaf => omega
  | branch read pos lt left right => exact ⟨_, read, pos, lt, left, right⟩

/-- **What `RouteDiffs` accepts is proper**, by induction on the turns of its loop. -/
theorem routeDiffsLoop_proper {fuel : ℕ} {stack : List RouteFrame} {out diffs : List ℕ}
    (h : page.routeDiffsLoop fuel stack out = .ok diffs) : ∀ frame ∈ stack, ∀ c : ℕ,
    frame.leafR = frame.leafL + c → 2 ≤ c → ProperAt page frame.node c := by
  induction fuel generalizing stack out with
  | zero =>
    cases stack with
    | nil => exact fun _ hframe => absurd hframe List.not_mem_nil
    | cons frame stack =>
      rw [NodePage.routeDiffsLoop] at h
      exact absurd h (by simp)
  | succ fuel ih =>
    cases stack with
    | nil => exact fun _ hframe => absurd hframe List.not_mem_nil
    | cons frame stack =>
      rw [NodePage.routeDiffsLoop] at h
      split at h
      · exact absurd h (by simp [err])
      cases hr : page.routeAt frame.node with
      | error fault =>
        rw [hr] at h
        exact absurd h (by simp [bind, Except.bind])
      | ok route =>
        rw [hr] at h
        simp only [bind, Except.bind] at h
        split at h
        · exact absurd h (by simp [err])
        rename_i hcheck
        rcases pushIf_cases (frame.leafL + (route.leftCount : Int) - 1 + 1 < frame.leafR - 1)
          ⟨frame.node + route.leftCount, frame.leafL + route.leftCount - 1 + 1, frame.leafR⟩ stack
          with hright | ⟨hright, _⟩
        · rw [hright] at h
          simp only at h
          split at h
          · exact absurd h (by simp)
          rename_i stack' hleft
          rcases pushIf_cases (frame.leafL < frame.leafL + (route.leftCount : Int) - 1)
            ⟨frame.node + 1, frame.leafL, frame.leafL + route.leftCount - 1 + 1⟩ _ with
            hleft' | ⟨hleft', _⟩
          · obtain rfl := Except.ok.inj (hleft'.symm.trans hleft)
            have hall := ih h
            refine List.forall_mem_cons.mpr ⟨fun c hc htwo => ?_, fun f hf => hall f
              (List.mem_append_right _ (List.mem_append_right _ hf))⟩
            -- a side of one leaf is not pushed
            refine .branch hr (by omega) (by omega) ?_ ?_
            · by_cases hone : route.leftCount = 1
              · rw [hone]
                exact .leaf _
              · refine hall ⟨frame.node + 1, frame.leafL, frame.leafL + route.leftCount - 1 + 1⟩
                  (List.mem_append_left _ ?_) route.leftCount ?_ (by omega)
                · rw [if_pos (by omega)]
                  exact List.mem_singleton.mpr rfl
                · show frame.leafL + (route.leftCount : Int) - 1 + 1 = frame.leafL + _
                  omega
            · by_cases hone : c - route.leftCount = 1
              · rw [hone]
                exact .leaf _
              · refine hall ⟨frame.node + route.leftCount, frame.leafL + route.leftCount - 1 + 1,
                  frame.leafR⟩ (List.mem_append_right _ (List.mem_append_left _ ?_))
                  (c - route.leftCount) ?_ (by omega)
                · rw [if_pos (by omega)]
                  exact List.mem_singleton.mpr rfl
                · show frame.leafR = frame.leafL + (route.leftCount : Int) - 1 + 1 + _
                  omega
          · rw [hleft'] at hleft
            exact absurd hleft (by simp)
        · rw [hright] at h
          exact absurd h (by simp)

/-- A page that `RouteDiffs` accepts. -/
theorem proper_of_routeDiffs {out diffs : List ℕ} (h : page.routeDiffs out = .ok diffs) :
    ProperAt page 0 page.size := by
  rw [NodePage.routeDiffs] at h
  split at h
  · exact absurd h (by simp [err])
  split at h
  · rw [show page.size = 1 by omega]
    exact .leaf 0
  · exact routeDiffsLoop_proper h ⟨0, 0, page.size⟩ List.mem_cons_self page.size
      (zero_add _).symm (by omega)

/-- No turn of a lookup goes wrong on a proper table, by induction on the turns. -/
theorem ProperAt.lookupStays (h : ProperAt page 0 page.size) (hpos : 1 ≤ page.size)
    (key : ByteView) : LookupStays page key := by
  intro s hs
  suffices hinv : ∃ c : ℕ, s.leafCount = c ∧ 1 ≤ c ∧ ProperAt page s.routeIdx c ∧
      s.routeIdx + c ≤ page.size ∧ s.leafBase + c ≤ page.size by
    obtain ⟨c, hc, _, hproper, hroutes, hleaves⟩ := hinv
    intro hmore
    obtain ⟨route, hr, hleft, hlt, _⟩ := hproper.root (by omega)
    refine ⟨by omega, fun route' hr' _ => ?_⟩
    obtain rfl := Except.ok.inj (hr.symm.trans hr')
    exact ⟨hleft, by omega⟩
  induction hs with
  | refl => exact ⟨page.size, rfl, hpos, h, by simp, by simp⟩
  | tail _ hturn ih =>
    obtain ⟨c, hc, _, hproper, hroutes, hleaves⟩ := ih
    cases hturn with
    | left more read bit =>
      obtain ⟨route, hr, hleft, hlt, hproperLeft, _⟩ := hproper.root (by simp only at hc; omega)
      obtain rfl := Except.ok.inj (hr.symm.trans read)
      simp only at hc hroutes hleaves ⊢
      exact ⟨route.leftCount, rfl, hleft, hproperLeft, by omega, by omega⟩
    | right more read bit =>
      obtain ⟨route, hr, hleft, hlt, _, hproperRight⟩ := hproper.root (by simp only at hc; omega)
      obtain rfl := Except.ok.inj (hr.symm.trans read)
      simp only at hc hroutes hleaves ⊢
      exact ⟨c - route.leftCount, by omega, by omega, hproperRight, by omega, by omega⟩

/-- No turn of the stack walk goes wrong on a proper table, by induction on the turns. -/
theorem ProperAt.pairStays (h : ProperAt page 0 page.size) (htwo : 2 ≤ page.size)
    (diffIdx : Int) : PairStays page diffIdx := by
  intro frame rest hs
  suffices hinv : ∀ stack, ReflTransGen (PairTurn page diffIdx) [⟨0, 0, page.size⟩] stack →
      ∀ f ∈ stack, f.Proper page by
    obtain ⟨c, _, hc, hproper, hroutes⟩ := hinv _ hs frame List.mem_cons_self
    obtain ⟨route, hr, hleft, _⟩ := hproper.root hc
    refine ⟨by omega, fun route' hr' _ => ?_⟩
    obtain rfl := Except.ok.inj (hr.symm.trans hr')
    exact hleft
  intro stack hstack
  induction hstack with
  | refl =>
    refine List.forall_mem_singleton.mpr ⟨page.size, ?_, htwo, h, by simp⟩
    simp
  | tail _ hturn ih =>
    cases hturn with
    | @next top below route' read other =>
      obtain ⟨⟨c, hwidth, hc, hproper, hroutes⟩, hbelow⟩ := List.forall_mem_cons.mp ih
      obtain ⟨route, hr, hleft, hlt, hproperLeft, hproperRight⟩ := hproper.root hc
      obtain rfl := Except.ok.inj (hr.symm.trans read)
      intro f hf
      rcases List.mem_append.mp hf with hnew | hold
      · rcases mem_nextFrames hnew with ⟨rfl, hmore⟩ | ⟨rfl, hmore⟩
        · rw [NodePage.currentDiff] at hmore
          refine ⟨route.leftCount, ?_, by omega, hproperLeft, ?_⟩
          · show top.leafL + (route.leftCount : Int) - 1 + 1 = top.leafL + route.leftCount
            omega
          · show _ + 1 + route.leftCount ≤ _
            omega
        · rw [NodePage.currentDiff] at hmore
          refine ⟨c - route.leftCount, ?_, by omega, hproperRight, ?_⟩
          · show top.leafR = top.leafL + (route.leftCount : Int) - 1 + 1 + _
            omega
          · show _ + route.leftCount + _ ≤ _
            omega
      · exact hbelow f hold

end Checked

/-! ### Pages that `RouteDiffs` accepts -/

section Accepted

variable {page : NodePage} {diffIdx : Int}

/-- The frames behind one that is proper. -/
theorem nextFrames_proper {i c : ℕ} {route : Route} (left : Int) (hpos : 0 < route.leftCount)
    (hlt : route.leftCount < c) : NodePage.nextFrames ⟨i, left, left + c⟩ route =
      (if 2 ≤ route.leftCount then [⟨i + 1, left, left + route.leftCount⟩] else []) ++
      (if 2 ≤ c - route.leftCount then
        [⟨i + route.leftCount, left + route.leftCount,
          left + route.leftCount + (c - route.leftCount : ℕ)⟩] else []) := by
  have hcurrent : left + (route.leftCount : Int) - 1 + 1 = left + route.leftCount := by omega
  have hright : left + (route.leftCount : Int) + (c - route.leftCount : ℕ) = left + c := by omega
  rw [NodePage.nextFrames, NodePage.currentDiff, hright]
  simp only [hcurrent]
  congr 1
  · exact if_congr (by omega) rfl rfl
  · exact if_congr (by omega) rfl rfl

theorem length_frameIf_append (p : Prop) [Decidable p] (frame : RouteFrame) (stack : List RouteFrame) :
    ((if p then [frame] else []) ++ stack).length = stack.length + if p then 1 else 0 := by
  by_cases h : p
  · rw [if_pos h, if_pos h, List.length_append, List.length_singleton, Nat.add_comm]
  · rw [if_neg h, if_neg h, List.nil_append, Nat.add_zero]

/-- One turn of `RouteDiffs` on a proper left count: it writes a diff and pushes the two sides. -/
theorem routeDiffsLoop_turn {i c : ℕ} (left : ℕ) {route : Route} (read : page.routeAt i = .ok route)
    (pos : 0 < route.leftCount) (lt : route.leftCount < c) (stack : List RouteFrame) (out : List ℕ)
    (hroutes : i + c ≤ page.size) (hroom : stack.length + c ≤ kMaxNodeReps + 1) (fuel : ℕ) :
    ∃ out', page.routeDiffsLoop (fuel + 1) (⟨i, left, left + c⟩ :: stack) out =
      page.routeDiffsLoop fuel (NodePage.nextFrames ⟨i, left, left + c⟩ route ++ stack) out' := by
  refine ⟨out.set ((left : Int) + route.leftCount - 1).toNat route.diff, ?_⟩
  rw [NodePage.routeDiffsLoop, if_neg (by show ¬ i ≥ _; omega), read]
  simp only [bind, Except.bind]
  rw [if_neg (by omega)]
  rcases pushIf_cases ((left : Int) + route.leftCount - 1 + 1 < (left : Int) + c - 1)
    ⟨i + route.leftCount, (left : Int) + route.leftCount - 1 + 1, left + c⟩ stack with
    hright | ⟨_, hfull⟩
  · rw [hright]
    simp only
    rcases pushIf_cases ((left : Int) < left + route.leftCount - 1)
      ⟨i + 1, left, (left : Int) + route.leftCount - 1 + 1⟩ _ with hleft | ⟨_, hfull⟩
    · rw [hleft, NodePage.nextFrames, NodePage.currentDiff, List.append_assoc]
    · rw [length_frameIf_append] at hfull
      split at hfull
      · omega
      · omega
  · omega

/-- **`RouteDiffs` accepts a proper table**, by induction on it: a frame is decoded, and what is below
it on the stack is left. -/
theorem routeDiffsLoop_accepts {i c : ℕ} (h : ProperAt page i c) (fuel : ℕ) (left : ℕ)
    (stack : List RouteFrame) (out : List ℕ) (htwo : 2 ≤ c) (hroutes : i + c ≤ page.size)
    (hroom : stack.length + c ≤ kMaxNodeReps + 1) : ∃ out',
    page.routeDiffsLoop (fuel + (c - 1)) (⟨i, left, left + c⟩ :: stack) out =
      page.routeDiffsLoop fuel stack out' := by
  induction h generalizing fuel left stack out with
  | leaf => omega
  | @branch i c route read pos lt _ _ ihLeft ihRight =>
    have hfuel : fuel + (c - 1) =
        fuel + (c - route.leftCount - 1) + (route.leftCount - 1) + 1 := by omega
    obtain ⟨out₁, hloop⟩ := routeDiffsLoop_turn left read pos lt stack out hroutes hroom
      (fuel + (c - route.leftCount - 1) + (route.leftCount - 1))
    rw [hfuel, hloop, nextFrames_proper left pos lt, List.append_assoc]
    -- the right side, when it is on the stack
    have hright : ∀ out₂, ∃ out', page.routeDiffsLoop (fuel + (c - route.leftCount - 1))
        ((if 2 ≤ c - route.leftCount then
          [(⟨i + route.leftCount, (left : Int) + route.leftCount,
            (left : Int) + route.leftCount + (c - route.leftCount : ℕ)⟩ : RouteFrame)] else []) ++
          stack) out₂ = page.routeDiffsLoop fuel stack out' := by
      intro out₂
      by_cases hmore : 2 ≤ c - route.leftCount
      · rw [if_pos hmore]
        exact ihRight fuel (left + route.leftCount) stack out₂ hmore (by omega) (by omega)
      · rw [if_neg hmore, show c - route.leftCount - 1 = 0 by omega]
        exact ⟨out₂, rfl⟩
    by_cases hmore : 2 ≤ route.leftCount
    · have hroomLeft : ((if 2 ≤ c - route.leftCount then
          [(⟨i + route.leftCount, (left : Int) + route.leftCount,
            (left : Int) + route.leftCount + (c - route.leftCount : ℕ)⟩ : RouteFrame)] else []) ++
          stack).length + route.leftCount ≤ kMaxNodeReps + 1 := by
        rw [length_frameIf_append]
        split
        · omega
        · omega
      obtain ⟨out₂, hleft⟩ := ihLeft (fuel + (c - route.leftCount - 1)) left _ out₁ hmore
        (by omega) hroomLeft
      rw [if_pos hmore, List.singleton_append, hleft]
      exact hright out₂
    · rw [if_neg hmore, show route.leftCount - 1 = 0 by omega]
      exact hright out₁

/-- **What `RouteDiffs` accepts**: proper left counts, and no others. -/
theorem routeDiffs_accepts_iff (hpos : 1 ≤ page.size) (hsize : page.size ≤ kMaxNodeReps) :
    (∃ out diffs, page.routeDiffs out = .ok diffs) ↔ ProperAt page 0 page.size := by
  refine ⟨fun ⟨out, diffs, h⟩ => proper_of_routeDiffs h, fun h => ?_⟩
  refine ⟨List.replicate (page.size - 1) 0, ?_⟩
  rw [NodePage.routeDiffs, if_neg (by rw [List.length_replicate]; omega)]
  split
  · exact ⟨_, rfl⟩
  · obtain ⟨out', hloop⟩ := routeDiffsLoop_accepts h (kMaxNodeReps - (page.size - 1)) 0 []
      (List.replicate (page.size - 1) 0) (by omega) (by omega) (by rw [List.length_nil]; omega)
    rw [show kMaxNodeReps - (page.size - 1) + (page.size - 1) = kMaxNodeReps by omega] at hloop
    refine ⟨out', Eq.trans ?_ (hloop.trans ?_)⟩
    · simp
    · rw [NodePage.routeDiffsLoop.eq_def]

/-! ### Pages that `RouteDiffs` refuses -/

/-- **What the other walks refuse** at a frame: a route that is none of the page, or a left count of
zero or of all leaves. -/
def RouteFrame.Refused (page : NodePage) (frame : RouteFrame) : Prop :=
  page.size - 1 ≤ frame.node ∨ ∃ route, page.routeAt frame.node = .ok route ∧
    (route.leftCount = 0 ∨ frame.leafR - frame.leafL ≤ route.leftCount)

/-- **A walk that runs into it**: it takes such a frame off its stack, and checks nothing. -/
def PairMeets (page : NodePage) (diffIdx : Int) (stack : List RouteFrame) : Prop :=
  ∃ frame rest, ReflTransGen (PairTurn page diffIdx) stack (frame :: rest) ∧ frame.Refused page

/-- A proper frame without the diff is walked off the stack, by induction on the table. -/
theorem ProperAt.walkedOff {i c : ℕ} (h : ProperAt page i c) (left : Int) (stack : List RouteFrame)
    (htwo : 2 ≤ c) (hout : diffIdx < left ∨ left + c - 1 ≤ diffIdx) :
    ReflTransGen (PairTurn page diffIdx) (⟨i, left, left + c⟩ :: stack) stack := by
  induction h generalizing left stack with
  | leaf => omega
  | @branch i c route read pos lt _ _ ihLeft ihRight =>
    have hother : NodePage.currentDiff ⟨i, left, left + c⟩ route ≠ diffIdx := by
      show left + (route.leftCount : Int) - 1 ≠ diffIdx
      omega
    refine .head (.next read hother) ?_
    rw [nextFrames_proper left pos lt, List.append_assoc]
    have hright : ReflTransGen (PairTurn page diffIdx) ((if 2 ≤ c - route.leftCount then
        [(⟨i + route.leftCount, left + route.leftCount,
          left + route.leftCount + (c - route.leftCount : ℕ)⟩ : RouteFrame)] else []) ++ stack)
        stack := by
      split
      · exact ihRight _ stack (by omega) (by omega)
      · exact .refl
    by_cases hmore : 2 ≤ route.leftCount
    · rw [if_pos hmore]
      exact (ihLeft left _ hmore (by omega)).trans hright
    · rw [if_neg hmore]
      exact hright

/-- **A table that is not proper** has a diff whose walk runs into what is wrong with it, by induction
on the leaves of the frame. -/
theorem pairMeets_of_improper {c : ℕ} : ∀ {i : ℕ} (left : Int), 2 ≤ c → ¬ ProperAt page i c →
    page.size ≤ kMaxNodeReps → ∃ diffIdx, left ≤ diffIdx ∧ diffIdx < left + c - 1 ∧
      ∀ stack, PairMeets page diffIdx (⟨i, left, left + c⟩ :: stack) := by
  induction c using Nat.strong_induction_on with
  | _ c ih =>
    intro i left htwo himproper hsize
    by_cases hi : page.size - 1 ≤ i
    · exact ⟨left, le_refl _, by omega, fun stack => ⟨_, stack, .refl, Or.inl hi⟩⟩
    obtain ⟨route, read⟩ := routeAt_ok page (show i < kMaxNodeReps - 1 by omega)
    by_cases hcount : route.leftCount = 0 ∨ c ≤ route.leftCount
    · refine ⟨left, le_refl _, by omega, fun stack => ⟨_, stack, .refl, Or.inr ⟨route, read, ?_⟩⟩⟩
      refine hcount.imp id (fun hle => ?_)
      show left + (c : Int) - left ≤ _
      omega
    have hpos : 0 < route.leftCount := by omega
    have hlt : route.leftCount < c := by omega
    have hnext : ∀ diffIdx stack, left + route.leftCount - 1 ≠ diffIdx →
        PairMeets page diffIdx (NodePage.nextFrames ⟨i, left, left + c⟩ route ++ stack) →
        PairMeets page diffIdx (⟨i, left, left + c⟩ :: stack) := by
      rintro diffIdx stack hother ⟨frame, rest, hrun, hrefused⟩
      exact ⟨frame, rest, .head (.next read hother) hrun, hrefused⟩
    by_cases hleft : ProperAt page (i + 1) route.leftCount
    · have hright : ¬ ProperAt page (i + route.leftCount) (c - route.leftCount) :=
        fun hright => himproper (.branch read hpos hlt hleft hright)
      have hmore : 2 ≤ c - route.leftCount := by
        by_contra hfew
        have hone : c - route.leftCount = 1 := by omega
        exact hright (by rw [hone]; exact .leaf _)
      obtain ⟨diffIdx, hlo, hhi, hmeets⟩ :=
        ih _ (by omega) (left + route.leftCount) hmore hright hsize
      refine ⟨diffIdx, by omega, by omega, fun stack => hnext _ _ (by omega) ?_⟩
      rw [nextFrames_proper left hpos hlt, if_pos hmore, List.append_assoc, List.singleton_append]
      obtain ⟨frame, rest, hrun, hrefused⟩ := hmeets stack
      -- the left side is walked off first
      by_cases htwo' : 2 ≤ route.leftCount
      · rw [if_pos htwo']
        exact ⟨frame, rest, (hleft.walkedOff left _ htwo' (by omega)).trans hrun, hrefused⟩
      · rw [if_neg htwo']
        exact ⟨frame, rest, hrun, hrefused⟩
    · have hmore : 2 ≤ route.leftCount := by
        by_contra hfew
        have hone : route.leftCount = 1 := by omega
        exact hleft (by rw [hone]; exact .leaf _)
      obtain ⟨diffIdx, hlo, hhi, hmeets⟩ := ih _ hlt left hmore hleft hsize
      refine ⟨diffIdx, by omega, by omega, fun stack => hnext _ _ (by omega) ?_⟩
      rw [nextFrames_proper left hpos hlt, if_pos hmore, List.append_assoc, List.singleton_append]
      exact hmeets _

end Accepted

/-! ### When the walks end -/

/-- **When the walks end within the page**: on every page that `RouteDiffs` accepts; and on any other
page the stack walk runs into what `RouteDiffs` refuses. -/
theorem page_walks_end (page : NodePage) (hpos : 1 ≤ page.size) (hsize : page.size ≤ kMaxNodeReps) :
    ((∃ out diffs, page.routeDiffs out = .ok diffs) →
      (∀ key, LookupEnds page key) ∧ ∀ diffIdx, PairEnds page diffIdx) ∧
    ((¬ ∃ out diffs, page.routeDiffs out = .ok diffs) →
      ∃ diffIdx : Int, 0 ≤ diffIdx ∧ diffIdx < page.size - 1 ∧
        PairMeets page diffIdx [⟨0, 0, page.size⟩]) := by
  rw [routeDiffs_accepts_iff hpos hsize]
  refine ⟨fun hproper => ⟨fun key => (lookupEnds_iff hpos hsize key).mpr
    (hproper.lookupStays hpos key), fun diffIdx => (pairEnds_iff hsize diffIdx).mpr
      (fun hrange => hproper.pairStays (by omega) diffIdx)⟩, fun himproper => ?_⟩
  have htwo : 2 ≤ page.size := by
    by_contra hfew
    have hone : page.size = 1 := by omega
    exact himproper (by rw [hone]; exact .leaf _)
  obtain ⟨diffIdx, hlo, hhi, hmeets⟩ := pairMeets_of_improper 0 htwo himproper hsize
  rw [zero_add] at hhi hmeets
  exact ⟨diffIdx, hlo, hhi, hmeets []⟩

/-- A page of two reps with one route. -/
def twoPage (route : Route) : NodePage :=
  { NodePage.empty with size := 2, routes := NodePage.empty.routes.set 0 route }

/-- Two reps behind a proper route. -/
theorem page_walks_end_twoPage : (∀ key, LookupEnds (twoPage (Route.make 7 1)) key) ∧
    ∀ diffIdx, PairEnds (twoPage (Route.make 7 1)) diffIdx :=
  (page_walks_end (twoPage (Route.make 7 1)) (by decide) (by decide)).1 ⟨[0], [7], rfl⟩

/-- **A left count of zero**: neither walk ends on the page of two reps that is otherwise empty. -/
theorem not_page_walks_end : (twoPage Route.zero).size = 2 ∧
    ¬LookupEnds (twoPage Route.zero) [1] ∧ ¬PairEnds (twoPage Route.zero) 0 := by
  have hr : (twoPage Route.zero).routeAt 0 = .ok Route.zero := rfl
  refine ⟨rfl, fun h => ?_, fun h => ?_⟩
  · have hstall := (((lookupEnds_iff (by decide) (by decide) [1]).mp h) _ .refl
      (by decide)).2 Route.zero hr (by decide)
    exact absurd hstall.1 (by decide)
  · have hstall := ((pairEnds_iff (by decide) 0).mp h (by decide) _ _ .refl).2 Route.zero hr
      (by decide)
    exact absurd hstall (by decide)

end MinweightStore.Minpatricia
