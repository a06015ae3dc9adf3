import MinweightStore.Base.PagedTreeOps
import MinweightStore.Minpatricia.NodePage

/-!
# Pages as Patricia trees

A page whose route table is the packed preorder of a Patricia tree behaves as that tree.

* `pageOf` — the page of a tree: its items, its packed preorder, its outermost positions, zeros
  everywhere else;
* `lookup_eq`, `insertSlotAbovePath_eq` — the walks of the table are the descents of the tree;
* `insertRoute_eq`, `deleteRoute_eq` — the packed updates give the table of the updated tree;
* `routeDiffs_eq`, `isDirectRoutePair_eq` — the stack walks read the tree back.
-/

namespace MinweightStore.Minpatricia

open BitKey PagedTree

/-- The Patricia trees behind an index: byte-string keys, record positions, page numbers. -/
abbrev Tree := PagedTree ByteView Position UInt64

abbrev TreeCtx := Ctx ByteView Position UInt64

/-! ### The page of a tree -/

/-- The rep of one item. -/
def repOf : Tree → Rep
  | .leaf _ p => ⟨p⟩
  | .page i _ => ⟨kChildTag ||| i⟩
  | .node _ _ _ => Rep.zero

/-- A packed branch. -/
def packRoute (p : ℕ × ℕ) : Route := Route.make p.1 p.2

/-- The packed preorder. -/
def routesOf (t : Tree) : List Route := t.preorder.map packRoute

/-- A list in a fixed array, zeros behind it. -/
def pad {α : Type} (n : ℕ) (zero : α) (l : List α) : Vector α n :=
  Vector.ofFn fun i => l.getD i.val zero

/-- The route table with the given preorder. -/
def routeTable (l : List (ℕ × ℕ)) : Vector Route (kMaxNodeReps - 1) :=
  pad _ Route.zero (l.map packRoute)

/-- The rep array of a list of items. -/
def repTable (l : List Tree) : Vector Rep kMaxNodeReps := pad _ Rep.zero (l.map repOf)

/-- The page a tree is stored as. -/
def pageOf (t : Tree) : NodePage :=
  ⟨t.width, t.first, t.last, routeTable t.preorder, repTable t.items⟩

/-- Branch positions fit 16 bits. -/
def SmallDiffs (t : Tree) : Prop := ∀ d ∈ t.diffs, d < 2 ^ 16

theorem SmallDiffs.left {d : ℕ} {l r : Tree} (h : SmallDiffs (.node d l r)) : SmallDiffs l :=
  fun e he => h e (List.mem_append_left _ he)

theorem SmallDiffs.right {d : ℕ} {l r : Tree} (h : SmallDiffs (.node d l r)) : SmallDiffs r :=
  fun e he => h e (List.mem_append_right _ (List.mem_cons_of_mem d he))

theorem SmallDiffs.root {d : ℕ} {l r : Tree} (h : SmallDiffs (.node d l r)) : d < 2 ^ 16 :=
  h d (List.mem_append_right _ List.mem_cons_self)

theorem pad_get {α : Type} {n : ℕ} {zero : α} {l : List α} {i : ℕ} (hi : i < n) :
    (pad n zero l)[i]? = some (l.getD i zero) := by
  rw [Vector.getElem?_eq_getElem hi, pad, Vector.getElem_ofFn]

/-- Two padded arrays are equal when the lists agree at every place. -/
theorem pad_ext {α : Type} {n : ℕ} {zero : α} {a : Vector α n} {l : List α}
    (h : ∀ i (hi : i < n), a[i] = l.getD i zero) : a = pad n zero l := by
  apply Vector.ext
  intro i hi
  rw [h i hi, pad, Vector.getElem_ofFn]

/-! ### Route walks -/

/-- The page stores the preorder of `t` from route `idx` on. -/
def RoutesAt (page : NodePage) (idx : ℕ) (t : Tree) : Prop :=
  idx + t.width ≤ page.size ∧
    ∀ j p, t.preorder[j]? = some p → page.routeAt (idx + j) = .ok (packRoute p)

theorem RoutesAt.root {page : NodePage} {idx d : ℕ} {l r : Tree}
    (h : RoutesAt page idx (.node d l r)) : page.routeAt idx = .ok (Route.make d l.width) := by
  have h0 := h.2 0 (d, l.width) rfl
  rwa [Nat.add_zero] at h0

theorem RoutesAt.left {page : NodePage} {idx d : ℕ} {l r : Tree}
    (h : RoutesAt page idx (.node d l r)) : RoutesAt page (idx + 1) l := by
  have hr := width_pos r
  have hw := h.1
  simp only [width] at hw
  refine ⟨by omega, fun j p hp => ?_⟩
  rw [show idx + 1 + j = idx + (j + 1) by omega]
  refine h.2 (j + 1) p ?_
  rw [preorder, List.getElem?_cons_succ, List.getElem?_append_left]
  · exact hp
  · exact (List.getElem?_eq_some_iff.mp hp).1

theorem RoutesAt.right {page : NodePage} {idx d : ℕ} {l r : Tree}
    (h : RoutesAt page idx (.node d l r)) : RoutesAt page (idx + l.width) r := by
  have hw := h.1
  have hl := length_preorder l
  simp only [width] at hw
  refine ⟨by omega, fun j p hp => ?_⟩
  rw [show idx + l.width + j = idx + (l.preorder.length + j + 1) by omega]
  refine h.2 (l.preorder.length + j + 1) p ?_
  rw [preorder, List.getElem?_cons_succ, List.getElem?_append_right (by omega),
    Nat.add_sub_cancel_left]
  exact hp

/-- The page has the route table of `t`. -/
structure HasRoutes (page : NodePage) (t : Tree) : Prop where
  size_eq : page.size = t.width
  routes_eq : page.routes = routeTable t.preorder
  width_le : t.width ≤ kMaxNodeReps
  small : SmallDiffs t

theorem HasRoutes.routesAt {page : NodePage} {t : Tree} (h : HasRoutes page t) :
    RoutesAt page 0 t := by
  have hlen := length_preorder t
  refine ⟨by rw [h.size_eq]; omega, fun j p hp => ?_⟩
  obtain ⟨hj, hget⟩ := List.getElem?_eq_some_iff.mp hp
  have hw := h.width_le
  have hj' : 0 + j < kMaxNodeReps - 1 := by omega
  rw [NodePage.routeAt, h.routes_eq, routeTable, pad_get hj', List.getD_eq_getElem?_getD,
    List.getElem?_map, Nat.zero_add, hp]
  rfl

/-- The page routes as `t` does, whatever stands behind its routes. -/
structure Routed (page : NodePage) (t : Tree) : Prop where
  size_eq : page.size = t.width
  routesAt : RoutesAt page 0 t
  width_le : t.width ≤ kMaxNodeReps
  small : SmallDiffs t

theorem HasRoutes.routed {page : NodePage} {t : Tree} (h : HasRoutes page t) : Routed page t :=
  ⟨h.size_eq, h.routesAt, h.width_le, h.small⟩

section Walks

variable {page : NodePage} {key : ByteView} {δ : ℕ}

theorem width_lt_of_le {t : Tree} (h : t.width ≤ kMaxNodeReps) : t.width < 2 ^ 15 :=
  lt_of_le_of_lt h (by decide)

/-- The test of a packed branch is the bit of the key. -/
theorem bit_make_eq_zero {d w : ℕ} (hd : d < 2 ^ 16) (hw : w < 2 ^ 15) :
    (Route.make d w).bit key = 0 ↔ bit key d = false := by
  rw [Route.bit_make hd hw, getDiffBit_eq_zero]

theorem lookupLoop_eq (t : Tree) : ∀ (fuel idx base : ℕ), RoutesAt page idx t → SmallDiffs t →
    t.width ≤ kMaxNodeReps → t.width ≤ fuel →
    page.lookupLoop key fuel idx base t.width = .ok (base + (t.slotCtx key).1.slot) := by
  induction t with
  | leaf k v => intro fuel idx base _ _ _ _; rw [NodePage.lookupLoop.eq_def, if_pos (by simp [width])]; rfl
  | page i t ih => intro fuel idx base _ _ _ _; rw [NodePage.lookupLoop.eq_def, if_pos (by simp [width])]; rfl
  | node d l r ihl ihr =>
    intro fuel idx base hr hs hw hf
    have hl1 := width_pos l
    have hr1 := width_pos r
    have hwn : (node d l r).width = l.width + r.width := rfl
    obtain ⟨fuel, rfl⟩ : ∃ f, fuel = f + 1 := ⟨fuel - 1, by omega⟩
    have hlw : l.width < 2 ^ 15 := width_lt_of_le (by omega)
    rw [NodePage.lookupLoop, if_neg (by omega)]
    simp only [hr.root, bind, Except.bind, Route.leftCount_make hs.root hlw, slotCtx]
    by_cases hb : bit key d
    · rw [if_neg (by rw [bit_make_eq_zero hs.root hlw]; simp [hb]), if_pos hb]
      have hcount : ((node d l r).width : Int) - l.width = r.width := by omega
      rw [hcount, ihr fuel _ _ hr.right hs.right (by omega) (by omega)]
      simp only [Ctx.slot, Ctx.leftItems, List.length_append, length_items, Nat.add_assoc]
    · rw [if_pos (by rw [bit_make_eq_zero hs.root hlw]; simpa using hb), if_neg hb,
        ihl fuel _ _ hr.left hs.left (by omega) (by omega)]
      rfl

variable (key) in
/-- **A page lookup is the descent of its tree.** -/
theorem lookup_eq {t : Tree} (h : Routed page t) :
    page.lookup key = .ok ((t.slotCtx key).1.slot, true) := by
  have h1 := width_pos t
  rw [NodePage.lookup, NodePage.lookupRouteOnly, if_neg (by rw [h.size_eq]; omega), h.size_eq,
    lookupLoop_eq t _ _ _ h.routesAt h.small h.width_le h.width_le, Nat.zero_add]
  rfl

theorem insertSlotAboveLoop_eq (want : ℕ) (t : Tree) : ∀ (fuel idx base : ℕ),
    RoutesAt page idx t → SmallDiffs t → t.width ≤ kMaxNodeReps → t.width ≤ fuel →
    page.insertSlotAboveLoop key δ want fuel idx base t.width =
      if t.HasAbove key δ then .ok (base + t.insertSlot key δ, true)
      else if base + (t.slotCtx key).1.slot ≠ want then err .corruptLayout
      else .ok (0, false) := by
  induction t with
  | leaf k v =>
    intro fuel idx base _ _ _ _
    rw [NodePage.insertSlotAboveLoop.eq_def, if_pos (by simp [width])]
    simp [HasAbove, slotCtx, Ctx.slot, Ctx.leftItems]
  | page i t ih =>
    intro fuel idx base _ _ _ _
    rw [NodePage.insertSlotAboveLoop.eq_def, if_pos (by simp [width])]
    simp [HasAbove, slotCtx, Ctx.slot, Ctx.leftItems]
  | node d l r ihl ihr =>
    intro fuel idx base hr hs hw hf
    have hl1 := width_pos l
    have hr1 := width_pos r
    have hwn : (node d l r).width = l.width + r.width := rfl
    have hsize := hr.1
    obtain ⟨fuel, rfl⟩ : ∃ f, fuel = f + 1 := ⟨fuel - 1, by omega⟩
    have hlw : l.width < 2 ^ 15 := width_lt_of_le (by omega)
    rw [NodePage.insertSlotAboveLoop, if_neg (by omega)]
    simp only [hr.root, bind, Except.bind, Route.leftCount_make hs.root hlw,
      Route.diff_make hs.root hlw]
    rw [if_neg (by omega), if_neg (by omega)]
    by_cases hδ : δ < d
    · rw [if_pos hδ, if_pos (show (node d l r).HasAbove key δ from Or.inl hδ)]
      simp only [insertSlot, if_pos hδ, getDiffBit_eq_zero]
      by_cases hb : bit key δ
      · rw [if_neg (by simp [hb]), if_pos hb]
      · rw [if_pos (by simpa using hb), if_neg hb, Nat.add_zero]
    · rw [if_neg hδ]
      simp only [HasAbove, hδ, false_or, insertSlot, ↓reduceIte, slotCtx]
      by_cases hb : bit key d
      · rw [if_neg (by rw [bit_make_eq_zero hs.root hlw]; simp [hb])]
        simp only [if_pos hb]
        rw [hwn, Nat.add_sub_cancel_left,
          ihr fuel _ _ hr.right hs.right (by omega) (by omega)]
        simp only [Ctx.slot, Ctx.leftItems, List.length_append, length_items, Nat.add_assoc]
      · rw [if_pos (by rw [bit_make_eq_zero hs.root hlw]; simpa using hb)]
        simp only [if_neg hb]
        rw [ihl fuel _ _ hr.left hs.left (by omega) (by omega)]
        rfl

variable (key) in
/-- **The slot above the path**: the walk stops at the first branch above `δ`. -/
theorem insertSlotAbovePath_eq {t : Tree} (h : HasRoutes page t) :
    page.insertSlotAbovePath key δ (t.slotCtx key).1.slot =
      if t.HasAbove key δ then .ok (t.insertSlot key δ, true) else .ok (0, false) := by
  have h1 := width_pos t
  have hslot : (t.slotCtx key).1.slot < t.width := by
    have := Ctx.width_fill (t.slotCtx key).1 (t.slotCtx key).2
    rw [fill_slotCtx, width_eq_one_of_isItem (isItem_slotCtx key t)] at this
    omega
  rw [NodePage.insertSlotAbovePath, if_neg (by rw [h.size_eq]; omega),
    if_neg (by rw [h.size_eq]; omega), h.size_eq,
    insertSlotAboveLoop_eq _ t _ _ _ h.routesAt h.small h.width_le h.width_le]
  simp

end Walks

/-! ### Adding a route -/

section InsertRoute

variable {page : NodePage} {key : ByteView} {δ : ℕ}

/-- The place of the new route in the preorder. -/
def insertPos (key : ByteView) (δ : ℕ) : Tree → ℕ
  | .leaf _ _ => 0
  | .page _ _ => 0
  | .node d l r =>
    if δ < d then 0
    else if bit key d then l.width + insertPos key δ r
    else 1 + insertPos key δ l

/-- The left count of the new route. -/
def insertCount (key : ByteView) (δ : ℕ) : Tree → ℕ
  | .leaf _ _ => 1
  | .page _ _ => 1
  | .node d l r =>
    if δ < d then (if bit key δ then (PagedTree.node d l r).width else 1)
    else if bit key d then insertCount key δ r
    else insertCount key δ l

/-- The routes that get one more item on their left. -/
def insertAncestors (key : ByteView) (δ : ℕ) : Tree → List ℕ
  | .leaf _ _ => []
  | .page _ _ => []
  | .node d l r =>
    if δ < d then []
    else if bit key d then (insertAncestors key δ r).map (l.width + ·)
    else 0 :: (insertAncestors key δ l).map (1 + ·)

variable (key) in
theorem insertRouteLoop_eq (t : Tree) : ∀ (fuel idx base : ℕ) (anc : List ℕ),
    RoutesAt page idx t → SmallDiffs t → t.width ≤ kMaxNodeReps → t.width ≤ fuel →
    page.insertRouteLoop (base + t.insertSlot key δ) key δ fuel idx base t.width anc =
      .ok (page.insertRouteAt (idx + insertPos key δ t) δ (insertCount key δ t)
        (anc ++ (insertAncestors key δ t).map (idx + ·))) := by
  have hitem : ∀ (fuel idx base : ℕ) (anc : List ℕ),
      page.insertRouteLoop (base + if bit key δ then 1 else 0) key δ fuel idx base 1 anc
        = .ok (page.insertRouteAt idx δ 1 anc) := by
    intro fuel idx base anc
    rw [NodePage.insertRouteLoop.eq_def, if_pos (le_refl 1)]
    simp only [ne_eq, getDiffBit_eq_zero]
    by_cases hb : bit key δ
    · simp [hb]
    · simp [hb]
  induction t with
  | leaf k v =>
    intro fuel idx base anc _ _ _ _
    have := hitem fuel idx base anc
    simpa [insertPos, insertCount, insertAncestors, insertSlot, width] using this
  | page i t ih =>
    intro fuel idx base anc _ _ _ _
    have := hitem fuel idx base anc
    simpa [insertPos, insertCount, insertAncestors, insertSlot, width] using this
  | node d l r ihl ihr =>
    intro fuel idx base anc hr hs hw hf
    have hl1 := width_pos l
    have hr1 := width_pos r
    have hwn : (node d l r).width = l.width + r.width := rfl
    have hsize := hr.1
    obtain ⟨fuel, rfl⟩ : ∃ f, fuel = f + 1 := ⟨fuel - 1, by omega⟩
    have hlw : l.width < 2 ^ 15 := width_lt_of_le (by omega)
    rw [NodePage.insertRouteLoop, if_neg (by omega)]
    simp only [hr.root, bind, Except.bind, Route.leftCount_make hs.root hlw,
      Route.diff_make hs.root hlw]
    rw [if_neg (by omega), if_neg (by omega)]
    by_cases hδ : δ < d
    · rw [if_pos hδ]
      simp only [insertSlot, insertPos, insertCount, insertAncestors, if_pos hδ, ne_eq,
        getDiffBit_eq_zero]
      by_cases hb : bit key δ
      · simp [hb]
      · simp [hb]
    · rw [if_neg hδ]
      simp only [insertSlot, insertPos, insertCount, insertAncestors, if_neg hδ]
      by_cases hb : bit key d
      · rw [if_neg (by rw [bit_make_eq_zero hs.root hlw]; simp [hb])]
        simp only [if_pos hb]
        rw [hwn, Nat.add_sub_cancel_left, ← Nat.add_assoc,
          ihr fuel _ _ _ hr.right hs.right (by omega) (by omega)]
        simp only [List.map_map, Nat.add_assoc]
        rfl
      · rw [if_pos (by rw [bit_make_eq_zero hs.root hlw]; simpa using hb)]
        simp only [if_neg hb]
        rw [ihl fuel _ _ _ hr.left hs.left (by omega) (by omega)]
        simp only [List.map_map, List.map_cons, Nat.add_assoc, List.append_assoc,
          List.singleton_append, Nat.add_zero]
        rfl

end InsertRoute

/-! ### Lists with a hole in the middle -/

section Lists

variable {α : Type}

theorem insertIdx_append_right (xs ys : List α) (i : ℕ) (a : α) :
    (xs ++ ys).insertIdx (xs.length + i) a = xs ++ ys.insertIdx i a := by
  induction xs with
  | nil => simp
  | cons x xs ih =>
    rw [List.length_cons, Nat.add_right_comm, List.cons_append, List.insertIdx_succ_cons, ih]
    rfl

theorem insertIdx_append_left {xs : List α} (ys : List α) {i : ℕ} (a : α) (h : i ≤ xs.length) :
    (xs ++ ys).insertIdx i a = xs.insertIdx i a ++ ys := by
  induction xs generalizing i with
  | nil =>
    obtain rfl : i = 0 := by simpa using h
    simp
  | cons x xs ih =>
    cases i with
    | zero => simp
    | succ i =>
      rw [List.cons_append, List.insertIdx_succ_cons, ih (by simpa using h),
        List.insertIdx_succ_cons]
      rfl

theorem modify_append_right (xs ys : List α) (i : ℕ) (f : α → α) :
    (xs ++ ys).modify (xs.length + i) f = xs ++ ys.modify i f := by
  induction xs with
  | nil => simp
  | cons x xs ih =>
    rw [List.length_cons, Nat.add_right_comm, List.cons_append, List.modify_succ_cons, ih]
    rfl

theorem modify_append_left {xs : List α} (ys : List α) {i : ℕ} (f : α → α)
    (h : i < xs.length) : (xs ++ ys).modify i f = xs.modify i f ++ ys := by
  induction xs generalizing i with
  | nil => exact absurd h (Nat.not_lt_zero i)
  | cons x xs ih =>
    cases i with
    | zero => rfl
    | succ i =>
      rw [List.cons_append, List.modify_succ_cons, ih (by simpa using h), List.modify_succ_cons]
      rfl

end Lists

theorem insertIdx_eq_take_drop {α : Type} (a : α) : ∀ {l : List α} {i : ℕ}, i ≤ l.length →
    l.insertIdx i a = l.take i ++ a :: l.drop i
  | _, 0, _ => rfl
  | [], i + 1, h => absurd h (by simp)
  | x :: l, i + 1, h => by
    rw [List.insertIdx_succ_cons, insertIdx_eq_take_drop a (by simpa using h)]
    rfl

section Pad

variable {α : Type} {n : ℕ} {zero : α} {l : List α}

theorem pad_getElem {i : ℕ} (hi : i < n) : (pad n zero l)[i] = l[i]?.getD zero := by
  rw [pad, Vector.getElem_ofFn, List.getD_eq_getElem?_getD]

/-- Writing one place of a padded list. -/
theorem set_pad (l r : List α) (x y : α) :
    (pad n zero (l ++ x :: r)).setIfInBounds l.length y = pad n zero (l ++ y :: r) := by
  apply Vector.ext
  intro i hi
  rw [Vector.getElem_setIfInBounds, pad_getElem hi, pad_getElem hi]
  by_cases hil : l.length = i
  · subst hil
    rw [if_pos rfl, List.getElem?_append_right (le_refl _), Nat.sub_self]
    rfl
  · rw [if_neg hil]
    rcases Nat.lt_or_ge i l.length with hlt | hge
    · rw [List.getElem?_append_left hlt, List.getElem?_append_left hlt]
    · rw [List.getElem?_append_right hge, List.getElem?_append_right hge,
        show i - l.length = (i - l.length - 1) + 1 by omega]
      rfl

variable (zero) in
/-- Shifting a padded list up and writing the gap inserts into the list. -/
theorem shiftUp_pad (pos : ℕ) (x : α) (hpos : pos ≤ l.length) :
    (shiftUp (pad n zero l) pos l.length).setIfInBounds pos x = pad n zero (l.insertIdx pos x) := by
  apply pad_ext
  intro i hi
  rw [Vector.getElem_setIfInBounds hi, List.getD_eq_getElem?_getD, List.getElem?_insertIdx]
  by_cases h1 : pos = i
  · subst h1
    rw [if_pos rfl, if_neg (lt_irrefl _), if_pos rfl, if_pos hpos]
    rfl
  · rw [if_neg h1, shiftUp, Vector.getElem_ofFn]
    dsimp only
    by_cases h2 : i < pos
    · rw [if_neg (by omega), if_pos h2]
      exact pad_getElem hi
    · rw [if_neg h2, if_neg (Ne.symm h1)]
      by_cases h3 : i ≤ l.length
      · rw [if_pos ⟨by omega, h3⟩]
        exact pad_getElem (by omega)
      · rw [if_neg (by omega), List.getElem?_eq_none (by omega)]
        refine (pad_getElem hi).trans ?_
        rw [List.getElem?_eq_none (by omega)]

variable (zero) in
/-- Shifting a padded list down and clearing its end drops a place of the list. -/
theorem shiftDown_pad (pos : ℕ) (hlen : l.length ≤ n) (hpos : pos < l.length) :
    (shiftDown (pad n zero l) pos (l.length - 1)).setIfInBounds (l.length - 1) zero
      = pad n zero (l.eraseIdx pos) := by
  apply pad_ext
  intro i hi
  rw [Vector.getElem_setIfInBounds hi, List.getD_eq_getElem?_getD, List.getElem?_eraseIdx]
  by_cases h1 : l.length - 1 = i
  · rw [if_pos h1, if_neg (by omega), List.getElem?_eq_none (by omega)]
    rfl
  · rw [if_neg h1, shiftDown, Vector.getElem_ofFn]
    dsimp only
    by_cases h2 : pos ≤ i ∧ i < l.length - 1
    · have hi1 : i + 1 < n := by omega
      rw [if_pos h2, if_neg (by omega), Vector.getElem?_eq_getElem hi1]
      exact pad_getElem hi1
    · rw [if_neg h2]
      by_cases h3 : i < pos
      · rw [if_pos h3]
        exact pad_getElem hi
      · rw [if_neg h3, List.getElem?_eq_none (by omega)]
        refine (pad_getElem hi).trans ?_
        rw [List.getElem?_eq_none (by omega)]

end Pad

/-- Change the left counts at the given places. -/
def mapCounts (f : ℕ → ℕ) (places : List ℕ) (l : List (ℕ × ℕ)) : List (ℕ × ℕ) :=
  places.foldl (fun l a => l.modify a (fun p => (p.1, f p.2))) l

theorem mapCounts_cons (f : ℕ → ℕ) (a : ℕ) (as : List ℕ) (l : List (ℕ × ℕ)) :
    mapCounts f (a :: as) l = mapCounts f as (l.modify a (fun p => (p.1, f p.2))) := rfl

/-- Places behind a prefix only touch what is behind it. -/
theorem mapCounts_append_right (f : ℕ → ℕ) (as : List ℕ) : ∀ (xs ys : List (ℕ × ℕ)),
    mapCounts f (as.map (xs.length + ·)) (xs ++ ys) = xs ++ mapCounts f as ys := by
  induction as with
  | nil => intro xs ys; rfl
  | cons a as ih =>
    intro xs ys
    rw [List.map_cons, mapCounts_cons, mapCounts_cons, ← ih, modify_append_right]

/-- Places inside a prefix only touch the prefix. -/
theorem mapCounts_append_left (f : ℕ → ℕ) (as : List ℕ) : ∀ (xs ys : List (ℕ × ℕ)),
    (∀ a ∈ as, a < xs.length) → mapCounts f as (xs ++ ys) = mapCounts f as xs ++ ys := by
  induction as with
  | nil => intro xs ys _; rfl
  | cons a as ih =>
    intro xs ys h
    rw [mapCounts_cons, mapCounts_cons, modify_append_left _ _ (h a List.mem_cons_self),
      ih _ _ (fun b hb => by rw [List.length_modify]; exact h b (List.mem_cons_of_mem a hb))]

/-- Changing counts in the packed table is changing them in the preorder. -/
theorem foldl_routeTable (f : ℕ → ℕ) (g : Route → Route) (as : List ℕ) :
    ∀ l : List (ℕ × ℕ), l.length ≤ kMaxNodeReps - 1 → as.Nodup → (∀ a ∈ as, a < l.length) →
      (∀ a ∈ as, ∀ p, l[a]? = some p → g (packRoute p) = packRoute (p.1, f p.2)) →
      as.foldl (fun rs a => rs.setIfInBounds a (g (rs[a]?.getD Route.zero))) (routeTable l)
        = routeTable (mapCounts f as l) := by
  induction as with
  | nil => intro l _ _ _ _; rfl
  | cons a as ih =>
    intro l hlen hnd hlt hg
    obtain ⟨hna, hnd'⟩ := List.nodup_cons.mp hnd
    have ha : a < l.length := hlt a List.mem_cons_self
    have hstep : (routeTable l).setIfInBounds a (g ((routeTable l)[a]?.getD Route.zero))
        = routeTable (l.modify a (fun p => (p.1, f p.2))) := by
      apply pad_ext
      intro i hi
      have hga := hg a List.mem_cons_self l[a] (List.getElem?_eq_getElem ha)
      rw [Vector.getElem_setIfInBounds hi, List.getD_eq_getElem?_getD, List.getElem?_map,
        List.getElem?_modify]
      by_cases hai : a = i
      · subst hai
        rw [if_pos rfl, routeTable, pad_get hi, List.getD_eq_getElem?_getD, List.getElem?_map,
          List.getElem?_eq_getElem ha]
        simp [hga]
      · rw [if_neg hai, routeTable, pad, Vector.getElem_ofFn, List.getD_eq_getElem?_getD,
          List.getElem?_map]
        simp [hai]
    rw [List.foldl_cons, hstep, mapCounts_cons]
    refine ih _ (by rw [List.length_modify]; exact hlen) hnd'
      (fun b hb => by rw [List.length_modify]; exact hlt b (List.mem_cons_of_mem a hb))
      (fun b hb p hp => ?_)
    have hab : a ≠ b := fun h => hna (h ▸ hb)
    exact hg b (List.mem_cons_of_mem a hb) p (by simpa [List.getElem?_modify, hab] using hp)

section InsertRoute

variable {page : NodePage} {key : ByteView} {δ : ℕ}

variable (key) in
theorem insertPos_le (t : Tree) : insertPos key δ t ≤ t.preorder.length := by
  induction t with
  | leaf k v => exact le_refl 0
  | page i t ih => exact le_refl 0
  | node d l r ihl ihr =>
    have hl := length_preorder l
    simp only [insertPos, preorder, List.length_cons, List.length_append]
    split
    · omega
    · split <;> omega

theorem insertAncestors_lt (t : Tree) :
    ∀ a ∈ insertAncestors key δ t, a < insertPos key δ t := by
  induction t with
  | leaf k v => intro a ha; exact absurd ha List.not_mem_nil
  | page i t ih => intro a ha; exact absurd ha List.not_mem_nil
  | node d l r ihl ihr =>
    intro a ha
    simp only [insertAncestors, insertPos] at ha ⊢
    split at ha
    · exact absurd ha List.not_mem_nil
    · rename_i hδ
      rw [if_neg hδ]
      split at ha
      · rename_i hb
        rw [if_pos hb]
        obtain ⟨b, hb', rfl⟩ := List.mem_map.mp ha
        exact Nat.add_lt_add_left (ihr b hb') _
      · rename_i hb
        rw [if_neg hb]
        rcases List.mem_cons.mp ha with rfl | ha
        · omega
        · obtain ⟨b, hb', rfl⟩ := List.mem_map.mp ha
          exact Nat.add_lt_add_left (ihl b hb') _

theorem insertAncestors_nodup (t : Tree) : (insertAncestors key δ t).Nodup := by
  induction t with
  | leaf k v => exact List.nodup_nil
  | page i t ih => exact List.nodup_nil
  | node d l r ihl ihr =>
    simp only [insertAncestors]
    split
    · exact List.nodup_nil
    · split
      · exact ihr.map (fun a b h => Nat.add_left_cancel h)
      · refine List.nodup_cons.mpr ⟨?_, ihl.map (fun a b h => Nat.add_left_cancel h)⟩
        intro h0
        obtain ⟨b, _, hb⟩ := List.mem_map.mp h0
        omega

/-- The preorder of the larger page: the new branch at its place, one more item on the left of
its left ancestors. -/
theorem preorder_insertPage {new : Tree} (hnew : new.IsItem) (t : Tree) :
    (insertPage key δ new t).preorder
      = mapCounts (· + 1) (insertAncestors key δ t)
          (t.preorder.insertIdx (insertPos key δ t) (δ, insertCount key δ t)) := by
  have hnp : new.preorder = [] := by
    cases new with
    | leaf k v => rfl
    | page i t => rfl
    | node d l r => exact hnew.elim
  have hnw := width_eq_one_of_isItem hnew
  have hjoin : ∀ s : Tree, (join key δ new s).preorder
      = (δ, if bit key δ then s.width else 1) :: s.preorder := by
    intro s
    unfold join
    split
    · simp [preorder, hnp]
    · simp [preorder, hnp, hnw]
  induction t with
  | leaf k v =>
    have := hjoin (leaf k v)
    simpa [insertPage, insertAncestors, insertPos, insertCount, mapCounts, preorder, width]
      using this
  | page i t ih =>
    have := hjoin (PagedTree.page i t)
    simpa [insertPage, insertAncestors, insertPos, insertCount, mapCounts, preorder, width]
      using this
  | node d l r ihl ihr =>
    simp only [insertPage, insertAncestors, insertPos, insertCount]
    split
    · rw [hjoin]
      simp [mapCounts]
    · split
      · have hlen : ((d, l.width) :: l.preorder).length = l.width := by
          rw [List.length_cons, length_preorder]
        have hins := insertIdx_append_right ((d, l.width) :: l.preorder) r.preorder
          (insertPos key δ r) (δ, insertCount key δ r)
        have hmap := mapCounts_append_right (· + 1) (insertAncestors key δ r)
          ((d, l.width) :: l.preorder)
          (r.preorder.insertIdx (insertPos key δ r) (δ, insertCount key δ r))
        rw [hlen] at hins hmap
        rw [show (PagedTree.node d l r).preorder
          = ((d, l.width) :: l.preorder) ++ r.preorder from rfl, hins, hmap, ← ihr]
        rfl
      · rename_i hδ hb
        have hle := insertPos_le key (δ := δ) l
        rw [show (PagedTree.node d l r).preorder
            = (d, l.width) :: (l.preorder ++ r.preorder) from rfl, Nat.add_comm 1,
          List.insertIdx_succ_cons, insertIdx_append_left _ _ hle, mapCounts_cons,
          List.modify_zero_cons]
        have hsingle := mapCounts_append_right (· + 1) (insertAncestors key δ l)
          [(d, l.width + 1)]
          (l.preorder.insertIdx (insertPos key δ l) (δ, insertCount key δ l) ++ r.preorder)
        rw [List.length_singleton, List.singleton_append] at hsingle
        rw [hsingle, mapCounts_append_left, ← ihl]
        · rw [show (PagedTree.node d (insertPage key δ new l) r).preorder
              = (d, (insertPage key δ new l).width)
                :: ((insertPage key δ new l).preorder ++ r.preorder) from rfl,
            width_insertPage hnew]
          rfl
        · intro a ha
          have := insertAncestors_lt l a ha
          rw [List.length_insertIdx_of_le_length hle]
          omega

/-- Shifting the table up and writing the gap inserts into the preorder. -/
theorem shiftUp_routeTable {l : List (ℕ × ℕ)} {pos : ℕ} (x : ℕ × ℕ) (hpos : pos ≤ l.length) :
    (shiftUp (routeTable l) pos l.length).setIfInBounds pos (packRoute x)
      = routeTable (l.insertIdx pos x) := by
  have hpos' : pos ≤ (l.map packRoute).length := by
    rw [List.length_map]
    exact hpos
  have := shiftUp_pad Route.zero _ (n := kMaxNodeReps - 1) (packRoute x) hpos'
  rw [List.length_map] at this
  rw [routeTable, routeTable, List.map_insertIdx, this]

theorem preorder_snd_le (t : Tree) : ∀ p ∈ t.preorder, p.2 < t.width := by
  induction t with
  | leaf k v => intro p hp; exact absurd hp List.not_mem_nil
  | page i t ih => intro p hp; exact absurd hp List.not_mem_nil
  | node d l r ihl ihr =>
    have hr := width_pos r
    intro p hp
    simp only [preorder, width, List.mem_cons, List.mem_append] at hp ⊢
    rcases hp with rfl | hp | hp
    · show l.width < l.width + r.width
      omega
    · have := ihl p hp
      omega
    · have := ihr p hp
      omega

theorem preorder_fst_mem (t : Tree) : ∀ p ∈ t.preorder, p.1 ∈ t.diffs := by
  induction t with
  | leaf k v => intro p hp; exact absurd hp List.not_mem_nil
  | page i t ih => intro p hp; exact absurd hp List.not_mem_nil
  | node d l r ihl ihr =>
    intro p hp
    simp only [preorder, diffs, List.mem_cons, List.mem_append] at hp ⊢
    rcases hp with rfl | hp | hp
    · exact Or.inr (Or.inl rfl)
    · exact Or.inl (ihl p hp)
    · exact Or.inr (Or.inr (ihr p hp))

/-- The table update of an insertion, on the preorder. -/
theorem insertRouteAt_eq {l : List (ℕ × ℕ)} {pos δ c : ℕ} {as : List ℕ}
    (hroutes : page.routes = routeTable l) (hsize : page.size - 1 = l.length)
    (hlen : l.length < kMaxNodeReps - 1) (hpos : pos ≤ l.length) (hnd : as.Nodup)
    (hlt : ∀ a ∈ as, a < pos)
    (hsmall : ∀ p ∈ l, p.1 < 2 ^ 16 ∧ p.2 + 1 < 2 ^ 15) :
    page.insertRouteAt pos δ c as
      = { page with routes := routeTable (mapCounts (· + 1) as (l.insertIdx pos (δ, c))) } := by
  have hil : (l.insertIdx pos (δ, c)).length = l.length + 1 :=
    List.length_insertIdx_of_le_length hpos _
  have hfold := foldl_routeTable (· + 1) Route.incLeftCount as (l.insertIdx pos (δ, c))
    (by omega) hnd (fun a ha => by have := hlt a ha; omega) (fun a ha p hp => by
      rw [List.getElem?_insertIdx_of_lt (hlt a ha)] at hp
      obtain ⟨h1, h2⟩ := hsmall p (List.mem_of_getElem? hp)
      exact Route.incLeftCount_make h1 h2)
  rw [NodePage.insertRouteAt, hsize, hroutes,
    show Route.make δ c = packRoute (δ, c) from rfl, shiftUp_routeTable _ hpos, hfold]

theorem preorder_small {t : Tree} (hs : SmallDiffs t) (hw : t.width ≤ kMaxNodeReps) :
    ∀ p ∈ t.preorder, p.1 < 2 ^ 16 ∧ p.2 + 1 < 2 ^ 15 := by
  intro p hp
  have h1 := preorder_snd_le t p hp
  have h2 : kMaxNodeReps < 2 ^ 15 := by decide
  exact ⟨hs _ (preorder_fst_mem t p hp), by omega⟩

variable (key) in
/-- The walk ends at the place of the new route. -/
theorem insertRoute_run {t : Tree} (h : Routed page t) (hw : t.width < kMaxNodeReps) :
    page.insertRoute (t.insertSlot key δ) key δ
      = .ok (page.insertRouteAt (insertPos key δ t) δ (insertCount key δ t)
        (insertAncestors key δ t)) := by
  have h1 := width_pos t
  have hloop := insertRouteLoop_eq key (δ := δ) t kMaxNodeReps 0 0 [] h.routesAt h.small
    h.width_le h.width_le
  have hmap : (insertAncestors key δ t).map (0 + ·) = insertAncestors key δ t := by simp
  rw [Nat.zero_add, Nat.zero_add, List.nil_append, hmap, ← h.size_eq] at hloop
  rw [NodePage.insertRoute, if_neg (by rw [h.size_eq]; omega)]
  exact hloop

variable (key) in
/-- **The packed insertion gives the table of the larger page.** -/
theorem insertRoute_eq {t : Tree} (new : Tree) (h : HasRoutes page t) (hnew : new.IsItem)
    (hw : t.width < kMaxNodeReps) :
    page.insertRoute (t.insertSlot key δ) key δ
      = .ok { page with routes := routeTable (insertPage key δ new t).preorder } := by
  have h1 := width_pos t
  have hlen := length_preorder t
  rw [insertRoute_run key h.routed hw,
    insertRouteAt_eq h.routes_eq (by rw [h.size_eq]; omega) (by omega) (insertPos_le _ t)
      (insertAncestors_nodup t) (insertAncestors_lt t) (preorder_small h.small h.width_le),
    ← preorder_insertPage hnew]

end InsertRoute

/-! ### Dropping a route -/

section DeleteRoute

variable {page : NodePage}

/-- The place of the dropped route: the last turn on the way to the hole. -/
def removePos : TreeCtx → ℕ
  | .hole => 0
  | .left _ c _ => match c.remove with
    | none => 0
    | some _ => 1 + removePos c
  | .right _ l c => match c.remove with
    | none => 0
    | some _ => l.width + removePos c

/-- The routes that get one item less on their left. -/
def removeAncestors : TreeCtx → List ℕ
  | .hole => []
  | .left _ c _ => match c.remove with
    | none => []
    | some _ => 0 :: (removeAncestors c).map (1 + ·)
  | .right _ l c => match c.remove with
    | none => []
    | some _ => (removeAncestors c).map (l.width + ·)

theorem removeAncestors_lt (c : TreeCtx) : ∀ a ∈ removeAncestors c, a < removePos c := by
  induction c with
  | hole => intro a ha; exact absurd ha List.not_mem_nil
  | left d c r ih =>
    intro a ha
    cases hc : c.remove with
    | none => simp [removeAncestors, hc] at ha
    | some t =>
      simp only [removeAncestors, removePos, hc] at ha ⊢
      rcases List.mem_cons.mp ha with rfl | ha
      · omega
      · obtain ⟨b, hb, rfl⟩ := List.mem_map.mp ha
        exact Nat.add_lt_add_left (ih b hb) _
  | right d l c ih =>
    intro a ha
    cases hc : c.remove with
    | none => simp [removeAncestors, hc] at ha
    | some t =>
      simp only [removeAncestors, removePos, hc] at ha ⊢
      obtain ⟨b, hb, rfl⟩ := List.mem_map.mp ha
      exact Nat.add_lt_add_left (ih b hb) _

theorem removeAncestors_nodup (c : TreeCtx) : (removeAncestors c).Nodup := by
  induction c with
  | hole => exact List.nodup_nil
  | left d c r ih =>
    cases hc : c.remove with
    | none => simp [removeAncestors, hc]
    | some t =>
      simp only [removeAncestors, hc]
      refine List.nodup_cons.mpr ⟨?_, ih.map (fun a b h => Nat.add_left_cancel h)⟩
      intro h0
      obtain ⟨b, _, hb⟩ := List.mem_map.mp h0
      omega
  | right d l c ih =>
    cases hc : c.remove with
    | none => simp [removeAncestors, hc]
    | some t =>
      simp only [removeAncestors, hc]
      exact ih.map (fun a b h => Nat.add_left_cancel h)

theorem one_le_width_fill {c : TreeCtx} {s t : Tree} (hs : s.IsItem) (h : c.remove = some t) :
    (c.fill s).width = t.width + 1 := by
  rw [Ctx.width_fill, Ctx.width_remove c h, width_eq_one_of_isItem hs]
  omega

theorem removePos_lt {c : TreeCtx} {s : Tree} : ∀ {t : Tree}, c.remove = some t →
    removePos c < (c.fill s).preorder.length := by
  induction c with
  | hole => intro t h; exact absurd h (by simp [Ctx.remove])
  | left d c r ih =>
    intro t h
    simp only [Ctx.fill, preorder, removePos, List.length_cons, List.length_append]
    cases hc : c.remove with
    | none => exact Nat.succ_pos _
    | some t' =>
      have := ih hc
      simp only
      omega
  | right d l c ih =>
    intro t h
    have hl := length_preorder l
    simp only [Ctx.fill, preorder, removePos, List.length_cons, List.length_append]
    cases hc : c.remove with
    | none => exact Nat.succ_pos _
    | some t' =>
      have := ih hc
      simp only
      omega

/-- The preorder of the smaller page: the last turn dropped, one item less on the left of the
left ancestors. -/
theorem preorder_remove {c : TreeCtx} {s : Tree} (hs : s.IsItem) : ∀ {t : Tree},
    c.remove = some t →
    t.preorder = mapCounts (· - 1) (removeAncestors c)
      ((c.fill s).preorder.eraseIdx (removePos c)) := by
  have hsp : s.preorder = [] := by
    have h1 := length_preorder s
    rw [width_eq_one_of_isItem hs] at h1
    exact List.length_eq_zero_iff.mp (by omega)
  induction c with
  | hole => intro t h; exact absurd h (by simp [Ctx.remove])
  | left d c r ih =>
    intro t h
    cases hc : c.remove with
    | none =>
      simp only [Ctx.remove, hc, Option.some.injEq] at h
      rw [Ctx.remove_eq_none hc]
      simp [removeAncestors, removePos, Ctx.remove, Ctx.fill, preorder, mapCounts, hsp, h]
    | some t' =>
      simp only [Ctx.remove, hc, Option.some.injEq] at h
      subst h
      have hp := removePos_lt (s := s) hc
      have hlt := removeAncestors_lt c
      simp only [removeAncestors, removePos, hc, Ctx.fill, preorder]
      have hsingle := mapCounts_append_right (· - 1) (removeAncestors c)
        [(d, (c.fill s).width - 1)] ((c.fill s).preorder.eraseIdx (removePos c) ++ r.preorder)
      rw [List.length_singleton, List.singleton_append] at hsingle
      rw [Nat.add_comm 1, List.eraseIdx_cons_succ, List.eraseIdx_append_of_lt_length hp,
        mapCounts_cons, List.modify_zero_cons, hsingle, mapCounts_append_left, ← ih hc,
        one_le_width_fill hs hc]
      · rfl
      · intro a ha
        rw [List.length_eraseIdx_of_lt hp]
        have := hlt a ha
        omega
  | right d l c ih =>
    intro t h
    have hl := length_preorder l
    cases hc : c.remove with
    | none =>
      simp only [Ctx.remove, hc, Option.some.injEq] at h
      rw [Ctx.remove_eq_none hc]
      simp [removeAncestors, removePos, Ctx.remove, Ctx.fill, preorder, mapCounts, hsp, h]
    | some t' =>
      simp only [Ctx.remove, hc, Option.some.injEq] at h
      subst h
      have hlen : ((d, l.width) :: l.preorder).length = l.width := by
        rw [List.length_cons, hl]
      have hmap := mapCounts_append_right (· - 1) (removeAncestors c) ((d, l.width) :: l.preorder)
        ((c.fill s).preorder.eraseIdx (removePos c))
      rw [hlen] at hmap
      simp only [removeAncestors, removePos, hc, Ctx.fill]
      rw [show (PagedTree.node d l (c.fill s)).preorder
          = ((d, l.width) :: l.preorder) ++ (c.fill s).preorder from rfl,
        List.eraseIdx_append_of_length_le (by omega), hlen, Nat.add_sub_cancel_left, hmap, ← ih hc]
      rfl

variable (page) in
theorem deleteRouteLoop_eq {s : Tree} (hs : s.IsItem) (c : TreeCtx) :
    ∀ (fuel idx base : ℕ) (parent : Option ℕ) (anc : List ℕ), RoutesAt page idx (c.fill s) →
    SmallDiffs (c.fill s) → (c.fill s).width ≤ kMaxNodeReps → (c.fill s).width ≤ fuel →
    page.deleteRouteLoop (base + c.slot) fuel idx base (c.fill s).width parent anc =
      match c.remove, parent with
      | none, none => err .corruptLayout
      | none, some p => .ok (page.deleteRouteAt p anc)
      | some _, _ => .ok (page.deleteRouteAt (idx + removePos c)
          (anc ++ (removeAncestors c).map (idx + ·))) := by
  have hsw := width_eq_one_of_isItem hs
  induction c with
  | hole =>
    intro fuel idx base parent anc _ _ _ _
    rw [NodePage.deleteRouteLoop.eq_def, if_pos (by rw [Ctx.fill, hsw])]
    cases parent with
    | none => rfl
    | some p => simp [Ctx.slot, Ctx.leftItems, Ctx.remove]
  | left d c r ih =>
    intro fuel idx base parent anc hr hsm hw hf
    have hl1 := width_pos (c.fill s)
    have hr1 := width_pos r
    simp only [Ctx.fill] at hr hsm hw hf ⊢
    have hwn : (PagedTree.node d (c.fill s) r).width = (c.fill s).width + r.width := rfl
    have hwf := Ctx.width_fill c s
    have hsize := hr.1
    obtain ⟨fuel, rfl⟩ : ∃ f, fuel = f + 1 := ⟨fuel - 1, by omega⟩
    have hlw : (c.fill s).width < 2 ^ 15 := width_lt_of_le (by omega)
    have hslot : (Ctx.left d c r).slot = c.slot := rfl
    rw [NodePage.deleteRouteLoop.eq_def, if_neg (by omega)]
    simp only [hr.root, bind, Except.bind, Route.leftCount_make hsm.root hlw]
    rw [if_neg (by omega), if_neg (by omega), hslot, if_pos (by omega),
      ih fuel _ _ _ _ hr.left hsm.left (by omega) (by omega)]
    cases hc : c.remove with
    | none =>
      rw [if_neg (by rw [Ctx.remove_eq_none hc, Ctx.fill, hsw]; omega)]
      simp [Ctx.remove, removePos, removeAncestors, hc]
    | some t =>
      have ht := width_pos t
      have hwc := one_le_width_fill hs hc
      rw [if_pos (by omega)]
      simp [Ctx.remove, removePos, removeAncestors, hc, Nat.add_assoc, Function.comp_def]
  | right d l c ih =>
    intro fuel idx base parent anc hr hsm hw hf
    have hl1 := width_pos l
    have hr1 := width_pos (c.fill s)
    simp only [Ctx.fill] at hr hsm hw hf ⊢
    have hwn : (PagedTree.node d l (c.fill s)).width = l.width + (c.fill s).width := rfl
    have hsize := hr.1
    obtain ⟨fuel, rfl⟩ : ∃ f, fuel = f + 1 := ⟨fuel - 1, by omega⟩
    have hlw : l.width < 2 ^ 15 := width_lt_of_le (by omega)
    have hslot : (Ctx.right d l c).slot = l.width + c.slot := by
      simp only [Ctx.slot, Ctx.leftItems, List.length_append, length_items]
    rw [NodePage.deleteRouteLoop.eq_def, if_neg (by omega)]
    simp only [hr.root, bind, Except.bind, Route.leftCount_make hsm.root hlw]
    rw [if_neg (by omega), if_neg (by omega), hslot, if_neg (by omega), hwn,
      Nat.add_sub_cancel_left, ← Nat.add_assoc,
      ih fuel _ _ _ _ hr.right hsm.right (by omega) (by omega)]
    cases hc : c.remove with
    | none => simp [Ctx.remove, removePos, removeAncestors, hc]
    | some t =>
      simp [Ctx.remove, removePos, removeAncestors, hc, Nat.add_assoc, Function.comp_def]

/-- Shifting the table down and clearing its end drops a place of the preorder. -/
theorem shiftDown_routeTable {l : List (ℕ × ℕ)} {pos : ℕ} (hlen : l.length ≤ kMaxNodeReps - 1)
    (hpos : pos < l.length) :
    (shiftDown (routeTable l) pos (l.length - 1)).setIfInBounds (l.length - 1) Route.zero
      = routeTable (l.eraseIdx pos) := by
  have hlen' : (l.map packRoute).length ≤ kMaxNodeReps - 1 := by
    rw [List.length_map]
    exact hlen
  have hpos' : pos < (l.map packRoute).length := by
    rw [List.length_map]
    exact hpos
  have := shiftDown_pad Route.zero _ hlen' hpos'
  rw [List.length_map] at this
  rw [routeTable, routeTable, ← List.eraseIdx_map, this]

theorem preorder_snd_pos (t : Tree) : ∀ p ∈ t.preorder, 1 ≤ p.2 := by
  induction t with
  | leaf k v => intro p hp; exact absurd hp List.not_mem_nil
  | page i t ih => intro p hp; exact absurd hp List.not_mem_nil
  | node d l r ihl ihr =>
    intro p hp
    simp only [preorder, List.mem_cons, List.mem_append] at hp
    rcases hp with rfl | hp | hp
    · exact width_pos l
    · exact ihl p hp
    · exact ihr p hp

/-- The table update of a removal, on the preorder. -/
theorem deleteRouteAt_eq {l : List (ℕ × ℕ)} {pos : ℕ} {as : List ℕ}
    (hroutes : page.routes = routeTable l) (hsize : page.size - 1 = l.length)
    (hlen : l.length ≤ kMaxNodeReps - 1) (hpos : pos < l.length) (hnd : as.Nodup)
    (hlt : ∀ a ∈ as, a < pos)
    (hsmall : ∀ p ∈ l, p.1 < 2 ^ 16 ∧ p.2 + 1 < 2 ^ 15) (hone : ∀ p ∈ l, 1 ≤ p.2) :
    page.deleteRouteAt pos as
      = { page with routes := routeTable (mapCounts (· - 1) as (l.eraseIdx pos)) } := by
  have hel : (l.eraseIdx pos).length = l.length - 1 := List.length_eraseIdx_of_lt hpos
  have hfold := foldl_routeTable (· - 1) Route.decLeftCount as (l.eraseIdx pos)
    (by omega) hnd (fun a ha => by have := hlt a ha; omega) (fun a ha p hp => by
      rw [List.getElem?_eraseIdx_of_lt (hlt a ha)] at hp
      obtain ⟨h1, h2⟩ := hsmall p (List.mem_of_getElem? hp)
      have h3 := hone p (List.mem_of_getElem? hp)
      have := Route.decLeftCount_make (p.2 - 1) h1 (by omega)
      rwa [Nat.sub_add_cancel h3] at this)
  rw [NodePage.deleteRouteAt, show page.size - 2 = l.length - 1 by omega, hroutes,
    shiftDown_routeTable hlen hpos, hfold]

/-- The walk of a removal ends below the branch that goes with the item. -/
theorem deleteRoute_run {c : TreeCtx} {s t : Tree} (h : Routed page (c.fill s)) (hs : s.IsItem)
    (hc : c.remove = some t) :
    page.deleteRoute c.slot = .ok (page.deleteRouteAt (removePos c) (removeAncestors c)) := by
  have h1 := one_le_width_fill hs hc
  have ht := width_pos t
  have hwf := Ctx.width_fill c s
  have hsw := width_eq_one_of_isItem hs
  have hloop := deleteRouteLoop_eq page hs c kMaxNodeReps 0 0 none [] h.routesAt h.small
    h.width_le h.width_le
  have hmap : (removeAncestors c).map (0 + ·) = removeAncestors c := by simp
  simp only [hc] at hloop
  rw [Nat.zero_add, Nat.zero_add, List.nil_append, hmap, ← h.size_eq] at hloop
  rw [NodePage.deleteRoute, if_neg (by rw [h.size_eq]; omega)]
  exact hloop

/-- **The packed removal gives the table of the smaller page.** -/
theorem deleteRoute_eq {c : TreeCtx} {s t : Tree} (h : HasRoutes page (c.fill s))
    (hs : s.IsItem) (hc : c.remove = some t) :
    page.deleteRoute c.slot = .ok { page with routes := routeTable t.preorder } := by
  have hlen := length_preorder (c.fill s)
  have hsize := h.size_eq
  rw [deleteRoute_run h.routed hs hc,
    deleteRouteAt_eq h.routes_eq (show page.size - 1 = (c.fill s).preorder.length by omega)
      (by have := h.width_le; omega) (removePos_lt hc)
      (removeAncestors_nodup c) (removeAncestors_lt c) (preorder_small h.small h.width_le)
      (preorder_snd_pos _),
    ← preorder_remove hs hc]

end DeleteRoute

/-! ### Reading the tree back -/

section Decode

variable {page : NodePage}

/-- Overwrite the places of a list from `base` on. -/
def writeAt {α : Type} (out : List α) (base : ℕ) (ds : List α) : List α :=
  out.take base ++ ds ++ out.drop (base + ds.length)

theorem writeAt_get {α : Type} {out ds : List α} {base : ℕ} (h : base + ds.length ≤ out.length) (i : ℕ) :
    (writeAt out base ds)[i]?
      = if base ≤ i ∧ i < base + ds.length then ds[i - base]? else out[i]? := by
  have htake : (out.take base).length = base := by
    rw [List.length_take]
    omega
  rw [writeAt, List.append_assoc]
  by_cases h1 : i < base
  · rw [if_neg (by omega), List.getElem?_append_left (by omega), List.getElem?_take_of_lt h1]
  · rw [List.getElem?_append_right (by omega), htake]
    by_cases h2 : i < base + ds.length
    · rw [if_pos ⟨by omega, h2⟩, List.getElem?_append_left (by omega)]
    · rw [if_neg (by omega), List.getElem?_append_right (by omega), List.getElem?_drop]
      congr 1
      omega

theorem length_writeAt {α : Type} {out ds : List α} {base : ℕ} (h : base + ds.length ≤ out.length) :
    (writeAt out base ds).length = out.length := by
  simp only [writeAt, List.length_append, List.length_take, List.length_drop]
  omega

theorem writeAt_nil {α : Type} (out : List α) (base : ℕ) : writeAt out base [] = out := by
  simp [writeAt]

/-- Writing a branch and both sides of it writes the whole subtree. -/
theorem writeAt_node {α : Type} {out l r : List α} {base : ℕ} {d : α}
    (h : base + (l.length + 1 + r.length) ≤ out.length) :
    writeAt (writeAt (out.set (base + l.length) d) base l) (base + l.length + 1) r
      = writeAt out base (l ++ d :: r) := by
  have hset : (out.set (base + l.length) d).length = out.length := List.length_set
  have h1 : base + l.length ≤ (out.set (base + l.length) d).length := by omega
  apply List.ext_getElem?
  intro i
  rw [writeAt_get (by rw [length_writeAt h1, hset]; omega), writeAt_get h1, writeAt_get (by
    rw [List.length_append, List.length_cons]; omega), List.getElem?_set]
  simp only [List.length_append, List.length_cons]
  by_cases hi1 : i < base
  · rw [if_neg (by omega), if_neg (by omega), if_neg (by omega), if_neg (by omega)]
  · by_cases hi2 : i < base + l.length
    · rw [if_neg (by omega), if_pos (by omega), if_pos (by omega),
        List.getElem?_append_left (by omega)]
    · by_cases hi3 : i = base + l.length
      · rw [if_neg (by omega), if_neg (by omega), if_pos hi3.symm, if_pos (by omega),
          if_pos (by omega), List.getElem?_append_right (by omega), hi3]
        simp
      · by_cases hi4 : i < base + l.length + 1 + r.length
        · rw [if_pos (by omega), if_pos (by omega), List.getElem?_append_right (by omega),
            show i - base - l.length = i - (base + l.length + 1) + 1 by omega,
            List.getElem?_cons_succ]
        · rw [if_neg (by omega), if_neg (by omega), if_neg (by omega), if_neg (by omega)]

/-- A frame of a subtree with at least one branch; a single item has none. -/
def pushTree (idx base : ℕ) (t : Tree) (stack : List RouteFrame) : List RouteFrame :=
  if 1 < t.width then ⟨idx, base, base + t.width⟩ :: stack else stack

theorem pushIf_tree {cond : Prop} [Decidable cond] {idx : ℕ} (base : ℕ) {a b : Int} {t : Tree}
    {stack : List RouteFrame} (hcond : cond ↔ 1 < t.width) (ha : a = base)
    (hb : b = base + t.width) (hst : stack.length + t.width ≤ kMaxNodeReps + 1) :
    NodePage.pushIf cond ⟨idx, a, b⟩ stack = .ok (pushTree idx base t stack) := by
  subst ha hb
  unfold NodePage.pushIf pushTree
  by_cases h : 1 < t.width
  · rw [if_pos (hcond.mpr h), if_pos h, NodePage.pushFrame, if_pos (by omega)]
  · rw [if_neg (fun hc => h (hcond.mp hc)), if_neg h]

theorem length_pushTree (idx base : ℕ) (t : Tree) (stack : List RouteFrame) :
    (pushTree idx base t stack).length + 1 ≤ stack.length + t.width := by
  have ht := width_pos t
  unfold pushTree
  split
  · rw [List.length_cons]
    omega
  · omega

/-! ### The writes of the decoder -/

/-- The slots that the loop of `RouteDiffs` writes and what it writes there, in this order. -/
def routeDiffsWrites (page : NodePage) : ℕ → List RouteFrame → Result (List (ℕ × ℕ))
  | _, [] => .ok []
  | 0, _ :: _ => .error .diverges
  | fuel + 1, frame :: stack => do
    if frame.node ≥ page.size - 1 then err .corruptLayout
    else
      let route ← page.routeAt frame.node
      let leftCount := route.leftCount
      let diffIdx : Int := frame.leafL + leftCount - 1
      if leftCount ≤ 0 ∨ diffIdx < frame.leafL ∨ diffIdx ≥ frame.leafR - 1 then
        err .corruptLayout
      else
        let rightIdx := frame.node + leftCount
        let stack ← NodePage.pushIf (diffIdx + 1 < frame.leafR - 1)
          ⟨rightIdx, diffIdx + 1, frame.leafR⟩ stack
        let stack ← NodePage.pushIf (frame.leafL < diffIdx)
          ⟨frame.node + 1, frame.leafL, diffIdx + 1⟩ stack
        let writes ← routeDiffsWrites page fuel stack
        .ok ((diffIdx.toNat, route.diff) :: writes)

/-- A list after writes to its slots. -/
def applyWrites (out : List ℕ) (writes : List (ℕ × ℕ)) : List ℕ :=
  writes.foldl (fun out write => out.set write.1 write.2) out

theorem applyWrites_append (out : List ℕ) (ws ws' : List (ℕ × ℕ)) :
    applyWrites out (ws ++ ws') = applyWrites (applyWrites out ws) ws' := List.foldl_append

/-- **The loop makes these writes** and no others. -/
theorem routeDiffsLoop_eq_writes (fuel : ℕ) : ∀ (stack : List RouteFrame) (out : List ℕ),
    page.routeDiffsLoop fuel stack out = (routeDiffsWrites page fuel stack).map (applyWrites out) := by
  induction fuel with
  | zero =>
    intro stack out
    cases stack with
    | nil => rfl
    | cons frame stack => rfl
  | succ fuel ih =>
    intro stack out
    cases stack with
    | nil => rfl
    | cons frame stack =>
      rw [NodePage.routeDiffsLoop, routeDiffsWrites]
      split
      · rfl
      cases page.routeAt frame.node with
      | error fault => rfl
      | ok route =>
        simp only [bind, Except.bind]
        split
        · rfl
        cases NodePage.pushIf (frame.leafL + route.leftCount - 1 + 1 < frame.leafR - 1)
          ⟨frame.node + route.leftCount, frame.leafL + route.leftCount - 1 + 1, frame.leafR⟩ stack with
        | error fault => rfl
        | ok stack =>
          simp only
          cases NodePage.pushIf (frame.leafL < frame.leafL + route.leftCount - 1)
            ⟨frame.node + 1, frame.leafL, frame.leafL + route.leftCount - 1 + 1⟩ stack with
          | error fault => rfl
          | ok stack =>
            simp only
            rw [ih]
            cases routeDiffsWrites page fuel stack with
            | error fault => rfl
            | ok writes => rfl

/-- The writes of a subtree in preorder, its first slot at `base`. -/
def writesOf (base : ℕ) : Tree → List (ℕ × ℕ)
  | .leaf _ _ => []
  | .page _ _ => []
  | .node d l r => (base + l.diffs.length, d) :: writesOf base l ++ writesOf (base + l.width) r

/-- **A subtree writes every slot of its part once.** -/
theorem writesOf_slots (t : Tree) : ∀ base,
    ((writesOf base t).map Prod.fst).Perm (List.range' base t.diffs.length) := by
  induction t with
  | leaf k v => intro base; rfl
  | page i t ih => intro base; rfl
  | node d l r ihl ihr =>
    intro base
    have hld := length_diffs l
    have hrange : List.range' base (PagedTree.node d l r).diffs.length =
        List.range' base l.diffs.length ++ (base + l.diffs.length) ::
          List.range' (base + l.width) r.diffs.length := by
      rw [diffs, List.length_append, List.length_cons, ← List.range'_append_1, List.range'_succ,
        Nat.add_assoc base, hld]
    rw [hrange, writesOf, List.map_append, List.map_cons, List.cons_append]
    exact (((ihl base).append (ihr (base + l.width))).cons _).trans List.perm_middle.symm

/-- The writes of a subtree leave its diffs. -/
theorem applyWrites_writesOf (t : Tree) : ∀ (out : List ℕ) (base : ℕ),
    base + t.width ≤ out.length + 1 → applyWrites out (writesOf base t) = writeAt out base t.diffs := by
  induction t with
  | leaf k v => intro out base _; rw [diffs, writeAt_nil]; rfl
  | page i t ih => intro out base _; rw [diffs, writeAt_nil]; rfl
  | node d l r ihl ihr =>
    intro out base hout
    have hld := length_diffs l
    have hrd := length_diffs r
    have hr1 := width_pos r
    have hwn : (PagedTree.node d l r).width = l.width + r.width := rfl
    have hset : (out.set (base + l.diffs.length) d).length = out.length := List.length_set
    rw [writesOf, applyWrites_append]
    show applyWrites (applyWrites (out.set (base + l.diffs.length) d) (writesOf base l)) _ = _
    rw [ihl _ _ (by omega), ihr _ _ (by rw [length_writeAt (by omega)]; omega),
      show base + l.width = base + l.diffs.length + 1 by omega, writeAt_node (by omega)]
    rfl

/-- **Decoding a subtree** makes its writes and goes on with the rest of the stack, which never
grows beyond the array it is kept in. -/
theorem routeDiffsWrites_eq (t : Tree) : ∀ (fuel idx base : ℕ) (stack : List RouteFrame),
    RoutesAt page idx t → SmallDiffs t → t.width ≤ kMaxNodeReps →
    stack.length + t.width ≤ kMaxNodeReps + 1 →
    routeDiffsWrites page (fuel + (t.width - 1)) (pushTree idx base t stack)
      = (routeDiffsWrites page fuel stack).map (writesOf base t ++ ·) := by
  have hnil : ∀ x : Result (List (ℕ × ℕ)), x = x.map fun ws => ws := by
    intro x
    cases x <;> rfl
  induction t with
  | leaf k v => intro fuel idx base stack _ _ _ _; simp [pushTree, width, writesOf, ← hnil]
  | page i t ih => intro fuel idx base stack _ _ _ _; simp [pushTree, width, writesOf, ← hnil]
  | node d l r ihl ihr =>
    intro fuel idx base stack hr hs hw hst
    have hl1 := width_pos l
    have hr1 := width_pos r
    have hwn : (PagedTree.node d l r).width = l.width + r.width := rfl
    have hlw : l.width < 2 ^ 15 := width_lt_of_le (by omega)
    have hld := length_diffs l
    have hsize := hr.1
    have hfuel : fuel + ((PagedTree.node d l r).width - 1)
        = fuel + (r.width - 1) + (l.width - 1) + 1 := by omega
    rw [hfuel, pushTree, if_pos (by omega), routeDiffsWrites,
      if_neg (by show ¬ idx ≥ page.size - 1; omega)]
    simp only [hr.root, bind, Except.bind, Route.leftCount_make hs.root hlw,
      Route.diff_make hs.root hlw]
    rw [if_neg (by omega)]
    have hpos : ((base : Int) + (l.width : Int) - 1).toNat = base + l.diffs.length := by omega
    have hstlen := length_pushTree (idx + l.width) (base + l.width) r stack
    rw [hpos, pushIf_tree (base + l.width) (t := r) (by omega) (by omega) (by omega)
      (by omega)]
    simp only
    rw [pushIf_tree base (t := l) (by omega) (by omega) (by omega) (by omega)]
    simp only
    rw [ihl _ _ _ _ hr.left hs.left (by omega) (by omega),
      ihr _ _ _ _ hr.right hs.right (by omega) (by omega)]
    cases routeDiffsWrites page fuel stack with
    | error fault => rfl
    | ok writes =>
      apply congrArg Except.ok
      show (base + l.diffs.length, d) :: (writesOf base l ++ (writesOf (base + l.width) r ++ writes)) =
        writesOf base (.node d l r) ++ writes
      rw [writesOf, List.cons_append, List.cons_append, List.append_assoc]

/-- **The writes of a whole page.** -/
theorem routeDiffsWrites_page {t : Tree} (h : Routed page t) (h1 : 1 < t.width) :
    routeDiffsWrites page kMaxNodeReps [⟨0, 0, page.size⟩] = .ok (writesOf 0 t) := by
  have hw := h.width_le
  obtain ⟨fuel, hfuel⟩ : ∃ f, kMaxNodeReps = f + (t.width - 1) :=
    ⟨kMaxNodeReps - (t.width - 1), by omega⟩
  have hloop := routeDiffsWrites_eq t fuel 0 0 [] h.routesAt h.small hw
    (by rw [List.length_nil]; omega)
  rw [pushTree, if_pos h1, ← hfuel] at hloop
  simp only [Nat.cast_zero, zero_add] at hloop
  rw [h.size_eq, hloop, routeDiffsWrites.eq_def]
  simp only [Except.map, List.append_nil]

/-- **Decoding a page gives the branch positions in item order.** -/
theorem routeDiffs_eq {t : Tree} (out : List ℕ) (h : Routed page t)
    (hout : out.length + 1 = t.width) : page.routeDiffs out = .ok t.diffs := by
  have hd := length_diffs t
  rw [NodePage.routeDiffs, if_neg (by rw [h.size_eq]; omega)]
  by_cases h1 : page.size ≤ 1
  · rw [if_pos h1, List.length_eq_zero_iff.mp (show out.length = 0 by rw [h.size_eq] at h1; omega),
      List.length_eq_zero_iff.mp (show t.diffs.length = 0 by rw [h.size_eq] at h1; omega)]
  · rw [if_neg h1, routeDiffsLoop_eq_writes, routeDiffsWrites_page h (by rw [← h.size_eq]; omega)]
    simp only [Except.map]
    rw [applyWrites_writesOf t out 0 (by omega)]
    simp only [writeAt, List.take_zero, List.nil_append, Nat.zero_add]
    rw [List.drop_of_length_le (by omega), List.append_nil]

/-! ### Direct pairs -/

/-- Whether the branch with the given place in item order joins two items. -/
def directPair : ℕ → Tree → Bool
  | _, .leaf _ _ => false
  | _, .page _ _ => false
  | i, .node _ l r =>
    if i + 1 = l.width then l.width == 1 && r.width == 1
    else if i + 1 < l.width then directPair i l
    else directPair (i - l.width) r

theorem directRoutePairLoop_eq (i : ℕ) (t : Tree) : ∀ (fuel idx base : ℕ)
    (stack : List RouteFrame), RoutesAt page idx t → SmallDiffs t → t.width ≤ kMaxNodeReps →
    stack.length + t.width ≤ kMaxNodeReps + 1 →
    page.directRoutePairLoop i (fuel + (t.width - 1)) (pushTree idx base t stack)
      = if base ≤ i ∧ i + 1 < base + t.width then .ok (directPair (i - base) t)
        else page.directRoutePairLoop i fuel stack := by
  induction t with
  | leaf k v =>
    intro fuel idx base stack _ _ _ _
    rw [if_neg (by simp only [width]; omega)]
    simp [pushTree, width]
  | page j t ih =>
    intro fuel idx base stack _ _ _ _
    rw [if_neg (by simp only [width]; omega)]
    simp [pushTree, width]
  | node d l r ihl ihr =>
    intro fuel idx base stack hr hs hw hst
    have hl1 := width_pos l
    have hr1 := width_pos r
    have hwn : (PagedTree.node d l r).width = l.width + r.width := rfl
    have hlw : l.width < 2 ^ 15 := width_lt_of_le (by omega)
    have hfuel : fuel + ((PagedTree.node d l r).width - 1)
        = fuel + (r.width - 1) + (l.width - 1) + 1 := by omega
    rw [hfuel, pushTree, if_pos (by omega), NodePage.directRoutePairLoop]
    simp only [hr.root, bind, Except.bind, Route.leftCount_make hs.root hlw]
    by_cases hi : i + 1 = base + l.width
    · rw [if_pos (by omega), if_pos (by omega)]
      congr 1
      simp only [directPair]
      rw [if_pos (by omega)]
      rw [Bool.eq_iff_iff]
      simp only [decide_eq_true_eq, Bool.and_eq_true, beq_iff_eq]
      omega
    · rw [if_neg (by omega)]
      have hstlen := length_pushTree (idx + l.width) (base + l.width) r stack
      rw [pushIf_tree (base + l.width) (t := r) (by omega) (by omega) (by omega)
        (by omega)]
      simp only
      rw [pushIf_tree base (t := l) (by omega) (by omega) (by omega) (by omega)]
      simp only
      rw [ihl _ _ _ _ hr.left hs.left (by omega) (by omega)]
      by_cases h2 : base ≤ i ∧ i + 1 < base + l.width
      · rw [if_pos h2, if_pos (by omega), directPair, if_neg (by omega), if_pos (by omega)]
      · rw [if_neg h2, ihr _ _ _ _ hr.right hs.right (by omega) (by omega)]
        by_cases h3 : base + l.width ≤ i ∧ i + 1 < base + l.width + r.width
        · rw [if_pos h3, if_pos (by omega), directPair, if_neg (by omega), if_neg (by omega),
            Nat.sub_sub]
        · rw [if_neg h3, if_neg (by omega)]

theorem isDirectRoutePair_eq {t : Tree} (h : HasRoutes page t) {i : ℕ} (hi : i + 1 < t.width) :
    page.isDirectRoutePair i = .ok (directPair i t) := by
  have hw := h.width_le
  have hpow : kMaxNodeReps < 2 ^ kMaxNodeReps := Nat.lt_two_pow_self
  rw [NodePage.isDirectRoutePair, if_neg (by rw [h.size_eq]; omega), h.size_eq]
  generalize 2 ^ kMaxNodeReps = fuel0 at hpow ⊢
  obtain ⟨fuel, rfl⟩ : ∃ f, fuel0 = f + (t.width - 1) := ⟨fuel0 - (t.width - 1), by omega⟩
  have hloop := directRoutePairLoop_eq i t fuel 0 0 [] h.routesAt h.small hw
    (by rw [List.length_nil]; omega)
  rw [pushTree, if_pos (by omega), if_pos (by omega), Nat.sub_zero] at hloop
  simpa using hloop

/-- A page with a hole of width one is only the hole. -/
theorem eq_hole_of_width {c : TreeCtx} {x : Tree} (h : (c.fill x).width = 1) : c = .hole := by
  have hx := width_pos x
  cases c with
  | hole => rfl
  | left d c r =>
    have h1 := width_pos r
    have h2 := width_pos (c.fill x)
    simp only [Ctx.fill, width] at h
    omega
  | right d l c =>
    have h1 := width_pos l
    have h2 := width_pos (c.fill x)
    simp only [Ctx.fill, width] at h
    omega

/-- The hole is the right item of a direct pair. -/
theorem directPair_left {x : Tree} (hx : x.IsItem) : ∀ {c : TreeCtx} {i : ℕ},
    directPair i (c.fill x) = true → c.slot = i + 1 →
    ∃ (c' : TreeCtx) (d : ℕ) (y : Tree), y.IsItem ∧ c'.slot = i ∧
      ∀ z, c.fill z = c'.fill (.node d y z)
  | .hole, i, _, hslot => absurd hslot (by simp [Ctx.slot, Ctx.leftItems])
  | .left d c r, i, h, hslot => by
    have hslot' : c.slot = i + 1 := hslot
    have hw := Ctx.width_fill c x
    have hx1 := width_pos x
    rw [Ctx.fill, directPair, if_neg (by omega), if_pos (by omega)] at h
    obtain ⟨c', e, y, hy, hc, hfill⟩ := directPair_left hx h hslot'
    exact ⟨.left d c' r, e, y, hy, hc, fun z => by rw [Ctx.fill, hfill z]; rfl⟩
  | .right d l c, i, h, hslot => by
    have hslot' : l.width + c.slot = i + 1 := by
      rw [← hslot, Ctx.slot, Ctx.slot, Ctx.leftItems, List.length_append, length_items]
    have hw := Ctx.width_fill c x
    have hl := width_pos l
    rw [Ctx.fill, directPair] at h
    by_cases h1 : i + 1 = l.width
    · rw [if_pos h1, Bool.and_eq_true, beq_iff_eq, beq_iff_eq] at h
      obtain rfl := eq_hole_of_width h.2
      exact ⟨.hole, d, l, isItem_of_width h.1, by
        simp only [Ctx.slot, Ctx.leftItems, List.length_nil]; omega, fun z => rfl⟩
    · rw [if_neg h1, if_neg (by omega)] at h
      obtain ⟨c', e, y, hy, hc, hfill⟩ := directPair_left hx h (by omega)
      refine ⟨.right d l c', e, y, hy, ?_, fun z => by rw [Ctx.fill, hfill z]; rfl⟩
      simp only [Ctx.slot, Ctx.leftItems, List.length_append, length_items] at hc ⊢
      omega

/-- The hole is the left item of a direct pair. -/
theorem directPair_right {x : Tree} (hx : x.IsItem) : ∀ {c : TreeCtx} {i : ℕ},
    directPair i (c.fill x) = true → c.slot = i →
    ∃ (c' : TreeCtx) (d : ℕ) (y : Tree), y.IsItem ∧ c'.slot = i ∧
      ∀ z, c.fill z = c'.fill (.node d z y)
  | .hole, i, h, _ => by
    rw [Ctx.fill] at h
    cases x with
    | leaf k v => exact absurd h (by simp [directPair])
    | page j t => exact absurd h (by simp [directPair])
    | node d l r => exact hx.elim
  | .left d c r, i, h, hslot => by
    have hslot' : c.slot = i := hslot
    have hw := Ctx.width_fill c x
    have hx1 := width_pos x
    rw [Ctx.fill, directPair] at h
    by_cases h1 : i + 1 = (c.fill x).width
    · rw [if_pos h1, Bool.and_eq_true, beq_iff_eq, beq_iff_eq] at h
      obtain rfl := eq_hole_of_width h.1
      exact ⟨.hole, d, r, isItem_of_width h.2, hslot', fun z => rfl⟩
    · rw [if_neg h1, if_pos (by omega)] at h
      obtain ⟨c', e, y, hy, hc, hfill⟩ := directPair_right hx h hslot'
      exact ⟨.left d c' r, e, y, hy, hc, fun z => by rw [Ctx.fill, hfill z]; rfl⟩
  | .right d l c, i, h, hslot => by
    have hslot' : l.width + c.slot = i := by
      rw [← hslot, Ctx.slot, Ctx.slot, Ctx.leftItems, List.length_append, length_items]
    rw [Ctx.fill, directPair, if_neg (by omega), if_neg (by omega)] at h
    obtain ⟨c', e, y, hy, hc, hfill⟩ := directPair_right hx h (by omega)
    refine ⟨.right d l c', e, y, hy, ?_, fun z => by rw [Ctx.fill, hfill z]; rfl⟩
    simp only [Ctx.slot, Ctx.leftItems, List.length_append, length_items] at hc ⊢
    omega

end Decode

end MinweightStore.Minpatricia
