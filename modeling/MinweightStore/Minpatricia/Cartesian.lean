import MinweightStore.Minpatricia.PageRoutes

/-!
# Cartesian trees of diffs

`BuildCartesian` and `WritePreorderRoutes` of `index.h`, and the two choices of a split range that
walk the same tree.  On the diffs of a Patricia tree they rebuild that tree:

* `buildCartesian_eq` — the stack pass finds the branch of each diff and its two neighbours;
* `writePreorderRoutes_eq` — the walk writes the packed preorder;
* `chooseSplitRange_spec` — the chosen range is a proper subtree with at least two items.
-/

namespace MinweightStore.Minpatricia

open BitKey PagedTree

/-! ### The code -/

/-- `detail::Cartesian`; `none` is the code's `-1`. -/
structure Cartesian where
  left : List (Option ℕ)
  right : List (Option ℕ)
  root : ℕ
  deriving DecidableEq, Repr

/-- `left`, `right` and `cart_stack` of the scratch space, the top of the stack first. -/
structure CartScratch where
  left : List (Option ℕ)
  right : List (Option ℕ)
  stack : List ℕ
  deriving DecidableEq, Repr

/-- The inner `while` of `BuildCartesian`. -/
def popCartesian (diffs : List ℕ) (diff : ℕ) : List ℕ → Option ℕ → Option ℕ × List ℕ
  | [], last => (last, [])
  | top :: stack, last =>
    if diff ≤ diffs.getD top 0 then popCartesian diffs diff stack (some top)
    else (last, top :: stack)

/-- One turn of the outer loop of `BuildCartesian`. -/
def cartesianStep (diffs : List ℕ) (scratch : CartScratch) (i : ℕ) : CartScratch :=
  let popped := popCartesian diffs (diffs.getD i 0) scratch.stack none
  let left := match popped.1 with
    | some last => scratch.left.set i (some last)
    | none => scratch.left
  let right := match popped.2 with
    | top :: _ => scratch.right.set top (some i)
    | [] => scratch.right
  ⟨left, right, i :: popped.2⟩

/-- `BuildCartesian`.  Without diffs the code would read the front of an empty stack. -/
def buildCartesian (diffs : List ℕ) : Result Cartesian :=
  let none' := List.replicate diffs.length none
  let scratch := (List.range diffs.length).foldl (cartesianStep diffs) ⟨none', none', []⟩
  match scratch.stack.getLast? with
  | some root => .ok ⟨scratch.left, scratch.right, root⟩
  | none => .error .undefined

/-- The frames of the two sides of a branch, the left one on top. -/
def pushSides (cartesian : Cartesian) (frame : RouteFrame) (stack : List RouteFrame) :
    List RouteFrame :=
  let i := frame.node
  let stack := match cartesian.right.getD i none with
    | some j => ⟨j, i + 1, frame.leafR⟩ :: stack
    | none => stack
  match cartesian.left.getD i none with
  | some j => ⟨j, frame.leafL, i + 1⟩ :: stack
  | none => stack

/-- The loop of `WritePreorderRoutes`; `room` is what is left of the output span. -/
def writePreorderLoop (diffs : List ℕ) (cartesian : Cartesian) :
    ℕ → List RouteFrame → List Route → Result (List Route)
  | _, [], out => .ok out
  | 0, _ :: _, _ => .error .undefined
  | room + 1, frame :: stack, out =>
    let i := frame.node
    let leftCount := (((i : Int) - frame.leafL + 1) % 2 ^ 16).toNat
    writePreorderLoop diffs cartesian room (pushSides cartesian frame stack)
      (out ++ [Route.make (diffs.getD i 0) leftCount])

/-- `WritePreorderRoutes`: the routes written, in the order of the output span. -/
def writePreorderRoutes (diffs : List ℕ) (cartesian : Cartesian) (size : ℕ) :
    Result (List Route) :=
  writePreorderLoop diffs cartesian diffs.length [⟨cartesian.root, 0, size⟩] []

/-- `detail::SplitRange`. -/
structure SplitRange where
  start : ℕ
  count : ℕ
  deriving DecidableEq, Repr

/-- The walk over all branches that the two range choices share, as a fold of what they do with a
frame.  Every branch is met once, so a walk of more turns than diffs does not end. -/
def foldFrames {σ : Type} (cartesian : Cartesian) (visit : σ → RouteFrame → σ) :
    ℕ → List RouteFrame → σ → Result σ
  | _, [], s => .ok s
  | 0, _ :: _, _ => .error .diverges
  | fuel + 1, frame :: stack, s =>
    foldFrames cartesian visit fuel (pushSides cartesian frame stack) (visit s frame)

/-- The best ranges met so far; `none` is the code's start `-1`. -/
structure SplitChoice where
  best : Option SplitRange
  bestScore : ℕ
  preferred : Option SplitRange
  deriving DecidableEq, Repr

/-- The range whose count is nearest to the target, the first one met of several. -/
def takeBest (repCount : ℕ) (range : SplitRange) (choice : SplitChoice) : SplitChoice :=
  let score := ((range.count : Int) - (repCount / 2 : ℕ)).natAbs
  if choice.best = none ∨ score < choice.bestScore then
    { choice with best := some range, bestScore := score }
  else choice

/-- The largest range between a third and a half of the reps. -/
def takePreferred (repCount : ℕ) (range : SplitRange) (choice : SplitChoice) : SplitChoice :=
  let target := repCount / 2
  let minPreferredCount := (repCount + 2) / 3
  if range.count ≥ minPreferredCount ∧ range.count ≤ target
      ∧ (∀ p ∈ choice.preferred, range.count > p.count) then
    { choice with preferred := some range }
  else choice

/-- The body of the walk of `ChooseSplitRange`. -/
def visitSplit (repCount : ℕ) (choice : SplitChoice) (frame : RouteFrame) : SplitChoice :=
  let count := (frame.leafR - frame.leafL).toNat
  let range : SplitRange := ⟨frame.leafL.toNat, count⟩
  if count ≥ 2 ∧ count ≤ repCount - 2 then
    takePreferred repCount range (takeBest repCount range choice)
  else choice

/-- The body of the walk of `ChooseEdgeSplitRange`. -/
def visitEdgeSplit (repCount : ℕ) (insertSlot : Int) (best : Option SplitRange)
    (frame : RouteFrame) : Option SplitRange :=
  let count := (frame.leafR - frame.leafL).toNat
  if count ≥ 2 ∧ count ≤ repCount - 2
      ∧ (insertSlot < frame.leafL ∨ insertSlot ≥ frame.leafR) then
    match best with
    | none => some ⟨frame.leafL.toNat, count⟩
    | some b => if count > b.count then some ⟨frame.leafL.toNat, count⟩ else some b
  else best

/-- `ChooseEdgeSplitRange`. -/
def chooseEdgeSplitRange (diffs : List ℕ) (repCount : ℕ) (insertSlot : Int) :
    Result SplitRange := do
  let cartesian ← buildCartesian diffs
  let best ← foldFrames cartesian (visitEdgeSplit repCount insertSlot) diffs.length
    [⟨cartesian.root, 0, repCount⟩] none
  match best with
  | none => err .missingKey
  | some range => .ok range

/-- `ChooseSplitRange`, from the diffs of the reps on. -/
def chooseSplitRange (diffs : List ℕ) (repCount : ℕ) (insertSlot : Int) : Result SplitRange :=
  let inner : Result SplitRange := do
    let cartesian ← buildCartesian diffs
    let choice ← foldFrames cartesian (visitSplit repCount) diffs.length
      [⟨cartesian.root, 0, repCount⟩] ⟨none, repCount, none⟩
    match choice.best, choice.preferred with
    | none, _ => .ok ⟨(repCount - repCount / 2) / 2, repCount / 2⟩
    | some _, some range => .ok range
    | some range, none => .ok range
  if insertSlot = 0 ∨ insertSlot = (repCount : Int) - 1 then
    match chooseEdgeSplitRange diffs repCount insertSlot with
    | .ok range => .ok range
    | .error (.status _) => inner
    | .error fault => .error fault
  else inner

/-! ### Heap order and the tree behind the arrays -/

/-- Every branch position is below all positions under it in the page. -/
def HeapOrdered : Tree → Prop
  | .leaf _ _ => True
  | .page _ _ => True
  | .node d l r =>
    (∀ e ∈ l.diffs, d < e) ∧ (∀ e ∈ r.diffs, d < e) ∧ HeapOrdered l ∧ HeapOrdered r

theorem heapOrdered_of_valid {t : Tree} (h : t.Valid) : HeapOrdered t := by
  induction t with
  | leaf k v => trivial
  | page i t ih => trivial
  | node d l r ihl ihr =>
    exact ⟨fun e he => h.lt_of_mem_diffs (Or.inl he), fun e he => h.lt_of_mem_diffs (Or.inr he),
      ihl h.2.1, ihr h.2.2⟩

/-- **A Cartesian tree**: the last of the smallest diffs of a part is the branch above it. -/
def CartesianOrdered : Tree → Prop
  | .leaf _ _ => True
  | .page _ _ => True
  | .node d l r =>
    (∀ e ∈ l.diffs, d ≤ e) ∧ (∀ e ∈ r.diffs, d < e) ∧ CartesianOrdered l ∧ CartesianOrdered r

theorem HeapOrdered.cartesian {t : Tree} (h : HeapOrdered t) : CartesianOrdered t := by
  induction t with
  | leaf k v => trivial
  | page i t ih => trivial
  | node d l r ihl ihr =>
    obtain ⟨hl, hr, hl', hr'⟩ := h
    exact ⟨fun e he => (hl e he).le, hr, ihl hl', ihr hr'⟩

/-- The place of the topmost branch, for a subtree whose items start at `base`. -/
def rootAt (base : ℕ) : Tree → Option ℕ
  | .leaf _ _ => none
  | .page _ _ => none
  | .node _ l _ => some (base + l.diffs.length)

/-- The left neighbours of all branches. -/
def leftsAt (base : ℕ) : Tree → List (Option ℕ)
  | .leaf _ _ => []
  | .page _ _ => []
  | .node _ l r => leftsAt base l ++ rootAt base l :: leftsAt (base + l.width) r

/-- The right neighbours of all branches. -/
def rightsAt (base : ℕ) : Tree → List (Option ℕ)
  | .leaf _ _ => []
  | .page _ _ => []
  | .node _ l r => rightsAt base l ++ rootAt (base + l.width) r :: rightsAt (base + l.width) r

/-- The right spine, its end first. -/
def spineAt (base : ℕ) : Tree → List ℕ
  | .leaf _ _ => []
  | .page _ _ => []
  | .node _ l r => spineAt (base + l.width) r ++ [base + l.diffs.length]

theorem length_leftsAt (t : Tree) : ∀ base, (leftsAt base t).length = t.diffs.length := by
  induction t with
  | leaf k v => intro base; rfl
  | page i t ih => intro base; rfl
  | node d l r ihl ihr =>
    intro base
    simp only [leftsAt, diffs, List.length_append, List.length_cons, ihl, ihr]

theorem length_rightsAt (t : Tree) : ∀ base, (rightsAt base t).length = t.diffs.length := by
  induction t with
  | leaf k v => intro base; rfl
  | page i t ih => intro base; rfl
  | node d l r ihl ihr =>
    intro base
    simp only [rightsAt, diffs, List.length_append, List.length_cons, ihl, ihr]

theorem getLast_spineAt (t : Tree) (base : ℕ) : (spineAt base t).getLast? = rootAt base t := by
  cases t with
  | leaf k v => rfl
  | page i t => rfl
  | node d l r => simp [spineAt, rootAt]

/-- The diffs of the page from `base` on are those of `t`. -/
def DiffsAt (ds : List ℕ) (base : ℕ) (t : Tree) : Prop :=
  ∀ j e, t.diffs[j]? = some e → ds[base + j]? = some e

theorem DiffsAt.left {ds : List ℕ} {base d : ℕ} {l r : Tree}
    (h : DiffsAt ds base (.node d l r)) : DiffsAt ds base l := by
  intro j e he
  refine h j e ?_
  rw [diffs, List.getElem?_append_left (List.getElem?_eq_some_iff.mp he).1]
  exact he

theorem DiffsAt.root {ds : List ℕ} {base d : ℕ} {l r : Tree}
    (h : DiffsAt ds base (.node d l r)) : ds[base + l.diffs.length]? = some d := by
  refine h l.diffs.length d ?_
  rw [diffs, List.getElem?_append_right (le_refl _), Nat.sub_self]
  rfl

theorem DiffsAt.right {ds : List ℕ} {base d : ℕ} {l r : Tree}
    (h : DiffsAt ds base (.node d l r)) : DiffsAt ds (base + l.width) r := by
  have hl := length_diffs l
  intro j e he
  rw [show base + l.width + j = base + (l.diffs.length + 1 + j) by omega]
  refine h _ e ?_
  rw [diffs, List.getElem?_append_right (by omega),
    show l.diffs.length + 1 + j - l.diffs.length = j + 1 by omega, List.getElem?_cons_succ]
  exact he

theorem spineAt_diff {ds : List ℕ} (t : Tree) : ∀ base, DiffsAt ds base t →
    ∀ i ∈ spineAt base t, ∃ e ∈ t.diffs, ds[i]? = some e := by
  induction t with
  | leaf k v => intro base _ i hi; exact absurd hi List.not_mem_nil
  | page j t ih => intro base _ i hi; exact absurd hi List.not_mem_nil
  | node d l r ihl ihr =>
    intro base h i hi
    rcases List.mem_append.mp hi with hi | hi
    · obtain ⟨e, he, hd⟩ := ihr _ h.right i hi
      exact ⟨e, List.mem_append_right _ (List.mem_cons_of_mem d he), hd⟩
    · rw [List.mem_singleton.mp hi]
      exact ⟨d, List.mem_append_right _ List.mem_cons_self, h.root⟩

/-! ### The stack pass -/

theorem popCartesian_append {ds : List ℕ} {d : ℕ} (spine : List ℕ) : ∀ {last : Option ℕ}
    {stack : List ℕ}, (∀ i ∈ spine, d ≤ ds.getD i 0) → (∀ i ∈ stack.head?, ¬ d ≤ ds.getD i 0) →
    popCartesian ds d (spine ++ stack) last = (spine.getLast?.or last, stack) := by
  induction spine with
  | nil =>
    intro last stack _ hst
    cases stack with
    | nil => rfl
    | cons top rest => rw [List.nil_append, popCartesian, if_neg (hst top rfl)]; rfl
  | cons i spine ih =>
    intro last stack hsp hst
    rw [List.cons_append, popCartesian, if_pos (hsp i List.mem_cons_self),
      ih (fun j hj => hsp j (List.mem_cons_of_mem i hj)) hst]
    cases spine with
    | nil => rfl
    | cons j rest =>
      rw [List.getLast?_cons_cons, List.getLast?_eq_some_getLast (List.cons_ne_nil j rest)]
      rfl

/-- Record the right neighbour of the top of the stack. -/
def setTop (right : List (Option ℕ)) (stack : List ℕ) (i : Option ℕ) : List (Option ℕ) :=
  match stack with
  | top :: _ => right.set top i
  | [] => right

theorem length_setTop (right : List (Option ℕ)) (stack : List ℕ) (i : Option ℕ) :
    (setTop right stack i).length = right.length := by
  cases stack with
  | nil => rfl
  | cons top rest => exact List.length_set

theorem setTop_get {right : List (Option ℕ)} {stack : List ℕ} {i : Option ℕ} {j : ℕ}
    (h : ∀ top ∈ stack.head?, top ≠ j) : (setTop right stack i)[j]? = right[j]? := by
  cases stack with
  | nil => rfl
  | cons top rest => exact List.getElem?_set_ne (h top rfl)

theorem set_none {l : List (Option ℕ)} {i : ℕ} (h : l[i]? = some none) : l.set i none = l := by
  obtain ⟨hi, hg⟩ := List.getElem?_eq_some_iff.mp h
  rw [← hg, List.set_getElem_self]

theorem setTop_none {right : List (Option ℕ)} {stack : List ℕ}
    (h : ∀ i ∈ stack.head?, right[i]? = some none) : setTop right stack none = right := by
  cases stack with
  | nil => rfl
  | cons top rest => exact set_none (h top rfl)

theorem writeAt_set {α : Type} {out ds : List α} {base : ℕ} {a : α}
    (h : base + ds.length ≤ out.length) :
    (writeAt out base ds).set (base + ds.length) a
      = writeAt (out.set (base + ds.length) a) base ds := by
  have h' : base + ds.length ≤ (out.set (base + ds.length) a).length := by
    rw [List.length_set]
    exact h
  apply List.ext_getElem?
  intro i
  rw [List.getElem?_set, writeAt_get h', writeAt_get h, List.getElem?_set, length_writeAt h]
  by_cases hi : base + ds.length = i
  · rw [if_pos hi, if_neg (show ¬ (base ≤ i ∧ i < base + ds.length) by omega), if_pos hi]
  · rw [if_neg hi, if_neg hi]

theorem writeAt_branch {α : Type} {out l r : List α} {base i j : ℕ} {a : α}
    (h : base + (l.length + 1 + r.length) ≤ out.length) (hi : i = base + l.length)
    (hj : j = i + 1) :
    writeAt ((writeAt out base l).set i a) j r = writeAt out base (l ++ a :: r) := by
  subst hi hj
  rw [writeAt_set (by omega), writeAt_node h]

/-- What the top of the stack gets later is written over what it had. -/
theorem setTop_writeAt (right ds : List (Option ℕ)) {stack : List ℕ} {a b : Option ℕ} {base : ℕ}
    (h : base + ds.length ≤ right.length) (htop : ∀ top ∈ stack.head?, top < base) :
    setTop (writeAt (setTop right stack a) base ds) stack b
      = writeAt (setTop right stack b) base ds := by
  cases stack with
  | nil => rfl
  | cons top rest =>
    have ht := htop top rfl
    have ha : base + ds.length ≤ (right.set top a).length := by rwa [List.length_set]
    have hb : base + ds.length ≤ (right.set top b).length := by rwa [List.length_set]
    apply List.ext_getElem?
    intro j
    show ((writeAt (right.set top a) base ds).set top b)[j]? = (writeAt (right.set top b) base ds)[j]?
    rw [List.getElem?_set, writeAt_get ha, length_writeAt ha, List.length_set, writeAt_get hb,
      List.getElem?_set, List.getElem?_set]
    by_cases hj : top = j
    · subst hj
      rw [if_pos rfl, if_neg (show ¬ (base ≤ top ∧ top < base + ds.length) by omega), if_pos rfl]
    · rw [if_neg hj, if_neg hj, if_neg hj]

/-- The step at a branch, when the left side has just been passed. -/
theorem cartesianStep_eq (ds : List ℕ) (left right : List (Option ℕ)) (spine stack : List ℕ)
    {i : ℕ} (hsp : ∀ j ∈ spine, ds.getD i 0 ≤ ds.getD j 0)
    (hst : ∀ j ∈ stack.head?, ¬ ds.getD i 0 ≤ ds.getD j 0) (hnone : left[i]? = some none) :
    cartesianStep ds ⟨left, right, spine ++ stack⟩ i
      = ⟨left.set i spine.getLast?, setTop right stack (some i), i :: stack⟩ := by
  simp only [cartesianStep, popCartesian_append spine hsp hst, Option.or_none]
  have hleft : (match spine.getLast? with
      | some last => left.set i (some last)
      | none => left) = left.set i spine.getLast? := by
    cases spine.getLast? with
    | none => exact (set_none hnone).symm
    | some last => rfl
  rw [hleft]
  cases stack with
  | nil => rfl
  | cons top rest => rfl

/-- **The stack pass over one subtree.**  It writes the neighbours of its branches, hooks its top
below the stack it found, and leaves its right spine on that stack. -/
theorem cartesianSteps_eq (ds : List ℕ) (t : Tree) : ∀ (base : ℕ) (left right : List (Option ℕ))
    (stack : List ℕ), CartesianOrdered t → DiffsAt ds base t →
    base + t.diffs.length ≤ left.length → left.length = right.length →
    (∀ j < t.diffs.length, left[base + j]? = some none ∧ right[base + j]? = some none) →
    (∀ i ∈ stack.head?, i < base ∧ right[i]? = some none ∧ ∀ e ∈ t.diffs, ds.getD i 0 < e) →
    (List.range' base t.diffs.length).foldl (cartesianStep ds) ⟨left, right, stack⟩
      = ⟨writeAt left base (leftsAt base t),
          writeAt (setTop right stack (rootAt base t)) base (rightsAt base t),
          spineAt base t ++ stack⟩ := by
  induction t with
  | leaf k v =>
    intro base left right stack _ _ _ _ _ hst
    simp [diffs, leftsAt, rightsAt, rootAt, spineAt, writeAt_nil,
      setTop_none (fun i hi => (hst i hi).2.1)]
  | page j t ih =>
    intro base left right stack _ _ _ _ _ hst
    simp [diffs, leftsAt, rightsAt, rootAt, spineAt, writeAt_nil,
      setTop_none (fun i hi => (hst i hi).2.1)]
  | node d l r ihl ihr =>
    intro base left right stack ho hd hlen hlr hnone hst
    obtain ⟨hol, hor, hl, hr⟩ := ho
    have hld := length_diffs l
    have hll := length_leftsAt l base
    have hrl := length_rightsAt l base
    have hn : (PagedTree.node d l r).diffs.length = l.diffs.length + 1 + r.diffs.length := by
      simp only [diffs, List.length_append, List.length_cons]
      omega
    have hroot : ds.getD (base + l.diffs.length) 0 = d := by
      rw [List.getD_eq_getElem?_getD, hd.root]
      rfl
    have hw1 : base + l.diffs.length + 1 = base + l.width := by omega
    -- the left side, then the branch, then the right side
    have hrange : List.range' base (PagedTree.node d l r).diffs.length
        = List.range' base l.diffs.length ++ (base + l.diffs.length)
          :: List.range' (base + l.width) r.diffs.length := by
      rw [hn, Nat.add_assoc, ← List.range'_append_1, Nat.add_comm 1 r.diffs.length,
        List.range'_succ, hw1]
    rw [hrange, List.foldl_append, List.foldl_cons,
      ihl base left right stack hl hd.left (by omega) hlr (fun j hj => hnone j (by omega))
        (fun i hi => ⟨(hst i hi).1, (hst i hi).2.1,
          fun e he => (hst i hi).2.2 e (List.mem_append_left _ he)⟩)]
    have hstep := cartesianStep_eq ds (writeAt left base (leftsAt base l)) (writeAt (setTop right stack (rootAt base l)) base (rightsAt base l)) (spineAt base l) stack (i := base + l.diffs.length)
      (fun j hj => by
        obtain ⟨e, he, hde⟩ := spineAt_diff l base hd.left j hj
        rw [hroot, List.getD_eq_getElem?_getD, hde]
        exact hol e he)
      (fun j hj => by
        have := (hst j hj).2.2 d (List.mem_append_right _ List.mem_cons_self)
        omega)
      (by
        rw [writeAt_get (by omega), if_neg (by omega)]
        exact (hnone _ (by omega)).1)
    have hleftLen : base + (leftsAt base l).length ≤ left.length := by omega
    have hrightLen : base + (rightsAt base l).length
        ≤ (setTop right stack (some (base + l.diffs.length))).length := by
      rw [length_setTop]
      omega
    have hleftGet : ∀ j < 1 + r.diffs.length,
        (writeAt left base (leftsAt base l))[base + l.diffs.length + j]? = some none := by
      intro j hj
      rw [writeAt_get hleftLen, if_neg (by omega), Nat.add_assoc]
      exact (hnone _ (by omega)).1
    have hrightGet : ∀ j < 1 + r.diffs.length,
        (writeAt (setTop right stack (some (base + l.diffs.length))) base
          (rightsAt base l))[base + l.diffs.length + j]? = some none := by
      intro j hj
      rw [writeAt_get hrightLen, if_neg (by omega),
        setTop_get (fun top htop => by have := (hst top htop).1; omega), Nat.add_assoc]
      exact (hnone _ (by omega)).2
    have hover := setTop_writeAt right (rightsAt base l) (a := rootAt base l) (b := some (base + l.diffs.length)) (by omega) (fun i hi => (hst i hi).1)
    rw [hstep, getLast_spineAt, hover,
      ihr (base + l.width) _ _ ((base + l.diffs.length) :: stack) hr hd.right
        (by rw [List.length_set, length_writeAt hleftLen]; omega)
        (by rw [List.length_set, length_writeAt hleftLen, length_writeAt hrightLen, length_setTop,
          hlr])
        (fun j hj => by
          rw [show base + l.width + j = base + l.diffs.length + (1 + j) by omega]
          refine ⟨?_, hrightGet (1 + j) (by omega)⟩
          rw [List.getElem?_set_ne (by omega)]
          exact hleftGet (1 + j) (by omega))
        (fun i hi => by
          cases hi
          exact ⟨by omega, hrightGet 0 (by omega), fun e he => by rw [hroot]; exact hor e he⟩)]
    have hlr' := length_leftsAt r (base + l.width)
    have hrr' := length_rightsAt r (base + l.width)
    congr 1
    · exact writeAt_branch (by omega) (by omega) (by omega)
    · exact writeAt_branch (by rw [length_setTop]; omega) (by omega) (by omega)
    · rw [spineAt, List.append_assoc]
      rfl

/-- The tree behind a Cartesian layout. -/
def cartesianOf (t : Tree) (root : ℕ) : Cartesian := ⟨leftsAt 0 t, rightsAt 0 t, root⟩

/-- **The stack pass rebuilds the tree of its diffs.** -/
theorem buildCartesian_eq {t : Tree} (h : CartesianOrdered t) {root : ℕ}
    (hr : rootAt 0 t = some root) :
    buildCartesian t.diffs = .ok (cartesianOf t root) := by
  have hl := length_leftsAt t 0
  have hr' := length_rightsAt t 0
  have hsteps := cartesianSteps_eq t.diffs t 0 (List.replicate t.diffs.length none)
    (List.replicate t.diffs.length none) [] h
    (fun j e he => by rwa [Nat.zero_add])
    (by rw [List.length_replicate]; omega) rfl
    (fun j hj => by
      rw [Nat.zero_add, List.getElem?_replicate, if_pos hj]
      exact ⟨rfl, rfl⟩)
    (fun i hi => by cases hi)
  have hwrite : ∀ ds : List (Option ℕ), ds.length = t.diffs.length →
      writeAt (List.replicate t.diffs.length none) 0 ds = ds := by
    intro ds hds
    rw [writeAt, List.take_zero, List.nil_append, List.drop_of_length_le
      (by rw [List.length_replicate]; omega), List.append_nil]
  simp only [buildCartesian]
  rw [List.range_eq_range', hsteps]
  simp only [List.append_nil, getLast_spineAt, hr, setTop]
  rw [hwrite _ hl, hwrite _ hr']
  rfl

/-! ### Walking the branches -/

/-- The layout has the neighbours of the branches of `t`, its items starting at `base`. -/
def CartAt (cartesian : Cartesian) (base : ℕ) (t : Tree) : Prop :=
  ∀ j < t.diffs.length, cartesian.left.getD (base + j) none = (leftsAt base t).getD j none ∧
    cartesian.right.getD (base + j) none = (rightsAt base t).getD j none

/-- The frame of a subtree with a branch. -/
def pushRoot (base : ℕ) (t : Tree) (stack : List RouteFrame) : List RouteFrame :=
  match rootAt base t with
  | some j => ⟨j, base, base + t.width⟩ :: stack
  | none => stack

section CartAt

variable {cartesian : Cartesian} {base d : ℕ} {l r : Tree}

theorem getD_append_left {α : Type} {xs ys : List α} {i : ℕ} {a : α} (h : i < xs.length) :
    (xs ++ ys).getD i a = xs.getD i a := by
  rw [List.getD_eq_getElem?_getD, List.getElem?_append_left h, ← List.getD_eq_getElem?_getD]

theorem getD_append_cons {α : Type} {xs ys : List α} {x : α} {i j : ℕ} {a : α}
    (h : i = xs.length + 1 + j) : (xs ++ x :: ys).getD i a = ys.getD j a := by
  rw [List.getD_eq_getElem?_getD, List.getElem?_append_right (by omega),
    show i - xs.length = j + 1 by omega, List.getElem?_cons_succ, ← List.getD_eq_getElem?_getD]

theorem CartAt.left (h : CartAt cartesian base (.node d l r)) : CartAt cartesian base l := by
  intro j hj
  have hl := length_leftsAt l base
  have hr := length_rightsAt l base
  have := h j (by simp only [diffs, List.length_append]; omega)
  rwa [leftsAt, rightsAt, getD_append_left (by omega), getD_append_left (by omega)] at this

theorem CartAt.right (h : CartAt cartesian base (.node d l r)) :
    CartAt cartesian (base + l.width) r := by
  intro j hj
  have hw := length_diffs l
  have hl := length_leftsAt l base
  have hr := length_rightsAt l base
  have := h (l.diffs.length + 1 + j) (by
    simp only [diffs, List.length_append, List.length_cons]; omega)
  rw [leftsAt, rightsAt, getD_append_cons (by rw [hl]), getD_append_cons (by rw [hr])] at this
  rwa [show base + l.width + j = base + (l.diffs.length + 1 + j) by omega]

/-- The sides of a branch are the frames of its two subtrees. -/
theorem CartAt.pushSides (h : CartAt cartesian base (.node d l r)) (stack : List RouteFrame) :
    pushSides cartesian ⟨base + l.diffs.length, base, base + (PagedTree.node d l r).width⟩ stack
      = pushRoot base l (pushRoot (base + l.width) r stack) := by
  have hw := length_diffs l
  have hl := length_leftsAt l base
  have hr := length_rightsAt l base
  obtain ⟨h1, h2⟩ := h l.diffs.length (by
    simp only [diffs, List.length_append, List.length_cons]; omega)
  have hroot : ∀ (xs ys : List (Option ℕ)) (x : Option ℕ), xs.length = l.diffs.length →
      (xs ++ x :: ys).getD l.diffs.length none = x := by
    intro xs ys x hx
    rw [List.getD_eq_getElem?_getD, List.getElem?_append_right (by omega), hx, Nat.sub_self]
    rfl
  rw [leftsAt, hroot _ _ _ hl] at h1
  rw [rightsAt, hroot _ _ _ hr] at h2
  have hmid : ((base + l.diffs.length : ℕ) : Int) + 1 = ((base + l.width : ℕ) : Int) := by omega
  have hend : (base : Int) + ((PagedTree.node d l r).width : ℕ)
      = ((base + l.width : ℕ) : Int) + (r.width : ℕ) := by
    simp only [width]
    omega
  simp only [Minpatricia.pushSides, h1, h2, pushRoot, hmid, hend]
  cases rootAt base l <;> cases rootAt (base + l.width) r <;> simp

end CartAt

theorem cartAt_cartesianOf (t : Tree) (root : ℕ) : CartAt (cartesianOf t root) 0 t := by
  intro j hj
  rw [Nat.zero_add]
  exact ⟨rfl, rfl⟩

section Walks

variable {cartesian : Cartesian} {ds : List ℕ}

variable (ds) in
theorem writePreorderLoop_eq (t : Tree) : ∀ (room base : ℕ) (stack : List RouteFrame)
    (out : List Route), CartAt cartesian base t → DiffsAt ds base t → t.width < 2 ^ 16 →
    writePreorderLoop ds cartesian (room + t.diffs.length) (pushRoot base t stack) out
      = writePreorderLoop ds cartesian room stack (out ++ routesOf t) := by
  induction t with
  | leaf k v => intro room base stack out _ _ _; simp [pushRoot, rootAt, diffs, routesOf, preorder]
  | page j t ih => intro room base stack out _ _ _; simp [pushRoot, rootAt, diffs, routesOf, preorder]
  | node d l r ihl ihr =>
    intro room base stack out hc hd hw
    have hld := length_diffs l
    have hwn : (PagedTree.node d l r).width = l.width + r.width := rfl
    have hlen : room + (PagedTree.node d l r).diffs.length
        = room + r.diffs.length + l.diffs.length + 1 := by
      simp only [diffs, List.length_append, List.length_cons]
      omega
    have hcount : ((((base + l.diffs.length : ℕ) : Int) - (base : Int) + 1) % 2 ^ 16).toNat
        = l.width := by
      omega
    have hroot : ds.getD (base + l.diffs.length) 0 = d := by
      rw [List.getD_eq_getElem?_getD, hd.root]
      rfl
    rw [hlen, pushRoot, rootAt, writePreorderLoop]
    simp only [hcount, hroot, hc.pushSides]
    rw [ihl _ _ _ _ hc.left hd.left (by omega), ihr _ _ _ _ hc.right hd.right (by omega)]
    simp [routesOf, preorder, packRoute]

/-- **The preorder walk writes the packed preorder.** -/
theorem writePreorderRoutes_eq {t : Tree} (hw : t.width < 2 ^ 16) {root : ℕ}
    (hr : rootAt 0 t = some root) :
    writePreorderRoutes t.diffs (cartesianOf t root) t.width = .ok (routesOf t) := by
  have hloop := writePreorderLoop_eq t.diffs t 0 0 [] [] (cartAt_cartesianOf t root)
    (fun j e he => by rwa [Nat.zero_add]) hw
  rw [pushRoot, hr, Nat.zero_add, writePreorderLoop.eq_def _ _ 0, List.nil_append] at hloop
  simp only [Nat.cast_zero, zero_add] at hloop
  exact hloop

variable {σ : Type} {visit : σ → RouteFrame → σ}

/-- The visits of all branches in preorder. -/
def visitTree (visit : σ → RouteFrame → σ) (base : ℕ) : Tree → σ → σ
  | .leaf _ _, s => s
  | .page _ _, s => s
  | .node d l r, s =>
    visitTree visit (base + l.width) r (visitTree visit base l
      (visit s ⟨base + l.diffs.length, base, base + (PagedTree.node d l r).width⟩))

variable (visit) in
theorem foldFrames_eq (t : Tree) : ∀ (fuel base : ℕ) (stack : List RouteFrame) (s : σ),
    CartAt cartesian base t →
    foldFrames cartesian visit (fuel + t.diffs.length) (pushRoot base t stack) s
      = foldFrames cartesian visit fuel stack (visitTree visit base t s) := by
  induction t with
  | leaf k v => intro fuel base stack s _; rfl
  | page j t ih => intro fuel base stack s _; rfl
  | node d l r ihl ihr =>
    intro fuel base stack s hc
    have hlen : fuel + (PagedTree.node d l r).diffs.length
        = fuel + r.diffs.length + l.diffs.length + 1 := by
      simp only [diffs, List.length_append, List.length_cons]
      omega
    rw [hlen, pushRoot, rootAt, foldFrames]
    simp only [hc.pushSides]
    rw [ihl _ _ _ _ hc.left, ihr _ _ _ _ hc.right]
    rfl

variable (visit) in
/-- What every visit of a branch keeps holds after the walk. -/
theorem visitTree_inv {P : σ → Prop} (t : Tree) : ∀ (base : ℕ) (s : σ), P s →
    (∀ (c : TreeCtx) (d : ℕ) (l r : Tree) (s' : σ), c.fill (.node d l r) = t → P s' →
      P (visit s' ⟨base + c.slot + l.diffs.length, (base + c.slot : ℕ),
        (base + c.slot : ℕ) + (PagedTree.node d l r).width⟩)) →
    P (visitTree visit base t s) := by
  induction t with
  | leaf k v => intro base s hs _; exact hs
  | page i t ih => intro base s hs _; exact hs
  | node d l r ihl ihr =>
    intro base s hs hvisit
    refine ihr _ _ (ihl _ _ ?_ ?_) ?_
    · exact hvisit .hole d l r s rfl hs
    · intro c e a b s' hc hs'
      exact hvisit (.left d c r) e a b s' (by rw [Ctx.fill, hc]) hs'
    · intro c e a b s' hc hs'
      have hslot : (Ctx.right d l c).slot = l.width + c.slot := by
        simp only [Ctx.slot, Ctx.leftItems, List.length_append, length_items]
      have := hvisit (.right d l c) e a b s' (by rw [Ctx.fill, hc]) hs'
      rwa [hslot, ← Nat.add_assoc] at this

variable (visit) in
/-- What one visit establishes and all keep holds after the walk. -/
theorem visitTree_mem {Q : σ → Prop} (t : Tree) : ∀ (base : ℕ) (s : σ) (c : TreeCtx) (d : ℕ)
    (l r : Tree), c.fill (.node d l r) = t →
    (∀ s' frame, Q s' → Q (visit s' frame)) →
    (∀ s', Q (visit s' ⟨base + c.slot + l.diffs.length, (base + c.slot : ℕ),
      (base + c.slot : ℕ) + (PagedTree.node d l r).width⟩)) →
    Q (visitTree visit base t s) := by
  induction t with
  | leaf k v => intro base s c d l r hc _ _; cases c <;> simp [Ctx.fill] at hc
  | page i t ih => intro base s c d l r hc _ _; cases c <;> simp [Ctx.fill] at hc
  | node e a b iha ihb =>
    intro base s c d l r hc hkeep hmake
    have hkeep' : ∀ (t' : Tree) (base' : ℕ) (s' : σ), Q s' → Q (visitTree visit base' t' s') :=
      fun t' base' s' hs' => visitTree_inv _ t' base' s' hs' (fun _ _ _ _ s'' _ h => hkeep s'' _ h)
    simp only [visitTree]
    cases c with
    | hole =>
      simp only [Ctx.fill, PagedTree.node.injEq] at hc
      obtain ⟨rfl, rfl, rfl⟩ := hc
      exact hkeep' _ _ _ (hkeep' _ _ _ (hmake s))
    | left e' c r' =>
      simp only [Ctx.fill, PagedTree.node.injEq] at hc
      obtain ⟨rfl, hc, rfl⟩ := hc
      exact hkeep' _ _ _ (iha _ _ c d l r hc hkeep hmake)
    | right e' l' c =>
      simp only [Ctx.fill, PagedTree.node.injEq] at hc
      obtain ⟨rfl, rfl, hc⟩ := hc
      have hslot : (Ctx.right e' l' c).slot = l'.width + c.slot := by
        simp only [Ctx.slot, Ctx.leftItems, List.length_append, length_items]
      rw [hslot, ← Nat.add_assoc] at hmake
      exact ihb _ _ c d l r hc hkeep hmake

end Walks

/-! ### Split ranges -/

/-- The range is a subtree with at least two items that leaves at least two outside. -/
def IsSplit (t : Tree) (range : SplitRange) : Prop :=
  ∃ (c : TreeCtx) (s : Tree), c.fill s = t ∧ range = ⟨c.slot, s.width⟩ ∧ 2 ≤ s.width ∧
    s.width + 2 ≤ t.width

/-- A page with four items has such a subtree. -/
theorem exists_split {t : Tree} (h : 4 ≤ t.width) :
    ∃ (c : TreeCtx) (d : ℕ) (l r : Tree), c.fill (.node d l r) = t ∧
      (PagedTree.node d l r).width + 2 ≤ t.width := by
  have hnode : ∀ {s : Tree}, 2 ≤ s.width → ∃ d l r, s = .node d l r := by
    intro s hs
    cases s with
    | leaf k v => simp [width] at hs
    | page i s => simp [width] at hs
    | node d l r => exact ⟨d, l, r, rfl⟩
  obtain ⟨d, l, r, rfl⟩ := hnode (show 2 ≤ t.width by omega)
  have hw : (PagedTree.node d l r).width = l.width + r.width := rfl
  have hl := width_pos l
  have hr := width_pos r
  rcases Nat.lt_or_ge l.width 2 with h1 | h1
  · -- the right side has all but one item: take its larger side
    obtain ⟨e, a, b, rfl⟩ := hnode (show 2 ≤ r.width by omega)
    have hw' : (PagedTree.node e a b).width = a.width + b.width := rfl
    have ha := width_pos a
    have hb := width_pos b
    rcases Nat.lt_or_ge a.width 2 with h2 | h2
    · obtain ⟨f, x, y, rfl⟩ := hnode (show 2 ≤ b.width by omega)
      exact ⟨.right d l (.right e a .hole), f, x, y, rfl, by omega⟩
    · obtain ⟨f, x, y, rfl⟩ := hnode h2
      exact ⟨.right d l (.left e .hole b), f, x, y, rfl, by omega⟩
  · rcases Nat.lt_or_ge r.width 2 with h3 | h3
    · obtain ⟨e, a, b, rfl⟩ := hnode h1
      have hw' : (PagedTree.node e a b).width = a.width + b.width := rfl
      have ha := width_pos a
      have hb := width_pos b
      rcases Nat.lt_or_ge a.width 2 with h2 | h2
      · obtain ⟨f, x, y, rfl⟩ := hnode (show 2 ≤ b.width by omega)
        exact ⟨.left d (.right e a .hole) r, f, x, y, rfl, by omega⟩
      · obtain ⟨f, x, y, rfl⟩ := hnode h2
        exact ⟨.left d (.left e .hole b) r, f, x, y, rfl, by omega⟩
    · obtain ⟨e, a, b, rfl⟩ := hnode h1
      exact ⟨.left d .hole r, e, a, b, rfl, by omega⟩

/-- The ranges held so far are proper subtrees. -/
def GoodChoice (t : Tree) (choice : SplitChoice) : Prop :=
  (∀ b ∈ choice.best, IsSplit t b) ∧ (∀ p ∈ choice.preferred, IsSplit t p)

theorem takeBest_good {t : Tree} {n : ℕ} {range : SplitRange} {choice : SplitChoice}
    (hr : IsSplit t range) (h : GoodChoice t choice) : GoodChoice t (takeBest n range choice) := by
  simp only [takeBest]
  split
  · exact ⟨fun b hb => by cases hb; exact hr, h.2⟩
  · exact h

theorem takePreferred_good {t : Tree} {n : ℕ} {range : SplitRange} {choice : SplitChoice}
    (hr : IsSplit t range) (h : GoodChoice t choice) :
    GoodChoice t (takePreferred n range choice) := by
  simp only [takePreferred]
  split
  · exact ⟨h.1, fun b hb => by cases hb; exact hr⟩
  · exact h

theorem visitSplit_good {t : Tree} {c : TreeCtx} {d : ℕ} {l r : Tree} {choice : SplitChoice}
    (hc : c.fill (.node d l r) = t) (h : GoodChoice t choice) :
    GoodChoice t (visitSplit t.width choice ⟨0 + c.slot + l.diffs.length, (0 + c.slot : ℕ),
      (0 + c.slot : ℕ) + (PagedTree.node d l r).width⟩) := by
  have hcount : (((0 + c.slot : ℕ) : Int) + ((PagedTree.node d l r).width : ℕ)
      - ((0 + c.slot : ℕ) : Int)).toNat = (PagedTree.node d l r).width := by omega
  have hstart : ((0 + c.slot : ℕ) : Int).toNat = c.slot := by omega
  simp only [visitSplit, hcount, hstart]
  split
  · have hsplit : IsSplit t ⟨c.slot, (PagedTree.node d l r).width⟩ :=
      ⟨c, _, hc, rfl, by omega, by omega⟩
    exact takePreferred_good hsplit (takeBest_good hsplit h)
  · exact h

theorem takePreferred_best (n : ℕ) (range : SplitRange) (choice : SplitChoice) :
    (takePreferred n range choice).best = choice.best := by
  simp only [takePreferred]
  split <;> rfl

theorem takeBest_best (n : ℕ) (range : SplitRange) (choice : SplitChoice) :
    (takeBest n range choice).best ≠ none := by
  simp only [takeBest]
  split
  · exact Option.some_ne_none range
  · rename_i h
    exact fun hb => h (Or.inl hb)

theorem visitSplit_keeps {n : ℕ} {choice : SplitChoice} {frame : RouteFrame}
    (h : choice.best ≠ none) : (visitSplit n choice frame).best ≠ none := by
  simp only [visitSplit]
  split
  · rw [takePreferred_best]
    exact takeBest_best n _ choice
  · exact h

theorem visitSplit_takes {n : ℕ} {choice : SplitChoice} {frame : RouteFrame}
    (h : 2 ≤ (frame.leafR - frame.leafL).toNat ∧ (frame.leafR - frame.leafL).toNat ≤ n - 2) :
    (visitSplit n choice frame).best ≠ none := by
  simp only [visitSplit]
  rw [if_pos h, takePreferred_best]
  exact takeBest_best n _ choice

/-- The edge choice is a proper subtree as well. -/
theorem visitEdgeSplit_good {t : Tree} {c : TreeCtx} {d : ℕ} {l r : Tree} {slot : Int}
    {best : Option SplitRange} (hc : c.fill (.node d l r) = t) (h : ∀ b ∈ best, IsSplit t b) :
    ∀ b ∈ visitEdgeSplit t.width slot best ⟨0 + c.slot + l.diffs.length, (0 + c.slot : ℕ),
      (0 + c.slot : ℕ) + (PagedTree.node d l r).width⟩, IsSplit t b := by
  have hcount : (((0 + c.slot : ℕ) : Int) + ((PagedTree.node d l r).width : ℕ)
      - ((0 + c.slot : ℕ) : Int)).toNat = (PagedTree.node d l r).width := by omega
  have hstart : ((0 + c.slot : ℕ) : Int).toNat = c.slot := by omega
  simp only [visitEdgeSplit, hcount, hstart]
  split
  · rename_i hrange
    have hsplit : IsSplit t ⟨c.slot, (PagedTree.node d l r).width⟩ :=
      ⟨c, _, hc, rfl, by omega, by omega⟩
    cases best with
    | none => intro b hb; cases hb; exact hsplit
    | some b0 =>
      simp only
      split
      · intro b hb; cases hb; exact hsplit
      · exact h
  · exact h

theorem exists_rootAt {t : Tree} (h : 2 ≤ t.width) (base : ℕ) : ∃ root, rootAt base t = some root := by
  cases t with
  | leaf k v => simp [width] at h
  | page i t => simp [width] at h
  | node d l r => exact ⟨_, rfl⟩

/-- The walk over all branches. -/
theorem foldFrames_root {t : Tree} {root : ℕ} (hroot : rootAt 0 t = some root) {σ : Type}
    (visit : σ → RouteFrame → σ) (s : σ) :
    foldFrames (cartesianOf t root) visit t.diffs.length [⟨root, 0, t.width⟩] s
      = .ok (visitTree visit 0 t s) := by
  have := foldFrames_eq visit t 0 0 [] s (cartAt_cartesianOf t root)
  rw [pushRoot, hroot, Nat.zero_add, foldFrames.eq_def _ _ 0] at this
  simpa only [Nat.cast_zero, zero_add] using this

/-- The edge choice, without its walk. -/
theorem chooseEdgeSplitRange_eq {t : Tree} (h : CartesianOrdered t) (hw : 2 ≤ t.width) (slot : Int) :
    chooseEdgeSplitRange t.diffs t.width slot
      = match visitTree (visitEdgeSplit t.width slot) 0 t none with
        | none => err .missingKey
        | some range => .ok range := by
  obtain ⟨root, hroot⟩ := exists_rootAt hw 0
  have hwalk := foldFrames_root hroot (visitEdgeSplit t.width slot) none
  simp only [chooseEdgeSplitRange, buildCartesian_eq h hroot, bind, Except.bind, cartesianOf]
    at hwalk ⊢
  rw [hwalk]

/-- **The walk finds a range**, so its fallback is never taken. -/
theorem visitTree_best {t : Tree} (hw : 4 ≤ t.width) :
    (visitTree (visitSplit t.width) 0 t ⟨none, t.width, none⟩).best ≠ none := by
  obtain ⟨c, d, l, r, hc, hcw⟩ := exists_split hw
  have hl := width_pos l
  have hr := width_pos r
  have hnw : (PagedTree.node d l r).width = l.width + r.width := rfl
  exact visitTree_mem (visitSplit t.width) (Q := fun s => s.best ≠ none) t 0
    ⟨none, t.width, none⟩ c d l r hc (fun s' frame hs' => visitSplit_keeps hs')
    (fun s' => visitSplit_takes (by simp only; omega))

/-- **The chosen range is a proper subtree**, whatever slot the edge choice is given. -/
theorem chooseSplitRange_spec {t : Tree} (h : CartesianOrdered t) (hw : 4 ≤ t.width) (slot : Int) :
    ∃ range, chooseSplitRange t.diffs t.width slot = .ok range ∧ IsSplit t range := by
  obtain ⟨root, hroot⟩ := exists_rootAt (show 2 ≤ t.width by omega) 0
  have hwalk := foldFrames_root hroot (visitSplit t.width) ⟨none, t.width, none⟩
  -- the walk of the balanced choice
  have hgood := visitTree_inv (visitSplit t.width) (P := GoodChoice t) t 0
    ⟨none, t.width, none⟩ ⟨fun b hb => (by cases hb), fun p hp => (by cases hp)⟩
    (fun c d l r s' hc hs' => visitSplit_good hc hs')
  obtain ⟨best, hbest⟩ := Option.ne_none_iff_exists'.mp (visitTree_best hw)
  have hinner : ∃ range, (do
      let cartesian ← buildCartesian t.diffs
      let choice ← foldFrames cartesian (visitSplit t.width) t.diffs.length
        [⟨cartesian.root, 0, t.width⟩] ⟨none, t.width, none⟩
      match choice.best, choice.preferred with
      | none, _ => .ok ⟨(t.width - t.width / 2) / 2, t.width / 2⟩
      | some _, some range => .ok range
      | some range, none => .ok range : Result SplitRange) = .ok range ∧ IsSplit t range := by
    simp only [buildCartesian_eq h hroot, bind, Except.bind, cartesianOf] at hwalk ⊢
    rw [hwalk]
    simp only [hbest]
    cases hp : (visitTree (visitSplit t.width) 0 t ⟨none, t.width, none⟩).preferred with
    | none => exact ⟨best, rfl, hgood.1 best hbest⟩
    | some p => exact ⟨p, rfl, hgood.2 p hp⟩
  -- the edge choice, when it is asked for
  have hedge := visitTree_inv (visitEdgeSplit t.width slot) (P := fun best => ∀ b ∈ best, IsSplit t b) t 0 none (fun b hb => by cases hb)
    (fun c d l r s' hc hs' => visitEdgeSplit_good hc hs')
  have hedgeRun := chooseEdgeSplitRange_eq h (show 2 ≤ t.width by omega) slot
  unfold chooseSplitRange
  simp only
  split
  · rw [hedgeRun]
    cases he : visitTree (visitEdgeSplit t.width slot) 0 t none with
    | none => exact hinner
    | some range => exact ⟨range, rfl, hedge range he⟩
  · exact hinner

end MinweightStore.Minpatricia
