import Mathlib.Data.List.TakeWhile
import MinweightStore.Minpatricia.IterPath
import MinweightStore.Minpatricia.Runs

/-!
# Iterators visit the sorted entries

A path of an iterator stands for a record of the tree: what is behind it in the direction of the
walk has been passed, what is ahead is still to come.

* `behind`, `ahead` — the entries on the two sides of a path, in the order of the walk;
* `edgeRecord_eq`, `positionLoop_eq`, `movePath_eq`, `seek_eq` — where the moves lead;
* `fromPath_eq` — the loop is the fold over what is ahead; `iterators_agree` — the eight iterators.
-/

namespace MinweightStore.Minpatricia

open BitKey PagedTree

/-! ### The two sides of a path -/

/-- A list in the order of the walk. -/
def Direction.order {α : Type} : Direction → List α → List α
  | .ascend, l => l
  | .descend, l => l.reverse

theorem Direction.mem_order {α : Type} {l : List α} {a : α} :
    ∀ dir : Direction, a ∈ dir.order l ↔ a ∈ l
  | .ascend => Iff.rfl
  | .descend => List.mem_reverse

theorem Direction.order_singleton {α : Type} (a : α) : ∀ dir : Direction, dir.order [a] = [a]
  | .ascend => rfl
  | .descend => rfl

theorem Direction.order_nil {α : Type} : ∀ dir : Direction, dir.order ([] : List α) = []
  | .ascend => rfl
  | .descend => rfl

/-- What a walk has passed on a page when it stands at the hole. -/
def passedCtx (c : TreeCtx) : Direction → List (ByteView × Position)
  | .ascend => c.leftEntries
  | .descend => c.rightEntries.reverse

/-- What a walk has passed when it stands at the end of a path. -/
def passed (z : TreePath) : Direction → List (ByteView × Position)
  | .ascend => z.leftEntries
  | .descend => z.rightEntries.reverse

/-- What a walk at the end of a path has still to come. -/
def ahead (z : TreePath) : Direction → List (ByteView × Position)
  | .ascend => z.rightEntries
  | .descend => z.leftEntries.reverse

/-- What a walk has passed on a page when it stands in the gap before a slot. -/
def passedGap (s : Tree) (gap : ℕ) : Direction → List (ByteView × Position)
  | .ascend => (s.items.take gap).flatMap entries
  | .descend => ((s.items.drop gap).flatMap entries).reverse

theorem passed_cons (c : TreeCtx) (i : UInt64) (z : TreePath) :
    ∀ dir : Direction, passed ((c, i) :: z) dir = passed z dir ++ passedCtx c dir
  | .ascend => rfl
  | .descend => List.reverse_append

theorem order_fill (z : TreePath) (x : Tree) : ∀ dir : Direction,
    dir.order (z.fill x).entries = passed z dir ++ dir.order x.entries ++ ahead z dir
  | .ascend => Path.entries_fill z x
  | .descend => by
    rw [Direction.order, Path.entries_fill, List.reverse_append, List.reverse_append,
      List.append_assoc]
    rfl

/-! ### Slots and gaps of a page -/

theorem take_slot {c : TreeCtx} {x : Tree} (hx : x.IsItem) :
    (c.fill x).items.take c.slot = c.leftItems ∧
      (c.fill x).items.drop c.slot = x :: c.rightItems := by
  rw [Ctx.items_fill, items_of_isItem hx, List.append_assoc]
  exact ⟨List.take_left' rfl, List.drop_left' rfl⟩

theorem take_slot_succ {c : TreeCtx} {x : Tree} (hx : x.IsItem) :
    (c.fill x).items.take (c.slot + 1) = c.leftItems ++ [x] ∧
      (c.fill x).items.drop (c.slot + 1) = c.rightItems := by
  have hlen : (c.leftItems ++ [x]).length = c.slot + 1 := by
    rw [List.length_append]
    rfl
  rw [Ctx.items_fill, items_of_isItem hx]
  exact ⟨List.take_left' hlen, List.drop_left' hlen⟩

/-- The slot taken from a gap stands right at it. -/
theorem gapSlot_some {s : Tree} {gap slot : ℕ} : ∀ {dir : Direction}, gap ≤ s.width →
    gapSlot gap s.width dir = some slot →
    ∃ (c : TreeCtx) (x : Tree), s = c.fill x ∧ x.IsItem ∧ c.slot = slot ∧
      passedCtx c dir = passedGap s gap dir
  | .ascend, _, h => by
    rw [gapSlot] at h
    split at h
    · rename_i hlt
      obtain ⟨c, x, rfl, hx, hslot⟩ := Ctx.exists_fill_of_lt hlt
      refine ⟨c, x, rfl, hx, hslot.trans (Option.some.inj h), ?_⟩
      rw [passedCtx, passedGap, ← hslot, (take_slot hx).1]
      rfl
    · exact absurd h (by simp)
  | .descend, hle, h => by
    rw [gapSlot] at h
    split at h
    · rename_i hpos
      obtain ⟨c, x, rfl, hx, hslot⟩ := Ctx.exists_fill_of_lt (t := s) (i := gap - 1) (by omega)
      refine ⟨c, x, rfl, hx, hslot.trans (Option.some.inj h), ?_⟩
      rw [passedCtx, passedGap, show gap = c.slot + 1 by omega, (take_slot_succ hx).2]
      rfl
    · exact absurd h (by simp)

/-- Without a slot at the gap the whole page has been passed. -/
theorem gapSlot_none {s : Tree} {gap : ℕ} : ∀ {dir : Direction},
    gapSlot gap s.width dir = none → passedGap s gap dir = dir.order s.entries
  | .ascend, h => by
    rw [gapSlot] at h
    split at h
    · exact absurd h (by simp)
    · rename_i hge
      have hlen := length_items s
      rw [passedGap, List.take_of_length_le (by omega), flatMap_items]
      rfl
  | .descend, h => by
    rw [gapSlot] at h
    split at h
    · exact absurd h (by simp)
    · rename_i hpos
      rw [passedGap, show gap = 0 by omega, List.drop_zero, flatMap_items]
      rfl

/-- The gap behind a slot. -/
theorem passedGap_after {c : TreeCtx} {x : Tree} (hx : x.IsItem) : ∀ dir : Direction,
    gapAfter c.slot dir ≤ (c.fill x).width ∧
      passedGap (c.fill x) (gapAfter c.slot dir) dir = passedCtx c dir ++ dir.order x.entries
  | .ascend => by
    refine ⟨slot_lt_width c x, ?_⟩
    rw [passedGap, gapAfter, (take_slot_succ hx).1, List.flatMap_append]
    simp [passedCtx, Direction.order, Ctx.leftEntries]
  | .descend => by
    refine ⟨(slot_lt_width c x).le, ?_⟩
    rw [passedGap, gapAfter, (take_slot hx).2, List.flatMap_cons, List.reverse_append]
    rfl

/-- The slot a descent to the outermost record takes. -/
theorem edgeSlot_ctx (s : Tree) : ∀ dir : Direction,
    ∃ (c : TreeCtx) (x : Tree), s = c.fill x ∧ x.IsItem ∧ c.slot = edgeSlot s.width dir ∧
      passedCtx c dir = []
  | .ascend => by
    obtain ⟨c, x, rfl, hx, hslot⟩ := Ctx.exists_fill_of_lt (t := s) (width_pos s)
    exact ⟨c, x, rfl, hx, hslot, leftEntries_nil.mpr hslot⟩
  | .descend => by
    have hw := width_pos s
    obtain ⟨c, x, rfl, hx, hslot⟩ := Ctx.exists_fill_of_lt (t := s) (i := s.width - 1) (by omega)
    have hwf := Ctx.width_fill c x
    have hxw := width_eq_one_of_isItem hx
    refine ⟨c, x, rfl, hx, hslot, ?_⟩
    rw [passedCtx, rightEntries_nil.mpr (List.length_eq_zero_iff.mp (by omega))]
    rfl

/-! ### Where the moves lead -/

/-- The path stands at a record of the tree, behind what has been passed. -/
def StandsAt (t : Tree) (dir : Direction) (path : IterPath)
    (done : List (ByteView × Position)) : Prop :=
  ∃ (z : TreePath) (k : ByteView) (v : Position), z ≠ [] ∧
    path.framesForInsert = (framesOf z).reverse ∧ z.fill (.leaf k v) = t ∧ passed z dir = done

/-- A move found the record behind what has been passed, or there is none left. -/
def Reached (t : Tree) (dir : Direction) (res : Result (Bool × IterPath))
    (done : List (ByteView × Position)) : Prop :=
  (∃ path, res = .ok (true, path) ∧ StandsAt t dir path done) ∨
    ((∃ path, res = .ok (false, path)) ∧ done = dir.order t.entries)

theorem framesOf_cons (c : TreeCtx) (i : UInt64) (z : TreePath) :
    (framesOf ((c, i) :: z)).reverse = (framesOf z).reverse ++ [⟨i, c.slot⟩] := by
  rw [framesOf, List.map_cons, List.reverse_cons]
  rfl

section Moves

variable {ns : HeapNodeStore} {t : Tree} {dir : Direction} {path : IterPath}

theorem lastFrame_eq {l : List PutFrame} {f : PutFrame} (h : path.framesForInsert = l ++ [f]) :
    lastFrame path = .ok f := by
  have hlen := path.length_frames
  rw [h, List.length_append, List.length_singleton] at hlen
  rw [lastFrame, path.at?_eq (by omega), h, show path.len - 1 = l.length by omega,
    List.getElem?_append_right (le_refl _), Nat.sub_self]
  rfl

theorem length_framesOf (z : TreePath) : (framesOf z).reverse.length = z.length := by
  rw [List.length_reverse, framesOf, List.length_map]

/-- One step down: the page at the end of a path and the rep at one of its slots. -/
theorem page_at (h : Holds ns.page? t) {z : TreePath} {id : UInt64} {c : TreeCtx} {x : Tree}
    (ht : z.fill (.page id (c.fill x)) = t) (hx : x.IsItem) :
    ns.get id = .ok (pageOf (c.fill x)) ∧ (pageOf (c.fill x)).repAt c.slot = .ok (repOf x) ∧
      ((∃ k v, x = .leaf k v ∧ (repOf x).isChild = false ∧ (repOf x).position = v) ∨
        ∃ (j : UInt64) (u : Tree), x = .page j u ∧ (repOf x).isChild = true ∧
          (repOf x).childId = j ∧ u.depth < (c.fill x).depth) := by
  subst ht
  have hp := h.pageAt
  refine ⟨HeapNodeStore.get_eq hp.page_eq, repAt_slot hx hp.width_le, ?_⟩
  cases x with
  | leaf k v =>
    have hmem : (k, v) ∈ (c.fill (.leaf k v) : Tree).entries :=
      mem_entries_fill.mpr (Or.inr (Or.inl (List.mem_singleton_self _)))
    obtain ⟨h1, h2⟩ := repOf_leaf (k := k) (h.sized_below _ hmem).2
    exact Or.inl ⟨k, v, rfl, h1, h2⟩
  | page j u =>
    have hj : j.toNat < 2 ^ 63 := (Holds.pageAt (z := (c, id) :: z) h).id_lt
    obtain ⟨h1, h2⟩ := repOf_page (t := u) hj
    exact Or.inr ⟨j, u, rfl, h1, h2, lt_of_lt_of_le (Nat.lt_succ_self _)
      (Ctx.depth_fill c (.page j u))⟩
  | node d l r => exact hx.elim

variable (dir) in
/-- **The outermost record below a page.** -/
theorem edgeRecord_eq (h : Holds ns.page? t) : ∀ (fuel : ℕ) (z : TreePath) (id : UInt64)
    (s : Tree) (path : IterPath), s.depth ≤ fuel → z.fill (.page id s) = t →
    path.framesForInsert = (framesOf z).reverse →
    ∃ path', edgeRecord ns dir fuel path id = .ok (true, path') ∧
      StandsAt t dir path' (passed z dir)
  | 0, _, _, s, _, hd, _, _ => by
    have := one_le_depth s
    omega
  | fuel + 1, z, id, s, path, hd, ht, hf => by
    have hw := width_pos s
    obtain ⟨c, x, rfl, hx, hslot, hpassed⟩ := edgeSlot_ctx s dir
    obtain ⟨hget, hrep, hcase⟩ := page_at h ht hx
    have hf' : (path.pushNode id c.slot).framesForInsert = (framesOf ((c, id) :: z)).reverse := by
      rw [IterPath.frames_pushNode, hf, framesOf_cons]
    have hdone : passed ((c, id) :: z) dir = passed z dir := by
      rw [passed_cons, hpassed, List.append_nil]
    rw [edgeRecord, hget]
    simp only [bind, Except.bind]
    rw [if_neg (by rw [pageOf_size]; omega), pageOf_size, ← hslot, hrep]
    rcases hcase with ⟨k, v, rfl, h1, _⟩ | ⟨j, u, rfl, h1, h2, hdepth⟩
    · simp only [h1, Bool.false_eq_true, if_false]
      exact ⟨_, rfl, (c, id) :: z, k, v, List.cons_ne_nil _ _, hf', ht, hdone⟩
    · simp only [h1, h2, if_true]
      obtain ⟨path', hrun, hat⟩ := edgeRecord_eq h fuel ((c, id) :: z) j u _ (by omega) ht hf'
      exact ⟨path', hrun, hdone ▸ hat⟩

variable (dir) in
/-- Down from a slot to the first record of the walk there. -/
theorem enterSlot_eq (h : Holds ns.page? t) {z : TreePath} {id : UInt64} {c : TreeCtx} {x : Tree}
    {leaf : ℕ} (ht : z.fill (.page id (c.fill x)) = t) (hx : x.IsItem)
    (hf : path.framesForInsert = (framesOf z).reverse ++ [⟨id, leaf⟩]) :
    ∃ path', enterSlot ns dir path (pageOf (c.fill x)) c.slot = .ok (true, path') ∧
      StandsAt t dir path' (passed ((c, id) :: z) dir) := by
  obtain ⟨_, hrep, hcase⟩ := page_at h ht hx
  have hf' : (path.setLeaf (path.len - 1) c.slot).framesForInsert
      = (framesOf ((c, id) :: z)).reverse := by
    rw [IterPath.frames_setLeaf_last hf, framesOf_cons]
  rw [enterSlot, hrep]
  simp only [bind, Except.bind]
  rcases hcase with ⟨k, v, rfl, h1, _⟩ | ⟨j, u, rfl, h1, h2, hdepth⟩
  · simp only [h1, Bool.false_eq_true, if_false]
    exact ⟨_, rfl, (c, id) :: z, k, v, List.cons_ne_nil _ _, hf', ht, rfl⟩
  · simp only [h1, h2, if_true]
    have hpath := Path.depth_fill z (.page id (c.fill (.page j u)))
    have hdepth' := h.depth_le
    rw [ht] at hpath
    simp only [PagedTree.depth] at hpath
    exact edgeRecord_eq dir h _ ((c, id) :: z) j u _ (by rw [iterFuel]; omega) ht hf'

/-- The path cut by its last frame. -/
theorem frames_up {c : TreeCtx} {i : UInt64} {z : TreePath} {f : PutFrame}
    (hf : path.framesForInsert = (framesOf ((c, i) :: z)).reverse ++ [f]) :
    (path.truncate (path.len - 1)).framesForInsert = (framesOf z).reverse ++ [⟨i, c.slot⟩] := by
  have hlen := path.length_frames
  rw [hf, List.length_append, length_framesOf, List.length_singleton] at hlen
  rw [IterPath.frames_truncate _ (by omega), hf, List.take_left' (by
    rw [length_framesOf]
    omega), framesOf_cons]

/-- The gap behind a page is the gap behind its slot one level up. -/
theorem passed_up (c : TreeCtx) (i id : UInt64) (z : TreePath) (s : Tree) :
    passed z dir ++ passedGap (c.fill (.page id s)) (gapAfter c.slot dir) dir
      = passed ((c, i) :: z) dir ++ dir.order s.entries := by
  rw [(passedGap_after (c := c) (x := .page id s) trivial dir).2, passed_cons, List.append_assoc]
  rfl

variable (dir) in
/-- **From a gap to the next record**: down from the slot at it, or on from the page above. -/
theorem positionLoop_eq (h : Holds ns.page? t) : ∀ (z : TreePath) (fuel : ℕ) (id : UInt64)
    (s : Tree) (path : IterPath) (leaf gap : ℕ), z.length < fuel → z.fill (.page id s) = t →
    path.framesForInsert = (framesOf z).reverse ++ [⟨id, leaf⟩] → gap ≤ s.width →
    Reached t dir (positionLoop ns dir fuel path gap) (passed z dir ++ passedGap s gap dir)
  | _, 0, _, _, _, _, _, hfuel, _, _, _ => absurd hfuel (Nat.not_lt_zero _)
  | z, fuel + 1, id, s, path, slot₀, gap, hfuel, ht, hf, hgap => by
    have hget : ns.get id = .ok (pageOf s) := by
      subst ht
      exact HeapNodeStore.get_eq h.pageAt.page_eq
    rw [positionLoop, lastFrame_eq hf]
    simp only [bind, Except.bind, hget]
    rw [if_neg (by rw [pageOf_size]; omega), pageOf_size]
    cases hslot : gapSlot gap s.width dir with
    | some slot =>
      obtain ⟨c, x, rfl, hx, rfl, hpassed⟩ := gapSlot_some hgap hslot
      obtain ⟨path', hrun, hat⟩ := enterSlot_eq dir h ht hx hf
      rw [passed_cons, hpassed] at hat
      exact Or.inl ⟨path', hrun, hat⟩
    | none =>
      have hall := gapSlot_none hslot
      have hlen := path.length_frames
      rw [hf, List.length_append, length_framesOf, List.length_singleton] at hlen
      cases z with
      | nil =>
        simp only [List.length_nil] at hlen
        simp only [← hlen, if_true]
        refine Or.inr ⟨⟨path, rfl⟩, ?_⟩
        rw [hall, ← ht]
        cases dir <;> rfl
      | cons ci z =>
        obtain ⟨c, i⟩ := ci
        simp only [List.length_cons] at hlen hfuel
        rw [if_neg (by omega)]
        simp only [lastFrame_eq (frames_up hf)]
        have hrec := positionLoop_eq h z fuel i (c.fill (.page id s)) _ c.slot
          (gapAfter c.slot dir) (by omega) ht (frames_up hf)
          (passedGap_after (c := c) (x := .page id s) trivial dir).1
        rw [passed_up c i, ← hall] at hrec
        exact hrec

variable (dir) in
/-- **The move to the next record.** -/
theorem movePath_eq (h : Holds ns.page? t) : ∀ (z : TreePath) (id : UInt64) (c : TreeCtx)
    (x : Tree) (path : IterPath), z.fill (.page id (c.fill x)) = t → x.IsItem →
    path.framesForInsert = (framesOf ((c, id) :: z)).reverse →
    Reached t dir (movePath ns dir (z.length + 1) path)
      (passed ((c, id) :: z) dir ++ dir.order x.entries)
  | z, id, c, x, path, ht, hx, hf => by
    obtain ⟨hget, _, _⟩ := page_at h ht hx
    obtain ⟨hgap, hpassed⟩ := passedGap_after (c := c) hx dir
    have hf' := hf
    rw [framesOf_cons] at hf'
    rw [movePath, lastFrame_eq hf']
    simp only [bind, Except.bind, hget]
    rw [pageOf_size, passed_cons, List.append_assoc, ← hpassed]
    cases hslot : gapSlot (gapAfter c.slot dir) (c.fill x).width dir with
    | some slot =>
      obtain ⟨c', x', hfill, hx', rfl, hpassed'⟩ := gapSlot_some hgap hslot
      rw [hfill] at ht hslot ⊢
      obtain ⟨path', hrun, hat⟩ := enterSlot_eq dir h ht hx' hf'
      rw [passed_cons, hpassed', hfill] at hat
      exact Or.inl ⟨path', hrun, hat⟩
    | none =>
      have hall := gapSlot_none hslot
      rw [hall]
      cases z with
      | nil =>
        refine Or.inr ⟨⟨_, rfl⟩, ?_⟩
        rw [← ht]
        cases dir <;> rfl
      | cons ci z =>
        obtain ⟨c', i⟩ := ci
        have hup := frames_up hf'
        rw [← framesOf_cons] at hup
        exact movePath_eq h z i c' (.page id (c.fill x)) _ ht trivial hup

end Moves

/-! ### Seeking -/

/-- The other way round. -/
def Direction.flip : Direction → Direction
  | .ascend => .descend
  | .descend => .ascend

/-- An entry the walk passes before it comes to a key. -/
def isBefore (key : ByteView) (e : ByteView × Position) : Direction → Bool
  | .ascend => e.1 < key
  | .descend => key < e.1

theorem isBefore_flip {key : ByteView} {e : ByteView × Position} : ∀ {dir : Direction},
    isBefore key e dir.flip = true → isBefore key e dir = false
  | .ascend, h => decide_eq_false (lt_asymm (of_decide_eq_true h))
  | .descend, h => decide_eq_false (lt_asymm (of_decide_eq_true h))

/-- A gap splits the walk. -/
theorem order_gap (z : TreePath) (i : UInt64) (s : Tree) (gap : ℕ) : ∀ dir : Direction,
    dir.order (z.fill (.page i s)).entries = (passed z dir ++ passedGap s gap dir)
      ++ (passed z dir.flip ++ passedGap s gap dir.flip).reverse := by
  have hs : s.entries = (s.items.take gap).flatMap entries
      ++ (s.items.drop gap).flatMap entries := by
    rw [← List.flatMap_append, List.take_append_drop, flatMap_items]
  intro dir
  cases dir with
  | ascend =>
    rw [Direction.order, Path.entries_fill, entries, hs]
    simp [passed, passedGap, Direction.flip]
  | descend =>
    rw [Direction.order, Path.entries_fill, entries, hs]
    simp [passed, passedGap, Direction.flip]

/-- The two sides of the place a new key would take. -/
theorem isBefore_gap {z : TreePath} {i : UInt64} {s : Tree} {key : ByteView} {δ : ℕ}
    (hv : (z.fill (.page i (insertPage key δ (.leaf key 0) s))).Valid) : ∀ dir : Direction,
    ∀ e ∈ passed z dir ++ passedGap s (s.insertSlot key δ) dir, isBefore key e dir = true := by
  have hsorted := hv.sorted
  have hsplit : (z.fill (.page i (insertPage key δ (.leaf key 0) s))).entries
      = (z.leftEntries ++ (s.items.take (s.insertSlot key δ)).flatMap entries)
        ++ (key, 0) :: ((s.items.drop (s.insertSlot key δ)).flatMap entries ++ z.rightEntries) := by
    rw [Path.entries_fill, entries, ← flatMap_items, items_insertPage (by trivial),
      List.flatMap_append, List.flatMap_cons]
    simp [entries]
  rw [hsplit, List.pairwise_append] at hsorted
  obtain ⟨_, hright, hleft⟩ := hsorted
  intro dir e he
  cases dir with
  | ascend => exact decide_eq_true (hleft e he (key, 0) List.mem_cons_self)
  | descend =>
    refine decide_eq_true ((List.pairwise_cons.mp hright).1 e ?_)
    simp only [passed, passedGap, List.mem_append, List.mem_reverse] at he ⊢
    exact he.symm

/-- The two sides of a stored key. -/
theorem isBefore_leaf {z : TreePath} {key : ByteView} {v : Position}
    (hv : (z.fill (.leaf key v)).Valid) : ∀ dir : Direction,
    ∀ e ∈ passed z dir, isBefore key e dir = true := by
  have hsorted := hv.sorted
  rw [Path.entries_fill, entries, List.append_assoc, List.pairwise_append] at hsorted
  obtain ⟨_, hright, hleft⟩ := hsorted
  intro dir e he
  cases dir with
  | ascend => exact decide_eq_true (hleft e he (key, v) List.mem_cons_self)
  | descend =>
    exact decide_eq_true ((List.pairwise_cons.mp hright).1 e (List.mem_reverse.mp he))

theorem filter_isBefore {key : ByteView} {dir : Direction} {l done rest : List (ByteView × Position)}
    (hl : l = done ++ rest) (hdone : ∀ e ∈ done, isBefore key e dir = true)
    (hrest : ∀ e ∈ rest, isBefore key e dir = false) :
    l.filter (isBefore key · dir) = done := by
  rw [hl, List.filter_append, List.filter_eq_self.mpr hdone,
    List.filter_eq_nil_iff.mpr (fun e he => by rw [hrest e he]; decide), List.append_nil]

section Seek

variable {records : Position → Result ByteView} {ns : HeapNodeStore} {t : Tree}
  {dir : Direction} {key : ByteView}

variable (dir) in
/-- The end of a seek whose descent ended at another key. -/
theorem positionAt_eq (h : Holds ns.page? t) {z : TreePath} {k : ByteView} {v : Position}
    {path : IterPath} (hne : z ≠ []) (ht : z.fill (.leaf k v) = t) (halong : Path.Along key z)
    (hf : path.framesForInsert = (framesOf z).reverse) (hkk : key ≠ k) :
    ∃ slot, insertSlotFromPath ns key (compareKeys key k) (firstDiff key k) 0 path.framesForInsert
        = .ok slot ∧
      Reached t dir (positionAt ns dir path slot.target slot.slot)
        ((dir.order t.entries).filter (isBefore key · dir)) := by
  have hrev : Path.fill z.reverse.reverse (.leaf k v) = t := by rw [List.reverse_reverse, ht]
  obtain ⟨w₁, c, i, w₂, s, hw, hrun, hfill, hvalid⟩ := exists_insertTarget (hrev ▸ h)
    (by simpa using hne) (fun ci hci => halong ci (List.mem_reverse.mp hci)) hkk
  rw [hrev] at hfill
  have hz : z = w₂.reverse ++ (c, i) :: w₁.reverse := by
    rw [← List.reverse_reverse z, hw, List.reverse_append, List.reverse_cons, List.append_assoc]
    rfl
  rw [rootFrames_eq, ← hf] at hrun
  refine ⟨_, hrun, ?_⟩
  have hlen := path.length_frames
  have hframes : path.framesForInsert
      = ((framesOf w₁.reverse).reverse ++ [⟨i, c.slot⟩]) ++ (framesOf w₂.reverse).reverse := by
    rw [hf, hz, framesOf, List.map_append, List.reverse_append, List.map_cons, List.reverse_cons]
    rfl
  have hw₁ : ((framesOf w₁.reverse).reverse ++ [(⟨i, c.slot⟩ : PutFrame)]).length
      = w₁.length + 1 := by
    rw [List.length_append, length_framesOf, List.length_reverse]
    rfl
  have hlen' := hlen
  rw [hframes, List.length_append, hw₁] at hlen'
  have hcut : (path.truncate (w₁.length + 1)).framesForInsert
      = (framesOf w₁.reverse).reverse ++ [⟨i, c.slot⟩] := by
    rw [IterPath.frames_truncate _ (by omega), hframes, List.take_left' hw₁]
  have hloop := positionLoop_eq dir h w₁.reverse (w₁.length + 1) i s _ c.slot
    (s.insertSlot key (firstDiff key k)) (by rw [List.length_reverse]; omega) hfill hcut
    (insertSlot_le key _ s)
  have hfilter := filter_isBefore
    (hfill ▸ order_gap w₁.reverse i s (s.insertSlot key (firstDiff key k)) dir)
    (isBefore_gap (hvalid 0) dir)
    (fun e he => isBefore_flip (isBefore_gap (hvalid 0) dir.flip e (List.mem_reverse.mp he)))
  rw [hfilter, positionAt, if_neg (Nat.not_le.mpr (show w₁.length < path.len by omega))]
  exact hloop

/-- **A seek stands at the first record at or behind the key.** -/
theorem seekLoop_eq (h : Holds ns.page? t) (hk : Knows records t)
    (hkey : key.length ≤ kMaxKeySize) : ∀ (fuel : ℕ) (z : TreePath) (id : UInt64) (s : Tree)
    (path : IterPath), s.depth ≤ fuel → z.fill (.page id s) = t → Path.Along key z →
    path.framesForInsert = (framesOf z).reverse →
    Reached t dir (seekLoop records ns dir key fuel path id)
      ((dir.order t.entries).filter (isBefore key · dir))
  | 0, _, _, s, _, hd, _, _, _ => by
    have := one_le_depth s
    omega
  | fuel + 1, z, id, s, path, hd, ht, halong, hf => by
    obtain ⟨c, x, rfl, hal, hx⟩ := descent_step key s
    have hitem : x.IsItem := by
      rcases hx with ⟨k, v, rfl⟩ | ⟨j, s', rfl, _⟩ <;> trivial
    have hw := width_pos (c.fill x)
    obtain ⟨hget, hrep, hcase⟩ := page_at h ht hitem
    have hp : PageAt ns.page? id (c.fill x) := by
      subst ht
      exact h.pageAt
    have hlookup := (lookup_run (q := key) hp (Holds.valid_below (z := z) (ht ▸ h))
      (Holds.sized_below (z := z) (ht ▸ h)) hitem rfl hal).1
    have halong' : Path.Along key ((c, id) :: z) := by
      intro ci hci
      rcases List.mem_cons.mp hci with rfl | hci
      · exact hal
      · exact halong ci hci
    have hf' : (path.pushNode id c.slot).framesForInsert = (framesOf ((c, id) :: z)).reverse := by
      rw [IterPath.frames_pushNode, hf, framesOf_cons]
    rw [seekLoop, hget]
    simp only [bind, Except.bind]
    rw [if_neg (by rw [pageOf_size]; omega), hlookup]
    simp only [Bool.true_eq_false, if_false, hrep]
    rcases hcase with ⟨k, v, rfl, h1, h2⟩ | ⟨j, u, rfl, h1, h2, hdepth⟩
    · have ht' : Path.fill ((c, id) :: z) (.leaf k v) = t := ht
      have hmem : (k, v) ∈ t.entries := by
        rw [← ht', Path.entries_fill]
        simp [entries]
      have hread := recordKey_eq hk h.sized hmem
      simp only [h1, Bool.false_eq_true, if_false, h2, hread]
      rw [compareAndDiffBit_eq hkey (h.sized _ hmem).1]
      by_cases hkk : key = k
      · subst hkk
        rw [if_pos rfl]
        have hv := h.valid
        rw [← ht'] at hv
        have horder : dir.order t.entries = passed ((c, id) :: z) dir
            ++ (dir.order [(key, v)] ++ ahead ((c, id) :: z) dir) := by
          rw [← ht', order_fill, List.append_assoc]
          rfl
        have hfilter := filter_isBefore horder (isBefore_leaf hv dir) (by
            intro e he
            rcases List.mem_append.mp he with he | he
            · rw [dir.mem_order, List.mem_singleton] at he
              subst he
              cases dir <;> exact decide_eq_false (lt_irrefl _)
            · refine isBefore_flip (isBefore_leaf hv dir.flip e ?_)
              cases dir with
              | ascend => exact List.mem_reverse.mpr he
              | descend => exact List.mem_reverse.mp he)
        rw [hfilter]
        exact Or.inl ⟨_, rfl, (c, id) :: z, key, v, List.cons_ne_nil _ _, hf', ht', rfl⟩
      · rw [if_neg hkk]
        obtain ⟨slot, hslot, hreached⟩ := positionAt_eq dir h (List.cons_ne_nil _ _) ht'
          halong' hf' hkk
        have hcmp : (if key < k then -1 else 1 : Int) = compareKeys key k := by
          rw [compareKeys_eq, if_neg hkk]
        simp only [hcmp, hslot]
        exact hreached
    · simp only [h1, h2, if_true]
      exact seekLoop_eq h hk hkey fuel ((c, id) :: z) j u _ (by omega) ht halong' hf'

end Seek

/-! ### The loop over the records -/

/-- The calls a visitor gets: entry by entry, up to the first one it answers with `false`. -/
def visitAll {σ : Type} (fn : Visitor σ) : List (ByteView × Position) → σ → σ
  | [], s => s
  | e :: l, s => if (fn e.1 e.2 s).1 then visitAll fn l (fn e.1 e.2 s).2 else (fn e.1 e.2 s).2

section Loop

variable {records : Position → Result ByteView} {ns : HeapNodeStore} {t : Tree}
  {dir : Direction} {σ : Type}

/-- The record a path stands at is the first one still to come. -/
theorem StandsAt.current (h : Holds ns.page? t) (hk : Knows records t) {path : IterPath}
    {done rest : List (ByteView × Position)} (hat : StandsAt t dir path done)
    (hsplit : dir.order t.entries = done ++ rest) :
    ∃ e tail, rest = e :: tail ∧ path.len ≠ 0 ∧ currentRecord records ns path = .ok e ∧
      Reached t dir (movePath ns dir path.len path) (done ++ [e]) := by
  obtain ⟨z, k, v, hne, hf, ht, rfl⟩ := hat
  cases z with
  | nil => exact absurd rfl hne
  | cons ci z =>
    obtain ⟨c, id⟩ := ci
    have ht' : Path.fill z (.page id (c.fill (.leaf k v))) = t := ht
    obtain ⟨hget, hrep, hcase⟩ := page_at h ht' trivial
    have hlen := path.length_frames
    rw [hf, length_framesOf, List.length_cons] at hlen
    have hmem : (k, v) ∈ t.entries := by
      rw [← ht, Path.entries_fill]
      simp [entries]
    have hleaf : dir.order (PagedTree.leaf k v : Tree).entries = [(k, v)] :=
      dir.order_singleton (k, v)
    refine ⟨(k, v), ahead ((c, id) :: z) dir, ?_, by omega, ?_, ?_⟩
    · rw [← ht, order_fill, hleaf, List.append_assoc] at hsplit
      exact (List.append_cancel_left hsplit).symm
    · have hf' := hf
      rw [framesOf_cons] at hf'
      have hslot := slot_lt_width c (.leaf k v)
      rcases hcase with ⟨k', v', hx, h1, h2⟩ | ⟨j, u, hx, _⟩
      · obtain ⟨rfl, rfl⟩ := PagedTree.leaf.inj hx
        rw [currentRecord, if_neg (by omega), lastFrame_eq hf']
        simp only [bind, Except.bind, hget]
        rw [if_neg (by rw [pageOf_size]; omega), hrep]
        simp only [h1, Bool.false_eq_true, if_false, h2, recordKey_eq hk h.sized hmem]
      · exact absurd hx (by simp)
    · have hmove := movePath_eq dir h z id c (.leaf k v) path ht' trivial hf
      rw [hleaf, hlen] at hmove
      exact hmove

/-- **The loop is the fold over the records still to come**, up to the bound. -/
theorem fromPath_eq (h : Holds ns.page? t) (hk : Knows records t) (bound : Option ByteView)
    (fn : Visitor σ) : ∀ (fuel : ℕ) (path : IterPath) (done rest : List (ByteView × Position))
    (s : σ), StandsAt t dir path done → dir.order t.entries = done ++ rest → rest.length ≤ fuel →
    fromPath records ns dir bound fn fuel path s
      = .ok () (visitAll fn (rest.takeWhile (fun e => !beyond bound e.1 dir)) s)
  | 0, _, _, rest, _, hat, hsplit, hfuel => by
    obtain ⟨e, tail, rfl, _⟩ := hat.current h hk hsplit
    exact absurd hfuel (by simp)
  | fuel + 1, path, done, rest, s, hat, hsplit, hfuel => by
    obtain ⟨e, tail, rfl, hlen, hcur, hmove⟩ := hat.current h hk hsplit
    rw [List.length_cons] at hfuel
    rw [fromPath, if_neg hlen, hcur, Prog.bind_ok (Prog.ofOutcome_ok e s)]
    by_cases hb : beyond bound e.1 dir = true
    · rw [if_pos hb, List.takeWhile_cons_of_neg (by simp [hb])]
      rfl
    · rw [if_neg hb, List.takeWhile_cons_of_pos (by simpa using hb), visitAll]
      have hcall : (modifyGet (fn e.1 e.2) : Prog StatusCode σ Bool) s
          = .ok (fn e.1 e.2 s).1 (fn e.1 e.2 s).2 := rfl
      rw [Prog.bind_ok hcall]
      by_cases hmore : (fn e.1 e.2 s).1 = true
      · rw [if_neg (by simp [hmore]), if_pos hmore]
        have hsplit' : dir.order t.entries = (done ++ [e]) ++ tail := by
          rw [hsplit, List.append_assoc]
          rfl
        rcases hmove with ⟨path', hrun, hat'⟩ | ⟨⟨path', hrun⟩, hall⟩
        · rw [hrun, Prog.bind_ok (Prog.ofOutcome_ok _ _), if_neg (by simp)]
          exact fromPath_eq h hk bound fn fuel path' _ tail _ hat' hsplit' (by omega)
        · have htail : tail = [] := by
            rw [hall] at hsplit'
            exact List.append_right_eq_self.mp hsplit'.symm
          rw [hrun, Prog.bind_ok (Prog.ofOutcome_ok _ _), htail]
          rfl
      · rw [if_pos (by simpa using hmore), if_neg hmore]
        rfl

/-- A tree has no more entries than its pages have slots. -/
theorem length_entries_le {pages : Pages} : ∀ {t : Tree}, Stored pages t →
    t.entries.length ≤ t.width + kMaxNodeReps * t.ids.length
  | .leaf _ _, _ => Nat.le_add_right 1 _
  | .page i t, h => by
    have ih := length_entries_le h.2
    have hw := h.1.width_le
    simp only [entries, width, ids, List.length_cons, Nat.mul_add, Nat.mul_one]
    omega
  | .node d l r, h => by
    have ihl := length_entries_le h.1
    have ihr := length_entries_le h.2
    simp only [entries, width, ids, List.length_append, Nat.mul_add]
    omega

end Loop

/-! ### The iterators -/

section Iterators

variable {records : Position → Result ByteView} {ix : Index} {o : Option Tree} {dir : Direction}
  {σ : Type}

/-- Where an iterator starts: behind what it leaves out, or nowhere. -/
def StartsAt (ix : Index) (dir : Direction) (start : Result (Bool × IterPath)) (o : Option Tree)
    (done : List (ByteView × Position)) : Prop :=
  match o with
  | none => (∃ path, start = .ok (false, path)) ∧ done = []
  | some t => Reached (.page ix.rootId t) dir start done

/-- **An iterator calls its visitor** on what is ahead of its start, up to its bound. -/
theorem visitFrom_eq (h : Represents ix o) (hk : KnowsAll records (entriesOf o))
    (bound : Option ByteView) (fn : Visitor σ) {start : Result (Bool × IterPath)}
    {done rest : List (ByteView × Position)} (hstart : StartsAt ix dir start o done)
    (hsplit : dir.order (entriesOf o) = done ++ rest) (s : σ) :
    visitFrom records ix dir bound fn start s
      = .ok () (visitAll fn (rest.takeWhile (fun e => !beyond bound e.1 dir)) s) := by
  cases o with
  | none =>
    obtain ⟨⟨path, rfl⟩, rfl⟩ := hstart
    have hrest : rest = [] := by
      rw [List.nil_append] at hsplit
      rw [← hsplit]
      exact dir.order_nil
    rw [visitFrom, Prog.bind_ok (Prog.ofOutcome_ok _ _), hrest]
    rfl
  | some t =>
    obtain ⟨_, _, hholds, _⟩ := h
    rcases hstart with ⟨path, rfl, hat⟩ | ⟨⟨path, rfl⟩, hall⟩
    · rw [visitFrom, Prog.bind_ok (Prog.ofOutcome_ok _ _), if_neg (by simp)]
      refine fromPath_eq hholds hk bound fn _ path done rest s hat hsplit ?_
      have h1 := length_entries_le hholds.stored
      have h2 := hholds.length_ids_le
      have h3 : rest.length ≤ (dir.order t.entries).length := by
        rw [show dir.order t.entries = done ++ rest from hsplit, List.length_append]
        omega
      have h4 : (dir.order t.entries).length = t.entries.length := by
        cases dir
        · rfl
        · exact List.length_reverse
      have h5 : kMaxNodeReps * (PagedTree.page ix.rootId t : Tree).ids.length
          ≤ ix.nodes.nodes.length * kMaxNodeReps := by
        rw [Nat.mul_comm]
        exact Nat.mul_le_mul_right _ h2
      simp only [width, entries] at h1
      rw [Index.visitFuel]
      omega
    · have hrest : rest = [] := by
        rw [hall] at hsplit
        exact List.append_right_eq_self.mp hsplit.symm
      rw [visitFrom, Prog.bind_ok (Prog.ofOutcome_ok _ _), hrest]
      rfl

/-- The start at the outermost record. -/
theorem edgeRoot_starts (h : Represents ix o) : StartsAt ix dir (edgeRoot ix dir) o [] := by
  cases o with
  | none =>
    refine ⟨⟨IterPath.reset, ?_⟩, rfl⟩
    rw [edgeRoot, HeapNodeStore.get_eq h.2.2.1]
    rfl
  | some t =>
    obtain ⟨_, _, hholds, _⟩ := h
    have hp := Holds.pageAt (z := []) hholds
    have hw := width_pos t
    have hdepth := hholds.depth_le
    simp only [PagedTree.depth] at hdepth
    obtain ⟨path, hrun, hat⟩ := edgeRecord_eq dir hholds (iterFuel ix.nodes) [] ix.rootId
      t IterPath.reset (by rw [iterFuel]; omega) rfl rfl
    have hpassed : passed [] dir = [] := by cases dir <;> rfl
    rw [hpassed] at hat
    refine Or.inl ⟨path, ?_, hat⟩
    rw [edgeRoot, HeapNodeStore.get_eq hp.page_eq]
    simp only [bind, Except.bind]
    rw [if_neg (by rw [pageOf_size]; omega)]
    exact hrun

/-- The start at a key. -/
theorem seek_starts (h : Represents ix o) (hk : KnowsAll records (entriesOf o)) {key : ByteView}
    (hkey : key.length ≤ kMaxKeySize) : StartsAt ix dir (seek records ix dir key) o
      ((dir.order (entriesOf o)).filter (isBefore key · dir)) := by
  cases o with
  | none =>
    refine ⟨⟨IterPath.reset, ?_⟩, by cases dir <;> rfl⟩
    rw [seek, iterFuel, seekLoop, HeapNodeStore.get_eq h.2.2.1]
    rfl
  | some t =>
    obtain ⟨_, _, hholds, _⟩ := h
    have hdepth := hholds.depth_le
    simp only [PagedTree.depth] at hdepth
    exact seekLoop_eq hholds hk hkey (iterFuel ix.nodes) [] ix.rootId t IterPath.reset
      (by rw [iterFuel]; omega) rfl (fun ci hci => absurd hci List.not_mem_nil) rfl

end Iterators

section Agree

variable {l : List (ByteView × Position)}

/-- A condition that only holds on a first part of a list keeps that part. -/
theorem takeWhile_eq_filter {α : Type} {p : α → Bool} : ∀ {l : List α},
    l.Pairwise (fun a b => p b = true → p a = true) →
    l.takeWhile p = l.filter p ∧ l = l.filter p ++ l.filter (fun a => !p a)
  | [], _ => ⟨rfl, rfl⟩
  | a :: l, h => by
    obtain ⟨ha, hl⟩ := List.pairwise_cons.mp h
    obtain ⟨ih₁, ih₂⟩ := takeWhile_eq_filter hl
    by_cases hp : p a = true
    · rw [List.takeWhile_cons_of_pos hp, List.filter_cons_of_pos hp, ih₁,
        List.filter_cons_of_neg (by simp [hp]), List.cons_append, ← ih₂]
      exact ⟨rfl, rfl⟩
    · have hnone : l.filter p = [] :=
        List.filter_eq_nil_iff.mpr (fun b hb hpb => hp (ha b hb hpb))
      rw [List.takeWhile_cons_of_neg hp, List.filter_cons_of_neg hp, hnone,
        List.filter_cons_of_pos (by simpa using hp), List.nil_append]
      rw [hnone, List.nil_append] at ih₂
      exact ⟨rfl, congrArg (a :: ·) ih₂⟩

/-- In the order of the walk, what is before a key comes first. -/
theorem pairwise_isBefore (hs : l.Pairwise (fun a b => a.1 < b.1)) (key : ByteView) :
    ∀ dir : Direction, (dir.order l).Pairwise
      (fun a b => isBefore key b dir = true → isBefore key a dir = true)
  | .ascend => hs.imp (fun hab hb =>
      decide_eq_true (lt_trans hab (of_decide_eq_true hb)))
  | .descend => List.pairwise_reverse.mpr (hs.imp (fun hab ha =>
      decide_eq_true (lt_trans (of_decide_eq_true ha) hab)))

theorem takeWhile_unbounded (dir : Direction) (l : List (ByteView × Position)) :
    l.takeWhile (fun e => !beyond none e.1 dir) = l := by
  have hnone : (fun e : ByteView × Position => !beyond none e.1 dir) = fun _ => true := by
    funext e
    cases dir <;> rfl
  rw [hnone]
  exact List.takeWhile_eq_self_iff.mpr (fun _ _ => rfl)

theorem beyond_some {bound key : ByteView} {v : Position} : ∀ dir : Direction,
    (!beyond (some bound) key dir) = isBefore bound (key, v) dir
  | .ascend => by
    have h := compareKeys_neg (a := key) (b := bound)
    by_cases hlt : key < bound
    · have := h.mpr hlt
      rw [isBefore, decide_eq_true hlt, beyond, decide_eq_false (by omega)]
      rfl
    · have : ¬ compareKeys key bound < 0 := fun hc => hlt (h.mp hc)
      rw [isBefore, decide_eq_false hlt, beyond, decide_eq_true (by omega)]
      rfl
  | .descend => by
    have h := compareKeys_pos (a := key) (b := bound)
    by_cases hlt : bound < key
    · have := h.mpr hlt
      rw [isBefore, decide_eq_true hlt, beyond, decide_eq_false (by omega)]
      rfl
    · have : ¬ compareKeys key bound > 0 := fun hc => hlt (h.mp hc)
      rw [isBefore, decide_eq_false hlt, beyond, decide_eq_true (by omega)]
      rfl

variable {records : Position → Result ByteView} {ix : Index} {o : Option Tree} {σ : Type}

theorem isBefore_ascend (key : ByteView) :
    (fun e : ByteView × Position => !isBefore key e .ascend) = fun e => decide (key ≤ e.1) := by
  funext e
  rw [isBefore, ← decide_not]
  exact decide_eq_decide.mpr not_lt

theorem isBefore_descend (key : ByteView) :
    (fun e : ByteView × Position => !isBefore key e .descend) = fun e => decide (e.1 ≤ key) := by
  funext e
  rw [isBefore, ← decide_not]
  exact decide_eq_decide.mpr not_lt

/-- A walk from the outermost record. -/
theorem visit_edge (h : Represents ix o) (hk : KnowsAll records (entriesOf o)) (dir : Direction)
    (fn : Visitor σ) (s : σ) :
    visitFrom records ix dir none fn (edgeRoot ix dir) s
      = .ok () (visitAll fn (dir.order (entriesOf o)) s) := by
  rw [visitFrom_eq h hk none fn (edgeRoot_starts h) (List.nil_append _).symm s,
    takeWhile_unbounded]

/-- A walk from the outermost record up to a bound. -/
theorem visit_edge_bound (h : Represents ix o) (hk : KnowsAll records (entriesOf o))
    (dir : Direction) (bound : ByteView) (fn : Visitor σ) (s : σ) :
    visitFrom records ix dir (some bound) fn (edgeRoot ix dir) s
      = .ok () (visitAll fn ((dir.order (entriesOf o)).filter (isBefore bound · dir)) s) := by
  have hbound : (fun e : ByteView × Position => !beyond (some bound) e.1 dir)
      = (isBefore bound · dir) := by
    funext e
    exact beyond_some dir
  rw [visitFrom_eq h hk (some bound) fn (edgeRoot_starts h) (List.nil_append _).symm s,
    hbound,
    (takeWhile_eq_filter (pairwise_isBefore h.sorted bound dir)).1]

/-- A walk from a key. -/
theorem visit_seek (h : Represents ix o) (hk : KnowsAll records (entriesOf o)) (dir : Direction)
    {key : ByteView} (hkey : key.length ≤ kMaxKeySize) (fn : Visitor σ) (s : σ) :
    visitFrom records ix dir none fn (seek records ix dir key) s
      = .ok () (visitAll fn ((dir.order (entriesOf o)).filter (fun e => !isBefore key e dir)) s) := by
  have hsplit := (takeWhile_eq_filter (pairwise_isBefore h.sorted key dir)).2
  rw [visitFrom_eq h hk none fn (seek_starts h hk hkey) hsplit s, takeWhile_unbounded]

/-- A walk from a key up to a bound. -/
theorem visit_seek_bound (h : Represents ix o) (hk : KnowsAll records (entriesOf o))
    (dir : Direction) {key : ByteView} (hkey : key.length ≤ kMaxKeySize) (bound : ByteView)
    (fn : Visitor σ) (s : σ) :
    visitFrom records ix dir (some bound) fn (seek records ix dir key) s
      = .ok () (visitAll fn ((dir.order (entriesOf o)).filter
          (fun e => !isBefore key e dir && isBefore bound e dir)) s) := by
  have hbound : (fun e : ByteView × Position => !beyond (some bound) e.1 dir)
      = (isBefore bound · dir) := by
    funext e
    exact beyond_some dir
  have hsplit := (takeWhile_eq_filter (pairwise_isBefore h.sorted key dir)).2
  have hsorted := (pairwise_isBefore h.sorted bound dir).filter (fun e => !isBefore key e dir)
  rw [visitFrom_eq h hk (some bound) fn (seek_starts h hk hkey) hsplit s, hbound,
    (takeWhile_eq_filter hsorted).1, List.filter_filter]
  simp only [Bool.and_comm]

/-- **The iterators visit the sorted entries.**  On every reachable index each of them calls its
visitor on exactly the entries within its bounds, in its order, up to the first refusal. -/
theorem iterators_agree {m : SortedMap ByteView Position} (hreach : Reachable ix m)
    (hk : KnowsAll records m.entries) (fn : Visitor σ) (s : σ) {p q : ByteView}
    (hp : p.length ≤ kMaxKeySize) (hq : q.length ≤ kMaxKeySize) :
    ascend records ix fn s = .ok () (visitAll fn m.entries s) ∧
    ascendRange records ix p q fn s
      = .ok () (visitAll fn (m.entries.filter (fun e => p ≤ e.1 ∧ e.1 < q)) s) ∧
    ascendLessThan records ix p fn s
      = .ok () (visitAll fn (m.entries.filter (fun e => e.1 < p)) s) ∧
    ascendGreaterOrEqual records ix p fn s
      = .ok () (visitAll fn (m.entries.filter (fun e => p ≤ e.1)) s) ∧
    descend records ix fn s = .ok () (visitAll fn m.entries.reverse s) ∧
    descendRange records ix p q fn s
      = .ok () (visitAll fn (m.entries.reverse.filter (fun e => q < e.1 ∧ e.1 ≤ p)) s) ∧
    descendLessOrEqual records ix p fn s
      = .ok () (visitAll fn (m.entries.reverse.filter (fun e => e.1 ≤ p)) s) ∧
    descendGreaterThan records ix p fn s
      = .ok () (visitAll fn (m.entries.reverse.filter (fun e => p < e.1)) s) := by
  obtain ⟨o, h, rfl⟩ := hreach.represents
  have hcheck : ∀ {key : ByteView}, key.length ≤ kMaxKeySize → ∀ k : Unit → Prog StatusCode σ Unit,
      (Prog.ofOutcome (checkKeySize key) >>= k) s = k () s := by
    intro key hkey k
    rw [checkKeySize_ok hkey]
    rfl
  refine ⟨visit_edge h hk .ascend fn s, ?_, ?_, ?_, visit_edge h hk .descend fn s, ?_, ?_, ?_⟩
  · rw [ascendRange, hcheck hp, hcheck hq, visit_seek_bound h hk .ascend hp q fn s]
    have hrange : (fun e : ByteView × Position => !isBefore p e .ascend && isBefore q e .ascend)
        = fun e => decide (p ≤ e.1 ∧ e.1 < q) := by
      funext e
      rw [congrFun (isBefore_ascend p) e, isBefore, Bool.decide_and]
    rw [hrange]
    rfl
  · rw [ascendLessThan, hcheck hp, visit_edge_bound h hk .ascend p fn s]
    rfl
  · rw [ascendGreaterOrEqual, hcheck hp, visit_seek h hk .ascend hp fn s, isBefore_ascend]
    rfl
  · rw [descendRange, hcheck hp, hcheck hq, visit_seek_bound h hk .descend hp q fn s]
    have hrange : (fun e : ByteView × Position => !isBefore p e .descend && isBefore q e .descend)
        = fun e => decide (q < e.1 ∧ e.1 ≤ p) := by
      funext e
      rw [congrFun (isBefore_descend p) e, isBefore, Bool.decide_and, Bool.and_comm]
    rw [hrange]
    rfl
  · rw [descendLessOrEqual, hcheck hp, visit_seek h hk .descend hp fn s, isBefore_descend]
    rfl
  · rw [descendGreaterThan, hcheck hp, visit_edge_bound h hk .descend p fn s]
    rfl

/-- An index of 400 keys, and a range over its pages. -/
theorem iterators_agree_numberedKeys : ∃ ix, Reachable ix (numberedKeys 400) ∧
    ascendRange numberedRecords ix (numberedKey 200) (numberedKey 390)
        (fun k _ l => (true, l ++ [k])) []
      = .ok () (visitAll (fun k _ l => (true, l ++ [k])) ((numberedKeys 400).entries.filter
          (fun e => numberedKey 200 ≤ e.1 ∧ e.1 < numberedKey 390)) []) := by
  obtain ⟨ix, hreach, _⟩ := exists_reachable_numberedKeys (show 400 < 2 ^ 62 by decide)
  exact ⟨ix, hreach, (iterators_agree hreach (knowsAll_numberedKeys (by decide)) _ _ (by decide)
    (by decide)).2.1⟩

end Agree

end MinweightStore.Minpatricia
