import MinweightStore.Minpatricia.InsertPage

/-!
# A page with one item less

What a deletion does to a page once the key is gone below it.

* `deleteAtIncremental_some`, `deleteAtIncremental_none` — an item leaves the page;
* `mergeChildIntoParent_eq` — the items of a child take its place;
* `mergeSiblings_eq` — two children under one branch become one;
* `rebuildParentAfterChildBoundary_eq` — only the boundaries follow.
-/

namespace MinweightStore.Minpatricia

open BitKey PagedTree

section Incremental

variable {ix : Index} {id : UInt64} {c : TreeCtx} {x t : Tree}

theorem sized_rest (hs : Sized (c.fill x)) {y : Tree} (hy : y ∈ c.leftItems ++ c.rightItems) :
    Sized y := by
  refine hs.of_subset (mem_entries_of_mem_items ?_)
  rw [Ctx.items_fill]
  rcases List.mem_append.mp hy with hy | hy
  · exact List.mem_append_left _ (List.mem_append_left _ hy)
  · exact List.mem_append_right _ hy

theorem item_rest {y : Tree} (hy : y ∈ c.leftItems ++ c.rightItems) : y.IsItem := by
  refine isItem_of_mem_items (t := c.fill (.leaf [] 0)) ?_
  rw [Ctx.items_fill]
  rcases List.mem_append.mp hy with hy | hy
  · exact List.mem_append_left _ (List.mem_append_left _ hy)
  · exact List.mem_append_right _ hy

theorem repTable_remove (hx : x.IsItem) (hc : c.remove = some t)
    (hw : (c.fill x).width ≤ kMaxNodeReps) :
    (shiftDown (repTable (c.fill x).items) c.slot ((c.fill x).width - 1)).setIfInBounds
      ((c.fill x).width - 1) Rep.zero = repTable t.items := by
  have hlen : ((c.fill x).items.map repOf).length = (c.fill x).width := by
    rw [List.length_map, length_items]
  have hslot := slot_lt_width c x
  have := shiftDown_pad Rep.zero c.slot (n := kMaxNodeReps) (l := (c.fill x).items.map repOf) (by omega) (by omega)
  rw [hlen] at this
  rw [repTable, repTable, this, Ctx.items_remove c hc, Ctx.items_fill, items_of_isItem hx,
    List.append_assoc, List.map_append, List.map_append]
  congr 1
  rw [List.eraseIdx_append_of_length_le (by rw [List.length_map]; exact le_refl _), List.length_map]
  simp [Ctx.slot]

/-- **`DeleteAtIncremental`** on a page with another item. -/
theorem deleteAtIncremental_some (hpage : ix.nodes.page? id = some (pageOf (c.fill x)))
    (hw : (c.fill x).width ≤ kMaxNodeReps) (hv : (c.fill x).Valid) (hs : Sized (c.fill x))
    (hx : x.IsItem) (hrest : c.AllRest (PageAt ix.nodes.page?)) (hc : c.remove = some t) :
    WritesPage (deleteAtIncremental id c.slot) ix id (pageOf t) := by
  have hslot := slot_lt_width c x
  have ht := width_pos t
  have hwt := Ctx.width_remove c hc
  have hwf := Ctx.width_fill c x
  rw [width_eq_one_of_isItem hx] at hwf
  have hlen := length_items (c.fill x)
  obtain ⟨second, hsecond⟩ : ∃ y, (c.fill x).items[1]? = some y :=
    ⟨_, List.getElem?_eq_getElem (by omega)⟩
  obtain ⟨before, hbefore⟩ : ∃ y, (c.fill x).items[(c.fill x).width - 2]? = some y :=
    ⟨_, List.getElem?_eq_getElem (by omega)⟩
  have hrep1 := repAt_items (pageOf_reps _) hsecond (by decide)
  have hrep2 := repAt_items (pageOf_reps _) hbefore (by omega)
  have hfirst : minPosIf ix.nodes (c.slot = 0) (repOf second) (c.fill x).first = .ok t.first := by
    unfold minPosIf
    rcases Ctx.first_remove hx hc with ⟨h0, y, hy, hmem, hyf⟩ | ⟨h0, hf⟩
    · rw [if_pos h0, ← hyf]
      obtain rfl : second = y := Option.some.inj (hsecond.symm.trans hy)
      exact minPos_eq _ (item_rest hmem) (hrest _ hmem) (sized_rest hs hmem)
    · rw [if_neg h0, hf]
  have hlast : maxPosIf ix.nodes (c.slot = (c.fill x).width - 1) (repOf before) (c.fill x).last
      = .ok t.last := by
    unfold maxPosIf
    rcases Ctx.last_remove hx hc with ⟨h0, y, hy, hmem, hyl⟩ | ⟨h0, hl⟩
    · rw [if_pos h0, ← hyl]
      obtain rfl : before = y := Option.some.inj (hbefore.symm.trans hy)
      exact maxPos_eq _ (item_rest hmem) (hrest _ hmem) (sized_rest hs hmem)
    · rw [if_neg h0, hl]
  have hroute := deleteRoute_eq (hasRoutes_pageOf hw hv hs) hx hc
  have hreps := repTable_remove hx hc hw
  have hwrite := writesPage_writePage (pageOf t) hpage
  have hpageEq : pageOf t = {
      routes := routeTable t.preorder
      reps := (shiftDown (pageOf (c.fill x)).reps c.slot ((c.fill x).width - 1)).setIfInBounds
        ((c.fill x).width - 1) Rep.zero
      size := (c.fill x).width - 1
      firstPos := t.first
      lastPos := t.last } := by
    rw [pageOf_reps, hreps, show (c.fill x).width - 1 = t.width by omega]
    rfl
  unfold WritesPage deleteAtIncremental
  rw [Prog.bind_ok (derefNode_run hpage), pageOf_size, if_neg (by omega), if_neg (by omega),
    Prog.bind_ok (ofOutcome_run hrep1), pageOf_firstPos, Prog.bind_ok (readNodes_run hfirst),
    Prog.bind_ok (ofOutcome_run hrep2), pageOf_lastPos, Prog.bind_ok (readNodes_run hlast),
    Prog.bind_ok (ofOutcome_run hroute)]
  rw [hpageEq] at hwrite ⊢
  exact hwrite

/-- `DeleteAtIncremental` of the only item leaves the empty page. -/
theorem deleteAtIncremental_none (hpage : ix.nodes.page? id = some (pageOf x)) (hx : x.IsItem) :
    WritesPage (deleteAtIncremental id 0) ix id NodePage.empty := by
  have hw := width_eq_one_of_isItem hx
  have hwrite := writesPage_writePage NodePage.empty hpage
  have hreps : (pageOf x).reps.setIfInBounds 0 Rep.zero = NodePage.empty.reps := by
    rw [pageOf_reps, repTable, items_of_isItem hx]
    refine (set_pad (n := kMaxNodeReps) [] [] (repOf x) Rep.zero).trans (pad_ext ?_).symm
    intro i hi
    rw [NodePage.empty, Vector.getElem_replicate]
    cases i <;> rfl
  have hroutes : (pageOf x).routes = NodePage.empty.routes := by
    have hpre : x.preorder = [] := by
      have := length_preorder x
      exact List.length_eq_zero_iff.mp (by omega)
    rw [pageOf_routes, hpre]
    refine (pad_ext ?_).symm
    intro i hi
    rw [NodePage.empty, Vector.getElem_replicate]
    rfl
  have hpageEq : ({ pageOf x with
      reps := (pageOf x).reps.setIfInBounds 0 Rep.zero
      size := 0
      firstPos := 0
      lastPos := 0 } : NodePage) = NodePage.empty := by
    rw [hreps]
    simp only [hroutes]
    rfl
  unfold WritesPage deleteAtIncremental
  rw [Prog.bind_ok (derefNode_run hpage), pageOf_size, if_neg (by omega), if_pos hw, hpageEq]
  exact hwrite

end Incremental

/-! ### A child merged into its parent -/

section Merge

variable {ix : Index} {id j : UInt64} {c : TreeCtx} {u u₀ : Tree}

theorem moveUp_get {α : Type} {n : ℕ} (a : Vector α n) (lo hi shift : ℕ) {i : ℕ} (h : i < n) :
    (moveUp a lo hi shift)[i] = if lo + shift < i ∧ i ≤ hi + shift then a[i - shift] else a[i] := by
  rw [moveUp, Vector.getElem_ofFn]
  rfl

theorem copyAt_get {α : Type} {n : ℕ} (a b : Vector α n) (start count : ℕ) {i : ℕ} (h : i < n) :
    (copyAt a start b count)[i]
      = if start ≤ i ∧ i < start + count then b[i - start] else a[i] := by
  rw [copyAt, Vector.getElem_ofFn]
  rfl

theorem clearRange_get {α : Type} {n : ℕ} (zero : α) (a : Vector α n) (lo hi : ℕ) {i : ℕ}
    (h : i < n) : (clearRange zero a lo hi)[i] = if lo ≤ i ∧ i < hi then zero else a[i] := by
  rw [clearRange, Vector.getElem_ofFn]
  rfl

/-- The three loops of `MergeChildIntoParent` on padded lists. -/
theorem mergeLoops_pad {α : Type} {n : ℕ} (zero : α) {x : α} {l m r : List α} (hm : 1 ≤ m.length) :
    clearRange zero (copyAt (moveUp (pad n zero (l ++ [x] ++ r)) l.length (l.length + r.length)
        (m.length - 1)) l.length (pad n zero m) m.length)
      (l.length + r.length + m.length) (l.length + 1 + r.length) = pad n zero (l ++ m ++ r) := by
  apply pad_ext
  intro i hi
  rw [clearRange_get _ _ _ _ hi, if_neg (by omega), copyAt_get _ _ _ _ hi,
    List.getD_eq_getElem?_getD]
  by_cases h1 : i < l.length
  · rw [if_neg (by omega), moveUp_get _ _ _ _ hi, if_neg (by omega), pad_getElem hi,
      List.append_assoc, List.append_assoc, List.getElem?_append_left h1,
      List.getElem?_append_left h1]
  · by_cases h2 : i < l.length + m.length
    · rw [if_pos (by omega), pad_getElem, List.append_assoc, List.getElem?_append_right (by omega),
        List.getElem?_append_left (by omega)]
    · have hlm : (l ++ m).length = l.length + m.length := List.length_append
      have hlx : (l ++ [x]).length = l.length + 1 := List.length_append
      rw [if_neg (by omega), moveUp_get _ _ _ _ hi, List.getElem?_append_right (by omega), hlm]
      by_cases h3 : i < l.length + m.length + r.length
      · rw [if_pos (by omega), pad_getElem, List.getElem?_append_right (by omega), hlx]
        congr 2
        omega
      · rw [if_neg (by omega), pad_getElem hi, List.getElem?_append_right (by omega), hlx, List.getElem?_eq_none (by omega),
          List.getElem?_eq_none (by omega)]

theorem mergedReps_eq :
    mergedReps (pageOf (c.fill (.page j u₀))) c.slot (pageOf u) = repTable (c.fill u).items := by
  have hu := width_pos u
  have hul := length_items u
  have hl : (c.leftItems.map repOf).length = c.slot := by rw [List.length_map]; rfl
  have hm : (u.items.map repOf).length = u.width := by rw [List.length_map, length_items]
  have hr : (c.rightItems.map repOf).length = c.rightItems.length := List.length_map _
  have := mergeLoops_pad Rep.zero (n := kMaxNodeReps) (x := repOf (.page j u₀)) (l := c.leftItems.map repOf) (m := u.items.map repOf) (r := c.rightItems.map repOf)
    (by omega)
  rw [hl, hm, hr] at this
  unfold mergedReps
  simp only [pageOf_size, pageOf_reps]
  rw [Ctx.width_fill, show (PagedTree.page j u₀ : Tree).width = 1 from rfl, repTable, repTable,
    repTable, Ctx.items_fill, Ctx.items_fill, show (PagedTree.page j u₀ : Tree).items = [.page j u₀]
      from rfl]
  simp only [List.map_append, List.map_cons, List.map_nil]
  rw [show c.slot + 1 + c.rightItems.length - 1 = c.slot + c.rightItems.length by omega]
  exact this

theorem diffsOf_eq {page : NodePage} {t : Tree} (h : HasRoutes page t) :
    diffsOf page = .ok t.diffs := by
  have ht := width_pos t
  have hd := length_diffs t
  unfold diffsOf
  rw [h.size_eq]
  split
  · exact routeDiffs_eq _ h.routed (by rw [List.length_replicate]; omega)
  · rw [List.length_eq_zero_iff.mp (show t.diffs.length = 0 by omega)]

/-- The pages after a page has been written and another one freed. -/
def WritesFrees (m : IndexM Unit) (ix : Index) (id : UInt64) (page : NodePage) (j : UInt64) :
    Prop :=
  ∃ ns, m ix = .ok () { ix with nodes := ns } ∧ ns.nodes.length = ix.nodes.nodes.length ∧
    ns.page? = Function.update (Function.update ix.nodes.page? id (some page)) j none

theorem WritesPage.free {m : IndexM Unit} {page old : NodePage} (h : WritesPage m ix id page)
    (hj : ix.nodes.page? j = some old) (hroot : j ≠ HeapNodeStore.root) (hne : j ≠ id) :
    WritesFrees (m >>= fun _ => freeNode j) ix id page j := by
  obtain ⟨ns, hrun, hlen, hpages⟩ := h
  obtain ⟨ns', hrun', hlen', hpages'⟩ := freeNode_run { ix with nodes := ns } hroot
    (by show ns.page? j = _; rw [hpages, update_ne hne]; exact hj)
  refine ⟨ns', by rw [Prog.bind_ok hrun]; exact hrun', hlen'.trans hlen, ?_⟩
  rw [hpages']
  show Function.update ns.page? j none = _
  rw [hpages]

/-- **`MergeChildIntoParent`**: the items of the child take its place in the parent. -/
theorem mergeChildIntoParent_eq (hpage : ix.nodes.page? id = some (pageOf (c.fill (.page j u₀))))
    (hw₀ : (c.fill (.page j u₀)).width ≤ kMaxNodeReps) (hv₀ : (c.fill (.page j u₀)).Valid)
    (hs₀ : Sized (c.fill (.page j u₀))) (hchild : PageAt ix.nodes.page? j u)
    (hw : (c.fill u).width ≤ kMaxNodeReps) (hv : (c.fill u).Valid) (hs : Sized (c.fill u))
    (hst : Stored ix.nodes.page? (c.fill u)) (hid : id ∉ (c.fill u).ids)
    (hroot : j ≠ HeapNodeStore.root) (hne : j ≠ id) :
    WritesFrees (mergeChildIntoParent id c.slot j) ix id (pageOf (c.fill u)) j := by
  have hwp := width_pos (c.fill (.page j u₀))
  have hu := width_pos u
  have hvu := Valid.of_fill hv
  have hsu : Sized u := hs.of_subset (fun e he => mem_entries_fill.mpr (Or.inr (Or.inl he)))
  have hold := routeDiffs_eq (List.replicate ((c.fill (.page j u₀)).width - 1) 0)
    (hasRoutes_pageOf hw₀ hv₀ hs₀).routed (by rw [List.length_replicate]; omega)
  have hcd := diffsOf_eq (hasRoutes_pageOf hchild.width_le hvu hsu)
  have hdiffs : (c.fill (.page j u₀)).diffs.take c.slot ++ u.diffs
      ++ (c.fill (.page j u₀)).diffs.drop c.slot = (c.fill u).diffs := by
    have hlen := Ctx.length_leftDiffs c
    rw [Ctx.diffs_fill, Ctx.diffs_fill, show (PagedTree.page j u₀ : Tree).diffs = [] from rfl,
      List.append_nil, List.take_left' hlen, List.drop_left' hlen]
  have hsize : (c.fill (.page j u₀)).width - 1 + u.width = (c.fill u).width := by
    rw [Ctx.width_fill, Ctx.width_fill, show (PagedTree.page j u₀ : Tree).width = 1 from rfl]
    omega
  have hitems : HasItems { pageOf (c.fill (.page j u₀)) with
      reps := mergedReps (pageOf (c.fill (.page j u₀))) c.slot (pageOf u)
      size := (c.fill (.page j u₀)).width - 1 + u.width } (c.fill u) :=
    ⟨hsize, mergedReps_eq⟩
  have hrun := WritesPage.bind (k := rebuildNodeWithDiffs id (c.fill u).diffs)
    (writesPage_writePage { pageOf (c.fill (.page j u₀)) with
      reps := mergedReps (pageOf (c.fill (.page j u₀))) c.slot (pageOf u)
      size := (c.fill (.page j u₀)).width - 1 + u.width } hpage) (fun ns hns =>
      rebuildNodeWithDiffs_eq { ix with nodes := ns }
        (by show ns.page? id = _; rw [hns, Function.update_self]) hitems hw hv hs
        (by show Stored ns.page? (c.fill u); rw [hns]; exact hst.update hid))
  have hfree := hrun.free hchild.page_eq hroot hne
  unfold WritesFrees mergeChildIntoParent
  rw [Prog.bind_ok (derefNode_run hpage), Prog.bind_ok (derefNode_run hchild.page_eq), pageOf_size,
    Prog.bind_ok (ofOutcome_run hold), Prog.bind_ok (ofOutcome_run hcd), pageOf_size, hdiffs,
    ← bind_assoc]
  exact hfree

/-- **`RebuildParentAfterChildBoundary`**: the parent follows the boundary of its child. -/
theorem rebuildParentAfterChildBoundary_eq
    (hpage : ix.nodes.page? id = some (pageOf (c.fill (.page j u₀)))) :
    WritesPage (rebuildParentAfterChildBoundary id c.slot (pageOf u) u₀.first u₀.last) ix id
      (pageOf (c.fill (.page j u))) := by
  have hwrite := writesPage_writePage (pageOf (c.fill (.page j u))) hpage
  have hfirst : (if u.first ≠ u₀.first ∧ c.slot = 0 then u.first
      else (c.fill (.page j u₀)).first) = (c.fill (.page j u)).first := by
    rcases first_fill_eq c (.page j u₀) with ⟨h0, hx⟩ | ⟨h0, hx⟩
    · rcases first_fill_eq c (.page j u) with ⟨_, hy⟩ | ⟨h0', _⟩
      · rw [hx, hy]
        by_cases he : u.first = u₀.first
        · rw [if_neg (fun h => h.1 he)]
          exact he.symm
        · rw [if_pos ⟨he, h0⟩]
          rfl
      · exact absurd h0 h0'
    · rw [if_neg (fun h => h0 h.2)]
      exact (hx _).symm
  have hlast : (if u.last ≠ u₀.last ∧ c.slot = (c.fill (.page j u₀)).width - 1 then u.last
      else (c.fill (.page j u₀)).last) = (c.fill (.page j u)).last := by
    rcases last_fill_eq c (.page j u₀) trivial with ⟨h0, hx⟩ | ⟨h0, hx⟩
    · rcases last_fill_eq c (.page j u) trivial with ⟨_, hy⟩ | ⟨h0', _⟩
      · rw [hx, hy]
        by_cases he : u.last = u₀.last
        · rw [if_neg (fun h => h.1 he)]
          exact he.symm
        · rw [if_pos ⟨he, h0⟩]
          rfl
      · exact absurd (by rw [width_fill_page c j u₀ u]; exact h0) h0'
    · rw [if_neg (fun h => h0 h.2)]
      exact (hx _).symm
  have hpageEq := pageOf_fill c j u₀ u
  rw [← hfirst, ← hlast] at hpageEq
  unfold WritesPage rebuildParentAfterChildBoundary
  rw [Prog.bind_ok (derefNode_run hpage)]
  rw [hpageEq] at hwrite ⊢
  exact hwrite

end Merge

/-! ### Two children merged -/

section Siblings

variable {ix : Index} {id a b : UInt64} {c : TreeCtx} {d : ℕ} {l r l₀ r₀ : Tree}

/-- The items of a page with a branch over two children. -/
theorem items_pair (c : TreeCtx) (d : ℕ) (a b : UInt64) (l r : Tree) :
    (c.fill (.node d (.page a l) (.page b r))).items.map repOf
      = c.leftItems.map repOf ++ ⟨kChildTag ||| a⟩ :: ⟨kChildTag ||| b⟩
        :: c.rightItems.map repOf := by
  rw [Ctx.items_fill]
  simp [items, repOf]

variable (ix) in
/-- `RemoveMergedParentRep`: the page without its right child. -/
theorem removeMergedParentRep_eq
    (hpage : ix.nodes.page? id = some (pageOf (c.fill (.node d (.page a l₀) (.page b r₀)))))
    (hw₀ : (c.fill (.node d (.page a l₀) (.page b r₀))).width ≤ kMaxNodeReps)
    (hv₀ : (c.fill (.node d (.page a l₀) (.page b r₀))).Valid)
    (hs₀ : Sized (c.fill (.node d (.page a l₀) (.page b r₀)))) {u : Tree}
    (hv : (c.fill (.page a u)).Valid) (hs : Sized (c.fill (.page a u)))
    (hst : Stored ix.nodes.page? (c.fill (.page a u))) (hid : id ∉ (c.fill (.page a u)).ids) :
    WritesPage (removeMergedParentRep id (c.slot + 1) c.slot) ix id
      (pageOf (c.fill (.page a u))) := by
  have hwf := Ctx.width_fill c (.node d (.page a l₀) (.page b r₀))
  have hwn := Ctx.width_fill c (.page a u)
  rw [show (PagedTree.node d (.page a l₀) (.page b r₀) : Tree).width = 2 from rfl] at hwf
  rw [show (PagedTree.page a u : Tree).width = 1 from rfl] at hwn
  have hlenD := Ctx.length_leftDiffs c
  have hold := routeDiffs_eq (List.replicate ((c.fill (.node d (.page a l₀) (.page b r₀))).width - 1) 0)
    (hasRoutes_pageOf hw₀ hv₀ hs₀).routed (by rw [List.length_replicate]; omega)
  have hdiffs : (c.fill (.node d (.page a l₀) (.page b r₀))).diffs.eraseIdx c.slot
      = (c.fill (.page a u)).diffs := by
    rw [Ctx.diffs_fill, Ctx.diffs_fill, List.append_assoc,
      List.eraseIdx_append_of_length_le (by omega), hlenD, Nat.sub_self]
    simp [diffs]
  have hlen : ((c.fill (.node d (.page a l₀) (.page b r₀))).items.map repOf).length
      = (c.fill (.node d (.page a l₀) (.page b r₀))).width := by
    rw [List.length_map, length_items]
  have hreps : (shiftDown (repTable (c.fill (.node d (.page a l₀) (.page b r₀))).items) (c.slot + 1)
      ((c.fill (.node d (.page a l₀) (.page b r₀))).width - 1)).setIfInBounds
      ((c.fill (.node d (.page a l₀) (.page b r₀))).width - 1) Rep.zero
      = repTable (c.fill (.page a u)).items := by
    have := shiftDown_pad Rep.zero (c.slot + 1) (n := kMaxNodeReps) (l := (c.fill (.node d (.page a l₀) (.page b r₀))).items.map repOf) (by omega) (by omega)
    rw [hlen] at this
    have hll : (c.leftItems.map repOf).length = c.slot := by rw [List.length_map]; rfl
    rw [repTable, repTable, this, items_pair, List.eraseIdx_append_of_length_le (by omega), hll,
      Nat.add_sub_cancel_left, Ctx.items_fill]
    simp [items, repOf]
  have hitems : HasItems { pageOf (c.fill (.node d (.page a l₀) (.page b r₀))) with
      reps := (shiftDown (pageOf (c.fill (.node d (.page a l₀) (.page b r₀)))).reps (c.slot + 1)
        ((c.fill (.node d (.page a l₀) (.page b r₀))).width - 1)).setIfInBounds
        ((c.fill (.node d (.page a l₀) (.page b r₀))).width - 1) Rep.zero
      size := (c.fill (.node d (.page a l₀) (.page b r₀))).width - 1 } (c.fill (.page a u)) :=
    ⟨by simp only; omega, hreps⟩
  have hrun := WritesPage.bind (k := rebuildNodeWithDiffs id (c.fill (.page a u)).diffs)
    (writesPage_writePage { pageOf (c.fill (.node d (.page a l₀) (.page b r₀))) with
      reps := (shiftDown (pageOf (c.fill (.node d (.page a l₀) (.page b r₀)))).reps (c.slot + 1)
        ((c.fill (.node d (.page a l₀) (.page b r₀))).width - 1)).setIfInBounds
        ((c.fill (.node d (.page a l₀) (.page b r₀))).width - 1) Rep.zero
      size := (c.fill (.node d (.page a l₀) (.page b r₀))).width - 1 } hpage) (fun ns hns =>
      rebuildNodeWithDiffs_eq { ix with nodes := ns }
        (by show ns.page? id = _; rw [hns, Function.update_self]) hitems (by omega) hv hs
        (by show Stored ns.page? _; rw [hns]; exact hst.update hid))
  unfold WritesPage removeMergedParentRep
  rw [Prog.bind_ok (derefNode_run hpage), pageOf_size, if_neg (by omega),
    Prog.bind_ok (ofOutcome_run hold), hdiffs]
  exact hrun

/-- The pages after two children have been merged into the left one. -/
structure Merged (pages pages' : Pages) (id a b : UInt64) (c : TreeCtx) (u : Tree) : Prop where
  parent : PageAt pages' id (c.fill (.page a u))
  child : PageAt pages' a u
  freed : pages' b = none
  other : ∀ x, x ≠ id → x ≠ a → x ≠ b → pages' x = pages x

/-- **`MergeLeftSibling` and `MergeRightSibling`**: the branch over two children moves into the
left one. -/
theorem mergeSiblings_eq
    (hpage : ix.nodes.page? id = some (pageOf (c.fill (.node d (.page a l₀) (.page b r₀)))))
    (hw₀ : (c.fill (.node d (.page a l₀) (.page b r₀))).width ≤ kMaxNodeReps)
    (hv₀ : (c.fill (.node d (.page a l₀) (.page b r₀))).Valid)
    (hs₀ : Sized (c.fill (.node d (.page a l₀) (.page b r₀))))
    (hid : id.toNat < 2 ^ 63)
    (hv : (c.fill (.node d (.page a l) (.page b r))).Valid)
    (hs : Sized (c.fill (.node d (.page a l) (.page b r))))
    (hst : Stored ix.nodes.page? (c.fill (.node d (.page a l) (.page b r))))
    (hnd : (PagedTree.page id (c.fill (.node d (.page a l) (.page b r))) : Tree).ids.Nodup)
    (hw : l.width + r.width ≤ kMaxNodeReps) (hroot : b ≠ HeapNodeStore.root) :
    ∃ ns, mergeSiblings id c.slot a (pageOf l) (c.slot + 1) b (pageOf r) ix
        = .ok () { ix with nodes := ns } ∧ ns.nodes.length = ix.nodes.nodes.length ∧
      Merged ix.nodes.page? ns.page? id a b c (.node d l r) := by
  have hwf := Ctx.width_fill c (.node d (.page a l₀) (.page b r₀))
  have hwn := Ctx.width_fill c (.page a (.node d l r))
  rw [show (PagedTree.node d (.page a l₀) (.page b r₀) : Tree).width = 2 from rfl] at hwf
  rw [show (PagedTree.page a (.node d l r) : Tree).width = 1 from rfl] at hwn
  obtain ⟨⟨⟨hal, hstl⟩, ⟨hbr, hstr⟩⟩, hrest⟩ := (Ctx.allPages_fill c _).mp hst
  have hvn : (PagedTree.node d l r : Tree).Valid :=
    Valid.of_fill (s := .node d (.page a l) (.page b r)) hv
  have hsn : Sized (.node d l r) := hs.of_subset
    (fun e he => mem_entries_fill.mpr (Or.inr (Or.inl he)))
  have hsl : Sized l := hsn.of_subset (fun e he => List.mem_append_left _ he)
  have hsr : Sized r := hsn.of_subset (fun e he => List.mem_append_right _ he)
  -- the identifiers are all different
  have hlist : (id :: a :: b :: ((l.ids ++ r.ids) ++ (c.leftIds ++ c.rightIds))).Nodup := by
    refine (List.Perm.nodup_iff ?_).mp hnd
    rw [List.perm_iff_count]
    intro x
    simp only [ids, Ctx.ids_fill, List.count_append, List.count_cons]
    omega
  obtain ⟨hid1, hnd2⟩ := List.nodup_cons.mp hlist
  obtain ⟨ha1, hnd3⟩ := List.nodup_cons.mp hnd2
  obtain ⟨hb1, hnd4⟩ := List.nodup_cons.mp hnd3
  simp only [List.mem_cons, not_or] at hid1 ha1
  obtain ⟨hida, hidb, hidn⟩ := hid1
  obtain ⟨hab, han⟩ := ha1
  have hsub : ∀ x ∈ (c.fill (.page a (.node d l r)) : Tree).ids, x = a ∨
      x ∈ (l.ids ++ r.ids) ++ (c.leftIds ++ c.rightIds) := by
    intro x hx
    simp only [Ctx.ids_fill, ids, List.mem_append, List.mem_cons] at hx ⊢
    tauto
  -- the diffs read from the three pages
  have hold := routeDiffs_eq (List.replicate ((c.fill (.node d (.page a l₀) (.page b r₀))).width - 1) 0)
    (hasRoutes_pageOf hw₀ hv₀ hs₀).routed (by rw [List.length_replicate]; omega)
  have hld := diffsOf_eq (hasRoutes_pageOf hal.width_le hvn.2.1 hsl)
  have hrd := diffsOf_eq (hasRoutes_pageOf hbr.width_le hvn.2.2 hsr)
  have hd : (c.fill (.node d (.page a l₀) (.page b r₀))).diffs.getD c.slot 0 = d := by
    have hlenD := Ctx.length_leftDiffs c
    rw [Ctx.diffs_fill, List.append_assoc, List.getD_eq_getElem?_getD,
      List.getElem?_append_right (by omega), hlenD, Nat.sub_self]
    rfl
  have hreps : (pageOf l).repList ++ (pageOf r).repList
      = (PagedTree.node d l r : Tree).items.map repOf := by
    rw [repList_pageOf hal.width_le, repList_pageOf hbr.width_le, items, List.map_append]
  -- the left child
  obtain ⟨ns₁, hrun₁, hlen₁, hp₁⟩ := writeNodeWithDiffs_eq _ _ _ (t := .node d l r) hal.page_eq hw hvn hsn
    ⟨hstl, hstr⟩ (fun h => han (List.mem_append_left _ h))
  have hchild₁ : PageAt ns₁.page? a (.node d l r) := by
    rw [hp₁]
    exact pageAt_update_self hw hal.id_lt
  have hvp : (c.fill (.page a (.node d l r))).Valid :=
    Valid.fill_congr (u := .page a (.node d l r)) hv hvn (fun e he => ⟨e, he, rfl⟩)
  have hsp : Sized (c.fill (.page a (.node d l r))) := by
    refine hs.of_subset (fun e he => ?_)
    rw [mem_entries_fill] at he ⊢
    exact he
  have hst₁ : Stored ns₁.page? (c.fill (.page a (.node d l r))) := by
    refine (Ctx.allPages_fill c _).mpr ⟨⟨hchild₁, ?_⟩, ?_⟩
    · rw [hp₁]
      exact Stored.update (t := .node d l r) ⟨hstl, hstr⟩ (fun h => han (List.mem_append_left _ h))
    · rw [hp₁]
      exact AllRest.update hrest (fun h => han (List.mem_append_right _ h))
  -- the parent
  obtain ⟨ns₂, hrun₂, hlen₂, hp₂⟩ := removeMergedParentRep_eq { ix with nodes := ns₁ }
    (by show ns₁.page? id = _; rw [hp₁, update_ne hida]; exact hpage) hw₀ hv₀ hs₀ hvp hsp hst₁
    (fun h => (hsub id h).elim hida hidn)
  -- the right child
  obtain ⟨ns₃, hrun₃, hlen₃, hp₃⟩ := freeNode_run { ix with nodes := ns₂ } hroot
    (by
      show ns₂.page? b = _
      rw [hp₂, update_ne (Ne.symm hidb)]
      show ns₁.page? b = _
      rw [hp₁, update_ne (Ne.symm hab)]
      exact hbr.page_eq)
  refine ⟨ns₃, ?_, hlen₃.trans (hlen₂.trans hlen₁), ⟨?_, ?_, ?_, ?_⟩⟩
  · rw [mergeSiblings, Prog.bind_ok (derefNode_run hpage), pageOf_size,
      Prog.bind_ok (ofOutcome_run hold), Prog.bind_ok (ofOutcome_run hld),
      Prog.bind_ok (ofOutcome_run hrd), hreps, hd]
    rw [show l.diffs ++ d :: r.diffs = (PagedTree.node d l r : Tree).diffs from rfl,
      Prog.bind_ok hrun₁, Prog.bind_ok hrun₂]
    exact hrun₃
  · rw [hp₃]
    refine PageAt.update ?_ hidb
    show PageAt ns₂.page? id _
    rw [hp₂]
    exact pageAt_update_self (by omega) hid
  · rw [hp₃]
    refine PageAt.update ?_ hab
    show PageAt ns₂.page? a _
    rw [hp₂]
    exact PageAt.update hchild₁ (Ne.symm hida)
  · rw [hp₃, Function.update_self]
  · intro x h1 h2 h3
    rw [hp₃, update_ne h3]
    show ns₂.page? x = _
    rw [hp₂, update_ne h1]
    show ns₁.page? x = _
    rw [hp₁, update_ne h2]

end Siblings

end MinweightStore.Minpatricia
