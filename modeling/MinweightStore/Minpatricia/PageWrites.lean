import MinweightStore.Minpatricia.Stored

/-!
# Writing the page of a tree

The functions that write whole pages leave exactly `pageOf` of the tree whose items they were
given, and touch nothing else.

* `WritesPage` — a call that writes one page and returns;
* `rebuildNodeWithDiffs_eq`, `rebuildNode_eq` — the two rebuilds, from given diffs and from the
  keys;
* `writeNodeWithDiffs_eq`, `writeNode_eq` — a list of reps written into a page.
-/

namespace MinweightStore.Minpatricia

open BitKey PagedTree

/-- The call returns and has replaced one page. -/
def WritesPage (m : IndexM Unit) (ix : Index) (id : UInt64) (page : NodePage) : Prop :=
  ∃ ns, m ix = .ok () { ix with nodes := ns } ∧ ns.nodes.length = ix.nodes.nodes.length ∧
    ns.page? = Function.update ix.nodes.page? id (some page)

theorem writesPage_writePage {ix : Index} {id : UInt64} {old : NodePage} (page : NodePage)
    (h : ix.nodes.page? id = some old) : WritesPage (writePage id page) ix id page :=
  writePage_run _ page h

/-- A second write to the same page hides the first one. -/
theorem WritesPage.bind {m k : IndexM Unit} {ix : Index} {id : UInt64} {page page' : NodePage}
    (h : WritesPage m ix id page)
    (hk : ∀ ns : HeapNodeStore, ns.page? = Function.update ix.nodes.page? id (some page) →
      WritesPage k { ix with nodes := ns } id page') :
    WritesPage (m >>= fun _ => k) ix id page' := by
  obtain ⟨ns, hrun, hlen, hpages⟩ := h
  obtain ⟨ns', hrun', hlen', hpages'⟩ := hk ns hpages
  refine ⟨ns', by rw [Prog.bind_ok hrun]; exact hrun', hlen'.trans hlen, ?_⟩
  rw [hpages']
  show Function.update ns.page? id _ = _
  rw [hpages, Function.update_idem]

section Rebuild

variable {ix : Index} {id : UInt64} {node : NodePage} {t : Tree}

/-- The reps of the page are those of the tree. -/
structure HasItems (page : NodePage) (t : Tree) : Prop where
  size_eq : page.size = t.width
  reps_eq : page.reps = repTable t.items

theorem head_items (t : Tree) : ∃ x, t.items[0]? = some x ∧ x ∈ t.items ∧ x.first = t.first := by
  obtain ⟨x, hx⟩ : ∃ x, t.items.head? = some x := ⟨_, List.head?_eq_some_head (items_ne_nil t)⟩
  refine ⟨x, ?_, List.mem_of_mem_head? hx, (firstKey_head_items hx).2⟩
  rw [← List.head?_eq_getElem?]
  exact hx

theorem last_items (t : Tree) :
    ∃ x, t.items[t.width - 1]? = some x ∧ x ∈ t.items ∧ x.last = t.last := by
  obtain ⟨x, hx⟩ : ∃ x, t.items.getLast? = some x :=
    ⟨_, List.getLast?_eq_some_getLast (items_ne_nil t)⟩
  refine ⟨x, ?_, List.mem_of_getLast? hx, (lastKey_getLast_items hx).2⟩
  rw [← length_items, ← List.getLast?_eq_getElem?]
  exact hx

theorem rebuildBoundary_eq (hpage : ix.nodes.page? id = some node) (hitems : HasItems node t)
    (hw : t.width ≤ kMaxNodeReps) (hst : Stored ix.nodes.page? t) (hs : Sized t) :
    WritesPage (rebuildBoundary id node) ix id
      { node with firstPos := t.first, lastPos := t.last } := by
  have ht := width_pos t
  obtain ⟨x, hx, hxm, hxf⟩ := head_items t
  obtain ⟨y, hy, hym, hyl⟩ := last_items t
  have hrx := repAt_items hitems.reps_eq hx (by omega)
  have hry := repAt_items hitems.reps_eq hy (by omega)
  have hmin := minPos_eq ix.nodes (isItem_of_mem_items hxm)
    ((allPages_iff_items t).mp hst x hxm) (hs.of_subset (mem_entries_of_mem_items hxm))
  have hmax := maxPos_eq ix.nodes (isItem_of_mem_items hym)
    ((allPages_iff_items t).mp hst y hym) (hs.of_subset (mem_entries_of_mem_items hym))
  rw [hxf] at hmin
  rw [hyl] at hmax
  unfold WritesPage rebuildBoundary
  rw [hitems.size_eq, Prog.bind_ok (ofOutcome_run hrx), Prog.bind_ok (readNodes_run hmin),
    Prog.bind_ok (ofOutcome_run hry), Prog.bind_ok (readNodes_run hmax), ← hitems.size_eq]
  exact writesPage_writePage _ hpage

theorem setRoutes_eq (node : NodePage) :
    setRoutes node t.diffs.length (routesOf t)
      = { node with routes := routeTable t.preorder } := by
  have hd := length_diffs t
  have hp := length_preorder t
  have hroutes : (setRoutes node t.diffs.length (routesOf t)).routes = routeTable t.preorder := by
    apply pad_ext
    intro i hi
    simp only [setRoutes, Vector.getElem_ofFn]
    by_cases h : i < t.diffs.length
    · rw [if_pos h, List.getD_eq_getElem?_getD, List.getD_eq_getElem?_getD, routesOf,
        List.getElem?_eq_getElem (by rw [List.length_map]; omega)]
      rfl
    · rw [if_neg h, List.getD_eq_getElem?_getD,
        List.getElem?_eq_none (by rw [List.length_map]; omega)]
      rfl
  rw [← hroutes]
  rfl

theorem rebuildRoutesWithDiffs_eq (hpage : ix.nodes.page? id = some node)
    (hsize : node.size = t.width) (hw : t.width ≤ kMaxNodeReps) (h2 : 2 ≤ t.width)
    (ho : CartesianOrdered t) :
    WritesPage (rebuildRoutesWithDiffs id t.diffs) ix id
      { node with routes := routeTable t.preorder } := by
  obtain ⟨root, hroot⟩ := exists_rootAt h2 0
  have hcart := buildCartesian_eq ho hroot
  have hpre := writePreorderRoutes_eq (lt_of_le_of_lt hw (by decide)) hroot
  rw [← hsize] at hpre
  unfold WritesPage rebuildRoutesWithDiffs
  rw [Prog.bind_ok (derefNode_run hpage), Prog.bind_ok (ofOutcome_run hcart),
    Prog.bind_ok (ofOutcome_run hpre), setRoutes_eq node]
  exact writesPage_writePage _ hpage

theorem clearRoutes_eq (h1 : t.width = 1) (node : NodePage) :
    clearRoutes node = { node with routes := routeTable t.preorder } := by
  have hp := length_preorder t
  have hnil : t.preorder = [] := List.length_eq_zero_iff.mp (by omega)
  have hroutes : Vector.replicate (kMaxNodeReps - 1) Route.zero = routeTable t.preorder := by
    rw [hnil]
    apply pad_ext
    intro i hi
    rw [Vector.getElem_replicate]
    rfl
  rw [clearRoutes, hroutes]

theorem pageOf_eq (hitems : HasItems node t) :
    { node with firstPos := t.first, lastPos := t.last, routes := routeTable t.preorder }
      = pageOf t := by
  rw [pageOf, ← hitems.size_eq, ← hitems.reps_eq]

/-- The second half of both rebuilds, on a page whose boundary is right. -/
theorem rebuildRoutes_eq (hpage : ix.nodes.page? id
      = some { node with firstPos := t.first, lastPos := t.last })
    (hitems : HasItems node t) (hw : t.width ≤ kMaxNodeReps) (hv : t.Valid) {k : IndexM Unit}
    (hk : 2 ≤ t.width → k ix = rebuildRoutesWithDiffs id t.diffs ix) :
    WritesPage (if node.size = 1 then do
        let node ← derefNode id
        writePage id (clearRoutes node)
      else k) ix id (pageOf t) := by
  have ht := width_pos t
  by_cases h1 : node.size = 1
  · rw [if_pos h1]
    unfold WritesPage
    rw [Prog.bind_ok (derefNode_run hpage), clearRoutes_eq (t := t) (hitems.size_eq ▸ h1),
      ← pageOf_eq hitems]
    exact writesPage_writePage _ hpage
  · rw [if_neg h1]
    have h2 : 2 ≤ t.width := by
      have := hitems.size_eq
      omega
    unfold WritesPage
    rw [hk h2, ← pageOf_eq hitems]
    exact rebuildRoutesWithDiffs_eq hpage hitems.size_eq hw h2 (heapOrdered_of_valid hv).cartesian

variable (ix) in
/-- **`RebuildNodeWithDiffs`** on the items and diffs of a tree. -/
theorem rebuildNodeWithDiffs_eq (hpage : ix.nodes.page? id = some node)
    (hitems : HasItems node t) (hw : t.width ≤ kMaxNodeReps) (hv : t.Valid) (hs : Sized t)
    (hst : Stored ix.nodes.page? t) :
    WritesPage (rebuildNodeWithDiffs id t.diffs) ix id (pageOf t) := by
  have ht := width_pos t
  have hd := length_diffs t
  have hsize := hitems.size_eq
  have hrun : WritesPage (rebuildBoundary id node >>= fun _ =>
      if node.size = 1 then do
        let node ← derefNode id
        writePage id (clearRoutes node)
      else rebuildRoutesWithDiffs id t.diffs) ix id (pageOf t) := by
    refine WritesPage.bind (rebuildBoundary_eq hpage hitems hw hst hs) (fun ns hns => ?_)
    exact rebuildRoutes_eq (by show ns.page? id = _; rw [hns, Function.update_self]) hitems hw hv
      (fun _ => rfl)
  unfold WritesPage rebuildNodeWithDiffs
  rw [Prog.bind_ok (derefNode_run hpage), if_neg (by omega), if_neg (by omega)]
  exact hrun

variable (ix) in
/-- **`RebuildNode`** on the items of a tree, with the diffs read from the keys. -/
theorem rebuildNode_eq {records : Position → Result ByteView}
    (hpage : ix.nodes.page? id = some node)
    (hitems : HasItems node t) (hw : t.width ≤ kMaxNodeReps) (hv : t.Valid) (hs : Sized t)
    (hst : Stored ix.nodes.page? t) (hk : KnowsBetween records t) (hid : id ∉ t.ids) :
    WritesPage (rebuildNode records id) ix id (pageOf t) := by
  have ht := width_pos t
  have hsize := hitems.size_eq
  have hrun : WritesPage (rebuildBoundary id node >>= fun _ =>
      if node.size = 1 then do
        let node ← derefNode id
        writePage id (clearRoutes node)
      else do
        let diffs ← readNodes fun ns => buildDiffs records ns (node.reps.toList.take node.size)
        rebuildRoutesWithDiffs id diffs) ix id (pageOf t) := by
    refine WritesPage.bind (rebuildBoundary_eq hpage hitems hw hst hs) (fun ns hns => ?_)
    refine rebuildRoutes_eq (by show ns.page? id = _; rw [hns, Function.update_self]) hitems hw hv
      (fun _ => ?_)
    have hst' : Stored ns.page? t := by
      rw [hns]
      exact hst.update hid
    have hdiffs := buildDiffs_items _ _ hv hst' hs hk
    rw [← repList_of_repTable hsize hitems.reps_eq hw] at hdiffs
    exact Prog.bind_ok (readNodes_run hdiffs)
  unfold WritesPage rebuildNode
  rw [Prog.bind_ok (derefNode_run hpage), if_neg (by omega)]
  exact hrun

end Rebuild

section Write

variable {ix : Index} {id : UInt64} {old : NodePage} {t : Tree}

theorem hasItems_setReps (node : NodePage) (t : Tree) :
    HasItems (setReps node (t.items.map repOf)) t :=
  ⟨by rw [setReps, List.length_map, length_items], rfl⟩

variable (ix id old) in
/-- **`WriteNodeWithDiffs`** with the items and diffs of a tree. -/
theorem writeNodeWithDiffs_eq (hpage : ix.nodes.page? id = some old) (hw : t.width ≤ kMaxNodeReps)
    (hv : t.Valid) (hs : Sized t) (hst : Stored ix.nodes.page? t) (hid : id ∉ t.ids) :
    WritesPage (writeNodeWithDiffs id (t.items.map repOf) t.diffs) ix id (pageOf t) := by
  have ht := width_pos t
  have hd := length_diffs t
  have hlen : (t.items.map repOf).length = t.width := by rw [List.length_map, length_items]
  have hne : t.items.map repOf ≠ [] := by
    intro h
    rw [h, List.length_nil] at hlen
    omega
  have hcheck : ¬ ((t.items.map repOf = [] ∧ t.diffs ≠ [])
      ∨ (t.items.map repOf ≠ [] ∧ t.diffs.length ≠ (t.items.map repOf).length - 1)) := by
    rintro (⟨h, _⟩ | ⟨_, h⟩)
    · exact hne h
    · omega
  have hrun := WritesPage.bind (k := rebuildNodeWithDiffs id t.diffs)
    (writesPage_writePage (setReps old (t.items.map repOf)) hpage) (fun ns hns =>
      rebuildNodeWithDiffs_eq { ix with nodes := ns }
        (by show ns.page? id = _; rw [hns, Function.update_self]) (hasItems_setReps old t) hw hv hs
        (by show Stored ns.page? t; rw [hns]; exact hst.update hid))
  unfold WritesPage writeNodeWithDiffs
  rw [if_neg (by omega), if_neg hcheck, Prog.bind_ok (nodeByID_run hpage)]
  exact hrun

variable (ix id old) in
/-- **`WriteNode`** with the items of a tree that fits a page. -/
theorem writeNode_eq (alloc : IndexM UInt64) (records : Position → Result ByteView) (fuel : ℕ)
    (hpage : ix.nodes.page? id = some old) (hw : t.width ≤ kMaxNodeReps)
    (hv : t.Valid) (hs : Sized t) (hst : Stored ix.nodes.page? t) (hk : KnowsBetween records t)
    (hid : id ∉ t.ids) :
    WritesPage (writeNode alloc records (fuel + 1) id (t.items.map repOf)) ix id (pageOf t) := by
  have hlen : (t.items.map repOf).length = t.width := by rw [List.length_map, length_items]
  have hrun := WritesPage.bind (k := rebuildNode records id)
    (writesPage_writePage (setReps old (t.items.map repOf)) hpage) (fun ns hns =>
      rebuildNode_eq { ix with nodes := ns }
        (by show ns.page? id = _; rw [hns, Function.update_self]) (hasItems_setReps old t) hw hv hs
        (by show Stored ns.page? t; rw [hns]; exact hst.update hid) hk hid)
  unfold WritesPage writeNode
  rw [if_neg (by omega), writeSmallNode, Prog.bind_ok (nodeByID_run hpage)]
  exact hrun

end Write

end MinweightStore.Minpatricia
