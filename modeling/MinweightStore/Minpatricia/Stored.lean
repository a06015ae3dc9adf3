import MinweightStore.Base.PagedPath
import MinweightStore.Minpatricia.Index

/-!
# Trees stored in pages

What the pages of an index mean: page `i` stores the tree `t` when it is `pageOf t`, and a tree is
stored when every page boundary below it is.

* `minPos_eq`, `maxPos_eq`, `buildDiffs_eq` — the reads through a rep give the outermost entries
  below it and the branch positions between neighbours;
* `repAt_slot` — the rep a lookup ends at;
* `pageOf_fill` — how a page depends on what is below one of its child reps;
* `propagateBoundary_eq` — new boundaries travel up the path as far as they have to.
-/

namespace MinweightStore.Minpatricia

open BitKey PagedTree

/-- The pages of a store by their numbers. -/
abbrev Pages := UInt64 → Option NodePage

/-- A path of pages, the innermost first. -/
abbrev TreePath := Path ByteView Position UInt64

/-- Page `i` stores the tree `t`. -/
structure PageAt (pages : Pages) (i : UInt64) (t : Tree) : Prop where
  page_eq : pages i = some (pageOf t)
  width_le : t.width ≤ kMaxNodeReps
  id_lt : i.toNat < 2 ^ 63

/-- Every page boundary in the tree is stored. -/
abbrev Stored (pages : Pages) (t : Tree) : Prop := AllPages (PageAt pages) t

/-- Keys have an admitted size and positions no tag. -/
def Sized (t : Tree) : Prop :=
  ∀ e ∈ t.entries, e.1.length ≤ kMaxKeySize ∧ e.2.toNat < 2 ^ 63

/-- The record store knows the key of every stored position. -/
def Knows (records : Position → Result ByteView) (t : Tree) : Prop :=
  ∀ e ∈ t.entries, records e.2 = .ok e.1

theorem Sized.of_subset {s t : Tree} (h : Sized t) (hsub : ∀ e ∈ s.entries, e ∈ t.entries) :
    Sized s := fun e he => h e (hsub e he)

theorem Knows.of_subset {records : Position → Result ByteView} {s t : Tree} (h : Knows records t)
    (hsub : ∀ e ∈ s.entries, e ∈ t.entries) : Knows records s := fun e he => h e (hsub e he)

theorem mem_entries_of_mem_items {t x : Tree} (hx : x ∈ t.items) :
    ∀ e ∈ x.entries, e ∈ t.entries := by
  intro e he
  rw [← flatMap_items]
  exact List.mem_flatMap.mpr ⟨x, hx, he⟩

/-- The first difference of two keys of admitted size fits 16 bits. -/
theorem diffAt_lt {d : ℕ} {a b : ByteView} (ha : a.length ≤ kMaxKeySize)
    (hb : b.length ≤ kMaxKeySize) (h : DiffAt d a b) : d < 2 ^ 16 := by
  rw [h.unique (diffAt_firstDiff h.lt)]
  exact firstDiff_lt ha hb (ne_of_lt h.lt)

theorem smallDiffs {t : Tree} (hv : t.Valid) (hs : Sized t) : SmallDiffs t := by
  intro d hd
  obtain ⟨a, ha, b, hb, hab⟩ := hv.exists_of_mem_diffs hd
  exact diffAt_lt (hs a ha).1 (hs b hb).1 hab

theorem hasRoutes_pageOf {t : Tree} (hw : t.width ≤ kMaxNodeReps) (hv : t.Valid) (hs : Sized t) :
    HasRoutes (pageOf t) t := ⟨rfl, rfl, hw, smallDiffs hv hs⟩

/-! ### Reps -/

@[simp] theorem pageOf_size (t : Tree) : (pageOf t).size = t.width := rfl

@[simp] theorem pageOf_firstPos (t : Tree) : (pageOf t).firstPos = t.first := rfl

@[simp] theorem pageOf_lastPos (t : Tree) : (pageOf t).lastPos = t.last := rfl

theorem pageOf_reps (t : Tree) : (pageOf t).reps = repTable t.items := rfl

theorem pageOf_routes (t : Tree) : (pageOf t).routes = routeTable t.preorder := rfl

theorem repList_of_repTable {page : NodePage} {t : Tree} (hsize : page.size = t.width)
    (hreps : page.reps = repTable t.items) (hw : t.width ≤ kMaxNodeReps) :
    page.repList = t.items.map repOf := by
  have hlen := length_items t
  rw [NodePage.repList, hsize, hreps]
  apply List.ext_getElem?
  intro i
  by_cases hi : i < t.width
  · rw [List.getElem?_take_of_lt hi, Vector.getElem?_toList, repTable, pad_get (by omega),
      List.getD_eq_getElem?_getD, List.getElem?_map, List.getElem?_eq_getElem (by omega)]
    rfl
  · rw [List.getElem?_eq_none (by rw [List.length_take]; omega),
      List.getElem?_eq_none (by rw [List.length_map]; omega)]

theorem repList_pageOf {t : Tree} (hw : t.width ≤ kMaxNodeReps) :
    (pageOf t).repList = t.items.map repOf := repList_of_repTable (pageOf_size t) (pageOf_reps t) hw

theorem repAt_items {page : NodePage} {l : List Tree} (hreps : page.reps = repTable l) {i : ℕ}
    {x : Tree} (hx : l[i]? = some x) (hi : i < kMaxNodeReps) : page.repAt i = .ok (repOf x) := by
  rw [NodePage.repAt, hreps, repTable, pad_get hi, List.getD_eq_getElem?_getD, List.getElem?_map, hx]
  rfl

theorem items_slot {c : TreeCtx} {x : Tree} (hx : x.IsItem) :
    (c.fill x).items[c.slot]? = some x := by
  rw [Ctx.items_fill, List.append_assoc, List.getElem?_append_right (by exact le_refl _),
    items_of_isItem hx]
  simp [Ctx.slot]

theorem slot_lt_width (c : TreeCtx) (x : Tree) : c.slot < (c.fill x).width := by
  have := width_pos x
  rw [Ctx.width_fill]
  omega

/-- The rep at the hole of a page. -/
theorem repAt_slot {c : TreeCtx} {x : Tree} (hx : x.IsItem)
    (hw : (c.fill x).width ≤ kMaxNodeReps) : (pageOf (c.fill x)).repAt c.slot = .ok (repOf x) :=
  repAt_items (pageOf_reps _) (items_slot hx) (lt_of_lt_of_le (slot_lt_width c x) hw)

theorem repOf_leaf {k : ByteView} {p : Position} (hp : p.toNat < 2 ^ 63) :
    (repOf (.leaf k p)).isChild = false ∧ (repOf (.leaf k p)).position = p := Rep.record_spec hp

theorem repOf_page {i : UInt64} {t : Tree} (hi : i.toNat < 2 ^ 63) :
    (repOf (.page i t)).isChild = true ∧ (repOf (.page i t)).childId = i := Rep.child_spec hi

/-! ### Reads through a rep -/

section Read

variable {records : Position → Result ByteView} {ns : HeapNodeStore}

variable (ns) in
theorem minPos_eq {x : Tree} (hx : x.IsItem) (hst : Stored ns.page? x) (hs : Sized x) :
    minPos ns (repOf x) = .ok x.first := by
  cases x with
  | leaf k p =>
    obtain ⟨h1, h2⟩ := repOf_leaf (k := k) (hs (k, p) (List.mem_singleton_self _)).2
    rw [minPos, h1, h2]
    rfl
  | page i t =>
    obtain ⟨h1, h2⟩ := repOf_page (t := t) hst.1.id_lt
    have ht := width_pos t
    rw [minPos, h1, h2, if_pos rfl, HeapNodeStore.get_eq hst.1.page_eq]
    simp only [bind, Except.bind]
    rw [if_neg (by show ¬ t.width = 0; omega)]
    rfl
  | node d l r => exact hx.elim

variable (ns) in
theorem maxPos_eq {x : Tree} (hx : x.IsItem) (hst : Stored ns.page? x) (hs : Sized x) :
    maxPos ns (repOf x) = .ok x.last := by
  cases x with
  | leaf k p =>
    obtain ⟨h1, h2⟩ := repOf_leaf (k := k) (hs (k, p) (List.mem_singleton_self _)).2
    rw [maxPos, h1, h2]
    rfl
  | page i t =>
    obtain ⟨h1, h2⟩ := repOf_page (t := t) hst.1.id_lt
    have ht := width_pos t
    rw [maxPos, h1, h2, if_pos rfl, HeapNodeStore.get_eq hst.1.page_eq]
    simp only [bind, Except.bind]
    rw [if_neg (by show ¬ t.width = 0; omega)]
    rfl
  | node d l r => exact hx.elim

theorem recordKey_eq {t : Tree} (hk : Knows records t) (hs : Sized t) {e : ByteView × Position}
    (he : e ∈ t.entries) : recordKey records e.2 = .ok e.1 := by
  rw [recordKey, hk e he]
  simp only [bind, Except.bind, checkKeySize_ok (hs e he).1]

/-- What a rep of a list is read with: it is an item, stored and sized. -/
structure Readable (pages : Pages) (x : Tree) : Prop where
  item : x.IsItem
  stored : Stored pages x
  sized : Sized x

/-- The record store knows the two keys on both sides of a boundary between items. -/
def Meets (records : Position → Result ByteView) (x y : Tree) : Prop :=
  records x.last = .ok x.lastKey ∧ records y.first = .ok y.firstKey

theorem recordKey_ok {key : ByteView} {pos : Position} (hr : records pos = .ok key)
    (hs : key.length ≤ kMaxKeySize) : recordKey records pos = .ok key := by
  rw [recordKey, hr]
  simp only [bind, Except.bind, checkKeySize_ok hs]

theorem recordKey_err {code : StatusCode} {pos : Position} (hr : records pos = err code) :
    recordKey records pos = err code := by
  rw [recordKey, hr]
  rfl

theorem diffBetweenReps_eq {x y : Tree} {d : ℕ} (hx : Readable ns.page? x)
    (hy : Readable ns.page? y) (hd : DiffAt d x.lastKey y.firstKey) (hk : Meets records x y) :
    diffBetweenReps records ns (repOf x) (repOf y) = .ok d := by
  have hkx := recordKey_ok hk.1 (hx.sized _ x.last_mem).1
  have hky := recordKey_ok hk.2 (hy.sized _ y.first_mem).1
  have hcmp := compareAndDiffBit_eq (hx.sized _ x.last_mem).1 (hy.sized _ y.first_mem).1
  have hlt := hd.lt
  rw [if_neg (ne_of_lt hlt), if_pos hlt, ← hd.unique (diffAt_firstDiff hlt)] at hcmp
  rw [diffBetweenReps, maxPos_eq _ hx.item hx.stored hx.sized]
  simp only [bind, Except.bind, minPos_eq _ hy.item hy.stored hy.sized, hkx, hky, hcmp]
  rfl

/-- **The diffs read from neighbouring reps are the branch positions between them**, when the keys
at the boundaries are known. -/
theorem buildDiffs_eq {l : List Tree} {ds : List ℕ} (h : Adjacent l ds)
    (hl : ∀ x ∈ l, Readable ns.page? x) (hk : l.IsChain (Meets records)) :
    buildDiffs records ns (l.map repOf) = .ok ds := by
  induction h with
  | single x => rfl
  | cons hd hrest ih =>
    rename_i x y ys d ds
    obtain ⟨hxy, hchain⟩ := List.isChain_cons_cons.mp hk
    have hx := hl x List.mem_cons_self
    have hy := hl y (List.mem_cons_of_mem _ List.mem_cons_self)
    have := ih (fun z hz => hl z (List.mem_cons_of_mem _ hz)) hchain
    rw [List.map_cons] at this
    rw [List.map_cons, List.map_cons, buildDiffs, diffBetweenReps_eq hx hy hd hxy]
    simp only [bind, Except.bind, this]

/-- The record store answers with the stored key, or not at all. -/
def KnowsOrFails (records : Position → Result ByteView) (t : Tree) : Prop :=
  ∀ e ∈ t.entries, records e.2 = .ok e.1 ∨ ∃ code, records e.2 = err code

theorem KnowsOrFails.of_subset {s t : Tree} (h : KnowsOrFails records t)
    (hsub : ∀ e ∈ s.entries, e ∈ t.entries) : KnowsOrFails records s := fun e he => h e (hsub e he)

theorem diffBetweenReps_fails {x y : Tree} (hx : Readable ns.page? x) (hy : Readable ns.page? y)
    (hkx : KnowsOrFails records x) (hky : KnowsOrFails records y) (hk : ¬ Meets records x y) :
    ∃ code, diffBetweenReps records ns (repOf x) (repOf y) = err code := by
  have hmax := maxPos_eq ns hx.item hx.stored hx.sized
  have hmin := minPos_eq ns hy.item hy.stored hy.sized
  rcases hkx _ x.last_mem with hlast | ⟨code, hlast⟩
  · rcases hky _ y.first_mem with hfirst | ⟨code, hfirst⟩
    · exact absurd ⟨hlast, hfirst⟩ hk
    · refine ⟨code, ?_⟩
      rw [diffBetweenReps, hmax]
      simp only [bind, Except.bind, hmin, recordKey_ok hlast (hx.sized _ x.last_mem).1,
        recordKey_err hfirst]
      rfl
  · refine ⟨code, ?_⟩
    rw [diffBetweenReps, hmax]
    simp only [bind, Except.bind, hmin, recordKey_err hlast]
    rfl

/-- **When a key at a boundary cannot be read** the whole read fails. -/
theorem buildDiffs_fails {l : List Tree} {ds : List ℕ} (h : Adjacent l ds)
    (hl : ∀ x ∈ l, Readable ns.page? x) (hf : ∀ x ∈ l, KnowsOrFails records x)
    (hk : ¬ l.IsChain (Meets records)) :
    ∃ code, buildDiffs records ns (l.map repOf) = err code := by
  induction h with
  | single x => exact absurd (List.isChain_singleton x) hk
  | cons hd hrest ih =>
    rename_i x y ys d ds
    have hx := hl x List.mem_cons_self
    have hy := hl y (List.mem_cons_of_mem _ List.mem_cons_self)
    have hfx := hf x List.mem_cons_self
    have hfy := hf y (List.mem_cons_of_mem _ List.mem_cons_self)
    by_cases hxy : Meets records x y
    · obtain ⟨code, hcode⟩ := ih (fun z hz => hl z (List.mem_cons_of_mem _ hz))
        (fun z hz => hf z (List.mem_cons_of_mem _ hz))
        (fun hc => hk (List.isChain_cons_cons.mpr ⟨hxy, hc⟩))
      refine ⟨code, ?_⟩
      rw [List.map_cons] at hcode
      rw [List.map_cons, List.map_cons, buildDiffs, diffBetweenReps_eq hx hy hd hxy]
      simp only [bind, Except.bind, hcode]
      rfl
    · obtain ⟨code, hcode⟩ := diffBetweenReps_fails hx hy hfx hfy hxy
      refine ⟨code, ?_⟩
      rw [List.map_cons, List.map_cons, buildDiffs, hcode]
      rfl

theorem readable_of_mem_items {t x : Tree} (hx : x ∈ t.items) (hst : Stored ns.page? t)
    (hs : Sized t) : Readable ns.page? x where
  item := isItem_of_mem_items hx
  stored := (allPages_iff_items t).mp hst x hx
  sized := hs.of_subset (mem_entries_of_mem_items hx)

/-- The keys at the boundaries between the items of a tree are known. -/
def KnowsBetween (records : Position → Result ByteView) (t : Tree) : Prop :=
  t.items.IsChain (Meets records)

theorem Knows.between {t : Tree} (h : Knows records t) : KnowsBetween records t :=
  List.isChain_iff_getElem.mpr fun _ _ =>
    ⟨h _ (mem_entries_of_mem_items (List.getElem_mem _) _ (last_mem _)),
      h _ (mem_entries_of_mem_items (List.getElem_mem _) _ (first_mem _))⟩

/-- What is known between the items of a page is known below a subtree and around it. -/
theorem KnowsBetween.of_fill {c : TreeCtx} {u : Tree} (h : KnowsBetween records (c.fill u)) :
    KnowsBetween records u ∧ ∀ j, KnowsBetween records (c.fill (.page j u)) := by
  rw [KnowsBetween, Ctx.items_fill, List.append_assoc, List.isChain_append] at h
  obtain ⟨hleft, hrest, hcross⟩ := h
  obtain ⟨hu, hright, hcross'⟩ := List.isChain_append.mp hrest
  refine ⟨hu, fun j => ?_⟩
  rw [KnowsBetween, Ctx.items_fill, List.append_assoc, List.isChain_append, items,
    List.singleton_append]
  refine ⟨hleft, List.isChain_cons.mpr ⟨fun y hy => ?_, hright⟩, fun x hx y hy => ?_⟩
  · obtain ⟨z, hz⟩ : ∃ z, u.items.getLast? = some z :=
      ⟨_, List.getLast?_eq_some_getLast (items_ne_nil u)⟩
    obtain ⟨hlk, hl⟩ := lastKey_getLast_items hz
    have hzy := hcross' z hz y hy
    exact ⟨by rw [last, lastKey, ← hl, ← hlk]; exact hzy.1, hzy.2⟩
  · obtain ⟨z, hz⟩ : ∃ z, u.items.head? = some z := ⟨_, List.head?_eq_some_head (items_ne_nil u)⟩
    obtain ⟨hfk, hf⟩ := firstKey_head_items hz
    obtain rfl := Option.some.inj hy
    have hxz := hcross x hx z (List.mem_head?_append_of_mem_head? hz)
    exact ⟨hxz.1, by rw [first, firstKey, ← hf, ← hfk]; exact hxz.2⟩

variable (records ns) in
/-- The diffs of the reps of a tree. -/
theorem buildDiffs_items {t : Tree} (hv : t.Valid) (hst : Stored ns.page? t) (hs : Sized t)
    (hk : KnowsBetween records t) : buildDiffs records ns (t.items.map repOf) = .ok t.diffs :=
  buildDiffs_eq hv.adjacent (fun _ hx => readable_of_mem_items hx hst hs) hk

variable (ns) in
/-- **The diffs of the reps of a tree are read**, or a key at a boundary is not known. -/
theorem buildDiffs_cases {t : Tree} (hv : t.Valid) (hst : Stored ns.page? t) (hs : Sized t)
    (hf : KnowsOrFails records t) :
    (KnowsBetween records t ∧ buildDiffs records ns (t.items.map repOf) = .ok t.diffs) ∨
    (¬ Knows records t ∧ ∃ code, buildDiffs records ns (t.items.map repOf) = err code) := by
  by_cases hk : KnowsBetween records t
  · exact Or.inl ⟨hk, buildDiffs_items records ns hv hst hs hk⟩
  · exact Or.inr ⟨fun hall => hk hall.between, buildDiffs_fails hv.adjacent
      (fun _ hx => readable_of_mem_items hx hst hs)
      (fun x hx => hf.of_subset (mem_entries_of_mem_items hx)) hk⟩

end Read

/-! ### Steps of an index call -/

section Steps

variable {ix : Index}

theorem nodeByID_run {id : UInt64} {page : NodePage} (h : ix.nodes.page? id = some page) :
    nodeByID id ix = .ok page ix := by
  rw [nodeByID, readNodes, HeapNodeStore.get_eq h]
  rfl

theorem derefNode_run {id : UInt64} {page : NodePage} (h : ix.nodes.page? id = some page) :
    derefNode id ix = .ok page ix := by
  rw [derefNode, readNodes, HeapNodeStore.deref_eq h]
  rfl

theorem readNodes_run {α : Type} {f : HeapNodeStore → Result α} {a : α} (h : f ix.nodes = .ok a) :
    readNodes f ix = .ok a ix := by
  rw [readNodes, h]
  rfl

theorem readNodes_err {α : Type} {f : HeapNodeStore → Result α} {code : StatusCode}
    (h : f ix.nodes = err code) : readNodes f ix = .error (.status code) ix := by
  rw [readNodes, h]
  rfl

theorem ofOutcome_run {α : Type} {x : Result α} {a : α} (h : x = .ok a) :
    (Prog.ofOutcome x : IndexM α) ix = .ok a ix := by
  rw [h]
  rfl

variable (ix) in
/-- A write through a live pointer. -/
theorem writePage_run {id : UInt64} {old : NodePage} (page : NodePage)
    (h : ix.nodes.page? id = some old) :
    ∃ ns, writePage id page ix = .ok () { ix with nodes := ns } ∧
      ns.nodes.length = ix.nodes.nodes.length ∧
      ns.page? = Function.update ix.nodes.page? id (some page) := by
  obtain ⟨ns, hw, hlen, hget⟩ := HeapNodeStore.write_spec page h
  refine ⟨ns, by rw [writePage, hw], hlen, ?_⟩
  funext j
  rw [hget j, Function.update_apply]

variable (ix) in
theorem freeNode_run {id : UInt64} {old : NodePage} (hroot : id ≠ HeapNodeStore.root)
    (h : ix.nodes.page? id = some old) :
    ∃ ns, freeNode id ix = .ok () { ix with nodes := ns } ∧
      ns.nodes.length = ix.nodes.nodes.length ∧
      ns.page? = Function.update ix.nodes.page? id none := by
  obtain ⟨ns, hw, hlen, hget⟩ := HeapNodeStore.freePage_spec hroot h
  refine ⟨ns, by rw [freeNode, hw], hlen, ?_⟩
  funext j
  rw [hget j, Function.update_apply]

/-- **What taking a new page can do**: it gives an empty page under a number that was not in use, or
an error with nothing changed. -/
def AllocAt (alloc : IndexM UInt64) (grow : ℕ) (ix : Index) : Prop :=
  (∃ id ns, alloc ix = .ok id { ix with nodes := ns } ∧ ix.nodes.page? id = none ∧
    ns.nodes.length ≤ ix.nodes.nodes.length + grow ∧
    ns.page? = Function.update ix.nodes.page? id (some NodePage.empty)) ∨
  ∃ code, alloc ix = .error (.status code) ix

/-- The heap node store gives a page as long as there are numbers below the tag bit. -/
theorem allocNode_run (ix : Index) :
    (∃ id ns, allocNode ix = .ok id { ix with nodes := ns } ∧ ix.nodes.page? id = none ∧
      ns.nodes.length ≤ ix.nodes.nodes.length + 1 ∧
      ns.page? = Function.update ix.nodes.page? id (some NodePage.empty)) ∨
    (allocNode ix = .error (.status .positionTag) ix ∧ ix.nodes.nodes.length = 2 ^ 63) := by
  rcases HeapNodeStore.alloc_cases ix.nodes with ⟨id, ns, ha, hnone, _, hlen, hget⟩ | ⟨ha, hlen⟩
  · left
    refine ⟨id, ns, by rw [allocNode, ha], hnone, hlen, ?_⟩
    funext j
    rw [hget j, Function.update_apply]
  · right
    exact ⟨by rw [allocNode, ha]; rfl, hlen⟩

theorem allocAt_allocNode (ix : Index) : AllocAt allocNode 1 ix :=
  (allocNode_run ix).imp_right fun h => ⟨_, h.1⟩

end Steps

/-- Pages that are not written keep their trees. -/
theorem PageAt.update {pages : Pages} {i j : UInt64} {t : Tree} {x : Option NodePage}
    (h : PageAt pages i t) (hne : i ≠ j) : PageAt (Function.update pages j x) i t :=
  ⟨by rw [Function.update_of_ne hne]; exact h.page_eq, h.width_le, h.id_lt⟩

theorem Stored.update {pages : Pages} {j : UInt64} {t : Tree} {x : Option NodePage}
    (h : Stored pages t) (hne : j ∉ t.ids) : Stored (Function.update pages j x) t :=
  AllPages.congr t (fun _ hi _ hs => hs.update (fun hij => hne (hij ▸ hi))) h

theorem AllRest.update {pages : Pages} {j : UInt64} {c : TreeCtx} {x : Option NodePage}
    (h : c.AllRest (PageAt pages)) (hne : j ∉ c.leftIds ++ c.rightIds) :
    c.AllRest (PageAt (Function.update pages j x)) :=
  Ctx.AllRest.congr (fun _ hi _ hs => hs.update (fun hij => hne (hij ▸ hi))) h

theorem levels_update {pages : Pages} {j : UInt64} {x : Option NodePage} :
    ∀ {z : TreePath} {t : Tree}, z.Levels (PageAt pages) t → j ∉ z.map Prod.snd →
      z.Levels (PageAt (Function.update pages j x)) t
  | [], _, _, _ => trivial
  | (_, _) :: _, _, h, hne =>
    ⟨h.1.update (fun hij => hne (hij ▸ List.mem_cons_self)),
      levels_update h.2 (fun hj => hne (List.mem_cons_of_mem _ hj))⟩

/-- A page that has just been written. -/
theorem pageAt_update_self {pages : Pages} {i : UInt64} {t : Tree} (hw : t.width ≤ kMaxNodeReps)
    (hi : i.toNat < 2 ^ 63) : PageAt (Function.update pages i (some (pageOf t))) i t :=
  ⟨Function.update_self _ _ _, hw, hi⟩

/-! ### Boundaries -/

/-- **A page depends on what is below a child rep only through its two outermost positions.** -/
theorem pageOf_fill (c : TreeCtx) (i : UInt64) (s s' : Tree) :
    pageOf (c.fill (.page i s')) = { pageOf (c.fill (.page i s)) with
      firstPos := (c.fill (.page i s')).first
      lastPos := (c.fill (.page i s')).last } := by
  have hpre : (c.fill (.page i s')).preorder = (c.fill (.page i s)).preorder := by
    rw [Ctx.preorder_fill, Ctx.preorder_fill]
    rfl
  have hitems : repTable (c.fill (.page i s')).items = repTable (c.fill (.page i s)).items := by
    rw [Ctx.items_fill, Ctx.items_fill, repTable, repTable]
    simp only [List.map_append, items, List.map_cons, repOf]
  have hw : (c.fill (.page i s')).width = (c.fill (.page i s)).width := by
    rw [Ctx.width_fill, Ctx.width_fill]
    rfl
  simp only [pageOf, hpre, hitems, hw]

theorem width_fill_page (c : TreeCtx) (i : UInt64) (s s' : Tree) :
    (c.fill (.page i s')).width = (c.fill (.page i s)).width := by
  rw [Ctx.width_fill, Ctx.width_fill]
  rfl

/-- Nothing is to the left of the hole exactly at slot zero. -/
theorem leftEntries_nil {c : TreeCtx} : c.leftEntries = [] ↔ c.slot = 0 := by
  rw [Ctx.leftEntries, Ctx.slot, List.length_eq_zero_iff, List.flatMap_eq_nil_iff]
  constructor
  · intro h
    cases hl : c.leftItems with
    | nil => rfl
    | cons x xs => exact absurd (h x (hl ▸ List.mem_cons_self)) x.entries_ne_nil
  · intro h x hx
    rw [h] at hx
    exact absurd hx List.not_mem_nil

theorem rightEntries_nil {c : TreeCtx} : c.rightEntries = [] ↔ c.rightItems = [] := by
  rw [Ctx.rightEntries, List.flatMap_eq_nil_iff]
  constructor
  · intro h
    cases hl : c.rightItems with
    | nil => rfl
    | cons x xs => exact absurd (h x (hl ▸ List.mem_cons_self)) x.entries_ne_nil
  · intro h x hx
    rw [h] at hx
    exact absurd hx List.not_mem_nil

/-- The leftmost position of a page is that of its hole exactly when the hole is its first slot. -/
theorem first_fill_eq (c : TreeCtx) (x : Tree) :
    (c.slot = 0 ∧ (c.fill x).first = x.first) ∨
    (c.slot ≠ 0 ∧ ∀ y, (c.fill y).first = (c.fill x).first) := by
  by_cases h : c.slot = 0
  · left
    refine ⟨h, ?_⟩
    rw [Ctx.first_fill, leftEntries_nil.mpr h]
    rfl
  · right
    refine ⟨h, fun y => ?_⟩
    obtain ⟨e, he⟩ := List.exists_mem_of_ne_nil _ (fun hn => h (leftEntries_nil.mp hn))
    rw [Ctx.first_fill, Ctx.first_fill]
    cases hl : c.leftEntries with
    | nil => rw [hl] at he; exact absurd he List.not_mem_nil
    | cons a as => rfl

theorem last_fill_eq (c : TreeCtx) (x : Tree) (hx : x.IsItem) :
    (c.slot = (c.fill x).width - 1 ∧ (c.fill x).last = x.last) ∨
    (c.slot ≠ (c.fill x).width - 1 ∧ ∀ y, (c.fill y).last = (c.fill x).last) := by
  have hw := Ctx.width_fill c x
  rw [width_eq_one_of_isItem hx] at hw
  by_cases h : c.rightItems = []
  · left
    rw [h, List.length_nil] at hw
    refine ⟨by omega, ?_⟩
    rw [Ctx.last_fill, rightEntries_nil.mpr h]
    rfl
  · right
    have hpos : 0 < c.rightItems.length := List.length_pos_iff.mpr h
    refine ⟨by omega, fun y => ?_⟩
    have hne : c.rightEntries ≠ [] := fun hn => h (rightEntries_nil.mp hn)
    rw [Ctx.last_fill, Ctx.last_fill, List.getLast?_eq_some_getLast hne]
    rfl

/-- The frames of a path, the innermost first. -/
def framesOf (z : TreePath) : List PutFrame := z.map fun ci => ⟨ci.2, ci.1.slot⟩

theorem levels_congr {pages : Pages} : ∀ {z : TreePath} {i : UInt64} {s s' : Tree},
    s'.first = s.first → s'.last = s.last → z.Levels (PageAt pages) (.page i s) →
    z.Levels (PageAt pages) (.page i s')
  | [], _, _, _, _, _, _ => trivial
  | (c, j) :: z, i, s, s', hf, hl, h => by
    have hf' : (c.fill (.page i s')).first = (c.fill (.page i s)).first := by
      rw [Ctx.first_fill, Ctx.first_fill, PagedTree.first, PagedTree.first, hf]
    have hl' : (c.fill (.page i s')).last = (c.fill (.page i s)).last := by
      rw [Ctx.last_fill, Ctx.last_fill, PagedTree.last, PagedTree.last, hl]
    refine ⟨⟨?_, ?_, h.1.id_lt⟩, levels_congr hf' hl' h.2⟩
    · rw [pageOf_fill c i s s', hf', hl']
      exact h.1.page_eq
    · rw [width_fill_page c i s s']
      exact h.1.width_le

/-- **New boundaries travel up the path.**  With the changed page written and the pages above it
still those of the old subtree, the loop leaves the pages of the new one. -/
theorem propagateLoop_eq : ∀ (z : TreePath) (child : UInt64) (s s' : Tree) (ix : Index),
    PageAt ix.nodes.page? child s' → z.Levels (PageAt ix.nodes.page?) (.page child s) →
    (child :: z.map Prod.snd).Nodup →
    ∃ ns, propagateLoop child (s'.first ≠ s.first) (s'.last ≠ s.last) (framesOf z) ix
        = .ok () { ix with nodes := ns } ∧
      ns.nodes.length = ix.nodes.nodes.length ∧
      (∀ j, j ∉ z.map Prod.snd → ns.page? j = ix.nodes.page? j) ∧
      z.Levels (PageAt ns.page?) (.page child s')
  | [], child, s, s', ix, _, _, _ => ⟨ix.nodes, rfl, rfl, fun _ _ => rfl, trivial⟩
  | (c, i) :: z, child, s, s', ix, hchild, hlev, hnd => by
    obtain ⟨hparent, hlev'⟩ := hlev
    rw [List.map_cons] at hnd
    obtain ⟨hci, hnd'⟩ := List.nodup_cons.mp hnd
    have hslot := slot_lt_width c (.page child s)
    have hrep : (pageOf (c.fill (.page child s))).repAt c.slot
        = .ok (repOf (.page child s)) := repAt_slot (by exact trivial) hparent.width_le
    obtain ⟨hisc, hcid⟩ := repOf_page (t := s) hchild.id_lt
    -- the boundaries the code computes are those of the page with the new subtree
    have hfirst : (if decide (s'.first ≠ s.first) = true ∧ c.slot = 0 then s'.first
        else (c.fill (.page child s)).first) = (c.fill (.page child s')).first := by
      rcases first_fill_eq c (.page child s) with ⟨h0, hx⟩ | ⟨h0, hx⟩
      · rcases first_fill_eq c (.page child s') with ⟨_, hy⟩ | ⟨h0', _⟩
        · rw [hx, hy]
          by_cases he : s'.first = s.first
          · rw [if_neg (by simp [he])]
            exact he.symm
          · rw [if_pos ⟨by simpa using he, h0⟩]
            rfl
        · exact absurd h0 h0'
      · rw [if_neg (fun h => h0 h.2)]
        exact (hx _).symm
    have hlast : (if decide (s'.last ≠ s.last) = true
        ∧ c.slot = (c.fill (.page child s)).width - 1 then s'.last
        else (c.fill (.page child s)).last) = (c.fill (.page child s')).last := by
      rcases last_fill_eq c (.page child s) trivial with ⟨h0, hx⟩ | ⟨h0, hx⟩
      · rcases last_fill_eq c (.page child s') trivial with ⟨_, hy⟩ | ⟨h0', _⟩
        · rw [hx, hy]
          by_cases he : s'.last = s.last
          · rw [if_neg (by simp [he])]
            exact he.symm
          · rw [if_pos ⟨by simpa using he, h0⟩]
            rfl
        · exact absurd (by rw [width_fill_page c child s s']; exact h0) h0'
      · rw [if_neg (fun h => h0 h.2)]
        exact (hx _).symm
    obtain ⟨ns, hwrite, hlen, hpages⟩ := writePage_run ix
      (pageOf (c.fill (.page child s'))) hparent.page_eq
    have hat : PageAt ns.page? i (c.fill (.page child s')) := by
      rw [hpages]
      exact pageAt_update_self (by rw [width_fill_page c child s s']; exact hparent.width_le)
        hparent.id_lt
    have hrest : Path.Levels (PageAt ns.page?) z (.page i (c.fill (.page child s))) := by
      rw [hpages]
      exact levels_update hlev' (List.nodup_cons.mp hnd').1
    have hkeep : ∀ j, j ∉ ((c, i) :: z).map Prod.snd → ns.page? j = ix.nodes.page? j := by
      intro j hj
      rw [hpages, Function.update_of_ne]
      rintro rfl
      exact hj List.mem_cons_self
    have hpage : ({ pageOf (c.fill (.page child s)) with
        firstPos := (c.fill (.page child s')).first
        lastPos := (c.fill (.page child s')).last } : NodePage) = pageOf (c.fill (.page child s')) :=
      (pageOf_fill c child s s').symm
    simp only [pageOf_size] at hpage
    rw [framesOf, List.map_cons, propagateLoop, Prog.bind_ok (nodeByID_run hparent.page_eq),
      Prog.bind_ok (derefNode_run hchild.page_eq), pageOf_size, if_neg (by simp only; omega),
      Prog.bind_ok (ofOutcome_run hrep), hisc, hcid, if_neg (by simp)]
    simp only [pageOf_firstPos, pageOf_lastPos, hfirst, hlast]
    rw [hpage, Prog.bind_ok hwrite]
    by_cases hsame : (c.fill (.page child s')).first = (c.fill (.page child s)).first
        ∧ (c.fill (.page child s')).last = (c.fill (.page child s)).last
    · rw [if_pos hsame]
      exact ⟨ns, rfl, hlen, hkeep, hat, levels_congr hsame.1 hsame.2 hrest⟩
    · rw [if_neg hsame]
      obtain ⟨ns', hrun, hlen', hkeep', hlev''⟩ := propagateLoop_eq z i
        (c.fill (.page child s)) (c.fill (.page child s')) { ix with nodes := ns } hat hrest hnd'
      refine ⟨ns', hrun, hlen'.trans hlen, fun j hj => ?_, ⟨?_, hat.width_le, hat.id_lt⟩, hlev''⟩
      · rw [hkeep' j (fun h => hj (List.mem_cons_of_mem _ h)), hkeep j hj]
      · rw [hkeep' i (List.nodup_cons.mp hnd').1]
        exact hat.page_eq

/-- **`PropagateBoundary`** at a page of the path. -/
theorem propagateBoundary_eq {frames : List PutFrame} {changed leaf : ℕ} {z : TreePath}
    {id : UInt64} {s s' : Tree} {ix : Index} (hframe : frames[changed]? = some ⟨id, leaf⟩)
    (hz : (frames.take changed).reverse = framesOf z) (hpage : PageAt ix.nodes.page? id s')
    (hlev : z.Levels (PageAt ix.nodes.page?) (.page id s)) (hnd : (id :: z.map Prod.snd).Nodup) :
    ∃ ns, propagateBoundary frames changed s.first s.last ix = .ok () { ix with nodes := ns } ∧
      ns.nodes.length = ix.nodes.nodes.length ∧
      (∀ j, j ∉ z.map Prod.snd → ns.page? j = ix.nodes.page? j) ∧
      z.Levels (PageAt ns.page?) (.page id s') := by
  have hat : frameAt frames changed = .ok ⟨id, leaf⟩ := by rw [frameAt, hframe]
  rw [propagateBoundary, Prog.bind_ok (ofOutcome_run hat), Prog.bind_ok (nodeByID_run hpage.page_eq)]
  by_cases hsame : (pageOf s').firstPos = s.first ∧ (pageOf s').lastPos = s.last
  · rw [if_pos hsame]
    exact ⟨ix.nodes, rfl, rfl, fun _ _ => rfl, levels_congr hsame.1 hsame.2 hlev⟩
  · rw [if_neg hsame, hz]
    exact propagateLoop_eq z id s s' ix hpage hlev hnd

end MinweightStore.Minpatricia
