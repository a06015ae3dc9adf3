import MinweightStore.Base.TreePages
import MinweightStore.Minpatricia.KeyPages
import MinweightStore.Minpatricia.Runs

/-!
# The structure of an index

What every page of an index looks like after any updates, said by the pages and the keys alone.

* `repRecords` — the records below a rep, read through the pages; `ReachesPage`, `RefersTo` — the
  graph of the pages;
* `PageOk` — one page, `WellFormed` — all of them;
* `reaches_iff`, `existsUnique_refersTo`, `sum_recordReps` — the graph and the counts;
* `structural_invariant` — every reachable index is well formed.
-/

namespace MinweightStore.Minpatricia

open BitKey PagedTree

/-! ### Reading the pages -/

/-- The positions of the records below a rep, from left to right, with the depth of the walk as
fuel. -/
def repRecords (pages : Pages) : ℕ → Rep → Option (List Position)
  | 0, _ => none
  | fuel + 1, rep =>
    if rep.isChild then do
      let page ← pages rep.childId
      let below ← page.repList.mapM (repRecords pages fuel)
      some below.flatten
    else some [rep.position]

/-- The records below a page, rep by rep. -/
def pageRecords (ns : HeapNodeStore) (page : NodePage) : Option (List (List Position)) :=
  page.repList.mapM (repRecords ns.page? (ns.nodes.length + 1))

/-- The keys of some records. -/
def keysAt (records : RecordStore) (positions : List Position) : Result (List ByteView) :=
  positions.mapM records

/-- The first differing bits between the keys on both sides of each boundary. -/
def boundaryDiffs : List (List ByteView) → Result (List ℕ)
  | left :: right :: rest => do
    let diff ← findDiffBit (left.getLast?.getD []) (right.head?.getD [])
    let diffs ← boundaryDiffs (right :: rest)
    .ok (diff :: diffs)
  | _ => .ok []

/-- The pages that child reps lead to from the root. -/
inductive ReachesPage (ix : Index) : UInt64 → Prop where
  | root : ReachesPage ix ix.rootId
  | child {id : UInt64} {page : NodePage} {rep : Rep} : ReachesPage ix id →
    ix.nodes.page? id = some page → rep ∈ page.repList → rep.isChild → ReachesPage ix rep.childId

/-- The rep at `place` (a page and a slot in it) refers to page `id`. -/
def RefersTo (ns : HeapNodeStore) (place : UInt64 × ℕ) (id : UInt64) : Prop :=
  ∃ page rep, ns.page? place.1 = some page ∧ page.repList[place.2]? = some rep ∧
    rep.isChild ∧ rep.childId = id

/-- The record reps of a page. -/
def recordReps (ns : HeapNodeStore) (id : UInt64) : ℕ :=
  match ns.page? id with
  | some p => p.repList.countP fun rep => !rep.isChild
  | none => 0

/-- The Patricia tree of a map: every branch position is the first difference across the branch,
and no edge is a page boundary. -/
structure PatriciaOf (t : Tree) (m : SortedMap ByteView Position) : Prop where
  valid : t.Valid
  ids_nil : t.ids = []
  entries_eq : t.entries = m.entries

/-- One page, with the records below its reps and their keys. -/
structure PageOk (ix : Index) (records : RecordStore) (m : SortedMap ByteView Position)
    (id : UInt64) (page : NodePage) (below : List (List Position))
    (keys : List (List ByteView)) : Prop where
  size_le : page.size ≤ kMaxNodeReps
  size_pos : id ≠ ix.rootId → 1 ≤ page.size
  below_eq : pageRecords ix.nodes page = some below
  keys_eq : below.mapM (keysAt records) = .ok keys
  sorted : keys.flatten.Pairwise (· < ·)
  -- below a child rep are the keys of one node of the tree of all keys
  child : ∀ (slot : ℕ) (rep : Rep), page.repList[slot]? = some rep → rep.isChild →
    ∃ (t : Tree) (c : TreeCtx) (u : Tree), PatriciaOf t m ∧ t = c.fill u ∧
      keys[slot]? = some (u.entries.map Prod.fst)
  routes : ∃ diffs, boundaryDiffs keys = .ok diffs ∧
    preorderRoutes diffs = .ok (page.routes.toList.take (page.size - 1))
  routes_zero : ∀ i, page.size - 1 ≤ i → i < kMaxNodeReps - 1 →
    page.routes[i]? = some Route.zero
  reps_zero : ∀ i, page.size ≤ i → i < kMaxNodeReps → page.reps[i]? = some Rep.zero
  first_eq : page.firstPos = below.flatten.head?.getD 0
  last_eq : page.lastPos = below.flatten.getLast?.getD 0

/-- **The structural invariant of an index** for the map `m`. -/
structure WellFormed (ix : Index) (records : RecordStore) (m : SortedMap ByteView Position) :
    Prop where
  page_ok : ∀ id page, ReachesPage ix id → ix.nodes.page? id = some page →
    ∃ below keys, PageOk ix records m id page below keys
  root_records : ∃ page below, ix.nodes.page? ix.rootId = some page ∧
    pageRecords ix.nodes page = some below ∧ below.flatten = m.entries.map Prod.snd
  root_ok : ∀ page, ix.nodes.page? ix.rootId = some page → page.size = 1 →
    ∀ rep ∈ page.repList, rep.isChild = false
  live_iff : ∀ id, (ix.nodes.page? id).isSome ↔ ReachesPage ix id
  referenced : ∀ id, ReachesPage ix id → id ≠ ix.rootId →
    ∃! place, RefersTo ix.nodes place id
  root_unreferenced : ∀ place, ¬ RefersTo ix.nodes place ix.rootId
  counts : ∃ ids : List UInt64, ids.Nodup ∧ (∀ id, id ∈ ids ↔ ReachesPage ix id) ∧
    ix.nodes.liveNodes = ids.length ∧ ix.count.toInt = (ids.map (recordReps ix.nodes)).sum

/-! ### The records below -/

/-- A loop over a list whose steps all succeed. -/
theorem mapM_map_pure {m : Type → Type} [Monad m] [LawfulMonad m] {α β γ : Type} (f : α → β)
    {g : β → m γ} (r : α → γ) : ∀ {l : List α}, (∀ x ∈ l, g (f x) = pure (r x)) →
    (l.map f).mapM g = pure (l.map r)
  | [], _ => rfl
  | x :: xs, h => by
    rw [List.map_cons, List.mapM_cons, h x List.mem_cons_self, pure_bind,
      mapM_map_pure f r (fun y hy => h y (List.mem_cons_of_mem x hy)), pure_bind]
    rfl

/-- The positions of the entries of a tree. -/
def positionsOf (t : Tree) : List Position := t.entries.map Prod.snd

/-- The keys of the entries of a tree. -/
def keysOf (t : Tree) : List ByteView := t.entries.map Prod.fst

theorem depth_le_of_mem_items {t x : Tree} (hx : x ∈ t.items) : x.depth ≤ t.depth := by
  induction t with
  | leaf k v => rw [List.mem_singleton.mp hx]
  | page i t ih => rw [List.mem_singleton.mp hx]
  | node d l r ihl ihr =>
    rcases List.mem_append.mp hx with hx | hx
    · exact le_trans (ihl hx) (le_max_left _ _)
    · exact le_trans (ihr hx) (le_max_right _ _)

theorem depth_lt_of_mem_subpages {t : Tree} {p : UInt64 × Tree} (hp : p ∈ t.subpages) :
    p.2.depth < t.depth := by
  induction t with
  | leaf k v => exact absurd hp List.not_mem_nil
  | page i t ih =>
    rcases List.mem_cons.mp hp with rfl | hp
    · exact Nat.lt_succ_self _
    · exact lt_trans (ih hp) (Nat.lt_succ_self _)
  | node d l r ihl ihr =>
    rcases List.mem_append.mp hp with hp | hp
    · exact lt_of_lt_of_le (ihl hp) (le_max_left _ _)
    · exact lt_of_lt_of_le (ihr hp) (le_max_right _ _)

theorem flatten_positionsOf (t : Tree) : (t.items.map positionsOf).flatten = positionsOf t := by
  rw [positionsOf, ← flatMap_items, List.map_flatMap, List.flatMap_def]
  rfl

theorem flatten_keysOf (t : Tree) : (t.items.map keysOf).flatten = keysOf t := by
  rw [keysOf, ← flatMap_items, List.map_flatMap, List.flatMap_def]
  rfl

section Below

variable {pages : Pages}

/-- **The records below a rep are the entries of its tree.** -/
theorem repRecords_eq : ∀ (fuel : ℕ) {x : Tree}, x.IsItem → Stored pages x → Sized x →
    x.depth ≤ fuel → repRecords pages fuel (repOf x) = some (positionsOf x)
  | 0, x, _, _, _, hd => absurd (one_le_depth x) (by omega)
  | fuel + 1, .leaf k p, _, _, hs, _ => by
    obtain ⟨h1, h2⟩ := repOf_leaf (k := k) (hs (k, p) (List.mem_singleton_self _)).2
    rw [repRecords, h1, h2]
    rfl
  | fuel + 1, .page i t, _, hst, hs, hd => by
    obtain ⟨h1, h2⟩ := repOf_page (t := t) hst.1.id_lt
    have hbelow : (t.items.map repOf).mapM (repRecords pages fuel)
        = some (t.items.map positionsOf) := by
      refine mapM_map_pure repOf positionsOf (fun x hx => ?_)
      refine repRecords_eq fuel (isItem_of_mem_items hx) ((allPages_iff_items t).mp hst.2 x hx)
        (Sized.of_subset (s := x) (t := t) hs (mem_entries_of_mem_items hx)) ?_
      have hdepth := depth_le_of_mem_items hx
      have : (PagedTree.page i t).depth = t.depth + 1 := rfl
      omega
    rw [repRecords, h1, h2, if_pos rfl, hst.1.page_eq]
    simp only [bind, Option.bind, repList_pageOf hst.1.width_le, hbelow]
    rw [flatten_positionsOf]
    rfl

/-- The records below the reps of a page. -/
theorem pageRecords_eq {ns : HeapNodeStore} {i : UInt64} {s : Tree} (hst : Stored ns.page? (.page i s))
    (hs : Sized s) (hd : s.depth ≤ ns.nodes.length + 1) :
    pageRecords ns (pageOf s) = some (s.items.map positionsOf) := by
  rw [pageRecords, repList_pageOf hst.1.width_le]
  refine mapM_map_pure repOf positionsOf (fun x hx => ?_)
  exact repRecords_eq _ (isItem_of_mem_items hx) ((allPages_iff_items s).mp hst.2 x hx)
    (hs.of_subset (mem_entries_of_mem_items hx)) (le_trans (depth_le_of_mem_items hx) hd)

theorem keysAt_eq {records : RecordStore} {t : Tree} (hk : Knows records t) :
    keysAt records (positionsOf t) = .ok (keysOf t) :=
  mapM_map_pure Prod.snd Prod.fst (fun e he => hk e he)

/-- **The diffs at the boundaries of the items are the branch positions of the page.** -/
theorem boundaryDiffs_eq {l : List Tree} {ds : List ℕ} (h : Adjacent l ds) :
    (∀ x ∈ l, Sized x) → boundaryDiffs (l.map keysOf) = .ok ds := by
  induction h with
  | single x => intro _; rfl
  | cons hd hrest ih =>
    rename_i x y ys d ds
    intro hs
    have hx := hs x List.mem_cons_self
    have hy := hs y (List.mem_cons_of_mem _ List.mem_cons_self)
    have hrec := ih (fun z hz => hs z (List.mem_cons_of_mem _ hz))
    have hlast : (keysOf x).getLast?.getD [] = x.lastKey := by
      rw [keysOf, List.getLast?_map, getLast_entries]
      rfl
    have hhead : (keysOf y).head?.getD [] = y.firstKey := by
      rw [keysOf, List.head?_map, head_entries]
      rfl
    have hlt := hd.lt
    have hdiff : firstDiff x.lastKey y.firstKey = d := (diffAt_firstDiff hlt).unique hd
    rw [List.map_cons] at hrec
    rw [List.map_cons, List.map_cons, boundaryDiffs, hlast, hhead,
      findDiffBit_eq (hx _ x.last_mem).1 (hy _ y.first_mem).1 (ne_of_lt hlt), hdiff, hrec]
    rfl

end Below

/-! ### The graph of the pages -/

section Graph

variable {ns : HeapNodeStore} {T : Tree}

/-- A child rep of a stored page. -/
theorem child_rep {pages : Pages} {s : Tree} (hst : Stored pages s) (hs : Sized s)
    {slot : ℕ} {rep : Rep} (hrep : (s.items.map repOf)[slot]? = some rep) (hchild : rep.isChild) :
    ∃ u, s.items[slot]? = some (.page rep.childId u) := by
  rw [List.getElem?_map, Option.map_eq_some_iff] at hrep
  obtain ⟨x, hx, rfl⟩ := hrep
  have hmem := List.mem_of_getElem? hx
  cases x with
  | leaf k p =>
    have hp := (hs (k, p) (mem_entries_of_mem_items hmem _ (List.mem_singleton_self _))).2
    rw [(repOf_leaf (k := k) hp).1] at hchild
    exact absurd hchild (by decide)
  | page j u =>
    have hj := ((allPages_iff_items s).mp hst _ hmem).1.id_lt
    exact ⟨u, by rw [hx, (repOf_page (t := u) hj).2]⟩
  | node d l r => exact (isItem_of_mem_items hmem).elim

theorem Holds.pageAt_of_mem (h : Holds ns.page? T) {p : UInt64 × Tree} (hp : p ∈ T.subpages) :
    PageAt ns.page? p.1 p.2 := (allPages_iff_subpages T).mp h.stored p hp

theorem Holds.stored_of_mem (h : Holds ns.page? T) {p : UInt64 × Tree} (hp : p ∈ T.subpages) :
    Stored ns.page? p.2 :=
  (allPages_iff_subpages p.2).mpr (fun q hq => h.pageAt_of_mem (subpages_subset hp q hq))

theorem Holds.sized_of_mem (h : Holds ns.page? T) {p : UInt64 × Tree} (hp : p ∈ T.subpages) :
    Sized p.2 := h.sized.of_subset (mem_entries_of_mem_subpages hp)

/-- The pages in use, with what is below them. -/
theorem Holds.exists_subpage (h : Holds ns.page? T) {id : UInt64} {page : NodePage}
    (hp : ns.page? id = some page) : ∃ s, (id, s) ∈ T.subpages ∧ page = pageOf s := by
  have hid : id ∈ T.ids := (h.alloc id).mp (by rw [hp]; rfl)
  rw [← map_fst_subpages] at hid
  obtain ⟨⟨_, s⟩, hs, rfl⟩ := List.mem_map.mp hid
  exact ⟨s, hs, Option.some.inj (hp.symm.trans (h.pageAt_of_mem hs).page_eq)⟩

/-- A reference is an item of the page it is in. -/
theorem refersTo_iff (h : Holds ns.page? T) {i j : UInt64} {slot : ℕ} :
    RefersTo ns (i, slot) j ↔ ∃ s u, (i, s) ∈ T.subpages ∧ s.items[slot]? = some (.page j u) := by
  constructor
  · rintro ⟨page, rep, hpage, hrep, hchild, rfl⟩
    obtain ⟨s, hs, rfl⟩ := h.exists_subpage hpage
    rw [repList_pageOf (h.pageAt_of_mem hs).width_le] at hrep
    obtain ⟨u, hu⟩ := child_rep (h.stored_of_mem hs) (h.sized_of_mem hs) hrep hchild
    exact ⟨s, u, hs, hu⟩
  · rintro ⟨s, u, hs, hu⟩
    have hst := h.stored_of_mem hs
    have hj := ((allPages_iff_items s).mp hst _ (List.mem_of_getElem? hu)).1.id_lt
    refine ⟨_, _, (h.pageAt_of_mem hs).page_eq, ?_, (repOf_page (t := u) hj).1,
      (repOf_page (t := u) hj).2⟩
    rw [repList_pageOf (h.pageAt_of_mem hs).width_le, List.getElem?_map, hu]
    rfl

theorem mem_childIds {s : Tree} {j : UInt64} :
    j ∈ s.childIds ↔ ∃ (slot : ℕ) (u : Tree), s.items[slot]? = some (.page j u) := by
  rw [childIds_eq, List.mem_flatMap]
  constructor
  · rintro ⟨x, hx, hj⟩
    obtain ⟨slot, hslot⟩ := List.mem_iff_getElem?.mp hx
    cases x with
    | leaf k v => exact absurd hj List.not_mem_nil
    | page i u => exact ⟨slot, u, by rw [hslot, List.mem_singleton.mp hj]⟩
    | node d l r => exact (isItem_of_mem_items hx).elim
  · rintro ⟨slot, u, hslot⟩
    exact ⟨_, List.mem_of_getElem? hslot, List.mem_singleton_self j⟩

/-- Two slots of a page with the same child are the same slot. -/
theorem slot_unique {s : Tree} (hnd : s.childIds.Nodup) {a b : ℕ} {j : UInt64} {u w : Tree}
    (ha : s.items[a]? = some (.page j u)) (hb : s.items[b]? = some (.page j w)) : a = b := by
  rw [childIds_eq, List.nodup_flatMap] at hnd
  have hne : ∀ {a b : ℕ} {u w : Tree}, s.items[a]? = some (.page j u) →
      s.items[b]? = some (.page j w) → ¬ a < b := by
    intro a b u w ha hb hlt
    obtain ⟨ha', hau⟩ := List.getElem?_eq_some_iff.mp ha
    obtain ⟨hb', hbu⟩ := List.getElem?_eq_some_iff.mp hb
    have hdisj := List.pairwise_iff_getElem.mp hnd.2 a b ha' hb' hlt
    rw [Function.onFun, hau, hbu] at hdisj
    exact hdisj (List.mem_singleton_self j) (List.mem_singleton_self j)
  exact Nat.le_antisymm (Nat.not_lt.mp (hne hb ha)) (Nat.not_lt.mp (hne ha hb))

/-- The child references of all pages together, each once. -/
theorem Holds.nodup_children {r : UInt64} {t : Tree} (h : Holds ns.page? (.page r t)) :
    ((PagedTree.page r t).subpages.flatMap fun p => p.2.childIds).Nodup ∧
      ∀ j, j ∈ ((PagedTree.page r t).subpages.flatMap fun p => p.2.childIds) ↔ j ∈ t.ids := by
  have hperm := perm_childIds (PagedTree.page r t)
  rw [childIds, ids] at hperm
  have hperm' := List.Perm.cons_inv ((List.perm_append_singleton r _).symm.trans hperm)
  have hnd : (r :: t.ids).Nodup := h.nodup
  exact ⟨hperm'.nodup_iff.mpr (List.nodup_cons.mp hnd).2, fun j => hperm'.mem_iff⟩

/-- **Every page but the root is referenced once**, and the root is not. -/
theorem existsUnique_refersTo {r : UInt64} {t : Tree} (h : Holds ns.page? (.page r t)) {j : UInt64}
    (hj : j ∈ t.ids) : ∃! place, RefersTo ns place j := by
  obtain ⟨hnd, hmem⟩ := h.nodup_children
  obtain ⟨hself, hpair⟩ := List.nodup_flatMap.mp hnd
  obtain ⟨p, hp, hpj⟩ := List.mem_flatMap.mp ((hmem j).mpr hj)
  obtain ⟨slot, u, hslot⟩ := mem_childIds.mp hpj
  refine ⟨(p.1, slot), (refersTo_iff h).mpr ⟨p.2, u, hp, hslot⟩, ?_⟩
  rintro ⟨i, slot'⟩ href
  obtain ⟨s, w, hs, hw⟩ := (refersTo_iff h).mp href
  have hsymm : Std.Symm (Function.onFun List.Disjoint fun p : UInt64 × Tree => p.2.childIds) :=
    ⟨fun _ _ hxy => List.Disjoint.symm hxy⟩
  have heq : (i, s) = p := by
    by_contra hne
    have hdisj := hpair.forall hs hp hne
    exact hdisj (mem_childIds.mpr ⟨slot', w, hw⟩) hpj
  subst heq
  rw [slot_unique (hself _ hp) hw hslot]

theorem root_not_refersTo {r : UInt64} {t : Tree} (h : Holds ns.page? (.page r t))
    (place : UInt64 × ℕ) : ¬ RefersTo ns place r := by
  intro href
  obtain ⟨s, u, hs, hu⟩ := (refersTo_iff h).mp href
  have hmem := (h.nodup_children.2 r).mp
    (List.mem_flatMap.mpr ⟨_, hs, mem_childIds.mpr ⟨_, u, hu⟩⟩)
  exact (List.nodup_cons.mp (show (r :: t.ids).Nodup from h.nodup)).1 hmem

/-- The leaves among the items of a page. -/
def leafItems (t : Tree) : ℕ := t.items.countP fun x => match x with
  | .leaf _ _ => true
  | _ => false

/-- Every entry is a leaf of one page. -/
theorem sum_leafItems (t : Tree) :
    (t.subpages.map fun p => leafItems p.2).sum + leafItems t = t.entries.length := by
  induction t with
  | leaf k v => rfl
  | page i t ih =>
    rw [subpages, List.map_cons, List.sum_cons]
    have hz : leafItems (.page i t) = 0 := rfl
    have he : (PagedTree.page i t).entries = t.entries := rfl
    have hi : leafItems (i, t).2 = leafItems t := rfl
    rw [hz, he, hi]
    omega
  | node d l r ihl ihr =>
    have hn : leafItems (.node d l r) = leafItems l + leafItems r := by
      rw [leafItems, items, List.countP_append]
      rfl
    rw [subpages, List.map_append, List.sum_append, hn, entries, List.length_append]
    omega

/-- The record reps of a page are its leaves. -/
theorem recordReps_eq (h : Holds ns.page? T) {p : UInt64 × Tree} (hp : p ∈ T.subpages) :
    recordReps ns p.1 = leafItems p.2 := by
  have hpage := h.pageAt_of_mem hp
  have hst := h.stored_of_mem hp
  have hs := h.sized_of_mem hp
  rw [recordReps, hpage.page_eq]
  show (pageOf p.2).repList.countP _ = _
  rw [repList_pageOf hpage.width_le, List.countP_map, leafItems]
  refine List.countP_congr (fun x hx => ?_)
  cases x with
  | leaf k v =>
    have hv := (hs (k, v) (mem_entries_of_mem_items hx _ (List.mem_singleton_self _))).2
    simp [(repOf_leaf (k := k) hv).1]
  | page j u =>
    have hj := ((allPages_iff_items p.2).mp hst _ hx).1.id_lt
    simp [(repOf_page (t := u) hj).1]
  | node d l r => exact (isItem_of_mem_items hx).elim

/-- **The record reps of all pages are the entries.** -/
theorem sum_recordReps {r : UInt64} {t : Tree} (h : Holds ns.page? (.page r t)) :
    ((PagedTree.page r t).ids.map (recordReps ns)).sum = t.entries.length := by
  have hsum := sum_leafItems (PagedTree.page r t)
  have hmap : (PagedTree.page r t).subpages.map (recordReps ns ∘ Prod.fst)
      = (PagedTree.page r t).subpages.map (fun p => leafItems p.2) :=
    List.map_congr_left (fun p hp => recordReps_eq h hp)
  rw [← map_fst_subpages, List.map_map, hmap]
  exact hsum

end Graph

section Reach

variable {ix : Index} {t : Tree}

/-- From the items of a page the walk reaches everything below. -/
theorem reaches_below : ∀ {u : Tree}, Stored ix.nodes.page? u →
    (∀ j w, PagedTree.page j w ∈ u.items → ReachesPage ix j) → ∀ j ∈ u.ids, ReachesPage ix j
  | .leaf _ _, _, _, j, hj => absurd hj List.not_mem_nil
  | .page i s, hst, h, j, hj => by
    have hi : ReachesPage ix i := h i s (List.mem_singleton_self _)
    rcases List.mem_cons.mp hj with rfl | hj
    · exact hi
    · refine reaches_below hst.2 (fun k w hk => ?_) j hj
      have hk' := ((allPages_iff_items s).mp hst.2 _ hk).1.id_lt
      have hrep : repOf (.page k w) ∈ (pageOf s).repList := by
        rw [repList_pageOf hst.1.width_le]
        exact List.mem_map_of_mem hk
      have hreach := ReachesPage.child hi hst.1.page_eq hrep (repOf_page (t := w) hk').1
      rwa [(repOf_page (t := w) hk').2] at hreach
  | .node d l r, hst, h, j, hj => by
    rcases List.mem_append.mp hj with hj | hj
    · exact reaches_below hst.1 (fun k w hk => h k w (List.mem_append_left _ hk)) j hj
    · exact reaches_below hst.2 (fun k w hk => h k w (List.mem_append_right _ hk)) j hj

/-- **The pages in use are the ones that can be reached.** -/
theorem reaches_iff (h : Holds ix.nodes.page? (.page ix.rootId t)) (j : UInt64) :
    ReachesPage ix j ↔ j ∈ (PagedTree.page ix.rootId t).ids := by
  constructor
  · intro hj
    induction hj with
    | root => exact List.mem_cons_self
    | child _ hpage hrep hchild ih =>
      obtain ⟨s, hs, rfl⟩ := h.exists_subpage hpage
      rw [repList_pageOf (h.pageAt_of_mem hs).width_le] at hrep
      obtain ⟨slot, hslot⟩ := List.mem_iff_getElem?.mp hrep
      obtain ⟨u, hu⟩ := child_rep (h.stored_of_mem hs) (h.sized_of_mem hs) hslot hchild
      have hsub := subpages_subset hs _ (mem_subpages_of_mem_items (List.mem_of_getElem? hu))
      rw [← map_fst_subpages]
      exact List.mem_map_of_mem hsub
  · refine fun hj => reaches_below h.stored (fun k w hk => ?_) j hj
    obtain ⟨rfl, rfl⟩ := PagedTree.page.inj (List.mem_singleton.mp hk)
    exact .root

end Reach

/-! ### The invariant -/

section Invariant

variable {ix : Index} {records : RecordStore} {t : Tree}

/-- The pages of a tree that is held are as they should be. -/
theorem pageOk_of_holds (h : Holds ix.nodes.page? (.page ix.rootId t))
    (hk : Knows records t) {m : SortedMap ByteView Position} (hm : m.entries = t.entries)
    {p : UInt64 × Tree} (hp : p ∈ (PagedTree.page ix.rootId t).subpages) :
    PageOk ix records m p.1 (pageOf p.2) (p.2.items.map positionsOf) (p.2.items.map keysOf) := by
  have hpage := h.pageAt_of_mem hp
  have hst := h.stored_of_mem hp
  have hs := h.sized_of_mem hp
  have hv : p.2.Valid := Valid.of_mem_subpages (t := .page ix.rootId t) h.valid hp
  have hkp : Knows records p.2 :=
    Knows.of_subset (t := .page ix.rootId t) hk (mem_entries_of_mem_subpages hp)
  have hlen := length_preorder p.2
  have hitems := length_items p.2
  refine ⟨hpage.width_le, fun _ => width_pos p.2, ?_, ?_, ?_, fun slot rep hrep hchild => ?_,
    ⟨p.2.diffs, boundaryDiffs_eq hv.adjacent (fun x hx => hs.of_subset
      (mem_entries_of_mem_items hx)), ?_⟩, fun i hi hlt => ?_, fun i hi hlt => ?_, ?_, ?_⟩
  · refine pageRecords_eq ⟨hpage, hst⟩ hs ?_
    have hdepth := depth_lt_of_mem_subpages hp
    have := h.depth_le
    omega
  · exact mapM_map_pure positionsOf keysOf
      (fun x hx => keysAt_eq (hkp.of_subset (mem_entries_of_mem_items hx)))
  · rw [flatten_keysOf, keysOf, List.pairwise_map]
    exact hv.sorted
  · rw [repList_pageOf hpage.width_le] at hrep
    obtain ⟨u, hu⟩ := child_rep hst hs hrep hchild
    have hsub := subpages_subset hp _ (mem_subpages_of_mem_items (List.mem_of_getElem? hu))
    obtain ⟨c, hc⟩ := strip_of_mem_subpages hsub
    refine ⟨_, c, _, ⟨Valid.strip (t := .page ix.rootId t) h.valid, ids_strip _, ?_⟩, hc, ?_⟩
    · rw [entries_strip, hm]
      rfl
    · rw [List.getElem?_map, hu, entries_strip]
      rfl
  · rw [preorderRoutes_eq hv hpage.width_le]
    have hr : (routesOf p.2).length = p.2.width - 1 := by rw [routesOf, List.length_map]; omega
    have hw := hpage.width_le
    rw [pageOf_size, pageOf_routes, ← hr]
    exact congrArg _ (take_pad (by rw [hr]; omega)).symm
  · rw [pageOf_size] at hi
    rw [pageOf_routes, routeTable, pad_get hlt, List.getD_eq_getElem?_getD,
      List.getElem?_eq_none (by rw [List.length_map]; omega)]
    rfl
  · rw [pageOf_size] at hi
    rw [pageOf_reps, repTable, pad_get hlt, List.getD_eq_getElem?_getD,
      List.getElem?_eq_none (by rw [List.length_map]; omega)]
    rfl
  · rw [flatten_positionsOf, positionsOf, List.head?_map, head_entries]
    rfl
  · rw [flatten_positionsOf, positionsOf, List.getLast?_map, getLast_entries]
    rfl

/-- An index without entries is one empty page. -/
theorem wellFormed_empty (h : Represents ix none) {m : SortedMap ByteView Position}
    (hm : m.entries = []) : WellFormed ix records m := by
  obtain ⟨_, hcount, hpage, halloc⟩ := h
  have hreps : NodePage.empty.repList = [] := rfl
  have hroot : ∀ id, ReachesPage ix id ↔ id = ix.rootId := by
    intro id
    constructor
    · intro hid
      cases hid with
      | root => rfl
      | child hid hp hrep hchild =>
        rename_i i page rep
        have hsome : (ix.nodes.page? i).isSome := by rw [hp]; rfl
        rw [(halloc i).mp hsome, hpage] at hp
        rw [← Option.some.inj hp, hreps] at hrep
        exact absurd hrep List.not_mem_nil
    · rintro rfl
      exact .root
  have hnoref : ∀ place id, ¬ RefersTo ix.nodes place id := by
    rintro ⟨i, slot⟩ id ⟨page, rep, hp, hrep, _, _⟩
    have hsome : (ix.nodes.page? i).isSome := by
      show (ix.nodes.page? (i, slot).1).isSome
      rw [hp]
      rfl
    rw [(halloc i).mp hsome, hpage] at hp
    rw [← Option.some.inj hp, hreps] at hrep
    exact absurd hrep (by simp)
  refine ⟨fun id page hid hp => ⟨[], [], ?_⟩, ⟨_, [], hpage, rfl, by rw [hm]; rfl⟩,
    fun page hp hone => ?_, fun id => (halloc id).trans (hroot id).symm,
    fun id hid hne => absurd ((hroot id).mp hid) hne, fun place => hnoref place _,
    [ix.rootId], List.nodup_singleton _, fun id => ?_, ?_, ?_⟩
  · rw [(hroot id).mp hid, hpage] at hp
    obtain rfl := Option.some.inj hp
    rw [(hroot id).mp hid]
    refine ⟨Nat.zero_le _, fun hne => absurd rfl hne, rfl, rfl, List.Pairwise.nil,
      fun slot rep hrep => ?_, ⟨[], rfl, rfl⟩, fun i _ hi => ?_, fun i _ hi => ?_, rfl, rfl⟩
    · exact absurd hrep (by rw [hreps]; simp)
    · rw [Vector.getElem?_eq_getElem hi]
      exact congrArg some (Vector.getElem_replicate _)
    · rw [Vector.getElem?_eq_getElem hi]
      exact congrArg some (Vector.getElem_replicate _)
  · rw [hpage] at hp
    rw [← Option.some.inj hp, hreps]
    exact fun rep hrep => absurd hrep List.not_mem_nil
  · rw [hroot, List.mem_singleton]
  · exact HeapNodeStore.live_eq_length (List.nodup_singleton _)
      (fun j => (halloc j).trans List.mem_singleton.symm)
  · rw [hcount, List.map_singleton, List.sum_singleton, recordReps, hpage]
    rfl

/-- An index that represents a tree is well formed. -/
theorem wellFormed_tree (h : Represents ix (some t)) (hk : Knows records t)
    {m : SortedMap ByteView Position} (hm : m.entries = t.entries) (hsize : m.size < 2 ^ 31) :
    WellFormed ix records m := by
  obtain ⟨_, hcount, hholds, hnot⟩ := h
  have hreach := reaches_iff hholds
  have hroot : ((ix.rootId, t) : UInt64 × Tree) ∈ (PagedTree.page ix.rootId t).subpages :=
    List.mem_cons_self
  refine ⟨fun id page hid hp => ?_, ?_, fun page hp hone rep hrep => ?_,
    fun id => (hholds.alloc id).trans (hreach id).symm, fun id hid hne => ?_,
    root_not_refersTo hholds, _, hholds.nodup, fun id => (hreach id).symm, ?_, ?_⟩
  · obtain ⟨s, hs, rfl⟩ := hholds.exists_subpage hp
    exact ⟨_, _, pageOk_of_holds hholds hk hm hs⟩
  · refine ⟨_, _, (hholds.pageAt_of_mem hroot).page_eq,
      (pageOk_of_holds hholds hk hm hroot).below_eq, ?_⟩
    rw [flatten_positionsOf, positionsOf, hm]
  · rw [(hholds.pageAt_of_mem hroot).page_eq] at hp
    obtain rfl := Option.some.inj hp
    cases t with
    | leaf k v =>
      rw [repList_pageOf (hholds.pageAt_of_mem hroot).width_le] at hrep
      rw [List.mem_singleton.mp hrep]
      exact (repOf_leaf (k := k) (hholds.sized _ (List.mem_singleton_self _)).2).1
    | page j s => exact absurd rfl (hnot j s)
    | node d l r =>
      have hl := width_pos l
      have hr := width_pos r
      have : l.width + r.width = 1 := hone
      omega
  · rcases List.mem_cons.mp ((hreach id).mp hid) with rfl | hid
    · exact absurd rfl hne
    · exact existsUnique_refersTo hholds hid
  · exact HeapNodeStore.live_eq_length hholds.nodup hholds.alloc
  · rw [sum_recordReps hholds, hcount]
    exact Int32.toInt_ofNat_of_lt (by rw [← hm]; exact hsize)

end Invariant

/-- **The structural invariant.**  After any successful updates by a correct caller every page of
the index is as the keys say. -/
theorem structural_invariant {ix : Index} {m : SortedMap ByteView Position}
    (hreach : Reachable ix m) (hsize : m.size < 2 ^ 31) {records : RecordStore}
    (hk : KnowsAll records m.entries) : WellFormed ix records m := by
  obtain ⟨o, hr, rfl⟩ := hreach.represents
  cases o with
  | none => exact wellFormed_empty hr rfl
  | some t => exact wellFormed_tree hr hk rfl hsize

/-- An index of 400 keys, which are more than a page holds. -/
theorem structural_invariant_numberedKeys : ∃ ix,
    WellFormed ix numberedRecords (numberedKeys 400) := by
  obtain ⟨ix, hreach, _⟩ := exists_reachable_numberedKeys (show 400 < 2 ^ 62 by decide)
  exact ⟨ix, structural_invariant hreach (lt_of_le_of_lt (size_numberedKeys_le 400) (by decide))
    (knowsAll_numberedKeys (by decide))⟩

end MinweightStore.Minpatricia
