import MinweightStore.Minpatricia.InsertPage

/-!
# Putting a key

`Put` on an index that represents a tree gives an index that represents the tree with the key at
its new position, whichever of the ways it takes.

* `insertAtPath_eq` — a new record at its target page;
* `setLeaf_holds` — a record moved to a new position;
* `insertLoop_eq` — the descent; `put_spec` — the whole call.
-/

namespace MinweightStore.Minpatricia

open BitKey PagedTree

/-! ### One page more -/

/-- The page the key goes into is no longer a single child. -/
theorem notPage_insertPage {q : ByteView} {δ : ℕ} {new : Tree} :
    ∀ t : Tree, Path.NotPage (insertPage q δ new t) := by
  have hjoin : ∀ s : Tree, Path.NotPage (join q δ new s) := by
    intro s i t h
    unfold join at h
    split at h <;> exact PagedTree.noConfusion rfl rfl rfl (heq_of_eq h)
  intro t
  cases t with
  | leaf k v => exact hjoin _
  | page i t => exact hjoin _
  | node d l r =>
    intro i t h
    simp only [insertPage] at h
    split at h
    · exact hjoin _ i t h
    · split at h <;> exact PagedTree.noConfusion rfl rfl rfl (heq_of_eq h)

theorem notPage_of_width {t : Tree} (h : 2 ≤ t.width) : Path.NotPage t := by
  rintro i s rfl
  simp only [width] at h
  omega

theorem frames_at (z : TreePath) (f : PutFrame) (rest : List PutFrame) :
    ((framesOf z).reverse ++ f :: rest)[z.length]? = some f ∧
    (((framesOf z).reverse ++ f :: rest).take z.length).reverse = framesOf z := by
  have hlen : (framesOf z).reverse.length = z.length := by
    rw [List.length_reverse, framesOf, List.length_map]
  refine ⟨?_, ?_⟩
  · rw [List.getElem?_append_right (by omega), hlen, Nat.sub_self]
    rfl
  · rw [List.take_left' hlen, List.reverse_reverse]

/-- **After a page has been added below one page of the path**, `PropagateBoundary` restores the
pages above. -/
theorem propagate_grown {pages : Pages} {z : TreePath} {id j : UInt64} {s s' : Tree} (ix : Index)
    (leaf : ℕ) (rest : List PutFrame)
    (h : Holds pages (z.fill (.page id s))) (hst : Stored ix.nodes.page? (.page id s'))
    (hother : ∀ x ∈ z.ids, ix.nodes.page? x = pages x)
    (hvalid : (z.fill (.page id s')).Valid) (hsized : Sized (z.fill (.page id s')))
    (hperm : (PagedTree.page id s' : Tree).ids.Perm (j :: (PagedTree.page id s : Tree).ids))
    (hnone : pages j = none)
    (halloc : ∀ x, (ix.nodes.page? x).isSome ↔ x = j ∨ (pages x).isSome) :
    ∃ ns, propagateBoundary ((framesOf z).reverse ++ ⟨id, leaf⟩ :: rest) z.length s.first s.last ix
        = .ok () { ix with nodes := ns } ∧
      ns.nodes.length = ix.nodes.nodes.length ∧ Holds ns.page? (z.fill (.page id s')) := by
  obtain ⟨hframe, hz⟩ := frames_at z ⟨id, leaf⟩ rest
  have hmem : ∀ x, (pages x).isSome ↔ x ∈ (PagedTree.page id s : Tree).ids ++ z.ids := by
    intro x
    rw [h.alloc x, Path.mem_ids_fill, List.mem_append]
  have hj : j ∉ (PagedTree.page id s : Tree).ids ++ z.ids := by
    intro hm
    have := (hmem j).mpr hm
    rw [hnone] at this
    exact absurd this (by decide)
  have hperm' : ((PagedTree.page id s' : Tree).ids ++ z.ids).Perm
      (j :: ((PagedTree.page id s : Tree).ids ++ z.ids)) := hperm.append_right _
  refine propagate_holds _ _ h hframe hz hst hother hvalid hsized ?_ ?_
  · rw [hperm'.nodup_iff]
    exact List.nodup_cons.mpr ⟨hj, Path.nodup_fill.mp h.nodup⟩
  · intro x
    rw [halloc x, hmem x, ← List.mem_append, hperm'.mem_iff, List.mem_cons]

/-- The call returns and leaves pages that hold a tree with these entries under the same root. -/
def Reaches (grow : ℕ) (m : IndexM Unit) (ix : Index) (t : Tree)
    (entries : List (ByteView × Position)) : Prop :=
  ∃ ns t', m ix = .ok () { ix with nodes := ns } ∧
    ns.nodes.length ≤ ix.nodes.nodes.length + grow ∧ Holds ns.page? t' ∧ t'.entries = entries ∧
    ∀ r s, t = .page r s → Path.NotPage s → ∃ s', t' = .page r s' ∧ Path.NotPage s'

section Path

variable {alloc : IndexM UInt64} {grow : ℕ} {records : Position → Result ByteView} {ix : Index} {z : TreePath} {id : UInt64}
  {s : Tree} {key : ByteView} {pos : Position} {δ leaf : ℕ} {rest : List PutFrame}

/-- What a new record below a path needs. -/
structure MayInsert (alloc : IndexM UInt64) (grow : ℕ) (records : Position → Result ByteView)
    (ix : Index) (z : TreePath) (id : UInt64) (s s' : Tree) : Prop where
  holds : Holds ix.nodes.page? (z.fill (.page id s))
  valid : (z.fill (.page id s')).Valid
  sized : Sized (z.fill (.page id s'))
  knows : KnowsOrFails records s'
  alloc_at : AllocAt alloc grow ix

theorem MayInsert.valid_below {s' : Tree} (h : MayInsert alloc grow records ix z id s s') : s'.Valid :=
  Path.Valid.of_fill (z := z) (x := .page id s') h.valid

theorem MayInsert.sized_below {s' : Tree} (h : MayInsert alloc grow records ix z id s s') : Sized s' :=
  h.sized.of_subset (fun _ he => Holds.mem_below _ he)

theorem frameAt_eq (z : TreePath) (f : PutFrame) (rest : List PutFrame) :
    frameAt ((framesOf z).reverse ++ f :: rest) z.length = .ok f := by
  rw [frameAt, (frames_at z f rest).1]

/-- The reps of the page with the new one. -/
theorem insertedReps_eq (hw : s.width ≤ kMaxNodeReps) :
    insertedReps (pageOf s) (s.insertSlot key δ) ⟨pos⟩
      = (insertPage key δ (.leaf key pos) s).items.map repOf := by
  have hle := insertSlot_le key δ s
  have hlen := length_items s
  rw [insertedReps, repList_pageOf hw, items_insertPage (by exact trivial), ← List.map_take,
    ← List.map_drop]
  simp [repOf]

variable (key pos) in
theorem stored_insertPage {pages : Pages} (h : Stored pages s) :
    Stored pages (insertPage key δ (.leaf key pos) s) := by
  refine (allPages_iff_items _).mpr (fun x hx => ?_)
  rw [items_insertPage (by exact trivial)] at hx
  rcases List.mem_append.mp hx with hx | hx
  · exact (allPages_iff_items s).mp h x (List.mem_of_mem_take hx)
  · rcases List.mem_cons.mp hx with rfl | hx
    · trivial
    · exact (allPages_iff_items s).mp h x (List.mem_of_mem_drop hx)

/-- The page at the end of the path has room. -/
theorem insertAtPath_room (hm : MayInsert alloc grow records ix z id s
      (insertPage key δ (.leaf key pos) s)) (hw : s.width < kMaxNodeReps)
    (hp : pos.toNat < 2 ^ 63) :
    Reaches grow (insertAtPath alloc records ((framesOf z).reverse ++ ⟨id, leaf⟩ :: rest) z.length
        (s.insertSlot key δ) ⟨pos⟩ key δ) ix (z.fill (.page id s))
      (z.fill (.page id (insertPage key δ (.leaf key pos) s))).entries := by
  have h := hm.holds
  obtain ⟨hframe, hz⟩ := frames_at z ⟨id, leaf⟩ rest
  obtain ⟨ns, hrun, hlen, hpages⟩ := insertAtIncremental_eq alloc records key pos (δ := δ) h.pageAt.page_eq hw h.valid_below h.sized_below hp
  have hnd := Path.nodup_fill.mp h.nodup
  obtain ⟨hnd1, hnd2, hdisj⟩ := List.nodup_append.mp hnd
  have hids : (PagedTree.page id (insertPage key δ (.leaf key pos) s) : Tree).ids
      = (PagedTree.page id s : Tree).ids := by
    simp only [ids, ids_insertPage]
  have hnotin : id ∉ (insertPage key δ (.leaf key pos) s).ids := by
    rw [ids_insertPage]
    exact (List.nodup_cons.mp hnd1).1
  have hst : Stored ns.page? (.page id (insertPage key δ (.leaf key pos) s)) := by
    rw [hpages]
    refine ⟨pageAt_update_self ?_ h.pageAt.id_lt,
      Stored.update (stored_insertPage _ _ h.stored_below) hnotin⟩
    rw [width_insertPage (by exact trivial)]
    omega
  obtain ⟨ns', hrun', hlen', hholds⟩ := propagate_holds (insertPage key δ (.leaf key pos) s) { ix with nodes := ns } h hframe hz hst
    (fun j hj => by
      show ns.page? j = _
      rw [hpages, update_ne]
      rintro rfl
      exact hdisj j List.mem_cons_self j hj rfl)
    hm.valid hm.sized (by rw [hids]; exact hnd)
    (fun j => by
      show (ns.page? j).isSome ↔ _
      rw [hids, ← Path.mem_ids_fill, ← h.alloc j, hpages]
      by_cases hj : j = id
      · subst hj
        rw [Function.update_self, h.pageAt.page_eq]
        exact ⟨fun _ => rfl, fun _ => rfl⟩
      · rw [update_ne hj])
  refine ⟨ns', z.fill (.page id (insertPage key δ (.leaf key pos) s)), ?_, ?_, hholds, rfl, ?_⟩
  · rw [insertAtPath, Prog.bind_ok (ofOutcome_run (frameAt_eq z _ rest)),
      Prog.bind_ok (nodeByID_run h.pageAt.page_eq), if_pos (by rw [pageOf_size]; exact hw),
      Prog.bind_ok hrun, pageOf_firstPos, pageOf_lastPos]
    exact hrun'
  · simp only at hlen hlen'
    omega
  · intro r t hrt ht
    exact Path.root_fill _ hrt ht (fun _ => notPage_insertPage s)

theorem pathEdgeLoop_ok {ns : HeapNodeStore} (slot : ℕ) : ∀ {frames : List PutFrame},
    (∀ f ∈ frames, (ns.page? f.id).isSome) → ∃ e, pathEdgeLoop ns slot frames = .ok e
  | [], _ => ⟨_, rfl⟩
  | f :: rest, h => by
    obtain ⟨e, he⟩ := pathEdgeLoop_ok slot (fun g hg => h g (List.mem_cons_of_mem _ hg))
    obtain ⟨page, hpage⟩ := Option.isSome_iff_exists.mp (h f List.mem_cons_self)
    rw [pathEdgeLoop]
    split
    · split
      · exact ⟨_, rfl⟩
      · exact ⟨e, he⟩
    · simp only [HeapNodeStore.get_eq hpage, bind, Except.bind]
      split
      · exact ⟨_, rfl⟩
      · exact ⟨e, he⟩

variable (leaf rest) in
/-- `PathEdgeInsertSlot` only reads pages on the way. -/
theorem pathEdgeInsertSlot_ok (h : Holds ix.nodes.page? (z.fill (.page id s))) (slot size : ℕ) :
    ∃ e, pathEdgeInsertSlot ix.nodes ((framesOf z).reverse ++ ⟨id, leaf⟩ :: rest) z.length slot size
      = .ok e := by
  have hframes : ∀ f ∈ ((framesOf z).reverse ++ ⟨id, leaf⟩ :: rest).take z.length,
      (ix.nodes.page? f.id).isSome := by
    intro f hf
    have hf' := List.mem_reverse.mpr hf
    rw [(frames_at z ⟨id, leaf⟩ rest).2] at hf'
    obtain ⟨ci, hci, rfl⟩ := List.mem_map.mp hf'
    exact (h.alloc _).mpr (Path.mem_ids_fill.mpr (Or.inr (Path.level_mem_ids hci)))
  unfold pathEdgeInsertSlot
  split
  · exact ⟨_, rfl⟩
  · exact pathEdgeLoop_ok slot hframes

variable (leaf rest) in
/-- The page at the end of the path is full and a subtree of it moves away. -/
theorem splitAtPath_eq (hm : MayInsert alloc grow records ix z id s
      (insertPage key δ (.leaf key pos) s)) (hw : s.width = kMaxNodeReps) (slot : ℕ) :
    Reaches grow (splitAtPath alloc records ((framesOf z).reverse ++ ⟨id, leaf⟩ :: rest) z.length id slot
        s.width ((insertPage key δ (.leaf key pos) s).items.map repOf) s.first s.last) ix
      (z.fill (.page id s)) (z.fill (.page id (insertPage key δ (.leaf key pos) s))).entries ∨
    Refused alloc (Knows records (insertPage key δ (.leaf key pos) s))
      (splitAtPath alloc records ((framesOf z).reverse ++ ⟨id, leaf⟩ :: rest) z.length id slot
        s.width ((insertPage key δ (.leaf key pos) s).items.map repOf) s.first s.last) ix := by
  have h := hm.holds
  have hnew : (PagedTree.leaf key pos : Tree).IsItem := trivial
  have hw' : (insertPage key δ (.leaf key pos) s).width = kMaxNodeReps + 1 := by
    rw [width_insertPage hnew, hw]
  have hnd := Path.nodup_fill.mp h.nodup
  obtain ⟨hnd1, hnd2, hdisj⟩ := List.nodup_append.mp hnd
  have hnotin : id ∉ (insertPage key δ (.leaf key pos) s).ids := by
    rw [ids_insertPage]
    exact (List.nodup_cons.mp hnd1).1
  obtain ⟨edge, hedge⟩ := pathEdgeInsertSlot_ok leaf rest h slot s.width
  have hfuel : splitFuel ((insertPage key δ (.leaf key pos) s).items.map repOf)
      = 2 * kMaxNodeReps + 1 + 3 := by
    rw [splitFuel, List.length_map, length_items, hw']
    omega
  unfold splitAtPath
  rw [hfuel]
  rcases splitAndWriteNodeAt_eq h.pageAt.page_eq hw' hm.valid_below hm.sized_below hm.knows
      hm.alloc_at (stored_insertPage _ _ h.stored_below) hnotin edge (2 * kMaxNodeReps + 1) with
    ⟨c, u, j, ns, hcu, hrun, hnone, hlen, hoff⟩ | ⟨code, hrun, hwhy⟩
  · left
    have hsids : s.ids = c.leftIds ++ u.ids ++ c.rightIds := by
      rw [← ids_insertPage (q := key) (δ := δ) (k := key) (v := pos) s, ← hcu, Ctx.ids_fill]
    have hmem : ∀ x, (ix.nodes.page? x).isSome ↔ x ∈ (PagedTree.page id s : Tree).ids ++ z.ids := by
      intro x
      rw [h.alloc x, Path.mem_ids_fill, List.mem_append]
    have hj : j ∉ (PagedTree.page id s : Tree).ids ++ z.ids := by
      intro hm
      have := (hmem j).mpr hm
      rw [hnone] at this
      exact absurd this (by decide)
    have hpermIn : (c.fill (.page j u) : Tree).ids.Perm (j :: s.ids) := by
      rw [hsids, Ctx.ids_fill, List.perm_iff_count]
      intro x
      simp only [ids, List.count_append, List.count_cons]
      omega
    have hperm : (PagedTree.page id (c.fill (.page j u)) : Tree).ids.Perm
        (j :: (PagedTree.page id s : Tree).ids) :=
      (List.Perm.cons id hpermIn).trans (List.Perm.swap _ _ _)
    have hkeep : ∀ x ∈ s.ids, ns.page? x = ix.nodes.page? x := by
      intro x hx
      refine hoff.other x ?_ ?_
      · rintro rfl
        exact (List.nodup_cons.mp hnd1).1 hx
      · rintro rfl
        exact hj (List.mem_append_left _ (List.mem_cons_of_mem _ hx))
    have hstore := stored_insertPage key pos (δ := δ) h.stored_below
    rw [← hcu] at hstore
    obtain ⟨hstu, hrest⟩ := (Ctx.allPages_fill c u).mp hstore
    have hst : Stored ns.page? (.page id (c.fill (.page j u))) := by
      refine ⟨hoff.parent, (Ctx.allPages_fill c _).mpr ⟨⟨hoff.child, ?_⟩, ?_⟩⟩
      · exact Stored.congr hstu (fun x hx => hkeep x (by rw [hsids]; simp [hx]))
      · refine allRest_congr hrest (fun x hx => hkeep x ?_)
        rw [hsids]
        rcases List.mem_append.mp hx with hx | hx <;> simp [hx]
    have hentries : (z.fill (.page id (c.fill (.page j u)))).entries
        = (z.fill (.page id (insertPage key δ (.leaf key pos) s))).entries := by
      rw [Path.entries_fill, Path.entries_fill, ← hcu]
      simp only [entries, Ctx.entries_fill]
    obtain ⟨ns', hrun', hlen', hholds⟩ := propagate_grown { ix with nodes := ns } leaf rest h hst
      (fun x hx => by
        refine hoff.other x ?_ ?_
        · rintro rfl
          exact hdisj x List.mem_cons_self x hx rfl
        · rintro rfl
          exact hj (List.mem_append_right _ hx))
      (by
        refine Path.Valid.fill_congr hm.valid ?_ (fun e he => ⟨e, ?_, rfl⟩)
        · have hv := hm.valid_below
          rw [← hcu] at hv
          exact Valid.fill_congr (u := .page j u) hv (Valid.of_fill (s := u) hv)
            (fun e he => ⟨e, he, rfl⟩)
        · rw [← hcu]
          simp only [entries, Ctx.entries_fill] at he ⊢
          exact he)
      (hm.sized.of_subset (fun e he => by rw [← hentries]; exact he))
      hperm hnone
      (fun x => by
        show (ns.page? x).isSome ↔ _
        by_cases hxi : x = id
        · subst hxi
          rw [hoff.parent.page_eq, h.pageAt.page_eq]
          simp
        · by_cases hxj : x = j
          · subst hxj
            rw [hoff.child.page_eq]
            simp
          · rw [hoff.other x hxi hxj]
            simp [hxj])
    refine ⟨ns', z.fill (.page id (c.fill (.page j u))), ?_, ?_, hholds, hentries, ?_⟩
    · rw [Prog.bind_ok (readNodes_run hedge), Prog.bind_ok hrun]
      exact hrun'
    · simp only at hlen hlen'
      omega
    · intro r t hrt ht
      refine Path.root_fill _ hrt ht (fun _ => notPage_of_width ?_)
      exact hoff.width_two
  · right
    exact ⟨code, by rw [Prog.bind_ok (readNodes_run hedge), Prog.bind_error hrun], hwhy⟩

variable (rest) in
/-- The page at the end of the path is full and its root branch moves into its parent. -/
theorem promoteAtPath_eq {c : TreeCtx} {pid : UInt64}
    (hm : MayInsert alloc grow records ix ((c, pid) :: z) id s
      (insertPage key δ (.leaf key pos) s)) (hw : s.width = kMaxNodeReps)
    (hroom : (c.fill (.page id s)).width < kMaxNodeReps) :
    let call : IndexM Unit := do
      promoteSibling alloc records pid c.slot id
        ((insertPage key δ (.leaf key pos) s).items.map repOf)
      propagateBoundary ((framesOf z).reverse ++ ⟨pid, c.slot⟩ :: rest) z.length
        (c.fill (.page id s)).first (c.fill (.page id s)).last
    Reaches grow call ix (Path.fill ((c, pid) :: z) (.page id s))
      (Path.fill ((c, pid) :: z) (.page id (insertPage key δ (.leaf key pos) s))).entries ∨
    Refused alloc (Knows records (insertPage key δ (.leaf key pos) s)) call ix := by
  intro call
  have h : Holds ix.nodes.page? (z.fill (.page pid (c.fill (.page id s)))) := hm.holds
  have hnew : (PagedTree.leaf key pos : Tree).IsItem := trivial
  have hnode : ∃ d l r, insertPage key δ (.leaf key pos) s = .node d l r := by
    have hw' := width_insertPage (q := key) (δ := δ) hnew s
    cases hs' : insertPage key δ (.leaf key pos) s with
    | node d l r => exact ⟨d, l, r, rfl⟩
    | leaf k v =>
      rw [hs', hw, width] at hw'
      exact absurd hw' (by decide)
    | page i t =>
      rw [hs', hw, width] at hw'
      exact absurd hw' (by decide)
  obtain ⟨d, l, r, hs'⟩ := hnode
  have hw' : (PagedTree.node d l r : Tree).width = kMaxNodeReps + 1 := by
    rw [← hs', width_insertPage hnew, hw]
  have hsids : s.ids = l.ids ++ r.ids := by
    rw [← ids_insertPage (q := key) (δ := δ) (k := key) (v := pos) s, hs']
    rfl
  have hstore := stored_insertPage key pos (δ := δ)
    (Holds.stored_below (z := (c, pid) :: z) hm.holds)
  rw [hs'] at hstore
  have hchild : PageAt ix.nodes.page? id s := Holds.pageAt (z := (c, pid) :: z) hm.holds
  have hrest : c.AllRest (PageAt ix.nodes.page?) :=
    ((Ctx.allPages_fill c _).mp h.stored_below).2
  -- the identifiers around the two pages
  have hnd := Path.nodup_fill.mp h.nodup
  obtain ⟨hnd1, hnd2, hdisj⟩ := List.nodup_append.mp hnd
  have hmem : ∀ x, (ix.nodes.page? x).isSome ↔
      x ∈ (PagedTree.page pid (c.fill (.page id s)) : Tree).ids ++ z.ids := by
    intro x
    rw [h.alloc x, Path.mem_ids_fill, List.mem_append]
  have hlist : (PagedTree.page pid (c.fill (.page id s)) : Tree).ids
      = pid :: (c.leftIds ++ id :: (PagedTree.node d l r : Tree).ids ++ c.rightIds) := by
    simp only [ids, Ctx.ids_fill, hsids, List.append_assoc]
  have hnd1' : (pid :: id :: ((PagedTree.node d l r : Tree).ids
      ++ (c.leftIds ++ c.rightIds))).Nodup := by
    rw [hlist] at hnd1
    refine (List.Perm.nodup_iff ?_).mp hnd1
    rw [List.perm_iff_count]
    intro x
    simp only [List.count_append, List.count_cons]
    omega
  obtain ⟨hp1, hp2⟩ := List.nodup_cons.mp hnd1'
  have hpid : pid ≠ id := fun he => hp1 (he ▸ List.mem_cons_self)
  have hvp : (c.fill (.page id (.node d l r))).Valid := by
    rw [← hs']
    exact Path.Valid.of_fill (z := z) (x := .page pid (c.fill (.page id _))) hm.valid
  have hsz : Sized (c.fill (.page id (.node d l r))) := by
    rw [← hs']
    exact hm.sized.of_subset (fun _ he => Holds.mem_below pid (z := z) he)
  have hk : KnowsOrFails records (.node d l r) := hs' ▸ hm.knows
  have hprom := promoteSibling_eq h.pageAt hroom h.valid_below h.sized_below hchild hw' hvp hsz hk
    hm.alloc_at hstore hrest hpid (fun hx => hp1 (List.mem_cons_of_mem _ hx)) (List.nodup_cons.mp hp2).1
  rw [← hs'] at hprom
  rcases hprom with ⟨j, ns, hrun, hnone, hlen, hpr⟩ | ⟨code, hrun, hwhy⟩
  · left
    have hj : j ∉ (PagedTree.page pid (c.fill (.page id s)) : Tree).ids ++ z.ids := by
      intro hx
      have := (hmem j).mpr hx
      rw [hnone] at this
      exact absurd this (by decide)
    have hperm : (PagedTree.page pid (c.fill (.node d (.page id l) (.page j r))) : Tree).ids.Perm
        (j :: (PagedTree.page pid (c.fill (.page id s)) : Tree).ids) := by
      rw [hlist, List.perm_iff_count]
      intro x
      simp only [ids, Ctx.ids_fill, List.count_append, List.count_cons]
      omega
    have hkeep : ∀ x ∈ (PagedTree.node d l r : Tree).ids ++ (c.leftIds ++ c.rightIds),
        ns.page? x = ix.nodes.page? x := by
      intro x hx
      refine hpr.other x ?_ ?_ ?_
      · rintro rfl
        exact hp1 (List.mem_cons_of_mem _ hx)
      · rintro rfl
        exact (List.nodup_cons.mp hp2).1 hx
      · rintro rfl
        refine hj (List.mem_append_left _ ?_)
        rw [hlist]
        simp only [List.mem_append, List.mem_cons] at hx ⊢
        tauto
    have hst : Stored ns.page? (.page pid (c.fill (.node d (.page id l) (.page j r)))) := by
      refine ⟨hpr.parent, (Ctx.allPages_fill c _).mpr ⟨⟨⟨hpr.left, ?_⟩, ⟨hpr.right, ?_⟩⟩, ?_⟩⟩
      · exact Stored.congr hstore.1 (fun x hx =>
          hkeep x (List.mem_append_left _ (List.mem_append_left _ hx)))
      · exact Stored.congr hstore.2 (fun x hx =>
          hkeep x (List.mem_append_left _ (List.mem_append_right _ hx)))
      · exact allRest_congr hrest (fun x hx => hkeep x (List.mem_append_right _ hx))
    have hentries : (z.fill (.page pid (c.fill (.node d (.page id l) (.page j r))))).entries
        = (Path.fill ((c, pid) :: z) (.page id (insertPage key δ (.leaf key pos) s))).entries := by
      rw [Path.fill, Path.entries_fill, Path.entries_fill, hs']
      simp only [entries, Ctx.entries_fill]
    obtain ⟨ns', hrun', hlen', hholds⟩ := propagate_grown { ix with nodes := ns } c.slot rest h hst
      (fun x hx => by
        have hx1 : ∀ y ∈ (PagedTree.page pid (c.fill (.page id s)) : Tree).ids, x ≠ y :=
          fun y hy hxy => hdisj y hy x hx hxy.symm
        refine hpr.other x (hx1 pid List.mem_cons_self) (hx1 id ?_) ?_
        · rw [hlist]
          simp
        · rintro rfl
          exact hj (List.mem_append_right _ hx))
      (by
        have hv := hm.valid
        rw [Path.fill, hs'] at hv
        refine Path.Valid.fill_congr hv ?_ (fun e he => ⟨e, ?_, rfl⟩)
        · exact Valid.fill_congr (u := .node d (.page id l) (.page j r)) hvp
            (Valid.of_fill (s := .page id (.node d l r)) hvp) (fun e he => ⟨e, he, rfl⟩)
        · simp only [entries, Ctx.entries_fill] at he ⊢
          exact he)
      (hm.sized.of_subset (fun e he => by rw [← hentries]; exact he))
      hperm hnone
      (fun x => by
        show (ns.page? x).isSome ↔ _
        by_cases hx1 : x = pid
        · subst hx1
          rw [hpr.parent.page_eq, h.pageAt.page_eq]
          simp
        · by_cases hx2 : x = id
          · subst hx2
            rw [hpr.left.page_eq, hchild.page_eq]
            simp
          · by_cases hx3 : x = j
            · subst hx3
              rw [hpr.right.page_eq]
              simp
            · rw [hpr.other x hx1 hx2 hx3]
              simp [hx3])
    refine ⟨ns', z.fill (.page pid (c.fill (.node d (.page id l) (.page j r)))), ?_, ?_, hholds,
      hentries, ?_⟩
    · rw [show call ix = _ from Prog.bind_ok hrun]
      exact hrun'
    · simp only at hlen hlen'
      omega
    · intro r' t hrt ht
      refine Path.root_fill (z := z) _ hrt ht (fun hz => ?_)
      cases c with
      | hole => exact fun i t he => PagedTree.noConfusion rfl rfl rfl (heq_of_eq he)
      | left e c r => exact fun i t he => PagedTree.noConfusion rfl rfl rfl (heq_of_eq he)
      | right e l c => exact fun i t he => PagedTree.noConfusion rfl rfl rfl (heq_of_eq he)
  · right
    exact ⟨code, Prog.bind_error hrun, hwhy⟩

variable (leaf rest) in
/-- **`InsertAtPath`** at the page that takes the record. -/
theorem insertAtPath_eq (hm : MayInsert alloc grow records ix z id s
      (insertPage key δ (.leaf key pos) s)) (hp : pos.toNat < 2 ^ 63) :
    let call := insertAtPath alloc records ((framesOf z).reverse ++ ⟨id, leaf⟩ :: rest) z.length
      (s.insertSlot key δ) ⟨pos⟩ key δ
    Reaches grow call ix (z.fill (.page id s))
      (z.fill (.page id (insertPage key δ (.leaf key pos) s))).entries ∨
    Refused alloc (Knows records (insertPage key δ (.leaf key pos) s)) call ix := by
  intro call
  have hat := hm.holds.pageAt
  by_cases hw : s.width < kMaxNodeReps
  · exact Or.inl (insertAtPath_room hm hw hp)
  · have hfull : s.width = kMaxNodeReps := by
      have := hat.width_le
      omega
    cases z with
    | nil =>
      have hcall : call ix = splitAtPath alloc records ((framesOf []).reverse ++ ⟨id, leaf⟩ :: rest) 0 id
          (s.insertSlot key δ) s.width ((insertPage key δ (.leaf key pos) s).items.map repOf)
          s.first s.last ix := by
        show insertAtPath _ _ _ _ _ _ _ _ ix = _
        rw [insertAtPath, Prog.bind_ok (ofOutcome_run (frameAt_eq [] _ rest)),
          Prog.bind_ok (nodeByID_run hat.page_eq), if_neg (by rw [pageOf_size]; exact hw),
          insertedReps_eq hat.width_le, if_neg (by simp), pageOf_size, pageOf_firstPos,
          pageOf_lastPos]
        rfl
      have hsplit := splitAtPath_eq leaf rest hm hfull (s.insertSlot key δ)
      unfold Reaches Refused at hsplit ⊢
      rw [hcall]
      exact hsplit
    | cons ci z =>
      obtain ⟨c, pid⟩ := ci
      have hframes : (framesOf ((c, pid) :: z)).reverse ++ ⟨id, leaf⟩ :: rest
          = (framesOf z).reverse ++ ⟨pid, c.slot⟩ :: ⟨id, leaf⟩ :: rest := by
        rw [framesOf, List.map_cons, List.reverse_cons, List.append_assoc]
        rfl
      have hparent : PageAt ix.nodes.page? pid (c.fill (.page id s)) :=
        Holds.pageAt (z := z) hm.holds
      have hat' := frameAt_eq z ⟨pid, c.slot⟩ (⟨id, leaf⟩ :: rest)
      have hcall : call ix
          = (if (c.fill (.page id s)).width < kMaxNodeReps then do
              promoteSibling alloc records pid c.slot id
                ((insertPage key δ (.leaf key pos) s).items.map repOf)
              propagateBoundary ((framesOf z).reverse ++ ⟨pid, c.slot⟩ :: ⟨id, leaf⟩ :: rest)
                z.length (c.fill (.page id s)).first (c.fill (.page id s)).last
            else splitAtPath alloc records ((framesOf ((c, pid) :: z)).reverse ++ ⟨id, leaf⟩ :: rest)
              (z.length + 1) id (s.insertSlot key δ) s.width
              ((insertPage key δ (.leaf key pos) s).items.map repOf) s.first s.last) ix := by
        show insertAtPath _ _ _ _ _ _ _ _ ix = _
        rw [insertAtPath, Prog.bind_ok (ofOutcome_run (frameAt_eq ((c, pid) :: z) _ rest)),
          Prog.bind_ok (nodeByID_run hat.page_eq), if_neg (by rw [pageOf_size]; exact hw),
          insertedReps_eq hat.width_le, if_pos (by rw [List.length_cons]; omega),
          List.length_cons, Nat.add_sub_cancel, hframes, Prog.bind_ok (ofOutcome_run hat'),
          Prog.bind_ok (nodeByID_run hparent.page_eq)]
        rfl
      by_cases hroom : (c.fill (.page id s)).width < kMaxNodeReps
      · rw [if_pos hroom] at hcall
        have hprom := promoteAtPath_eq (⟨id, leaf⟩ :: rest) hm hfull hroom
        simp only at hprom
        unfold Reaches Refused at hprom ⊢
        rw [hcall]
        exact hprom
      · rw [if_neg hroom] at hcall
        have hsplit := splitAtPath_eq leaf rest hm hfull (s.insertSlot key δ)
        unfold Reaches Refused at hsplit ⊢
        rw [hcall]
        exact hsplit

end Path

/-! ### A record at a new position -/

/-- **A page depends on the position of one of its records** in its rep and its two boundaries. -/
theorem pageOf_setLeaf (c : TreeCtx) (k : ByteView) (p p' : Position) :
    pageOf (c.fill (.leaf k p')) = { pageOf (c.fill (.leaf k p)) with
      reps := (pageOf (c.fill (.leaf k p))).reps.setIfInBounds c.slot ⟨p'⟩
      firstPos := if c.slot = 0 then p' else (c.fill (.leaf k p)).first
      lastPos := if c.slot = (c.fill (.leaf k p)).width - 1 then p'
        else (c.fill (.leaf k p)).last } := by
  have hpre : (c.fill (.leaf k p')).preorder = (c.fill (.leaf k p)).preorder := by
    rw [Ctx.preorder_fill, Ctx.preorder_fill]
    rfl
  have hwidth : (c.fill (.leaf k p')).width = (c.fill (.leaf k p)).width := by
    rw [Ctx.width_fill, Ctx.width_fill]
    rfl
  have hslot := slot_lt_width c (.leaf k p)
  have hfirst : (c.fill (.leaf k p')).first
      = if c.slot = 0 then p' else (c.fill (.leaf k p)).first := by
    rcases first_fill_eq c (.leaf k p') with ⟨h0, hx⟩ | ⟨h0, hx⟩
    · rw [if_pos h0, hx]
      rfl
    · rw [if_neg h0]
      exact (hx _).symm
  have hlast : (c.fill (.leaf k p')).last
      = if c.slot = (c.fill (.leaf k p)).width - 1 then p' else (c.fill (.leaf k p)).last := by
    rw [← hwidth]
    rcases last_fill_eq c (.leaf k p') trivial with ⟨h0, hx⟩ | ⟨h0, hx⟩
    · rw [if_pos h0, hx]
      rfl
    · rw [if_neg h0]
      exact (hx _).symm
  have hreps : repTable (c.fill (.leaf k p')).items
      = (repTable (c.fill (.leaf k p)).items).setIfInBounds c.slot ⟨p'⟩ := by
    have hlen : (c.leftItems.map repOf).length = c.slot := by rw [List.length_map]; rfl
    rw [repTable, repTable, Ctx.items_fill, Ctx.items_fill]
    simp only [List.map_append, items, List.map_cons, List.map_nil]
    rw [← hlen, List.append_assoc, List.append_assoc]
    exact (set_pad _ _ _ _).symm
  simp only [pageOf, hpre, hwidth, hfirst, hlast, hreps]

section SetLeaf

variable {ix : Index} {z : TreePath} {id : UInt64} {c : TreeCtx} {k : ByteView}
  {p p' : Position} {leaf : ℕ} {rest : List PutFrame}

variable (leaf rest) in
/-- **A record moved to a new position**: its page is written and the boundaries above follow. -/
theorem setLeaf_holds (h : Holds ix.nodes.page? (z.fill (.page id (c.fill (.leaf k p)))))
    (hp : p'.toNat < 2 ^ 63) :
    ∃ ns, (do
        writePage id (pageOf (c.fill (.leaf k p')))
        propagateBoundary ((framesOf z).reverse ++ ⟨id, leaf⟩ :: rest) z.length
          (c.fill (.leaf k p)).first (c.fill (.leaf k p)).last : IndexM Unit) ix
        = .ok () { ix with nodes := ns } ∧
      ns.nodes.length = ix.nodes.nodes.length ∧
      Holds ns.page? (z.fill (.page id (c.fill (.leaf k p')))) := by
  obtain ⟨hframe, hz⟩ := frames_at z ⟨id, leaf⟩ rest
  have hat := h.pageAt
  have hids : (c.fill (.leaf k p')).ids = (c.fill (.leaf k p)).ids := by
    rw [Ctx.ids_fill, Ctx.ids_fill]
    rfl
  have hnd := Path.nodup_fill.mp h.nodup
  obtain ⟨hnd1, hnd2, hdisj⟩ := List.nodup_append.mp hnd
  have hnotin : id ∉ (c.fill (.leaf k p)).ids := (List.nodup_cons.mp hnd1).1
  obtain ⟨ns, hrun, hlen, hpages⟩ := writePage_run ix (pageOf (c.fill (.leaf k p')))
    hat.page_eq
  have hst : Stored ns.page? (.page id (c.fill (.leaf k p'))) := by
    rw [hpages]
    refine ⟨pageAt_update_self ?_ hat.id_lt, Stored.update ?_ (by rw [hids]; exact hnotin)⟩
    · rw [Ctx.width_fill]
      have := hat.width_le
      rw [Ctx.width_fill] at this
      exact this
    · exact (Ctx.allPages_fill c _).mpr ⟨trivial, ((Ctx.allPages_fill c _).mp h.stored_below).2⟩
  have hkeys : ∀ e ∈ (PagedTree.page id (c.fill (.leaf k p')) : Tree).entries,
      e = (k, p') ∨ e ∈ (PagedTree.page id (c.fill (.leaf k p)) : Tree).entries := by
    intro e he
    simp only [entries, Ctx.entries_fill, List.mem_append, List.mem_singleton] at he ⊢
    tauto
  obtain ⟨ns', hrun', hlen', hholds⟩ := propagate_holds _ { ix with nodes := ns } h hframe hz
    hst
    (fun j hj => by
      show ns.page? j = _
      rw [hpages, update_ne]
      rintro rfl
      exact hdisj j List.mem_cons_self j hj rfl)
    (Path.Valid.fill_congr h.valid
      (Valid.fill_congr (s := .leaf k p) (u := .leaf k p') h.valid_below trivial (fun e he =>
        ⟨(k, p), List.mem_singleton_self _, by rw [List.mem_singleton.mp he]⟩))
      (fun e he => by
        rcases hkeys e he with rfl | he
        · refine ⟨(k, p), ?_, rfl⟩
          simp [entries, Ctx.entries_fill]
        · exact ⟨e, he, rfl⟩))
    (fun e he => by
      have hmem : e = (k, p') ∨ e ∈ (z.fill (.page id (c.fill (.leaf k p)))).entries := by
        simp only [Path.entries_fill, List.mem_append] at he ⊢
        have := hkeys e
        tauto
      rcases hmem with rfl | hmem
      · refine ⟨(h.sized (k, p) ?_).1, hp⟩
        refine Holds.mem_below _ ?_
        rw [Ctx.entries_fill]
        simp [entries]
      · exact h.sized e hmem)
    (by simp only [ids, hids]; exact hnd)
    (fun j => by
      show (ns.page? j).isSome ↔ _
      simp only [ids, hids]
      rw [show id :: (c.fill (.leaf k p)).ids = (PagedTree.page id (c.fill (.leaf k p))).ids from rfl,
        ← Path.mem_ids_fill, ← h.alloc j, hpages]
      by_cases hj : j = id
      · subst hj
        rw [Function.update_self, hat.page_eq]
        exact ⟨fun _ => rfl, fun _ => rfl⟩
      · rw [update_ne hj])
  exact ⟨ns', by rw [Prog.bind_ok hrun]; exact hrun', hlen'.trans hlen, hholds⟩

end SetLeaf

/-! ### The descent -/

/-- What a put at a tree returns. -/
def putAnswer (key : ByteView) (t : Tree) : PutResult :=
  if (t.find key).1 = key then ⟨(t.find key).2, true⟩ else ⟨0, false⟩

/-- The pages after a put at the tree `t`: they hold a tree with the new entry under its root. -/
def PutDone (grow : ℕ) (m : IndexM PutResult) (ix : Index) (t : Tree) (key : ByteView)
    (pos : Position) : Prop :=
  ∃ ns t', m ix = .ok (putAnswer key t) { ix with nodes := ns } ∧
    ns.nodes.length ≤ ix.nodes.nodes.length + grow ∧ Holds ns.page? t' ∧
    (∀ e, e ∈ t'.entries ↔ e = (key, pos) ∨ (e ∈ t.entries ∧ e.1 ≠ key)) ∧
    ∀ r s, t = .page r s → Path.NotPage s → ∃ s', t' = .page r s' ∧ Path.NotPage s'

/-- What a put reads is known: the stored keys and the new one. -/
def KnowsPut (records : Position → Result ByteView) (t : Tree) (key : ByteView) (pos : Position) :
    Prop := Knows records t ∧ records pos = .ok key

/-- The record store answers what a put reads, or not at all. -/
def KnowsPutOrFails (records : Position → Result ByteView) (t : Tree) (key : ByteView)
    (pos : Position) : Prop :=
  KnowsOrFails records t ∧ (records pos = .ok key ∨ ∃ code, records pos = err code)

section Descent

variable {alloc : IndexM UInt64} {grow : ℕ} {records : Position → Result ByteView} {ix : Index}
  {key : ByteView} {pos : Position}

variable (records ix pos) in
/-- **A new key** at the record the descent ended at. -/
theorem insertAt_new {w : TreePath} {k : ByteView} {v : Position} (hne : w ≠ [])
    (h : Holds ix.nodes.page? (Path.fill w.reverse (.leaf k v))) (halong : Path.Along key w)
    (hk : KnowsPutOrFails records (Path.fill w.reverse (.leaf k v)) key pos)
    (ha : AllocAt alloc grow ix) (hkey : key.length ≤ kMaxKeySize) (hp : pos.toNat < 2 ^ 63)
    (hkk : key ≠ k) :
    let call : IndexM PutResult := do
      let slot ← readNodes fun ns =>
        insertSlotFromPath ns key (compareKeys key k) (firstDiff key k) 0 (rootFrames w)
      insertAtPath alloc records (rootFrames w) slot.target slot.slot ⟨pos⟩ key (firstDiff key k)
      pure ⟨0, false⟩
    PutDone grow call ix (Path.fill w.reverse (.leaf k v)) key pos ∨
    Refused alloc (KnowsPut records (Path.fill w.reverse (.leaf k v)) key pos) call ix := by
  intro call
  obtain ⟨w₁, c, i, w₂, s, hw, hrun, hfill, hvalid⟩ := exists_insertTarget h hne halong hkk
  subst hw
  rw [← hfill] at h hk ⊢
  have hfind : (Path.fill w₁.reverse (.page i s) : Tree).find key = (k, v) := by
    rw [hfill, Path.find_fill (fun ci hci => halong ci (List.mem_reverse.mp hci))]
    rfl
  have hkeyne : ∀ e ∈ (Path.fill w₁.reverse (.page i s) : Tree).entries, e.1 ≠ key := by
    rintro ⟨k', v'⟩ he rfl
    have := h.valid.find_of_mem he
    rw [hfind] at this
    exact hkk (Prod.mk.inj this).1.symm
  have hmem : ∀ e, e ∈ (Path.fill w₁.reverse (.page i
        (insertPage key (firstDiff key k) (.leaf key pos) s))).entries ↔
      e = (key, pos) ∨ e ∈ (Path.fill w₁.reverse (.page i s)).entries := by
    intro e
    simp only [Path.entries_fill, entries, List.mem_append, mem_entries_insertPage,
      List.mem_singleton]
    tauto
  have hm : MayInsert alloc grow records ix w₁.reverse i s
      (insertPage key (firstDiff key k) (.leaf key pos) s) := by
    refine ⟨h, hvalid pos, ?_, ?_, ha⟩
    · intro e he
      rcases (hmem e).mp he with rfl | he
      · exact ⟨hkey, hp⟩
      · exact h.sized e he
    · intro e he
      rcases mem_entries_insertPage.mp he with he | he
      · rw [List.mem_singleton.mp he]
        exact hk.2
      · exact hk.1 e (Holds.mem_below _ he)
  have hknown : KnowsPut records (Path.fill w₁.reverse (.page i s)) key pos →
      Knows records (insertPage key (firstDiff key k) (.leaf key pos) s) := by
    intro hall e he
    rcases mem_entries_insertPage.mp he with he | he
    · rw [List.mem_singleton.mp he]
      exact hall.2
    · exact hall.1 e (Holds.mem_below _ he)
  have hframes : rootFrames (w₁ ++ (c, i) :: w₂)
      = (framesOf w₁.reverse).reverse ++ ⟨i, c.slot⟩ :: rootFrames w₂ := by
    rw [← rootFrames_eq, List.reverse_reverse, rootFrames, List.map_append]
    rfl
  have hcall : call ix = (do
      insertAtPath alloc records ((framesOf w₁.reverse).reverse ++ ⟨i, c.slot⟩ :: rootFrames w₂)
        w₁.reverse.length (s.insertSlot key (firstDiff key k)) ⟨pos⟩ key (firstDiff key k)
      pure ⟨0, false⟩ : IndexM PutResult) ix := by
    show (readNodes _ >>= _) ix = _
    rw [Prog.bind_ok (readNodes_run hrun), hframes, List.length_reverse]
  rcases insertAtPath_eq c.slot (rootFrames w₂) hm hp with
    ⟨ns, t', hrun', hlen, hholds, hent, hroot⟩ | hrefused
  · left
    refine ⟨ns, t', ?_, hlen, hholds, ?_, hroot⟩
    · rw [hcall, Prog.bind_ok hrun', putAnswer, hfind, if_neg (Ne.symm hkk)]
      rfl
    · intro e
      rw [hent, hmem e]
      refine or_congr_right ⟨fun he => ⟨he, hkeyne e he⟩, fun he => he.1⟩
  · right
    obtain ⟨code, hrun', hwhy⟩ := hrefused.mono hknown
    exact ⟨code, by rw [hcall, Prog.bind_error hrun'], hwhy⟩

/-- The entries with one moved to a new position. -/
theorem mem_entries_setLeaf {z : TreePath} {c : TreeCtx} {id : UInt64} {k : ByteView}
    {p : Position} (p' : Position) (hv : (z.fill (.page id (c.fill (.leaf k p)))).Valid)
    (e : ByteView × Position) :
    e ∈ (z.fill (.page id (c.fill (.leaf k p')))).entries ↔
      e = (k, p') ∨ (e ∈ (z.fill (.page id (c.fill (.leaf k p)))).entries ∧ e.1 ≠ k) := by
  have hsplit : ∀ q : Position, (z.fill (.page id (c.fill (.leaf k q)))).entries
      = (z.leftEntries ++ c.leftEntries) ++ [(k, q)] ++ (c.rightEntries ++ z.rightEntries) := by
    intro q
    rw [Path.entries_fill]
    simp only [entries, Ctx.entries_fill, List.append_assoc]
  rw [hsplit p']
  exact SortedMap.insert_middle (m := ⟨_, hv.sorted⟩) (hsplit p) e

/-- **The record the descent ended at**: replaced, or a new key beside it. -/
theorem insertOrReplaceAt_eq {z : TreePath} {id : UInt64} {c : TreeCtx} {k : ByteView}
    {v : Position} (h : Holds ix.nodes.page? (z.fill (.page id (c.fill (.leaf k v)))))
    (halong : Path.Along key ((c, id) :: z))
    (hk : KnowsPutOrFails records (z.fill (.page id (c.fill (.leaf k v)))) key pos)
    (ha : AllocAt alloc grow ix) (hkey : key.length ≤ kMaxKeySize) (hp : pos.toNat < 2 ^ 63) :
    let call := insertOrReplaceAt alloc records key ⟨pos⟩ (framesOf ((c, id) :: z)).reverse id
      (pageOf (c.fill (.leaf k v))) c.slot v
    PutDone grow call ix (z.fill (.page id (c.fill (.leaf k v)))) key pos ∨
    Refused alloc (KnowsPut records (z.fill (.page id (c.fill (.leaf k v)))) key pos) call ix := by
  intro call
  have hleaf : (k, v) ∈ (c.fill (.leaf k v) : Tree).entries := by
    rw [Ctx.entries_fill]
    simp [entries]
  have hmem := Holds.mem_below id (z := z) hleaf
  rcases (hk.1 _ hmem).symm with ⟨code, hfails⟩ | hknown
  · right
    refine ⟨code, Prog.bind_error ?_, Or.inr fun hall => ?_⟩
    · rw [recordKey_err hfails]
      rfl
    · rw [hall.1 _ hmem] at hfails
      exact absurd hfails (by simp [err])
  have hread := recordKey_ok hknown (h.sized _ hmem).1
  have hfind : (z.fill (.page id (c.fill (.leaf k v))) : Tree).find key = (k, v) :=
    Path.find_fill (z := (c, id) :: z) halong
  have hframes : (framesOf ((c, id) :: z)).reverse = (framesOf z).reverse ++ [⟨id, c.slot⟩] := by
    rw [framesOf, List.map_cons, List.reverse_cons]
    rfl
  have hlen : ((framesOf z).reverse ++ [⟨id, c.slot⟩] : List PutFrame).length - 1 = z.length := by
    rw [List.length_append, List.length_reverse, framesOf, List.length_map]
    rfl
  by_cases hkk : key = k
  · subst hkk
    left
    obtain ⟨ns, hrun, hlen', hholds⟩ := setLeaf_holds c.slot [] h hp
    have hpage := pageOf_setLeaf c key v pos
    simp only [pageOf_size] at hpage
    refine ⟨ns, _, ?_, by omega, hholds, mem_entries_setLeaf _ h.valid, ?_⟩
    · show insertOrReplaceAt alloc records key ⟨pos⟩ _ id _ c.slot v ix = _
      rw [insertOrReplaceAt, Prog.bind_ok (ofOutcome_run hread), if_pos (compareKeys_eq_zero.mpr rfl),
        Prog.bind_ok (readNodes_run (minPosIf_record hp _ _)),
        Prog.bind_ok (readNodes_run (maxPosIf_record hp _ _)), pageOf_size, pageOf_firstPos,
        pageOf_lastPos, ← hpage, hframes, hlen, ← bind_assoc,
        Prog.bind_ok hrun, putAnswer, hfind, if_pos rfl]
      rfl
    · intro r t hrt ht
      refine Path.root_fill _ hrt ht (fun hz => ?_)
      subst hz
      simp only [Path.fill, PagedTree.page.injEq] at hrt
      obtain ⟨rfl, rfl⟩ := hrt
      exact Path.notPage_fill ht (fun _ i s h' => PagedTree.noConfusion rfl rfl rfl (heq_of_eq h'))
  · have hrev : Path.fill ((c, id) :: z).reverse.reverse (.leaf k v : Tree)
        = z.fill (.page id (c.fill (.leaf k v))) := by
      rw [List.reverse_reverse]
      rfl
    have hnewkey := insertAt_new records ix pos (w := ((c, id) :: z).reverse) (k := k) (v := v) (by simp)
      (by rw [hrev]; exact h) (fun ci hci => halong ci (List.mem_reverse.mp hci))
      (by rw [hrev]; exact hk) ha hkey hp hkk
    simp only [hrev] at hnewkey
    have hcall : call ix = (do
        let slot ← readNodes fun ns => insertSlotFromPath ns key (compareKeys key k)
          (firstDiff key k) 0 (rootFrames ((c, id) :: z).reverse)
        insertAtPath alloc records (rootFrames ((c, id) :: z).reverse) slot.target slot.slot ⟨pos⟩ key
          (firstDiff key k)
        pure ⟨0, false⟩ : IndexM PutResult) ix := by
      show insertOrReplaceAt alloc records key ⟨pos⟩ _ id _ c.slot v ix = _
      rw [insertOrReplaceAt, Prog.bind_ok (ofOutcome_run hread),
        if_neg (fun h0 => hkk (compareKeys_eq_zero.mp h0)),
        Prog.bind_ok (ofOutcome_run (findDiffBit_eq hkey
          (h.sized _ (Holds.mem_below id (z := z) hleaf)).1 hkk)), rootFrames_eq]
    unfold PutDone Refused at hnewkey ⊢
    rw [hcall]
    exact hnewkey

/-- **The descent of `InsertOrReplace`**, from any page on the way of the key. -/
theorem insertLoop_eq (hkey : key.length ≤ kMaxKeySize) (hp : pos.toNat < 2 ^ 63)
    (ha : AllocAt alloc grow ix) : ∀ (fuel : ℕ) (z : TreePath) (id : UInt64) (s : Tree),
    s.depth ≤ fuel → Holds ix.nodes.page? (z.fill (.page id s)) → Path.Along key z →
    KnowsPutOrFails records (z.fill (.page id s)) key pos →
    PutDone grow (insertLoop alloc records key ⟨pos⟩ fuel (framesOf z).reverse id) ix (z.fill (.page id s))
      key pos ∨
    Refused alloc (KnowsPut records (z.fill (.page id s)) key pos)
      (insertLoop alloc records key ⟨pos⟩ fuel (framesOf z).reverse id) ix
  | 0, _, _, s, hd, _, _, _ => by
    have : 1 ≤ s.depth := one_le_depth s
    omega
  | fuel + 1, z, id, s, hd, h, halong, hk => by
    obtain ⟨c, x, hs, hal, hx⟩ := descent_step key s
    have hitem : x.IsItem := by
      rcases hx with ⟨k, v, rfl⟩ | ⟨j, s', rfl, _⟩ <;> trivial
    obtain ⟨hlookup, hrep⟩ := lookup_run h.pageAt h.valid_below h.sized_below hitem hs hal
    have hw := width_pos s
    have hrun : insertLoop alloc records key ⟨pos⟩ (fuel + 1) (framesOf z).reverse id ix
        = (if (repOf x).isChild then
            insertLoop alloc records key ⟨pos⟩ fuel ((framesOf z).reverse ++ [⟨id, c.slot⟩])
              (repOf x).childId
          else insertOrReplaceAt alloc records key ⟨pos⟩ ((framesOf z).reverse ++ [⟨id, c.slot⟩]) id
            (pageOf s) c.slot (repOf x).position) ix := by
      rw [insertLoop, Prog.bind_ok (nodeByID_run h.pageAt.page_eq), pageOf_size,
        if_neg (by omega), Prog.bind_ok (ofOutcome_run hlookup), if_neg (by simp),
        Prog.bind_ok (ofOutcome_run hrep)]
    have hframes : (framesOf z).reverse ++ [⟨id, c.slot⟩] = (framesOf ((c, id) :: z)).reverse := by
      rw [framesOf, framesOf, List.map_cons, List.reverse_cons]
    rw [hframes] at hrun
    have halong' : Path.Along key ((c, id) :: z) := by
      intro ci hci
      rcases List.mem_cons.mp hci with rfl | hci
      · exact hal
      · exact halong ci hci
    unfold PutDone Refused
    subst hs
    rcases hx with ⟨k, v, rfl⟩ | ⟨j, s', rfl, hdepth⟩
    · have hsv : v.toNat < 2 ^ 63 := by
        refine (h.sized_below (k, v) ?_).2
        rw [Ctx.entries_fill]
        simp [entries]
      obtain ⟨h1, h2⟩ := repOf_leaf (k := k) hsv
      rw [h1, if_neg (by decide), h2] at hrun
      rw [hrun]
      exact insertOrReplaceAt_eq h halong' hk ha hkey hp
    · have hj : j.toNat < 2 ^ 63 := (Holds.pageAt (z := (c, id) :: z) h).id_lt
      obtain ⟨h1, h2⟩ := repOf_page (t := s') hj
      rw [h1, if_pos rfl, h2] at hrun
      rw [hrun]
      exact insertLoop_eq hkey hp ha fuel ((c, id) :: z) j s' (by omega) h halong' hk

end Descent

/-! ### The whole call -/

/-- The leaf a key is routed to decides whether it is present. -/
theorem get?_eq_find {t : Tree} (hv : t.Valid) (q : ByteView) :
    (⟨t.entries, hv.sorted⟩ : SortedMap ByteView Position).get? q
      = if (t.find q).1 = q then some (t.find q).2 else none := by
  by_cases hf : (t.find q).1 = q
  · rw [if_pos hf, ← SortedMap.mem_entries_iff]
    have := find_mem q t
    rwa [show t.find q = (q, (t.find q).2) from Prod.ext hf rfl] at this
  · rw [if_neg hf, SortedMap.get?_eq_none_iff]
    intro v hv'
    exact hf (by rw [hv.find_of_mem hv'])

/-- What `Put` answers about the position stored before. -/
def putResult : Option Position → PutResult
  | some v => ⟨v, true⟩
  | none => ⟨0, false⟩

theorem putAnswer_eq {t : Tree} (hv : t.Valid) (q : ByteView) :
    putAnswer q t = putResult ((⟨t.entries, hv.sorted⟩ : SortedMap ByteView Position).get? q) := by
  rw [get?_eq_find hv, putAnswer]
  split <;> rfl

section Spec

variable {alloc : IndexM UInt64} {grow : ℕ} {records : Position → Result ByteView} {ix : Index}
  {key : ByteView} {pos : Position}

/-- The call returns with the answer and an index for the map, in at most `grow` more pages. -/
def Answers {α : Type} (m : IndexM α) (ix : Index) (a : α) (map : SortedMap ByteView Position)
    (grow : ℕ) : Prop :=
  ∃ ix' o, ∃ h : Represents ix' o, m ix = .ok a ix' ∧ toMap h = map ∧
    ix'.nodes.nodes.length ≤ ix.nodes.nodes.length + grow

theorem insertOrReplace_run (rep : Rep) : insertOrReplace alloc records key rep ix
    = insertLoop alloc records key rep ix.fuel [] ix.rootId ix := by
  rw [insertOrReplace, Prog.get_bind]

theorem insertOrReplace_some {t : Tree} (h : Represents ix (some t))
    (hk : KnowsPutOrFails records t key pos) (ha : AllocAt alloc grow ix)
    (hkey : key.length ≤ kMaxKeySize) (hp : pos.toNat < 2 ^ 63) :
    PutDone grow (insertOrReplace alloc records key ⟨pos⟩) ix (.page ix.rootId t) key pos ∨
    Refused alloc (KnowsPut records t key pos) (insertOrReplace alloc records key ⟨pos⟩) ix := by
  obtain ⟨_, _, hholds, _⟩ := h
  have hdepth := hholds.depth_le
  have hloop := insertLoop_eq hkey hp ha ix.fuel [] ix.rootId t
    (by simp only [depth, Index.fuel] at hdepth ⊢; omega) hholds
    (fun ci hci => absurd hci List.not_mem_nil) hk
  unfold PutDone Refused at hloop ⊢
  rw [insertOrReplace_run]
  exact hloop

/-- **`Put` refines the map update, or changes nothing**: there was no page to be had, or a key
could not be read. -/
theorem putWith_spec {o : Option Tree} (h : Represents ix o)
    (hk : KnowsAllOrFails records (entriesOf o))
    (hnew : records pos = .ok key ∨ ∃ code, records pos = err code) (ha : AllocAt alloc grow ix)
    (hkey : key.length ≤ kMaxKeySize) (hp : pos.toNat < 2 ^ 63) :
    Answers (putWith alloc records key pos) ix (putResult ((toMap h).get? key))
      ((toMap h).insert key pos) grow ∨
    Refused alloc (KnowsAll records (entriesOf o) ∧ records pos = .ok key)
      (putWith alloc records key pos) ix := by
  have hcheck := checkKeySize_ok hkey
  have hrep := Rep.makeRecord_eq hp
  have hput : putWith alloc records key pos ix = (do
      let result ← insertOrReplace alloc records key ⟨pos⟩
      if result.replaced = false then do
        modify fun ix => { ix with count := ix.count + 1 }
        pure result
      else pure result : IndexM PutResult) ix := by
    rw [putWith, Prog.bind_ok (ofOutcome_run hcheck), Prog.bind_ok (ofOutcome_run hrep)]
  cases o with
  | none =>
    left
    obtain ⟨hroot, hcount, hpage, halloc⟩ := h
    obtain ⟨ns, hrun, hlen, hpages⟩ := insertAtIncremental_empty alloc records key pos (δ := 0)
      hpage hp
    have hholds : Holds ns.page? (.page ix.rootId (.leaf key pos)) := by
      refine ⟨⟨?_, trivial⟩, trivial, ?_, List.nodup_singleton _, fun j => ?_⟩
      · rw [hpages]
        exact pageAt_update_self (by rw [width]; decide) (HeapNodeStore.toNat_lt_of_page? _ hpage)
      · intro e he
        rw [List.mem_singleton.mp he]
        exact ⟨hkey, hp⟩
      · rw [hpages]
        by_cases hj : j = ix.rootId
        · subst hj
          simp [ids]
        · rw [update_ne hj, halloc j]
          simp [ids]
    refine ⟨{ ix with nodes := ns, count := ix.count + 1 }, some (.leaf key pos),
      ⟨hroot, by show ix.count + 1 = _; rw [hcount]; rfl, hholds,
        fun i s h' => PagedTree.noConfusion rfl rfl rfl (heq_of_eq h')⟩, ?_, rfl, ?_⟩
    · have hloop : insertOrReplace alloc records key ⟨pos⟩ ix
          = .ok ⟨0, false⟩ { ix with nodes := ns } := by
        rw [insertOrReplace_run, Index.fuel, insertLoop, Prog.bind_ok (nodeByID_run hpage),
          if_pos (by rfl), Prog.bind_ok hrun, Prog.pure_run]
      rw [hput, Prog.bind_ok hloop]
      rfl
    · simp only at hlen ⊢
      omega
  | some t =>
    have hv : (PagedTree.page ix.rootId t : Tree).Valid := h.2.2.1.valid
    have hanswer := putAnswer_eq hv key
    obtain ⟨hroot, hcount, hholds, hnp⟩ := id h
    rcases insertOrReplace_some h ⟨hk, hnew⟩ ha hkey hp with
      ⟨ns, t', hrun, hlen, hholds', hmem, hkeep⟩ | ⟨code, hrun, hwhy⟩
    · left
      obtain ⟨s', rfl, hnp'⟩ := hkeep ix.rootId t rfl hnp
      have hmap : (⟨s'.entries, hholds'.valid.sorted⟩ : SortedMap ByteView Position)
          = (toMap h).insert key pos := by
        refine SortedMap.ext_mem (fun e => ?_)
        rw [SortedMap.mem_insert]
        exact hmem e
      have hsize : s'.entries.length = ((toMap h).insert key pos).size := by
        rw [← hmap]
        rfl
      rw [hanswer] at hrun
      change insertOrReplace alloc records key ⟨pos⟩ ix
        = .ok (putResult ((toMap h).get? key)) { ix with nodes := ns } at hrun
      cases hget : (toMap h).get? key with
      | none =>
        rw [hget] at hrun
        rw [SortedMap.size_insert_of_none pos hget] at hsize
        refine ⟨{ ix with nodes := ns, count := ix.count + 1 }, some s',
          ⟨hroot, ?_, hholds', hnp'⟩, ?_, hmap, hlen⟩
        · show ix.count + 1 = _
          rw [hsize, hcount, Int32.ofNat_add]
          rfl
        · rw [hput, Prog.bind_ok hrun]
          rfl
      | some v =>
        rw [hget] at hrun
        rw [SortedMap.size_insert_of_some pos hget] at hsize
        refine ⟨{ ix with nodes := ns }, some s', ⟨hroot, ?_, hholds', hnp'⟩, ?_, hmap, hlen⟩
        · show ix.count = _
          rw [hsize, hcount]
          rfl
        · rw [hput, Prog.bind_ok hrun]
          rfl
    · right
      exact ⟨code, by rw [hput, Prog.bind_error hrun], hwhy⟩

/-- The call could not get a page, and has changed nothing. -/
def Exhausted {α : Type} (m : IndexM α) (ix : Index) : Prop :=
  m ix = .error (.status .positionTag) ix ∧ ix.nodes.nodes.length = 2 ^ 63

/-- **`Put` refines the map update** when all keys are known. -/
theorem put_spec {o : Option Tree} (h : Represents ix o) (hk : KnowsAll records (entriesOf o))
    (hkey : key.length ≤ kMaxKeySize) (hp : pos.toNat < 2 ^ 63) (hnew : records pos = .ok key) :
    Answers (put records key pos) ix (putResult ((toMap h).get? key)) ((toMap h).insert key pos) 1 ∨
    Exhausted (put records key pos) ix := by
  refine (putWith_spec h hk.orFails (Or.inl hnew) (allocAt_allocNode ix) hkey hp).imp_right ?_
  rintro ⟨code, hrun, halloc | hunknown⟩
  · rcases allocNode_run ix with ⟨id, ns, hok, _⟩ | ⟨herr, hlen⟩
    · rw [hok] at halloc
      exact absurd halloc (by simp)
    · rw [herr] at halloc
      obtain ⟨hcode, _⟩ := EStateM.Result.error.inj halloc
      exact ⟨hcode ▸ hrun, hlen⟩
  · exact absurd ⟨hk, hnew⟩ hunknown

end Spec

end MinweightStore.Minpatricia
