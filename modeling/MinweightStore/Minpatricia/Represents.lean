import MinweightStore.Base.SortedMap
import MinweightStore.Minpatricia.PageWrites

/-!
# Indexes that represent a tree

`Represents ix t` is the invariant of the index: the pages in use are the root and the page
boundaries of the tree, each once, and each stores its part of it; the tree is valid, its root is
more than a single child, and the cached count is the number of its entries.

* `Holds` — the same for the pages alone; `Holds.replace`, `propagate_holds` — replacing what is
  below one page of a path;
* `descent_step` — one page of a walk down: its lookup and the rep it ends at;
* `toMap` — the map a represented tree stands for.
-/

namespace MinweightStore.Minpatricia

open BitKey PagedTree

/-! ### Pages that hold a tree -/

/-- The pages in use are the page boundaries of `t`, and store it. -/
structure Holds (pages : Pages) (t : Tree) : Prop where
  stored : Stored pages t
  valid : t.Valid
  sized : Sized t
  nodup : t.ids.Nodup
  alloc : ∀ j, (pages j).isSome ↔ j ∈ t.ids

theorem Stored.exists_page {pages : Pages} : ∀ {t : Tree}, Stored pages t → ∀ {i : UInt64},
    i ∈ t.ids → ∃ s, PageAt pages i s
  | .leaf _ _, _, _, hi => absurd hi List.not_mem_nil
  | .page j t, h, i, hi => by
    rcases List.mem_cons.mp hi with rfl | hi
    · exact ⟨t, h.1⟩
    · exact Stored.exists_page h.2 hi
  | .node _ l r, h, i, hi => (List.mem_append.mp hi).elim (Stored.exists_page h.1)
      (Stored.exists_page h.2)

theorem Stored.isSome {pages : Pages} {t : Tree} (h : Stored pages t) {i : UInt64}
    (hi : i ∈ t.ids) : (pages i).isSome := by
  obtain ⟨s, hs⟩ := h.exists_page hi
  rw [hs.page_eq]
  rfl

/-- Pages that agree on the identifiers of a tree store it alike. -/
theorem Stored.congr {pages pages' : Pages} {t : Tree} (h : Stored pages t)
    (heq : ∀ j ∈ t.ids, pages' j = pages j) : Stored pages' t :=
  AllPages.congr t (fun i hi _ hs => ⟨(heq i hi).trans hs.page_eq, hs.width_le, hs.id_lt⟩) h

theorem allRest_congr {pages pages' : Pages} {c : TreeCtx} (h : c.AllRest (PageAt pages))
    (heq : ∀ j ∈ c.leftIds ++ c.rightIds, pages' j = pages j) : c.AllRest (PageAt pages') :=
  Ctx.AllRest.congr (fun i hi _ hs => ⟨(heq i hi).trans hs.page_eq, hs.width_le, hs.id_lt⟩) h

theorem levels_of_eq {pages pages' : Pages} : ∀ {z : TreePath} {t : Tree},
    z.Levels (PageAt pages) t → (∀ j ∈ z.map Prod.snd, pages' j = pages j) →
    z.Levels (PageAt pages') t
  | [], _, _, _ => trivial
  | (_, i) :: _, _, h, heq =>
    ⟨⟨(heq i List.mem_cons_self).trans h.1.page_eq, h.1.width_le, h.1.id_lt⟩,
      levels_of_eq h.2 (fun j hj => heq j (List.mem_cons_of_mem _ hj))⟩

theorem levels_pageAt {pages : Pages} : ∀ {z : TreePath} {t : Tree}, z.Levels (PageAt pages) t →
    ∀ {j : UInt64}, j ∈ z.map Prod.snd → ∃ s, PageAt pages j s
  | [], _, _, _, hj => absurd hj List.not_mem_nil
  | (_, _) :: _, _, h, j, hj => by
    rcases List.mem_cons.mp hj with rfl | hj
    · exact ⟨_, h.1⟩
    · exact levels_pageAt h.2 hj

theorem level_subset_ids {z : TreePath} {j : UInt64} (hj : j ∈ z.map Prod.snd) : j ∈ z.ids := by
  obtain ⟨ci, hci, rfl⟩ := List.mem_map.mp hj
  exact Path.level_mem_ids hci

theorem levels_nodup : ∀ {z : TreePath}, z.ids.Nodup → (z.map Prod.snd).Nodup
  | [], _ => List.nodup_nil
  | (c, i) :: z, h => by
    obtain ⟨hi, hrest⟩ : i ∉ (c.leftIds ++ c.rightIds) ++ Path.ids z ∧
        ((c.leftIds ++ c.rightIds) ++ Path.ids z).Nodup := List.nodup_cons.mp h
    refine List.nodup_cons.mpr ⟨fun hm => hi ?_, levels_nodup (List.nodup_append.mp hrest).2.1⟩
    exact List.mem_append_right _ (level_subset_ids hm)

/-- **Replacing a subtree.**  The pages of the new subtree are there, the pages on the way store
the tree around it, the pages beside the way are as before. -/
theorem Holds.replace {pages pages' : Pages} {z : TreePath} {x y : Tree}
    (h : Holds pages (z.fill x)) (hy : Stored pages' y) (hlev : z.Levels (PageAt pages') y)
    (hbeside : ∀ ci ∈ z, ∀ j ∈ ci.1.leftIds ++ ci.1.rightIds, pages' j = pages j)
    (hvalid : (z.fill y).Valid) (hsized : Sized (z.fill y)) (hnd : (y.ids ++ z.ids).Nodup)
    (halloc : ∀ j, (pages' j).isSome ↔ j ∈ y.ids ∨ j ∈ z.ids) : Holds pages' (z.fill y) where
  stored := by
    refine (Path.allPages_fill z y).mpr ⟨hy, fun ci hci => ?_, hlev⟩
    exact allRest_congr (((Path.allPages_fill z x).mp h.stored).2.1 ci hci) (hbeside ci hci)
  valid := hvalid
  sized := hsized
  nodup := Path.nodup_fill.mpr hnd
  alloc := fun j => (halloc j).trans Path.mem_ids_fill.symm

/-- **After a change below one page of the path**, `PropagateBoundary` restores the pages above
it. -/
theorem propagate_holds {pages : Pages} {z : TreePath} {id : UInt64} {s : Tree} (s' : Tree) (ix : Index)
    {frames : List PutFrame} {changed leaf : ℕ}
    (h : Holds pages (z.fill (.page id s)))
    (hframe : frames[changed]? = some ⟨id, leaf⟩)
    (hz : (frames.take changed).reverse = framesOf z)
    (hst : Stored ix.nodes.page? (.page id s'))
    (hother : ∀ j ∈ z.ids, ix.nodes.page? j = pages j)
    (hvalid : (z.fill (.page id s')).Valid) (hsized : Sized (z.fill (.page id s')))
    (hnd : ((PagedTree.page id s' : Tree).ids ++ z.ids).Nodup)
    (halloc : ∀ j, (ix.nodes.page? j).isSome ↔ j ∈ (PagedTree.page id s' : Tree).ids ∨ j ∈ z.ids) :
    ∃ ns, propagateBoundary frames changed s.first s.last ix = .ok () { ix with nodes := ns } ∧
      ns.nodes.length = ix.nodes.nodes.length ∧ Holds ns.page? (z.fill (.page id s')) := by
  obtain ⟨hnd1, hnd2, hdisj⟩ := List.nodup_append.mp hnd
  obtain ⟨hx, hrest, hlev⟩ := (Path.allPages_fill z _).mp h.stored
  have hlev' : z.Levels (PageAt ix.nodes.page?) (.page id s) :=
    levels_of_eq hlev (fun j hj => hother j (level_subset_ids hj))
  have hid : id ∉ z.map Prod.snd := fun hm =>
    hdisj id List.mem_cons_self id (level_subset_ids hm) rfl
  obtain ⟨ns, hrun, hlen, hkeep, hlevs⟩ := propagateBoundary_eq hframe hz hst.1 hlev'
    (List.nodup_cons.mpr ⟨hid, levels_nodup hnd2⟩)
  refine ⟨ns, hrun, hlen, h.replace ?_ hlevs ?_ hvalid hsized hnd ?_⟩
  · refine hst.congr (fun j hj => hkeep j (fun hm => ?_))
    exact hdisj j hj j (level_subset_ids hm) rfl
  · intro ci hci j hj
    have hjl : j ∉ z.map Prod.snd := by
      intro hm
      obtain ⟨cj, hcj, hjeq⟩ := List.mem_map.mp hm
      exact Path.rest_ne_level hnd2 hci hj hcj hjeq.symm
    rw [hkeep j hjl, hother j (Path.rest_mem_ids hci hj)]
  · intro j
    by_cases hm : j ∈ z.map Prod.snd
    · obtain ⟨t, ht⟩ := levels_pageAt hlevs hm
      rw [ht.page_eq]
      exact ⟨fun _ => Or.inr (level_subset_ids hm), fun _ => rfl⟩
    · rw [hkeep j hm]
      exact halloc j

/-! ### The index invariant -/

/-- **The invariant of the index.**  Without entries the root page is empty; else the pages hold a
tree whose root is not a single child. -/
def Represents (ix : Index) : Option Tree → Prop
  | none => ix.rootId = HeapNodeStore.root ∧ ix.count = 0 ∧
      ix.nodes.page? ix.rootId = some NodePage.empty ∧
      ∀ j, (ix.nodes.page? j).isSome ↔ j = ix.rootId
  | some t => ix.rootId = HeapNodeStore.root ∧ ix.count = Int32.ofNat t.entries.length ∧
      Holds ix.nodes.page? (.page ix.rootId t) ∧ Path.NotPage t

/-- The entries of a represented tree. -/
def entriesOf : Option Tree → List (ByteView × Position)
  | none => []
  | some t => t.entries

theorem Represents.sorted {ix : Index} {o : Option Tree} (h : Represents ix o) :
    (entriesOf o).Pairwise (fun a b => a.1 < b.1) := by
  cases o with
  | none => exact List.Pairwise.nil
  | some t => exact Valid.sorted (t := .page ix.rootId t) h.2.2.1.valid

/-- The map of a represented tree. -/
def toMap {ix : Index} {o : Option Tree} (h : Represents ix o) : SortedMap ByteView Position :=
  ⟨entriesOf o, h.sorted⟩

/-- The record store knows every entry. -/
def KnowsAll (records : Position → Result ByteView) (l : List (ByteView × Position)) : Prop :=
  ∀ e ∈ l, records e.2 = .ok e.1

/-- The record store answers with the keys of the entries, or not at all. -/
def KnowsAllOrFails (records : Position → Result ByteView) (l : List (ByteView × Position)) :
    Prop := ∀ e ∈ l, records e.2 = .ok e.1 ∨ ∃ code, records e.2 = err code

theorem KnowsAll.orFails {records : Position → Result ByteView} {l : List (ByteView × Position)}
    (h : KnowsAll records l) : KnowsAllOrFails records l := fun e he => Or.inl (h e he)

/-! ### One page of a walk down -/

/-- An item below the turns of a key is where the key is routed to. -/
theorem slotCtx_of_along {q : ByteView} {x : Tree} (hx : x.IsItem) : ∀ {c : TreeCtx},
    c.Along q → (c.fill x).slotCtx q = (c, x)
  | .hole, _ => by
    cases x with
    | leaf k v => rfl
    | page i t => rfl
    | node d l r => exact hx.elim
  | .left d c r, h => by
    rw [Ctx.fill, slotCtx, if_neg (by rw [h.1]; decide), slotCtx_of_along hx h.2]
  | .right d l c, h => by
    rw [Ctx.fill, slotCtx, if_pos h.1, slotCtx_of_along hx h.2]

/-- A page of a tree that is held: what its lookup gives. -/
theorem lookup_run {pages : Pages} {id : UInt64} {s : Tree} (hp : PageAt pages id s)
    (hv : s.Valid) (hs : Sized s) {q : ByteView} {c : TreeCtx} {x : Tree} (hx : x.IsItem)
    (hfill : s = c.fill x) (halong : c.Along q) :
    (pageOf s).lookup q = .ok (c.slot, true) ∧ (pageOf s).repAt c.slot = .ok (repOf x) := by
  subst hfill
  have := lookup_eq q (hasRoutes_pageOf hp.width_le hv hs).routed
  rw [slotCtx_of_along hx halong] at this
  exact ⟨this, repAt_slot hx hp.width_le⟩

/-- Every page splits at the item a key is routed to. -/
theorem descent_step (q : ByteView) (s : Tree) :
    ∃ (c : TreeCtx) (x : Tree), s = c.fill x ∧ c.Along q ∧ ((∃ k v, x = .leaf k v) ∨
      ∃ (j : UInt64) (s' : Tree), x = .page j s' ∧ s'.depth < s.depth) := by
  refine ⟨(s.slotCtx q).1, (s.slotCtx q).2, (fill_slotCtx q s).symm, along_slotCtx q s, ?_⟩
  have hitem := isItem_slotCtx q s
  have hdepth := Ctx.depth_fill (s.slotCtx q).1 (s.slotCtx q).2
  rw [fill_slotCtx] at hdepth
  cases hx : (s.slotCtx q).2 with
  | leaf k v => exact Or.inl ⟨k, v, rfl⟩
  | page j s' =>
    rw [hx] at hdepth
    exact Or.inr ⟨j, s', rfl, hdepth⟩
  | node d l r =>
    rw [hx] at hitem
    exact hitem.elim

section Holds

variable {pages : Pages} {z : TreePath} {id : UInt64} {s : Tree}

/-- The page at the end of a path. -/
theorem Holds.pageAt (h : Holds pages (z.fill (.page id s))) : PageAt pages id s :=
  ((Path.allPages_fill z _).mp h.stored).1.1

theorem Holds.stored_below (h : Holds pages (z.fill (.page id s))) : Stored pages s :=
  ((Path.allPages_fill z _).mp h.stored).1.2

theorem Holds.valid_below (h : Holds pages (z.fill (.page id s))) : s.Valid :=
  Path.Valid.of_fill (z := z) (x := .page id s) h.valid

variable (id) in
theorem Holds.mem_below {e : ByteView × Position} (he : e ∈ s.entries) :
    e ∈ (z.fill (.page id s)).entries := by
  rw [Path.entries_fill]
  exact List.mem_append_left _ (List.mem_append_right _ he)

theorem Holds.sized_below (h : Holds pages (z.fill (.page id s))) : Sized s :=
  h.sized.of_subset (fun _ he => Holds.mem_below _ he)

/-- There are no more pages in the tree than in the store. -/
theorem Holds.length_ids_le {ns : HeapNodeStore} {t : Tree} (h : Holds ns.page? t) :
    t.ids.length ≤ ns.nodes.length := by
  have hlt : ∀ i ∈ t.ids, i.toNat < ns.nodes.length := by
    intro i hi
    obtain ⟨p, hp⟩ := h.stored.exists_page hi
    exact HeapNodeStore.lt_length_of_page? hp.page_eq
  have hsub : (t.ids.map UInt64.toNat) ⊆ List.range ns.nodes.length := by
    intro n hn
    obtain ⟨i, hi, rfl⟩ := List.mem_map.mp hn
    exact List.mem_range.mpr (hlt i hi)
  have hnd : (t.ids.map UInt64.toNat).Nodup :=
    h.nodup.map (fun a b hab => UInt64.toNat_inj.mp hab)
  have hle := (List.subperm_of_subset hnd hsub).length_le
  rwa [List.length_map, List.length_range] at hle

/-- The nesting of pages is bounded by the number of pages. -/
theorem Holds.depth_le {ns : HeapNodeStore} {t : Tree} (h : Holds ns.page? t) :
    t.depth ≤ ns.nodes.length + 1 :=
  le_trans (depth_le_length_ids t) (Nat.succ_le_succ h.length_ids_le)

end Holds

end MinweightStore.Minpatricia
