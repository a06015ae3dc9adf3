import MinweightStore.Base.PagedTreeOps

/-!
# The pages of a tree

A paged tree read as a graph of pages, and the tree that is left without its page boundaries.

* `subpages` — every page boundary with what is below it, `childIds` — the boundaries a page meets;
* `perm_childIds` — every boundary is met by one page;
* `strip` — the tree without boundaries; `strip_of_mem_subpages` — what is below a boundary is one
  node of it.
-/

namespace MinweightStore

open BitKey

namespace PagedTree

variable {K V I : Type}

/-- Every page boundary with the tree below it, in preorder. -/
def subpages : PagedTree K V I → List (I × PagedTree K V I)
  | leaf _ _ => []
  | page i t => (i, t) :: subpages t
  | node _ l r => subpages l ++ subpages r

/-- The boundaries among the items of the outermost page. -/
def childIds : PagedTree K V I → List I
  | leaf _ _ => []
  | page i _ => [i]
  | node _ l r => childIds l ++ childIds r

/-- The tree without its page boundaries. -/
def strip : PagedTree K V I → PagedTree K V I
  | leaf k v => leaf k v
  | page _ t => strip t
  | node d l r => node d (strip l) (strip r)

theorem map_fst_subpages (t : PagedTree K V I) : t.subpages.map Prod.fst = t.ids := by
  induction t with
  | leaf k v => rfl
  | page i t ih => rw [subpages, List.map_cons, ih, ids]
  | node d l r ihl ihr => rw [subpages, List.map_append, ihl, ihr, ids]

theorem childIds_eq (t : PagedTree K V I) : t.childIds = t.items.flatMap childIds := by
  induction t with
  | leaf k v => rfl
  | page i t ih => rfl
  | node d l r ihl ihr => rw [childIds, ihl, ihr, items, List.flatMap_append]

theorem subpages_eq (t : PagedTree K V I) : t.subpages = t.items.flatMap subpages := by
  induction t with
  | leaf k v => rfl
  | page i t ih => exact (List.append_nil _).symm
  | node d l r ihl ihr => rw [subpages, ihl, ihr, items, List.flatMap_append]

/-- **Every boundary is met once**: by the page it is in, or at the top. -/
theorem perm_childIds (t : PagedTree K V I) :
    (t.subpages.flatMap (fun p => p.2.childIds) ++ t.childIds).Perm t.ids := by
  induction t with
  | leaf k v => exact List.Perm.refl _
  | page i t ih =>
    rw [subpages, List.flatMap_cons, childIds, ids]
    refine (List.perm_append_singleton i _).trans (List.Perm.cons i ?_)
    exact List.perm_append_comm.trans ih
  | node d l r ihl ihr =>
    rw [subpages, List.flatMap_append, childIds, ids]
    refine List.Perm.trans ?_ (ihl.append ihr)
    rw [List.append_assoc, List.append_assoc]
    refine List.Perm.append_left _ ?_
    rw [← List.append_assoc, ← List.append_assoc]
    exact List.Perm.append_right _ List.perm_append_comm

/-- A property of the page boundaries, boundary by boundary. -/
theorem allPages_iff_subpages {P : I → PagedTree K V I → Prop} (t : PagedTree K V I) :
    AllPages P t ↔ ∀ p ∈ t.subpages, P p.1 p.2 := by
  induction t with
  | leaf k v => exact ⟨fun _ _ hp => absurd hp List.not_mem_nil, fun _ => trivial⟩
  | page i t ih => rw [AllPages, ih, subpages, List.forall_mem_cons]
  | node d l r ihl ihr => rw [AllPages, ihl, ihr, subpages, List.forall_mem_append]

/-- The boundaries that a page meets are boundaries. -/
theorem mem_subpages_of_mem_items {t s : PagedTree K V I} {i : I} (h : page i s ∈ t.items) :
    (i, s) ∈ t.subpages := by
  induction t with
  | leaf k v => exact absurd (List.mem_singleton.mp h) (by simp)
  | page j t ih =>
    obtain ⟨rfl, rfl⟩ := PagedTree.page.inj (List.mem_singleton.mp h)
    exact List.mem_cons_self
  | node d l r ihl ihr =>
    exact List.mem_append.mpr ((List.mem_append.mp h).imp ihl ihr)

/-- The boundaries below a boundary are boundaries. -/
theorem subpages_subset {t : PagedTree K V I} {p : I × PagedTree K V I} (h : p ∈ t.subpages) :
    ∀ q ∈ p.2.subpages, q ∈ t.subpages := by
  induction t with
  | leaf k v => exact absurd h List.not_mem_nil
  | page i t ih =>
    intro q hq
    rcases List.mem_cons.mp h with rfl | h
    · exact List.mem_cons_of_mem _ hq
    · exact List.mem_cons_of_mem _ (ih h q hq)
  | node d l r ihl ihr =>
    intro q hq
    exact List.mem_append.mpr ((List.mem_append.mp h).imp (fun h => ihl h q hq)
      (fun h => ihr h q hq))

/-- The identifiers from a boundary on. -/
theorem ids_sublist_of_mem_subpages {t : PagedTree K V I} {p : I × PagedTree K V I}
    (h : p ∈ t.subpages) : (p.1 :: p.2.ids).Sublist t.ids := by
  induction t with
  | leaf k v => exact absurd h List.not_mem_nil
  | page i t ih =>
    rcases List.mem_cons.mp h with rfl | h
    · exact List.Sublist.refl _
    · exact (ih h).cons i
  | node d l r ihl ihr =>
    rcases List.mem_append.mp h with h | h
    · exact (ihl h).trans (List.sublist_append_left _ _)
    · exact (ihr h).trans (List.sublist_append_right _ _)

/-- A boundary has one content. -/
theorem subpage_unique {t : PagedTree K V I} (hnd : t.ids.Nodup) {i : I} {s u : PagedTree K V I}
    (hs : (i, s) ∈ t.subpages) (hu : (i, u) ∈ t.subpages) : s = u := by
  rw [← map_fst_subpages] at hnd
  exact (Prod.mk.inj (List.inj_on_of_nodup_map hnd hs hu rfl)).2

theorem entries_strip (t : PagedTree K V I) : t.strip.entries = t.entries := by
  induction t with
  | leaf k v => rfl
  | page i t ih => exact ih
  | node d l r ihl ihr => rw [strip, entries, ihl, ihr, entries]

theorem ids_strip (t : PagedTree K V I) : t.strip.ids = [] := by
  induction t with
  | leaf k v => rfl
  | page i t ih => exact ih
  | node d l r ihl ihr => rw [strip, ids, ihl, ihr, List.append_nil]

/-- **What is below a boundary is one node of the tree without boundaries.** -/
theorem strip_of_mem_subpages {t : PagedTree K V I} {p : I × PagedTree K V I}
    (h : p ∈ t.subpages) : ∃ c : Ctx K V I, t.strip = c.fill p.2.strip := by
  induction t with
  | leaf k v => exact absurd h List.not_mem_nil
  | page i t ih =>
    rcases List.mem_cons.mp h with rfl | h
    · exact ⟨.hole, rfl⟩
    · exact ih h
  | node d l r ihl ihr =>
    rcases List.mem_append.mp h with h | h
    · obtain ⟨c, hc⟩ := ihl h
      exact ⟨.left d c r.strip, by rw [strip, hc]; rfl⟩
    · obtain ⟨c, hc⟩ := ihr h
      exact ⟨.right d l.strip c, by rw [strip, hc]; rfl⟩

section Valid

variable [LinearOrder K] [BitKey K]

theorem Valid.strip {t : PagedTree K V I} (h : t.Valid) : t.strip.Valid := by
  induction t with
  | leaf k v => trivial
  | page i t ih => exact ih h
  | node d l r ihl ihr =>
    refine ⟨fun a ha b hb => ?_, ihl h.2.1, ihr h.2.2⟩
    rw [entries_strip] at ha hb
    exact h.1 a ha b hb

theorem Valid.of_mem_subpages {t : PagedTree K V I} (h : t.Valid) {p : I × PagedTree K V I}
    (hp : p ∈ t.subpages) : p.2.Valid := by
  induction t with
  | leaf k v => exact absurd hp List.not_mem_nil
  | page i t ih =>
    rcases List.mem_cons.mp hp with rfl | hp
    · exact h
    · exact ih h hp
  | node d l r ihl ihr => exact (List.mem_append.mp hp).elim (ihl h.2.1) (ihr h.2.2)

end Valid

theorem mem_entries_of_mem_subpages {t : PagedTree K V I} {p : I × PagedTree K V I}
    (hp : p ∈ t.subpages) : ∀ e ∈ p.2.entries, e ∈ t.entries := by
  induction t with
  | leaf k v => exact absurd hp List.not_mem_nil
  | page i t ih =>
    rcases List.mem_cons.mp hp with rfl | hp
    · exact fun e he => he
    · exact ih hp
  | node d l r ihl ihr =>
    intro e he
    exact List.mem_append.mpr ((List.mem_append.mp hp).imp (fun h => ihl h e he)
      (fun h => ihr h e he))

end PagedTree

end MinweightStore
