import MinweightStore.Base.PagedPath
import MinweightStore.Base.TreePages

/-!
# One page of a tree altered

What a tree becomes when the content of the one page with a given identifier changes.

* `alterPage` — the altered tree; `alterPage_of_not_mem`, `items_alterPage` — what it leaves alone;
* `Path.alterPage_fill` — along a path to the page;
* `subpage_alterPage` — the pages of the altered tree; `subpages_insertPage` — of one more leaf.
-/

namespace MinweightStore

namespace PagedTree

variable {K V I : Type} [DecidableEq I] {i : I} {f : PagedTree K V I → PagedTree K V I}

/-- The tree with `f` applied to the content of page `i`. -/
def alterPage (i : I) (f : PagedTree K V I → PagedTree K V I) : PagedTree K V I → PagedTree K V I
  | leaf k v => leaf k v
  | page j t => if j = i then page j (f t) else page j (alterPage i f t)
  | node d l r => node d (alterPage i f l) (alterPage i f r)

theorem alterPage_self (t : PagedTree K V I) : alterPage i f (page i t) = page i (f t) :=
  if_pos rfl

theorem alterPage_of_ne {j : I} (h : j ≠ i) (t : PagedTree K V I) :
    alterPage i f (page j t) = page j (alterPage i f t) := if_neg h

/-- A tree without the page stays. -/
theorem alterPage_of_not_mem {t : PagedTree K V I} (h : i ∉ t.ids) : alterPage i f t = t := by
  induction t with
  | leaf k v => rfl
  | page j t ih =>
    rw [ids, List.mem_cons, not_or] at h
    obtain ⟨hj, ht⟩ := h
    rw [alterPage_of_ne (Ne.symm hj), ih ht]
  | node d l r ihl ihr =>
    rw [ids, List.mem_append, not_or] at h
    rw [alterPage, ihl h.1, ihr h.2]

theorem items_alterPage (t : PagedTree K V I) :
    (alterPage i f t).items = t.items.map (alterPage i f) := by
  induction t with
  | leaf k v => rfl
  | page j t ih =>
    rw [items, List.map_singleton]
    by_cases hj : j = i
    · subst hj
      rw [alterPage_self, items]
    · rw [alterPage_of_ne hj, items]
  | node d l r ihl ihr => rw [alterPage, items, ihl, ihr, items, List.map_append]

/-- **The pages of the altered tree**: every page of the tree, with its content altered. -/
theorem subpage_alterPage {t : PagedTree K V I} (hnd : t.ids.Nodup)
    (hf : ∀ s, (i, s) ∈ t.subpages → ∀ p ∈ s.subpages, p ∈ (f s).subpages)
    {p : I × PagedTree K V I} (hp : p ∈ t.subpages) :
    ∃ u, alterPage i f (page p.1 p.2) = page p.1 u ∧ (p.1, u) ∈ (alterPage i f t).subpages := by
  induction t with
  | leaf k v => exact absurd hp List.not_mem_nil
  | page j t ih =>
    obtain ⟨hj, ht⟩ := List.nodup_cons.mp hnd
    by_cases hji : j = i
    · subst hji
      rw [alterPage_self, subpages.eq_def]
      rcases List.mem_cons.mp hp with rfl | hp
      · exact ⟨f t, alterPage_self t, List.mem_cons_self⟩
      · have hmem : p.1 ∈ t.ids := by
          rw [← map_fst_subpages]
          exact List.mem_map_of_mem hp
        have hne : p.1 ≠ j := fun h => hj (h ▸ hmem)
        have hout : j ∉ p.2.ids := by
          intro hin
          rw [← map_fst_subpages] at hin hj
          obtain ⟨q, hq, hqj⟩ := List.mem_map.mp hin
          exact hj (List.mem_map.mpr ⟨q, subpages_subset hp q hq, hqj⟩)
        refine ⟨p.2, ?_, List.mem_cons_of_mem _ (hf t List.mem_cons_self p hp)⟩
        rw [alterPage_of_ne hne, alterPage_of_not_mem hout]
    · rw [alterPage_of_ne hji, subpages.eq_def]
      rcases List.mem_cons.mp hp with rfl | hp
      · exact ⟨alterPage i f t, alterPage_of_ne hji t, List.mem_cons_self⟩
      · obtain ⟨u, hu, hmem⟩ := ih ht (fun s hs => hf s (List.mem_cons_of_mem _ hs)) hp
        exact ⟨u, hu, List.mem_cons_of_mem _ hmem⟩
  | node d l r ihl ihr =>
    obtain ⟨hl, hr, _⟩ := List.nodup_append.mp hnd
    show ∃ u, _ ∧ (p.1, u) ∈ (alterPage i f l).subpages ++ (alterPage i f r).subpages
    rcases List.mem_append.mp hp with hp | hp
    · obtain ⟨u, hu, hmem⟩ := ihl hl (fun s hs => hf s (List.mem_append_left _ hs)) hp
      exact ⟨u, hu, List.mem_append_left _ hmem⟩
    · obtain ⟨u, hu, hmem⟩ := ihr hr (fun s hs => hf s (List.mem_append_right _ hs)) hp
      exact ⟨u, hu, List.mem_append_right _ hmem⟩

section Insert

variable {K V I : Type} [LinearOrder K] [BitKey K] {q : K} {δ : ℕ} {k : K} {v : V}

/-- A new leaf on a page leaves the pages below it as they are. -/
theorem subpages_insertPage (t : PagedTree K V I) :
    (insertPage q δ (leaf k v) t).subpages = t.subpages := by
  have hjoin : ∀ s : PagedTree K V I, (join q δ (leaf k v) s).subpages = s.subpages := by
    intro s
    unfold join
    split
    · exact List.append_nil _
    · rfl
  induction t with
  | leaf k' v' => exact hjoin _
  | page i t ih => exact hjoin _
  | node d l r ihl ihr =>
    rw [insertPage]
    split
    · exact hjoin _
    · split
      · rw [subpages, ihr, subpages]
      · rw [subpages, ihl, subpages]

end Insert

end PagedTree

open PagedTree

variable {K V I : Type} [DecidableEq I] {i : I} {f : PagedTree K V I → PagedTree K V I}

theorem Ctx.alterPage_fill {c : Ctx K V I} (h : i ∉ c.leftIds ++ c.rightIds)
    (x : PagedTree K V I) : alterPage i f (c.fill x) = c.fill (alterPage i f x) := by
  induction c with
  | hole => rfl
  | left d c r ih =>
    have hids : (Ctx.left d c r).leftIds ++ (Ctx.left d c r).rightIds
        = (c.leftIds ++ c.rightIds) ++ r.ids := by
      rw [leftIds, rightIds, leftIds, rightIds, leftItems, rightItems, List.flatMap_append,
        flatMap_items_ids, List.append_assoc]
    rw [hids, List.mem_append, not_or] at h
    rw [fill, alterPage, ih h.1, alterPage_of_not_mem h.2, fill]
  | right d l c ih =>
    have hids : (Ctx.right d l c).leftIds ++ (Ctx.right d l c).rightIds
        = l.ids ++ (c.leftIds ++ c.rightIds) := by
      rw [leftIds, rightIds, leftIds, rightIds, leftItems, rightItems, List.flatMap_append,
        flatMap_items_ids, List.append_assoc]
    rw [hids, List.mem_append, not_or] at h
    rw [fill, alterPage, ih h.2, alterPage_of_not_mem h.1, fill]

omit [DecidableEq I] in
/-- The page at the end of a path is a page of the tree. -/
theorem Path.mem_subpages_fill {z : Path K V I} {x : PagedTree K V I} {p : I × PagedTree K V I}
    (h : p ∈ x.subpages) : p ∈ (z.fill x).subpages := by
  induction z generalizing x with
  | nil => exact h
  | cons cj z ih =>
    obtain ⟨c, j⟩ := cj
    refine ih (List.mem_cons_of_mem _ ?_)
    rw [subpages_eq, Ctx.items_fill, List.flatMap_append, List.flatMap_append, ← subpages_eq]
    exact List.mem_append_left _ (List.mem_append_right _ h)

/-- **Altering the page at the end of a path.** -/
theorem Path.alterPage_fill {z : Path K V I} {x : PagedTree K V I} (h : i ∉ z.ids) :
    alterPage i f (z.fill x) = z.fill (alterPage i f x) := by
  induction z generalizing x with
  | nil => rfl
  | cons cj z ih =>
    obtain ⟨c, j⟩ := cj
    have hids : Path.ids ((c, j) :: z) = j :: (c.leftIds ++ c.rightIds) ++ Path.ids z := rfl
    rw [hids, List.mem_append, List.mem_cons, not_or, not_or] at h
    obtain ⟨⟨hj, hc⟩, hz⟩ := h
    rw [fill, ih hz, alterPage_of_ne (Ne.symm hj), Ctx.alterPage_fill hc]
    rfl

end MinweightStore
