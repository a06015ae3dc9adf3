import MinweightStore.Minpatricia.DeletePage
import MinweightStore.Minpatricia.Lookup

/-!
# Deleting a key

`Delete` on an index that represents a tree gives an index that represents the tree without the
key, whichever merges follow.

* `Shrinks` — what a deletion below a page leaves: the page with the rest, or an empty page;
* `afterChildDelete_eq` — the five ways a parent follows its child;
* `deleteFrom_eq` — the recursion; `compressRoot_eq` — the root takes over its only child;
* `delete_spec` — the whole call.
-/

namespace MinweightStore.Minpatricia

open BitKey PagedTree

/-! ### Before and after -/

/-- One entry of the key taken out. -/
def Removes (key : ByteView) (pos : Position) (l l' : List (ByteView × Position)) : Prop :=
  ∃ a b, l = a ++ [(key, pos)] ++ b ∧ l' = a ++ b

theorem Removes.around {key : ByteView} {pos : Position} {l l' : List (ByteView × Position)}
    (h : Removes key pos l l') (a b : List (ByteView × Position)) :
    Removes key pos (a ++ l ++ b) (a ++ l' ++ b) := by
  obtain ⟨a', b', rfl, rfl⟩ := h
  exact ⟨a ++ a', b' ++ b, by simp, by simp⟩

theorem Removes.subset {key : ByteView} {pos : Position} {l l' : List (ByteView × Position)}
    (h : Removes key pos l l') : ∀ e ∈ l', e ∈ l := by
  obtain ⟨a, b, rfl, rfl⟩ := h
  intro e he
  rcases List.mem_append.mp he with he | he
  · exact List.mem_append_left _ (List.mem_append_left _ he)
  · exact List.mem_append_right _ he

/-- A page and everything below it. -/
structure HeldAt (pages : Pages) (id : UInt64) (s : Tree) : Prop where
  page : PageAt pages id s
  stored : Stored pages s
  valid : s.Valid
  sized : Sized s
  nodup : (id :: s.ids).Nodup

/-- The page identifiers of what is left of a page. -/
def idsOf : Option Tree → List UInt64
  | none => []
  | some t => t.ids

/-- **A page after a deletion below it**: it holds the rest, or is empty, and the pages that are
no longer needed are free. -/
structure Shrinks (pages pages' : Pages) (id : UInt64) (s : Tree) (o : Option Tree)
    (key : ByteView) (pos : Position) : Prop where
  held : ∀ t, o = some t → HeldAt pages' id t
  emptied : o = none → pages' id = some NodePage.empty
  subset : ∀ x ∈ idsOf o, x ∈ s.ids
  alloc : ∀ x ∈ s.ids, (pages' x).isSome ↔ x ∈ idsOf o
  other : ∀ x, x ≠ id → x ∉ s.ids → pages' x = pages x
  removes : Removes key pos s.entries (entriesOf o)

/-- The pages when the key is gone below a child and the parent has not followed yet. -/
structure Partly (pages pages' : Pages) (id : UInt64) (s s₁ : Tree) (key : ByteView)
    (pos : Position) : Prop where
  page : PageAt pages' id s
  stored : Stored pages' s₁
  valid : s₁.Valid
  sized : Sized s₁
  nodup : (id :: s₁.ids).Nodup
  notin : id ∉ s.ids
  subset : ∀ x ∈ s₁.ids, x ∈ s.ids
  alloc : ∀ x ∈ s.ids, (pages' x).isSome ↔ x ∈ s₁.ids
  other : ∀ x, x ∉ s.ids → pages' x = pages x
  removes : Removes key pos s.entries s₁.entries

/-- The parent follows: whatever it does to the pages below, no entry and no other page is
touched. -/
theorem Partly.finish {pages pages' pages'' : Pages} {id : UInt64} {s s₁ t : Tree}
    {key : ByteView} {pos : Position} (h : Partly pages pages' id s s₁ key pos)
    (ht : HeldAt pages'' id t) (hsub : ∀ x ∈ t.ids, x ∈ s₁.ids)
    (hfreed : ∀ x ∈ s₁.ids, x ∉ t.ids → pages'' x = none)
    (hother : ∀ x, x ≠ id → x ∉ s₁.ids → pages'' x = pages' x)
    (hent : t.entries = s₁.entries) : Shrinks pages pages'' id s (some t) key pos where
  held := fun t' ht' => by
    obtain rfl := Option.some.inj ht'
    exact ht
  emptied := fun h' => absurd h' (by simp)
  subset := fun x hx => h.subset x (hsub x hx)
  alloc := fun x hx => by
    have hxid : x ≠ id := fun he => h.notin (he ▸ hx)
    by_cases hxt : x ∈ t.ids
    · exact ⟨fun _ => hxt, fun _ => Stored.isSome ht.stored hxt⟩
    · have hnone : pages'' x = none := by
        by_cases hx1 : x ∈ s₁.ids
        · exact hfreed x hx1 hxt
        · rw [hother x hxid hx1]
          have := (h.alloc x hx).not.mpr hx1
          simpa using this
      rw [hnone]
      exact ⟨fun h' => absurd h' (by decide), fun h' => absurd h' hxt⟩
  other := fun x hxid hx => by
    rw [hother x hxid (fun h1 => hx (h.subset x h1)), h.other x hx]
  removes := by
    show Removes key pos s.entries t.entries
    rw [hent]
    exact h.removes

section Child

variable {pages pages' : Pages} {id j : UInt64} {c : TreeCtx} {u u₀ : Tree} {key : ByteView}
  {pos : Position}

/-- The identifiers around a child are all different. -/
theorem nodup_child (h : (id :: (c.fill (.page j u₀) : Tree).ids).Nodup) :
    (id :: j :: (u₀.ids ++ (c.leftIds ++ c.rightIds))).Nodup := by
  refine (List.Perm.nodup_iff ?_).mp h
  rw [List.perm_iff_count]
  intro x
  simp only [ids, Ctx.ids_fill, List.count_append, List.count_cons]
  omega

theorem mem_ids_child {x : UInt64} : x ∈ (c.fill (.page j u₀) : Tree).ids ↔
    x = j ∨ x ∈ u₀.ids ∨ x ∈ c.leftIds ++ c.rightIds := by
  simp only [Ctx.ids_fill, ids, List.mem_append, List.mem_cons]
  tauto

theorem Partly.of_child (h : HeldAt pages id (c.fill (.page j u₀)))
    (hs : Shrinks pages pages' j u₀ (some u) key pos) :
    Partly pages pages' id (c.fill (.page j u₀)) (c.fill (.page j u)) key pos := by
  obtain ⟨hid, hnd1⟩ := List.nodup_cons.mp (nodup_child h.nodup)
  obtain ⟨hj, hnd2⟩ := List.nodup_cons.mp hnd1
  obtain ⟨hnu, hnr, hdisj⟩ := List.nodup_append.mp hnd2
  have hheld := hs.held u rfl
  have hsubu : ∀ x ∈ u.ids, x ∈ u₀.ids := hs.subset
  have hrest : ∀ x ∈ c.leftIds ++ c.rightIds, pages' x = pages x := by
    intro x hx
    refine hs.other x (fun he => hj (List.mem_append_right _ (he ▸ hx))) (fun hxu => ?_)
    exact hdisj x hxu x hx rfl
  have hidp : pages' id = pages id := by
    refine hs.other id (fun he => hid (he ▸ List.mem_cons_self)) (fun hxu => ?_)
    exact hid (List.mem_cons_of_mem _ (List.mem_append_left _ hxu))
  obtain ⟨⟨hju, hsu⟩, hrst⟩ := (Ctx.allPages_fill c _).mp h.stored
  have hrem : Removes key pos (c.fill (.page j u₀) : Tree).entries (c.fill (.page j u)).entries := by
    rw [Ctx.entries_fill, Ctx.entries_fill]
    exact hs.removes.around _ _
  have hsubE : ∀ e ∈ (c.fill (.page j u) : Tree).entries, e ∈ (c.fill (.page j u₀)).entries :=
    hrem.subset
  refine ⟨?_, ?_, ?_, ?_, ?_, ?_, ?_, ?_, ?_, hrem⟩
  · exact ⟨hidp.trans h.page.page_eq, h.page.width_le, h.page.id_lt⟩
  · exact (Ctx.allPages_fill c _).mpr ⟨⟨hheld.page, hheld.stored⟩, allRest_congr hrst hrest⟩
  · exact Valid.fill_congr (u := .page j u) h.valid hheld.valid
      (fun e he => ⟨e, hs.removes.subset e he, rfl⟩)
  · exact h.sized.of_subset hsubE
  · have hu := hheld.nodup
    have hlist : (id :: j :: (u.ids ++ (c.leftIds ++ c.rightIds))).Nodup := by
      refine List.nodup_cons.mpr ⟨?_, List.nodup_cons.mpr ⟨?_, List.nodup_append.mpr
        ⟨(List.nodup_cons.mp hu).2, hnr, fun a ha b hb => hdisj a (hsubu a ha) b hb⟩⟩⟩
      · intro hm
        simp only [List.mem_cons, List.mem_append] at hm hid
        exact hid (hm.imp_right (fun h' => h'.imp_left (hsubu id)))
      · intro hm
        simp only [List.mem_append] at hm hj
        exact hj (hm.imp_left (hsubu j))
    refine (List.Perm.nodup_iff ?_).mp hlist
    rw [List.perm_iff_count]
    intro x
    simp only [ids, Ctx.ids_fill, List.count_append, List.count_cons]
    omega
  · exact (List.nodup_cons.mp h.nodup).1
  · intro x hx
    rw [mem_ids_child] at hx ⊢
    exact hx.imp_right (fun h' => h'.imp_left (hsubu x))
  · intro x hx
    rw [mem_ids_child] at hx ⊢
    rcases hx with rfl | hx | hx
    · rw [hheld.page.page_eq]
      simp
    · rw [hs.alloc x hx]
      have h1 : x ≠ j := fun he => hj (List.mem_append_left _ (he ▸ hx))
      have h2 : x ∉ c.leftIds ++ c.rightIds := fun h' => hdisj x hx x h' rfl
      simp [h1, h2, idsOf]
    · have hsome : (pages' x).isSome := by
        rw [hrest x hx]
        exact Stored.isSome h.stored (mem_ids_child.mpr (Or.inr (Or.inr hx)))
      exact ⟨fun _ => Or.inr (Or.inr hx), fun _ => hsome⟩
  · intro x hx
    rw [mem_ids_child] at hx
    exact hs.other x (fun h' => hx (Or.inl h')) (fun h' => hx (Or.inr (Or.inl h')))

end Child

/-! ### The five ways a parent follows -/

/-- Two children merged into the left one. -/
theorem Partly.merged {pages pages' pages'' : Pages} {id a b : UInt64} {s l r : Tree}
    {c : TreeCtx} {d : ℕ} {key : ByteView} {pos : Position}
    (h : Partly pages pages' id s (c.fill (.node d (.page a l) (.page b r))) key pos)
    (hm : Merged pages' pages'' id a b c (.node d l r)) :
    Shrinks pages pages'' id s (some (c.fill (.page a (.node d l r)))) key pos := by
  obtain ⟨⟨⟨_, hstl⟩, ⟨_, hstr⟩⟩, hrest⟩ := (Ctx.allPages_fill c _).mp h.stored
  have hlist : (id :: b :: a :: ((l.ids ++ r.ids) ++ (c.leftIds ++ c.rightIds))).Nodup := by
    refine (List.Perm.nodup_iff ?_).mp h.nodup
    rw [List.perm_iff_count]
    intro x
    simp only [ids, Ctx.ids_fill, List.count_append, List.count_cons]
    omega
  obtain ⟨hid, hnd1⟩ := List.nodup_cons.mp hlist
  obtain ⟨hb, hnd2⟩ := List.nodup_cons.mp hnd1
  obtain ⟨ha, hnd3⟩ := List.nodup_cons.mp hnd2
  have hmem : ∀ x, x ∈ (c.fill (.page a (.node d l r)) : Tree).ids ↔
      x = a ∨ x ∈ (l.ids ++ r.ids) ++ (c.leftIds ++ c.rightIds) := by
    intro x
    simp only [Ctx.ids_fill, ids, List.mem_append, List.mem_cons]
    tauto
  have hmem₁ : ∀ x, x ∈ (c.fill (.node d (.page a l) (.page b r)) : Tree).ids ↔
      x = b ∨ x = a ∨ x ∈ (l.ids ++ r.ids) ++ (c.leftIds ++ c.rightIds) := by
    intro x
    simp only [Ctx.ids_fill, ids, List.mem_append, List.mem_cons]
    tauto
  have hkeep : ∀ x ∈ (l.ids ++ r.ids) ++ (c.leftIds ++ c.rightIds), pages'' x = pages' x := by
    intro x hx
    refine hm.other x ?_ ?_ ?_
    · rintro rfl
      exact hid (List.mem_cons_of_mem _ (List.mem_cons_of_mem _ hx))
    · rintro rfl
      exact ha hx
    · rintro rfl
      exact hb (List.mem_cons_of_mem _ hx)
  have hent : (c.fill (.page a (.node d l r)) : Tree).entries
      = (c.fill (.node d (.page a l) (.page b r))).entries := by
    simp only [Ctx.entries_fill, entries]
  refine h.finish ⟨hm.parent, ?_, ?_, ?_, ?_⟩ ?_ ?_ ?_ hent
  · refine (Ctx.allPages_fill c _).mpr ⟨⟨hm.child, ?_, ?_⟩, ?_⟩
    · exact Stored.congr hstl (fun x hx =>
        hkeep x (List.mem_append_left _ (List.mem_append_left _ hx)))
    · exact Stored.congr hstr (fun x hx =>
        hkeep x (List.mem_append_left _ (List.mem_append_right _ hx)))
    · exact allRest_congr hrest (fun x hx => hkeep x (List.mem_append_right _ hx))
  · exact Valid.fill_congr (u := .page a (.node d l r)) h.valid
      (Valid.of_fill (s := .node d (.page a l) (.page b r)) h.valid) (fun e he => ⟨e, he, rfl⟩)
  · exact h.sized.of_subset (fun e he => hent ▸ he)
  · have hnd : (id :: a :: ((l.ids ++ r.ids) ++ (c.leftIds ++ c.rightIds))).Nodup :=
      List.nodup_cons.mpr ⟨fun hx => hid (List.mem_cons_of_mem _ hx), hnd2⟩
    refine (List.Perm.nodup_iff ?_).mp hnd
    rw [List.perm_iff_count]
    intro x
    simp only [ids, Ctx.ids_fill, List.count_append, List.count_cons]
    omega
  · intro x hx
    rw [hmem] at hx
    exact (hmem₁ x).mpr (Or.inr hx)
  · intro x hx hxt
    rw [hmem₁] at hx
    rw [hmem] at hxt
    rcases hx with rfl | hx
    · exact hm.freed
    · exact absurd hx hxt
  · intro x hxid hx
    rw [hmem₁, not_or, not_or] at hx
    exact hm.other x hxid hx.2.1 hx.1

section Follow

variable {pages : Pages} {ix : Index} {id j : UInt64} {c : TreeCtx} {u u₀ : Tree}
  {key : ByteView} {pos : Position}

/-- The parent has followed: the call returns and the page has shrunk. -/
def Follows (m : IndexM Unit) (ix : Index) (pages : Pages) (id : UInt64) (s : Tree)
    (key : ByteView) (pos : Position) : Prop :=
  ∃ ns o, m ix = .ok () { ix with nodes := ns } ∧ ns.nodes.length = ix.nodes.nodes.length ∧
    Shrinks pages ns.page? id s o key pos

/-- What the ways have in common: the parent as it was, and the child as it is now. -/
structure ChildDone (pages pages' : Pages) (id j : UInt64) (c : TreeCtx) (u₀ : Tree)
    (o : Option Tree) (key : ByteView) (pos : Position) : Prop where
  before : HeldAt pages id (c.fill (.page j u₀))
  child : Shrinks pages pages' j u₀ o key pos
  notRoot : HeapNodeStore.root ∉ (c.fill (.page j u₀) : Tree).ids

theorem ChildDone.partly {pages' : Pages} (h : ChildDone pages pages' id j c u₀ (some u) key pos) :
    Partly pages pages' id (c.fill (.page j u₀)) (c.fill (.page j u)) key pos :=
  Partly.of_child h.before h.child

theorem ChildDone.child_ne_root {pages' : Pages} {o : Option Tree}
    (h : ChildDone pages pages' id j c u₀ o key pos) : j ≠ HeapNodeStore.root :=
  fun he => h.notRoot (he ▸ mem_ids_child.mpr (Or.inl rfl))

theorem ChildDone.child_ne {pages' : Pages} {o : Option Tree}
    (h : ChildDone pages pages' id j c u₀ o key pos) : j ≠ id :=
  fun he => (List.nodup_cons.mp h.before.nodup).1 (he ▸ mem_ids_child.mpr (Or.inl rfl))

/-- The items of the child move into the parent. -/
theorem follow_merge (h : ChildDone pages ix.nodes.page? id j c u₀ (some u) key pos)
    (hw : (c.fill u).width ≤ kMaxNodeReps) :
    Follows (mergeChildIntoParent id c.slot j) ix pages id (c.fill (.page j u₀)) key pos := by
  have hp := h.partly
  obtain ⟨⟨hju, hsu⟩, hrest⟩ := (Ctx.allPages_fill c _).mp hp.stored
  obtain ⟨hid, hnd1⟩ := List.nodup_cons.mp (nodup_child hp.nodup)
  obtain ⟨hj, hnd2⟩ := List.nodup_cons.mp hnd1
  have hvu : u.Valid := Valid.of_fill (s := .page j u) hp.valid
  have hv : (c.fill u).Valid := Valid.fill_congr hp.valid hvu (fun e he => ⟨e, he, rfl⟩)
  have hent : (c.fill u).entries = (c.fill (.page j u) : Tree).entries := by
    simp only [Ctx.entries_fill, entries]
  have hs : Sized (c.fill u) := hp.sized.of_subset (fun e he => hent ▸ he)
  have hst : Stored ix.nodes.page? (c.fill u) := (Ctx.allPages_fill c _).mpr ⟨hsu, hrest⟩
  have hmem : ∀ x, x ∈ (c.fill u).ids ↔ x ∈ u.ids ++ (c.leftIds ++ c.rightIds) := by
    intro x
    simp only [Ctx.ids_fill, List.mem_append]
    tauto
  have hidn : id ∉ (c.fill u).ids := fun hx => hid (List.mem_cons_of_mem _ ((hmem id).mp hx))
  have hjn : j ∉ (c.fill u).ids := fun hx => hj ((hmem j).mp hx)
  obtain ⟨ns, hrun, hlen, hpages⟩ := mergeChildIntoParent_eq hp.page.page_eq h.before.page.width_le
    h.before.valid h.before.sized hju hw hv hs hst hidn h.child_ne_root h.child_ne
  refine ⟨ns, some (c.fill u), hrun, hlen, hp.finish ⟨?_, ?_, hv, hs, ?_⟩ ?_ ?_ ?_ hent⟩
  · rw [hpages]
    exact (pageAt_update_self hw h.before.page.id_lt).update (Ne.symm h.child_ne)
  · rw [hpages]
    exact Stored.update (Stored.update hst hidn) hjn
  · refine List.nodup_cons.mpr ⟨hidn, ?_⟩
    refine (List.Perm.nodup_iff ?_).mp hnd2
    rw [List.perm_iff_count]
    intro x
    simp only [Ctx.ids_fill, List.count_append]
    omega
  · intro x hx
    rw [hmem, List.mem_append] at hx
    exact mem_ids_child.mpr (Or.inr hx)
  · intro x hx hxt
    rw [mem_ids_child] at hx
    rw [hmem, List.mem_append] at hxt
    rcases hx with rfl | hx
    · rw [hpages, Function.update_self]
    · exact absurd hx hxt
  · intro x hxid hx
    rw [mem_ids_child, not_or] at hx
    rw [hpages, update_ne hx.1, update_ne hxid]

/-- A parent that shows the new boundary of its child has followed. -/
theorem follow_boundary {ns : HeapNodeStore}
    (h : ChildDone pages ix.nodes.page? id j c u₀ (some u) key pos)
    (hns : ns.page? = Function.update ix.nodes.page? id (some (pageOf (c.fill (.page j u))))) :
    Shrinks pages ns.page? id (c.fill (.page j u₀)) (some (c.fill (.page j u))) key pos := by
  have hp := h.partly
  have hw : (c.fill (.page j u)).width ≤ kMaxNodeReps := by
    rw [width_fill_page c j u₀ u]
    exact h.before.page.width_le
  refine hp.finish ⟨?_, ?_, hp.valid, hp.sized, hp.nodup⟩ (fun x hx => hx)
    (fun x hx hxt => absurd hx hxt) ?_ rfl
  · rw [hns]
    exact pageAt_update_self hw h.before.page.id_lt
  · rw [hns]
    exact Stored.update hp.stored (List.nodup_cons.mp hp.nodup).1
  · intro x hxid _
    rw [hns, update_ne hxid]

/-- The empty child leaves the parent. -/
theorem follow_empty (h : ChildDone pages ix.nodes.page? id j c u₀ none key pos) :
    Follows (do
      deleteAtIncremental id c.slot
      freeNode j) ix pages id (c.fill (.page j u₀)) key pos := by
  have hb := h.before
  have hsh := h.child
  obtain ⟨hid, hnd1⟩ := List.nodup_cons.mp (nodup_child hb.nodup)
  obtain ⟨hj, hnd2⟩ := List.nodup_cons.mp hnd1
  obtain ⟨_, hnr, hdisj⟩ := List.nodup_append.mp hnd2
  have hrestEq : ∀ x ∈ c.leftIds ++ c.rightIds, ix.nodes.page? x = pages x := by
    intro x hx
    refine hsh.other x (fun he => hj (List.mem_append_right _ (he ▸ hx))) (fun hxu => ?_)
    exact hdisj x hxu x hx rfl
  have hidp : ix.nodes.page? id = some (pageOf (c.fill (.page j u₀))) := by
    rw [hsh.other id (Ne.symm h.child_ne) (fun hxu =>
      hid (List.mem_cons_of_mem _ (List.mem_append_left _ hxu)))]
    exact hb.page.page_eq
  have hrest : c.AllRest (PageAt ix.nodes.page?) :=
    allRest_congr ((Ctx.allPages_fill c _).mp hb.stored).2 hrestEq
  have hgone : ∀ x ∈ u₀.ids, ix.nodes.page? x = none := by
    intro x hx
    have := (hsh.alloc x hx).not.mpr (by simp [idsOf])
    simpa using this
  have hjpage := hsh.emptied rfl
  -- what both cases say about the pages outside
  have hother : ∀ {ns : HeapNodeStore} {page : NodePage}, ns.page? = Function.update
      (Function.update ix.nodes.page? id (some page)) j none →
      ∀ x, x ≠ id → x ∉ (c.fill (.page j u₀) : Tree).ids → ns.page? x = pages x := by
    intro ns page hns x hxid hx
    rw [mem_ids_child, not_or, not_or] at hx
    rw [hns, update_ne hx.1, update_ne hxid]
    exact hsh.other x hx.1 hx.2.1
  have hrem : ∀ l : List (ByteView × Position), l = c.leftEntries ++ c.rightEntries →
      Removes key pos (c.fill (.page j u₀) : Tree).entries l := by
    rintro l rfl
    have := hsh.removes.around c.leftEntries c.rightEntries
    rw [entriesOf, List.append_nil] at this
    rw [Ctx.entries_fill]
    exact this
  cases hc : c.remove with
  | some t =>
    obtain ⟨ns, hrun, hlen, hpages⟩ := (deleteAtIncremental_some hidp hb.page.width_le hb.valid
      hb.sized (by exact trivial) hrest hc).free hjpage h.child_ne_root h.child_ne
    have hids := Ctx.ids_remove c hc
    have hsubE : ∀ e ∈ t.entries, e ∈ (c.fill (.page j u₀) : Tree).entries := by
      intro e he
      rw [Ctx.entries_remove c hc, List.mem_append] at he
      rw [mem_entries_fill]
      tauto
    have hwt : t.width ≤ kMaxNodeReps := by
      have h1 := Ctx.width_remove c hc
      have h2 := Ctx.width_fill c (.page j u₀)
      have h3 := hb.page.width_le
      omega
    have hidt : id ∉ t.ids := fun hx =>
      hid (List.mem_cons_of_mem _ (List.mem_append_right _ (hids ▸ hx)))
    have hjt : j ∉ t.ids := fun hx => hj (List.mem_append_right _ (hids ▸ hx))
    have hst : Stored ns.page? t := by
      rw [hpages]
      exact Stored.update (Stored.update ((Ctx.allPages_remove hc).mpr hrest) hidt) hjt
    refine ⟨ns, some t, hrun, hlen, ⟨?_, ?_, ?_, ?_, hother hpages, hrem _ ?_⟩⟩
    · rintro t' ht'
      obtain rfl := Option.some.inj ht'
      refine ⟨?_, hst, Ctx.valid_remove hb.valid hc, hb.sized.of_subset hsubE,
        List.nodup_cons.mpr ⟨hidt, by rw [hids]; exact hnr⟩⟩
      rw [hpages]
      exact (pageAt_update_self hwt hb.page.id_lt).update (Ne.symm h.child_ne)
    · intro h'
      exact absurd h' (by simp)
    · intro x hx
      exact mem_ids_child.mpr (Or.inr (Or.inr (hids ▸ hx)))
    · intro x hx
      rw [mem_ids_child] at hx
      show _ ↔ x ∈ t.ids
      rcases hx with rfl | hx | hx
      · rw [hpages, Function.update_self]
        exact ⟨fun h' => absurd h' (by decide), fun h' => absurd h' hjt⟩
      · have hxt : x ∉ t.ids := fun h' => hdisj x hx x (hids ▸ h') rfl
        have hxid : x ≠ id := fun he =>
          hid (List.mem_cons_of_mem _ (List.mem_append_left _ (he ▸ hx)))
        have hxj : x ≠ j := fun he => hj (List.mem_append_left _ (he ▸ hx))
        rw [hpages, update_ne hxj, update_ne hxid, hgone x hx]
        exact ⟨fun h' => absurd h' (by decide), fun h' => absurd h' hxt⟩
      · exact ⟨fun _ => hids ▸ hx, fun h' => Stored.isSome hst h'⟩
    · exact Ctx.entries_remove c hc
  | none =>
    obtain rfl := Ctx.remove_eq_none hc
    obtain ⟨ns, hrun, hlen, hpages⟩ := (deleteAtIncremental_none hidp (by exact trivial)).free hjpage
      h.child_ne_root h.child_ne
    refine ⟨ns, none, hrun, hlen, ⟨?_, ?_, ?_, ?_, hother hpages, hrem _ rfl⟩⟩
    · intro t ht
      exact absurd ht (by simp)
    · intro _
      rw [hpages, update_ne (Ne.symm h.child_ne), Function.update_self]
    · intro x hx
      exact absurd hx List.not_mem_nil
    · intro x hx
      rw [mem_ids_child] at hx
      have hnone : ns.page? x = none := by
        rcases hx with rfl | hx | hx
        · rw [hpages, Function.update_self]
        · have hxid : x ≠ id := fun he =>
            hid (List.mem_cons_of_mem _ (List.mem_append_left _ (he ▸ hx)))
          have hxj : x ≠ j := fun he => hj (List.mem_append_left _ (he ▸ hx))
          rw [hpages, update_ne hxj, update_ne hxid, hgone x hx]
        · exact absurd hx List.not_mem_nil
      rw [hnone]
      exact ⟨fun h' => absurd h' (by decide), fun h' => absurd h' List.not_mem_nil⟩

/-- The child is appended to its left sibling. -/
theorem follow_left (h : ChildDone pages ix.nodes.page? id j c u₀ (some u) key pos) {a : UInt64}
    {l : Tree} {c' : TreeCtx} {d : ℕ} (hslot : c.slot = c'.slot + 1)
    (hfill : ∀ z, c.fill z = c'.fill (.node d (.page a l) z))
    (hw : l.width + u.width ≤ kMaxNodeReps) :
    Follows (mergeLeftSibling id (c.slot - 1) a (pageOf l) c.slot j (pageOf u)) ix pages id
      (c.fill (.page j u₀)) key pos := by
  have hp := h.partly
  have hb := h.before
  have hroot := h.child_ne_root
  rw [hfill, hfill] at hp
  rw [hfill] at hb ⊢
  rw [mergeLeftSibling, hslot, Nat.add_sub_cancel]
  obtain ⟨ns, hrun, hlen, hm⟩ := mergeSiblings_eq hp.page.page_eq hb.page.width_le hb.valid hb.sized
    hb.page.id_lt hp.valid hp.sized hp.stored hp.nodup hw hroot
  exact ⟨ns, _, hrun, hlen, hp.merged hm⟩

/-- The right sibling is appended to the child. -/
theorem follow_right (h : ChildDone pages ix.nodes.page? id j c u₀ (some u) key pos) {b : UInt64}
    {r : Tree} {c' : TreeCtx} {d : ℕ} (hslot : c'.slot = c.slot)
    (hfill : ∀ z, c.fill z = c'.fill (.node d z (.page b r)))
    (hw : u.width + r.width ≤ kMaxNodeReps) :
    Follows (mergeRightSibling id c.slot j (pageOf u) (c.slot + 1) b (pageOf r)) ix pages id
      (c.fill (.page j u₀)) key pos := by
  have hp := h.partly
  have hb := h.before
  have hroot := h.notRoot
  rw [hfill, hfill] at hp
  rw [hfill] at hb hroot ⊢
  rw [mergeRightSibling, ← hslot]
  have hbroot : b ≠ HeapNodeStore.root := by
    rintro rfl
    exact hroot (by simp [Ctx.ids_fill, ids])
  obtain ⟨ns, hrun, hlen, hm⟩ := mergeSiblings_eq hp.page.page_eq hb.page.width_le hb.valid hb.sized
    hb.page.id_lt hp.valid hp.sized hp.stored hp.nodup hw hbroot
  exact ⟨ns, _, hrun, hlen, hp.merged hm⟩

/-- The page behind a slot beside the child. -/
theorem siblingAt_eq {ns : HeapNodeStore} {t y : Tree} {i : ℕ} (hw : t.width ≤ kMaxNodeReps)
    (hy : t.items[i]? = some y) (hst : Stored ns.page? y) (hs : Sized y) :
    ∃ sibling, siblingAt ns (pageOf t) (some i) = .ok sibling ∧
      ∀ a page, sibling = some (a, page) → ∃ l, y = .page a l ∧ page = pageOf l := by
  have hi : i < t.width := by
    rw [← length_items]
    exact (List.getElem?_eq_some_iff.mp hy).1
  have hrep := repAt_items (pageOf_reps t) hy (lt_of_lt_of_le hi hw)
  have hitem := isItem_of_mem_items (List.mem_of_getElem? hy)
  cases y with
  | leaf k v =>
    obtain ⟨h1, _⟩ := repOf_leaf (k := k) (hs (k, v) (List.mem_singleton_self _)).2
    refine ⟨none, ?_, fun a page h => absurd h (by simp)⟩
    rw [siblingAt, hrep]
    simp only [bind, Except.bind, h1, Bool.false_eq_true, if_false]
  | page a l =>
    obtain ⟨h1, h2⟩ := repOf_page (t := l) hst.1.id_lt
    refine ⟨some (a, pageOf l), ?_, ?_⟩
    · rw [siblingAt, hrep]
      simp only [bind, Except.bind, h1, h2, if_true, HeapNodeStore.get_eq hst.1.page_eq]
    · intro a' page h
      obtain ⟨rfl, rfl⟩ := Prod.mk.inj (Option.some.inj h)
      exact ⟨l, rfl, rfl⟩
  | node d l r => exact hitem.elim

/-- A sibling that may be merged fits and sits under the same branch. -/
theorem canMerge_eq {t : Tree} {i : ℕ} (diffIdx : Int) (sibling : Option (UInt64 × NodePage))
    (hr : HasRoutes (pageOf t) t) (hi : sibling ≠ none → diffIdx = i ∧ i + 1 < t.width)
    (child : NodePage) :
    ∃ ok, canMerge (pageOf t) child sibling diffIdx = .ok ok ∧
      (ok = true → ∃ a page, sibling = some (a, page) ∧ page.size + child.size ≤ kMaxNodeReps ∧
        directPair i t = true) := by
  cases sibling with
  | none => exact ⟨false, rfl, fun h => absurd h (by decide)⟩
  | some p =>
    obtain ⟨a, page⟩ := p
    obtain ⟨rfl, hlt⟩ := hi (by simp)
    unfold canMerge
    simp only
    split
    · rename_i hfit
      exact ⟨_, isDirectRoutePair_eq hr hlt, fun h => ⟨a, page, rfl, hfit, h⟩⟩
    · exact ⟨false, rfl, fun h => absurd h (by decide)⟩

/-- What `MergeChildWithSibling` finds on the left. -/
theorem leftSibling_eq (h : ChildDone pages ix.nodes.page? id j c u₀ (some u) key pos) :
    ∃ left ok, siblingAt ix.nodes (pageOf (c.fill (.page j u₀)))
        (if c.slot ≥ 1 then some (c.slot - 1) else none) = .ok left ∧
      canMerge (pageOf (c.fill (.page j u₀))) (pageOf u) left ((c.slot : Int) - 1) = .ok ok ∧
      (ok = true → ∃ (a : UInt64) (l : Tree) (c' : TreeCtx) (d : ℕ), left = some (a, pageOf l) ∧ c.slot = c'.slot + 1 ∧
        (∀ z, c.fill z = c'.fill (.node d (.page a l) z)) ∧
        l.width + u.width ≤ kMaxNodeReps) := by
  have hp := h.partly
  have hb := h.before
  have hslot := slot_lt_width c (.page j u₀)
  have hroutes := hasRoutes_pageOf hb.page.width_le hb.valid hb.sized
  by_cases h1 : c.slot ≥ 1
  · have hlen : c.leftItems.length = c.slot := rfl
    obtain ⟨y, hy⟩ : ∃ y, c.leftItems[c.slot - 1]? = some y :=
      ⟨_, List.getElem?_eq_getElem (by omega)⟩
    have hmem : y ∈ c.leftItems ++ c.rightItems := List.mem_append_left _ (List.mem_of_getElem? hy)
    have hitems : (c.fill (.page j u₀)).items[c.slot - 1]? = some y := by
      rw [Ctx.items_fill, List.append_assoc, List.getElem?_append_left (by omega)]
      exact hy
    obtain ⟨left, hleft, hspec⟩ := siblingAt_eq hb.page.width_le hitems
      (((Ctx.allPages_fill c _).mp hp.stored).2 y hmem) (sized_rest hb.sized hmem)
    obtain ⟨ok, hok, hokspec⟩ := canMerge_eq ((c.slot : Int) - 1) left (i := c.slot - 1) hroutes (fun _ => ⟨by omega, by omega⟩) (pageOf u)
    refine ⟨left, ok, by rw [if_pos h1]; exact hleft, hok, fun ht => ?_⟩
    obtain ⟨a, page, hsib, hfit, hdir⟩ := hokspec ht
    obtain ⟨l, rfl, rfl⟩ := hspec a page hsib
    obtain ⟨c', d, y', _, hc', hfill⟩ := directPair_left (by exact trivial) hdir
      (show c.slot = c.slot - 1 + 1 by omega)
    have hy' : y' = .page a l := by
      have hl := hitems
      rw [hfill, Ctx.items_fill, List.append_assoc,
        List.getElem?_append_right (by rw [← hc']; exact le_refl _)] at hl
      rename_i hyitem
      rw [show c.slot - 1 - c'.leftItems.length = 0 by rw [← hc', Ctx.slot, Nat.sub_self], items,
        items_of_isItem hyitem] at hl
      simpa using hl
    subst hy'
    exact ⟨a, l, c', d, hsib, by omega, hfill, hfit⟩
  · refine ⟨none, false, by rw [if_neg h1]; rfl, rfl, fun ht => absurd ht (by decide)⟩

/-- What `MergeChildWithSibling` finds on the right. -/
theorem rightSibling_eq (h : ChildDone pages ix.nodes.page? id j c u₀ (some u) key pos) :
    ∃ right ok, siblingAt ix.nodes (pageOf (c.fill (.page j u₀)))
        (if c.slot + 1 < (c.fill (.page j u₀)).width then some (c.slot + 1) else none) = .ok right ∧
      canMerge (pageOf (c.fill (.page j u₀))) (pageOf u) right c.slot = .ok ok ∧
      (ok = true → ∃ (b : UInt64) (r : Tree) (c' : TreeCtx) (d : ℕ), right = some (b, pageOf r) ∧ c'.slot = c.slot ∧
        (∀ z, c.fill z = c'.fill (.node d z (.page b r))) ∧
        u.width + r.width ≤ kMaxNodeReps) := by
  have hp := h.partly
  have hb := h.before
  have hwf := Ctx.width_fill c (.page j u₀)
  rw [show (PagedTree.page j u₀ : Tree).width = 1 from rfl] at hwf
  have hroutes := hasRoutes_pageOf hb.page.width_le hb.valid hb.sized
  have hlen : c.leftItems.length = c.slot := rfl
  by_cases h1 : c.slot + 1 < (c.fill (.page j u₀)).width
  · obtain ⟨y, hy⟩ : ∃ y, c.rightItems[0]? = some y := ⟨_, List.getElem?_eq_getElem (by omega)⟩
    have hmem : y ∈ c.leftItems ++ c.rightItems := List.mem_append_right _ (List.mem_of_getElem? hy)
    have hitems : (c.fill (.page j u₀)).items[c.slot + 1]? = some y := by
      rw [Ctx.items_fill, List.append_assoc, List.getElem?_append_right (by omega), hlen,
        Nat.add_sub_cancel_left]
      exact hy
    obtain ⟨right, hright, hspec⟩ := siblingAt_eq hb.page.width_le hitems
      (((Ctx.allPages_fill c _).mp hp.stored).2 y hmem) (sized_rest hb.sized hmem)
    obtain ⟨ok, hok, hokspec⟩ := canMerge_eq c.slot right (i := c.slot) hroutes (fun _ => ⟨rfl, h1⟩) (pageOf u)
    refine ⟨right, ok, by rw [if_pos h1]; exact hright, hok, fun ht => ?_⟩
    obtain ⟨b, page, hsib, hfit, hdir⟩ := hokspec ht
    obtain ⟨r, rfl, rfl⟩ := hspec b page hsib
    obtain ⟨c', d, y', hyitem, hc', hfill⟩ := directPair_right (by exact trivial) hdir rfl
    have hy' : y' = .page b r := by
      have hr := hitems
      rw [hfill, Ctx.items_fill, List.append_assoc,
        List.getElem?_append_right (by rw [← hc', Ctx.slot]; omega)] at hr
      rw [show c.slot + 1 - c'.leftItems.length = 1 by rw [← hc', Ctx.slot]; omega, items,
        items_of_isItem hyitem] at hr
      simpa [items] using hr
    subst hy'
    simp only [pageOf_size] at hfit
    exact ⟨b, r, c', d, hsib, hc', hfill, by omega⟩
  · refine ⟨none, false, by rw [if_neg h1]; rfl, rfl, fun ht => absurd ht (by decide)⟩

/-- **`MergeChildWithSibling`** merges under a direct branch, or leaves everything. -/
theorem follow_siblings (h : ChildDone pages ix.nodes.page? id j c u₀ (some u) key pos) :
    mergeChildWithSibling id c.slot j ix = .ok false ix ∨
    ∃ ns o, mergeChildWithSibling id c.slot j ix = .ok true { ix with nodes := ns } ∧
      ns.nodes.length = ix.nodes.nodes.length ∧
      Shrinks pages ns.page? id (c.fill (.page j u₀)) o key pos := by
  have hp := h.partly
  have hju : PageAt ix.nodes.page? j u := ((Ctx.allPages_fill c _).mp hp.stored).1.1
  obtain ⟨left, okL, hleft, hcanL, hspecL⟩ := leftSibling_eq h
  obtain ⟨right, okR, hright, hcanR, hspecR⟩ := rightSibling_eq h
  have hcall : mergeChildWithSibling id c.slot j ix
      = mergeChosen id c.slot j (pageOf u) left right okL okR ix := by
    rw [mergeChildWithSibling, Prog.bind_ok (derefNode_run hp.page.page_eq),
      Prog.bind_ok (derefNode_run hju.page_eq), Prog.bind_ok (readNodes_run hleft), pageOf_size,
      Prog.bind_ok (readNodes_run hright), Prog.bind_ok (ofOutcome_run hcanL),
      Prog.bind_ok (ofOutcome_run hcanR)]
  -- the two merges, each ending in `true`
  have hdone : ∀ {m : IndexM Unit},
      Follows m ix pages id (c.fill (.page j u₀)) key pos →
      ∃ ns o, (m >>= fun _ => pure true : IndexM Bool) ix = .ok true { ix with nodes := ns } ∧
        ns.nodes.length = ix.nodes.nodes.length ∧
        Shrinks pages ns.page? id (c.fill (.page j u₀)) o key pos := by
    rintro m ⟨ns, o, hrun, hlen, hsh⟩
    exact ⟨ns, o, by rw [Prog.bind_ok hrun]; rfl, hlen, hsh⟩
  rw [hcall]
  cases okL with
  | true =>
    right
    obtain ⟨a, l, c', d, rfl, hslot, hfill, hfit⟩ := hspecL rfl
    have hl := hdone (follow_left h hslot hfill hfit)
    cases okR with
    | true =>
      obtain ⟨b, r, c'', d', rfl, hslot', hfill', hfit'⟩ := hspecR rfl
      have hr := hdone (follow_right h hslot' hfill' hfit')
      rw [mergeChosen]
      split
      · exact hr
      · exact hl
    | false =>
      cases right with
      | none => exact hl
      | some p => exact hl
  | false =>
    cases okR with
    | true =>
      right
      obtain ⟨b, r, c'', d', rfl, hslot', hfill', hfit'⟩ := hspecR rfl
      have hr := hdone (follow_right h hslot' hfill' hfit')
      cases left with
      | none => exact hr
      | some p => exact hr
    | false =>
      left
      cases left with
      | none => cases right <;> rfl
      | some p => cases right <;> rfl

variable (ix) in
/-- **`DeleteFromChild` after the recursion**: the parent follows. -/
theorem afterChildDelete_eq {o : Option Tree}
    (h : ChildDone pages ix.nodes.page? id j c u₀ o key pos) :
    Follows (afterChildDelete id c.slot j u₀.first u₀.last) ix pages id (c.fill (.page j u₀)) key
      pos := by
  have hb := h.before
  have hidp : ix.nodes.page? id = some (pageOf (c.fill (.page j u₀))) := by
    obtain ⟨hid, _⟩ := List.nodup_cons.mp (nodup_child hb.nodup)
    rw [h.child.other id (Ne.symm h.child_ne) (fun hxu =>
      hid (List.mem_cons_of_mem _ (List.mem_append_left _ hxu)))]
    exact hb.page.page_eq
  unfold Follows
  cases o with
  | none =>
    rw [afterChildDelete, Prog.bind_ok (derefNode_run hidp),
      Prog.bind_ok (derefNode_run (h.child.emptied rfl)),
      if_pos (show NodePage.empty.size = 0 from rfl)]
    exact follow_empty h
  | some u =>
    have hp := h.partly
    have hju : PageAt ix.nodes.page? j u := (h.child.held u rfl).page
    have hu := width_pos u
    have hwf := Ctx.width_fill c (.page j u₀)
    have hwu := Ctx.width_fill c u
    rw [show (PagedTree.page j u₀ : Tree).width = 1 from rfl] at hwf
    rw [afterChildDelete, Prog.bind_ok (derefNode_run hidp),
      Prog.bind_ok (derefNode_run hju.page_eq), if_neg (by rw [pageOf_size]; omega), pageOf_size,
      pageOf_size]
    by_cases hfit : (c.fill (.page j u₀)).width - 1 + u.width ≤ kMaxNodeReps
    · rw [if_pos hfit]
      exact follow_merge h (by omega)
    · rw [if_neg hfit]
      have hboundary : ∃ ns o, (if (pageOf u).firstPos = u₀.first ∧ (pageOf u).lastPos = u₀.last
          then pure ()
          else rebuildParentAfterChildBoundary id c.slot (pageOf u) u₀.first u₀.last : IndexM Unit) ix
            = .ok () { ix with nodes := ns } ∧ ns.nodes.length = ix.nodes.nodes.length ∧
          Shrinks pages ns.page? id (c.fill (.page j u₀)) o key pos := by
        by_cases hsame : (pageOf u).firstPos = u₀.first ∧ (pageOf u).lastPos = u₀.last
        · rw [if_pos hsame]
          refine ⟨ix.nodes, _, rfl, rfl, follow_boundary h ?_⟩
          have hlev := levels_congr (z := [(c, id)]) (i := j) hsame.1 hsame.2
            ⟨⟨hidp, hb.page.width_le, hb.page.id_lt⟩, trivial⟩
          rw [← hlev.1.page_eq, Function.update_eq_self]
        · rw [if_neg hsame]
          obtain ⟨ns, hrun, hlen, hpages⟩ := rebuildParentAfterChildBoundary_eq (u := u) hidp
          exact ⟨ns, _, hrun, hlen, follow_boundary h hpages⟩
      have hmerged : mergeIfSmall id c.slot j u.width ix = .ok false ix ∨
          ∃ ns o, mergeIfSmall id c.slot j u.width ix = .ok true { ix with nodes := ns } ∧
            ns.nodes.length = ix.nodes.nodes.length ∧
            Shrinks pages ns.page? id (c.fill (.page j u₀)) o key pos := by
        unfold mergeIfSmall
        split
        · exact follow_siblings h
        · exact Or.inl rfl
      rcases hmerged with hrun | ⟨ns, o, hrun, hlen, hsh⟩
      · rw [Prog.bind_ok hrun, if_neg (by decide)]
        exact hboundary
      · rw [Prog.bind_ok hrun, if_pos rfl]
        exact ⟨ns, o, rfl, hlen, hsh⟩

end Follow

/-! ### The recursion -/

section Recursion

variable {records : Position → Result ByteView} {ix : Index} {key : ByteView}

/-- A record leaves its page. -/
theorem deleteLeaf_eq {id : UInt64} {c : TreeCtx} {k : ByteView} {v : Position}
    (h : HeldAt ix.nodes.page? id (c.fill (.leaf k v))) :
    Follows (deleteAtIncremental id c.slot) ix ix.nodes.page? id (c.fill (.leaf k v)) k v := by
  have hrem : Removes k v (c.fill (.leaf k v)).entries (c.leftEntries ++ c.rightEntries) :=
    ⟨c.leftEntries, c.rightEntries, by rw [Ctx.entries_fill]; rfl, rfl⟩
  have hids : (c.fill (.leaf k v)).ids = c.leftIds ++ c.rightIds := by
    rw [Ctx.ids_fill]
    simp [ids]
  obtain ⟨hid, hnd⟩ := List.nodup_cons.mp h.nodup
  have hrest : c.AllRest (PageAt ix.nodes.page?) := ((Ctx.allPages_fill c _).mp h.stored).2
  cases hc : c.remove with
  | some t =>
    obtain ⟨ns, hrun, hlen, hpages⟩ := deleteAtIncremental_some h.page.page_eq h.page.width_le h.valid
      h.sized (by exact trivial) hrest hc
    have hidst : t.ids = (c.fill (.leaf k v)).ids := by rw [hids, Ctx.ids_remove c hc]
    have hidt : id ∉ t.ids := by rw [hidst]; exact hid
    have hent : entriesOf (some t) = c.leftEntries ++ c.rightEntries := Ctx.entries_remove c hc
    have hwt : t.width ≤ kMaxNodeReps := by
      have h1 := Ctx.width_remove c hc
      have h2 := Ctx.width_fill c (.leaf k v)
      have h3 := h.page.width_le
      omega
    have hst : Stored ns.page? t := by
      rw [hpages]
      exact Stored.update ((Ctx.allPages_remove hc).mpr hrest) hidt
    refine ⟨ns, some t, hrun, hlen, ⟨?_, fun h' => absurd h' (by simp), ?_, ?_, ?_, hent ▸ hrem⟩⟩
    · rintro t' ht'
      obtain rfl := Option.some.inj ht'
      refine ⟨?_, hst, Ctx.valid_remove h.valid hc, h.sized.of_subset (fun e he => ?_), ?_⟩
      · rw [hpages]
        exact pageAt_update_self hwt h.page.id_lt
      · exact hrem.subset e (hent ▸ he)
      · rw [hidst]
        exact h.nodup
    · intro x hx
      exact hidst ▸ hx
    · intro x hx
      have hxt : x ∈ t.ids := hidst.symm ▸ hx
      exact ⟨fun _ => hxt, fun _ => Stored.isSome hst hxt⟩
    · intro x hxid _
      rw [hpages, update_ne hxid]
  | none =>
    obtain rfl := Ctx.remove_eq_none hc
    obtain ⟨ns, hrun, hlen, hpages⟩ := deleteAtIncremental_none (x := .leaf k v) h.page.page_eq
      (by exact trivial)
    refine ⟨ns, none, hrun, hlen, ⟨fun t ht => absurd ht (by simp), fun _ => ?_,
      fun x hx => absurd hx List.not_mem_nil, fun x hx => absurd hx List.not_mem_nil, ?_, hrem⟩⟩
    · rw [hpages, Function.update_self]
    · intro x hxid _
      rw [hpages, update_ne hxid]

/-- A page, seen from the page above it. -/
theorem HeldAt.child {pages : Pages} {id j : UInt64} {c : TreeCtx} {u : Tree}
    (h : HeldAt pages id (c.fill (.page j u))) : HeldAt pages j u := by
  obtain ⟨⟨hj, hu⟩, _⟩ := (Ctx.allPages_fill c _).mp h.stored
  obtain ⟨_, hnd⟩ := List.nodup_cons.mp (nodup_child h.nodup)
  obtain ⟨hj', hnd'⟩ := List.nodup_cons.mp hnd
  exact ⟨hj, hu, Valid.of_fill (s := .page j u) h.valid,
    h.sized.of_subset (fun e he => mem_entries_fill.mpr (Or.inr (Or.inl he))),
    List.nodup_cons.mpr ⟨fun h' => hj' (List.mem_append_left _ h'), (List.nodup_append.mp hnd').1⟩⟩

variable (records key) in
/-- **`DeleteFrom`**: the key is not below the page and nothing changes, or the page has
shrunk; or the record of the leaf cannot be read. -/
theorem deleteFrom_eq : ∀ (fuel : ℕ) (id : UInt64) (s : Tree), s.depth ≤ fuel →
    HeldAt ix.nodes.page? id s → KnowsOrFails records s → HeapNodeStore.root ∉ s.ids →
    ((s.find key).1 ≠ key ∧ deleteFrom records key fuel id ix = .ok ⟨0, false⟩ ix) ∨
    ((s.find key).1 = key ∧ ∃ ns o, deleteFrom records key fuel id ix
        = .ok ⟨(s.find key).2, true⟩ { ix with nodes := ns } ∧
      ns.nodes.length = ix.nodes.nodes.length ∧
      Shrinks ix.nodes.page? ns.page? id s o key (s.find key).2) ∨
    (¬ Knows records s ∧ ∃ code, deleteFrom records key fuel id ix = .error (.status code) ix)
  | 0, _, s, hd, _, _, _ => by
    have := one_le_depth s
    omega
  | fuel + 1, id, s, hd, h, hk, hroot => by
    obtain ⟨c, x, rfl, hal, hx⟩ := descent_step key s
    have hitem : x.IsItem := by
      rcases hx with ⟨k, v, rfl⟩ | ⟨j, s', rfl, _⟩ <;> trivial
    obtain ⟨hlookup, hrep⟩ := lookup_run h.page h.valid h.sized hitem rfl hal
    rw [Ctx.find_fill hal, deleteFrom, Prog.bind_ok (nodeByID_run h.page.page_eq),
      Prog.bind_ok (ofOutcome_run hlookup), if_neg (by simp), Prog.bind_ok (ofOutcome_run hrep)]
    rcases hx with ⟨k, v, rfl⟩ | ⟨j, u, rfl, hdepth⟩
    · have hmem : (k, v) ∈ (c.fill (.leaf k v) : Tree).entries := by
        rw [Ctx.entries_fill]
        simp [entries]
      obtain ⟨h1, h2⟩ := repOf_leaf (k := k) (h.sized _ hmem).2
      rw [h1, if_neg (by decide), h2]
      rcases (hk _ hmem).symm with ⟨code, hfails⟩ | hknown
      · right
        right
        refine ⟨fun hall => ?_, code, Prog.bind_error ?_⟩
        · rw [hall _ hmem] at hfails
          exact absurd hfails (by simp [err])
        · rw [recordKey_err hfails]
          rfl
      have hread := recordKey_ok hknown (h.sized _ hmem).1
      rw [Prog.bind_ok (ofOutcome_run hread)]
      by_cases hkk : k = key
      · subst hkk
        right
        left
        obtain ⟨ns, o, hrun, hlen, hsh⟩ := deleteLeaf_eq h
        refine ⟨rfl, ns, o, ?_, hlen, hsh⟩
        rw [if_pos (compareKeys_eq_zero.mpr rfl), Prog.bind_ok hrun]
        rfl
      · left
        refine ⟨hkk, ?_⟩
        rw [if_neg (fun h0 => hkk (compareKeys_eq_zero.mp h0))]
        rfl
    · have hchild := h.child
      obtain ⟨h1, h2⟩ := repOf_page (t := u) hchild.page.id_lt
      have hwu := width_pos u
      have hsub : ∀ e ∈ u.entries, e ∈ (c.fill (.page j u) : Tree).entries :=
        fun e he => mem_entries_fill.mpr (Or.inr (Or.inl he))
      have hku : KnowsOrFails records u := hk.of_subset hsub
      have hrootu : HeapNodeStore.root ∉ u.ids := fun h' =>
        hroot (mem_ids_child.mpr (Or.inr (Or.inl h')))
      rw [h1, if_pos rfl, h2, Prog.bind_ok (nodeByID_run hchild.page.page_eq),
        if_neg (by rw [pageOf_size]; omega)]
      rcases deleteFrom_eq fuel j u (by omega) hchild hku hrootu with
        ⟨hne, hrun⟩ | ⟨heq, ns, o, hrun, hlen, hsh⟩ | ⟨hunknown, code, hrun⟩
      · left
        refine ⟨hne, ?_⟩
        rw [Prog.bind_ok hrun, if_pos rfl]
        rfl
      · right
        left
        obtain ⟨ns', o', hrun', hlen', hsh'⟩ := afterChildDelete_eq { ix with nodes := ns }
          ⟨h, hsh, hroot⟩
        refine ⟨heq, ns', o', ?_, hlen'.trans hlen, hsh'⟩
        rw [Prog.bind_ok hrun, if_neg (by simp), pageOf_firstPos, pageOf_lastPos,
          Prog.bind_ok hrun']
        rfl
      · right
        right
        exact ⟨fun hall => hunknown (Knows.of_subset hall hsub), code, Prog.bind_error hrun⟩

end Recursion

/-! ### The root -/

section Root

variable {ix : Index}

/-- **`CompressRoot`**: as long as the root holds a single child it takes over the child's page. -/
theorem compressRootLoop_eq : ∀ (fuel : ℕ) (t : Tree) (ix : Index), t.depth ≤ fuel →
    ix.rootId = HeapNodeStore.root → Holds ix.nodes.page? (.page ix.rootId t) →
    ∃ ns t', compressRootLoop ix.rootId fuel ix = .ok () { ix with nodes := ns } ∧
      ns.nodes.length = ix.nodes.nodes.length ∧ Holds ns.page? (.page ix.rootId t') ∧
      Path.NotPage t' ∧ t'.entries = t.entries
  | 0, t, _, hd, _, _ => by
    have := one_le_depth t
    omega
  | fuel + 1, t, ix, hd, hroot, h => by
    have hat : PageAt ix.nodes.page? ix.rootId t := Holds.pageAt (z := []) h
    obtain ⟨x, hx, hxm, _⟩ := head_items t
    have hrep := repAt_items (pageOf_reps t) hx (by decide)
    have hsx : Sized x := Sized.of_subset (Holds.sized_below (z := []) h)
      (mem_entries_of_mem_items hxm)
    have hstx : Stored ix.nodes.page? x :=
      (allPages_iff_items t).mp (Holds.stored_below (z := []) h) x hxm
    rw [compressRootLoop, Prog.bind_ok (derefNode_run hat.page_eq), Prog.bind_ok (ofOutcome_run hrep),
      pageOf_size]
    by_cases hpage : Path.NotPage t
    · have hcond : ¬ (t.width = 1 ∧ (repOf x).isChild = true) := by
        rintro ⟨h1, h2⟩
        have hitem := isItem_of_width h1
        rw [items_of_isItem hitem] at hxm
        obtain rfl := List.mem_singleton.mp hxm
        cases x with
        | leaf k v =>
          rw [(repOf_leaf (k := k) (hsx (k, v) (List.mem_singleton_self _)).2).1] at h2
          exact absurd h2 (by decide)
        | page j s => exact hpage j s rfl
        | node d l r => exact hitem
      rw [if_neg hcond]
      exact ⟨ix.nodes, t, rfl, rfl, h, hpage, rfl⟩
    · simp only [Path.NotPage, not_forall, not_not] at hpage
      obtain ⟨j, s, rfl⟩ := hpage
      obtain rfl := List.mem_singleton.mp hxm
      have hj := hstx.1
      obtain ⟨h1, h2⟩ := repOf_page (t := s) hj.id_lt
      obtain ⟨hnr, hnd⟩ := List.nodup_cons.mp h.nodup
      obtain ⟨hnj, hnd'⟩ := List.nodup_cons.mp hnd
      have hjr : j ≠ ix.rootId := fun he => hnr (he ▸ List.mem_cons_self)
      have hrs : ix.rootId ∉ s.ids := fun h' => hnr (List.mem_cons_of_mem _ h')
      have hjroot : j ≠ HeapNodeStore.root := hroot ▸ hjr
      have hwrite := writesPage_writePage (pageOf s) hat.page_eq
      obtain ⟨ns, hrun, hlen, hpages⟩ := hwrite.free hj.page_eq hjroot hjr
      have hholds : Holds ns.page? (.page ix.rootId s) := by
        refine ⟨⟨?_, ?_⟩, h.valid, h.sized, List.nodup_cons.mpr ⟨hrs, hnd'⟩, fun x => ?_⟩
        · rw [hpages]
          exact (pageAt_update_self hj.width_le hat.id_lt).update (Ne.symm hjr)
        · rw [hpages]
          exact Stored.update (Stored.update hstx.2 hrs) hnj
        · rw [hpages]
          by_cases hxj : x = j
          · subst hxj
            rw [Function.update_self]
            simp only [Option.isSome_none, Bool.false_eq_true, ids, List.mem_cons, false_iff, not_or]
            exact ⟨hjr, hnj⟩
          · rw [update_ne hxj]
            by_cases hxr : x = ix.rootId
            · subst hxr
              simp [ids]
            · rw [update_ne hxr, h.alloc x]
              simp [ids, hxj]
      obtain ⟨ns', t', hrun', hlen', hholds', hnp, hent⟩ := compressRootLoop_eq fuel s
        { ix with nodes := ns } (by simp only [depth] at hd; omega) hroot hholds
      refine ⟨ns', t', ?_, hlen'.trans hlen, hholds', hnp, hent⟩
      rw [if_pos ⟨rfl, h1⟩, h2, Prog.bind_ok (nodeByID_run hj.page_eq), ← bind_assoc,
        Prog.bind_ok hrun]
      exact hrun'

/-- `CompressRoot` leaves the empty root page. -/
theorem compressRoot_empty (hpage : ix.nodes.page? ix.rootId = some NodePage.empty) :
    compressRoot ix = .ok () ix := by
  have hrep : NodePage.empty.repAt 0 = .ok Rep.zero := rfl
  rw [compressRoot, Prog.get_bind, Prog.bind_ok (nodeByID_run hpage), Index.fuel, compressRootLoop,
    Prog.bind_ok (derefNode_run hpage), Prog.bind_ok (ofOutcome_run hrep),
    if_neg (fun h => absurd h.1 (by decide))]
  rfl

end Root

/-! ### The whole call -/

section Spec

variable {records : Position → Result ByteView} {ix : Index} {key : ByteView}

/-- What `Delete` answers about the position stored before. -/
def deleteResult : Option Position → DeleteResult
  | some v => ⟨v, true⟩
  | none => ⟨0, false⟩

variable (ix) in
theorem compressRoot_eq {t : Tree} (hroot : ix.rootId = HeapNodeStore.root)
    (h : Holds ix.nodes.page? (.page ix.rootId t)) :
    ∃ ns t', compressRoot ix = .ok () { ix with nodes := ns } ∧
      ns.nodes.length = ix.nodes.nodes.length ∧ Holds ns.page? (.page ix.rootId t') ∧
      Path.NotPage t' ∧ t'.entries = t.entries := by
  have hat : PageAt ix.nodes.page? ix.rootId t := Holds.pageAt (z := []) h
  have hdepth := h.depth_le
  rw [compressRoot, Prog.get_bind, Prog.bind_ok (nodeByID_run hat.page_eq)]
  exact compressRootLoop_eq ix.fuel t ix
    (by simp only [depth, Index.fuel] at hdepth ⊢; omega) hroot h

theorem delete_run (hkey : key.length ≤ kMaxKeySize) : delete records key ix = (do
      let result ← deleteFrom records key ix.fuel ix.rootId
      if result.deleted = true then do
        modify fun ix => { ix with count := ix.count - 1 }
        compressRoot
        pure result
      else pure result : IndexM DeleteResult) ix := by
  rw [delete, Prog.bind_ok (ofOutcome_run (checkKeySize_ok hkey)), Prog.get_bind]

/-- The root page and everything below it. -/
theorem Holds.heldAt {pages : Pages} {id : UInt64} {t : Tree} (h : Holds pages (.page id t)) :
    HeldAt pages id t :=
  ⟨h.stored.1, h.stored.2, h.valid, h.sized, h.nodup⟩

/-- What is left of the root page. -/
theorem Shrinks.holds {pages pages' : Pages} {id : UInt64} {t t' : Tree} {pos : Position}
    (h : Holds pages (.page id t)) (hs : Shrinks pages pages' id t (some t') key pos) :
    Holds pages' (.page id t') := by
  have hheld := hs.held t' rfl
  refine ⟨⟨hheld.page, hheld.stored⟩, hheld.valid, hheld.sized, hheld.nodup, fun x => ?_⟩
  by_cases hxid : x = id
  · subst hxid
    rw [hheld.page.page_eq]
    simp [ids]
  · by_cases hx : x ∈ t.ids
    · rw [hs.alloc x hx]
      simp [ids, hxid, idsOf]
    · rw [hs.other x hxid hx, h.alloc x]
      have hx' : x ∉ t'.ids := fun h' => hx (hs.subset x h')
      simp [ids, hxid, hx, hx']

/-- **`Delete` refines the map update, or changes nothing**: a key could not be read. -/
theorem delete_spec_or {o : Option Tree} (h : Represents ix o)
    (hk : KnowsAllOrFails records (entriesOf o)) (hkey : key.length ≤ kMaxKeySize) :
    Answers (delete records key) ix (deleteResult ((toMap h).get? key)) ((toMap h).erase key) 0 ∨
    (¬ KnowsAll records (entriesOf o) ∧
      ∃ code, delete records key ix = .error (.status code) ix) := by
  cases o with
  | none =>
    left
    have hpage := h.2.2.1
    have hlookup : NodePage.empty.lookup key = .ok (0, false) := rfl
    have hget : (toMap h).get? key = none := rfl
    refine ⟨ix, none, h, ?_, (SortedMap.erase_eq_self hget).symm, le_refl _⟩
    rw [delete_run hkey, Index.fuel, deleteFrom, bind_assoc, Prog.bind_ok (nodeByID_run hpage),
      bind_assoc, Prog.bind_ok (ofOutcome_run hlookup), if_pos rfl, hget]
    rfl
  | some t =>
    obtain ⟨hroot, hcount, hholds, hnp⟩ := id h
    have hdepth := hholds.depth_le
    have hv : t.Valid := Holds.valid_below (z := []) hholds
    have hget : (toMap h).get? key = _ := get?_eq_find hv key
    have hrootn : HeapNodeStore.root ∉ t.ids := hroot ▸ (List.nodup_cons.mp hholds.nodup).1
    rcases deleteFrom_eq records key ix.fuel ix.rootId t
        (by simp only [depth, Index.fuel] at hdepth ⊢; omega) hholds.heldAt hk hrootn with
      ⟨hne, hrun⟩ | ⟨heq, ns, o', hrun, hlen, hsh⟩ | ⟨hunknown, code, hrun⟩
    · left
      rw [if_neg hne] at hget
      refine ⟨ix, some t, h, ?_, (SortedMap.erase_eq_self hget).symm, le_refl _⟩
      rw [delete_run hkey, Prog.bind_ok hrun, if_neg (by decide), hget]
      rfl
    · left
      rw [if_pos heq] at hget
      obtain ⟨a, b, hsplit, hrest⟩ := hsh.removes
      have herase : ((toMap h).erase key).entries = entriesOf o' := by
        rw [SortedMap.erase_middle (m := toMap h) hsplit, hrest]
      have hsize : (entriesOf o').length + 1 = t.entries.length := by
        have := SortedMap.size_erase_of_some hget
        rw [SortedMap.size, herase] at this
        exact this
      have hcount' : ix.count - 1 = Int32.ofNat (entriesOf o').length := by
        rw [hcount, ← hsize, Int32.ofNat_add]
        exact Int32.add_sub_cancel _ _
      cases o' with
      | none =>
        have hpage : ns.page? ix.rootId = some NodePage.empty := hsh.emptied rfl
        refine ⟨{ ix with nodes := ns, count := ix.count - 1 }, none,
          ⟨hroot, hcount', hpage, fun x => ?_⟩, ?_, ?_, ?_⟩
        · show (ns.page? x).isSome ↔ x = ix.rootId
          by_cases hxid : x = ix.rootId
          · subst hxid
            rw [hpage]
            simp
          · by_cases hx : x ∈ t.ids
            · rw [hsh.alloc x hx]
              simp [idsOf, hxid]
            · rw [hsh.other x hxid hx, hholds.alloc x]
              simp [ids, hxid, hx]
        · rw [delete_run hkey, Prog.bind_ok hrun, if_pos rfl, Prog.modify_bind,
            Prog.bind_ok (compressRoot_empty hpage), hget]
          rfl
        · exact SortedMap.ext_entries herase.symm
        · simp only
          omega
      | some t' =>
        obtain ⟨ns', t'', hrun', hlen', hholds', hnp', hent⟩ := compressRoot_eq { ix with nodes := ns, count := ix.count - 1 } hroot (hsh.holds hholds)
        refine ⟨{ ix with nodes := ns', count := ix.count - 1 }, some t'',
          ⟨hroot, ?_, hholds', hnp'⟩, ?_, ?_, ?_⟩
        · show ix.count - 1 = _
          rw [hent]
          exact hcount'
        · rw [delete_run hkey, Prog.bind_ok hrun, if_pos rfl, Prog.modify_bind,
            Prog.bind_ok hrun', hget]
          rfl
        · refine SortedMap.ext_entries ?_
          rw [herase]
          exact hent
        · simp only at hlen' ⊢
          omega
    · right
      exact ⟨hunknown, code, by rw [delete_run hkey, Prog.bind_error hrun]⟩

/-- **`Delete` refines the map update** when all keys are known. -/
theorem delete_spec {o : Option Tree} (h : Represents ix o) (hk : KnowsAll records (entriesOf o))
    (hkey : key.length ≤ kMaxKeySize) :
    Answers (delete records key) ix (deleteResult ((toMap h).get? key)) ((toMap h).erase key)
      0 :=
  (delete_spec_or h hk.orFails hkey).resolve_right fun hne => hne.1 hk

end Spec

end MinweightStore.Minpatricia
