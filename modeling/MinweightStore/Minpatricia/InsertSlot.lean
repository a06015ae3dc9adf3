import MinweightStore.Base.AlterPage
import MinweightStore.Minpatricia.IterSpec
import MinweightStore.Minpatricia.Structure

/-!
# The insertion slot is the sorted position

The one place `Put` and the seeks compute for a key that is not there, said by the pages, the
records below their reps and the keys of the map.

* `lookupPath` — the frames the lookups of a descent leave behind; `insertLoop_lookupPath`,
  `seekLoop_lookupPath` — both descents collect them;
* `repRecordsWith` — the records below a rep once a page has one more rep;
* `SortedSlot` — what makes a slot the place of a key; `insertSlot_sorted`.
-/

namespace MinweightStore.Minpatricia

open BitKey PagedTree

/-! ### The path of a descent -/

/-- The frames of the lookups from page `id` down to a record, and the position of the record. -/
def lookupPath (ns : HeapNodeStore) (key : ByteView) :
    ℕ → UInt64 → Result (List PutFrame × Position)
  | 0, _ => .error .diverges
  | fuel + 1, id => do
    let node ← ns.get id
    let leaf ← node.lookup key
    if leaf.2 = false then err .corruptLayout
    else do
      let rep ← node.repAt leaf.1
      if rep.isChild then do
        let below ← lookupPath ns key fuel rep.childId
        .ok (⟨id, leaf.1⟩ :: below.1, below.2)
      else .ok ([⟨id, leaf.1⟩], rep.position)

section Descent

variable {ns : HeapNodeStore} {key : ByteView} {fuel : ℕ} {id : UInt64} {frames : List PutFrame}
  {pos : Position}

/-- One page of the path: a child rep leads on, a record rep ends it. -/
theorem lookupPath_cases (h : lookupPath ns key (fuel + 1) id = .ok (frames, pos)) :
    ∃ node leaf rep, ns.page? id = some node ∧ node.size ≠ 0 ∧
      node.lookup key = .ok (leaf, true) ∧ node.repAt leaf = .ok rep ∧
      ((rep.isChild = true ∧ ∃ below, frames = ⟨id, leaf⟩ :: below ∧
          lookupPath ns key fuel rep.childId = .ok (below, pos)) ∨
        (rep.isChild = false ∧ frames = [⟨id, leaf⟩] ∧ pos = rep.position)) := by
  rw [lookupPath] at h
  obtain ⟨node, hget, h⟩ := Outcome.of_bind h
  obtain ⟨⟨leaf, found⟩, hlookup, h⟩ := Outcome.of_bind h
  have hpage : ns.page? id = some node := by
    rw [HeapNodeStore.get] at hget
    split at hget
    · rename_i page hp
      rw [hp, Except.ok.inj hget]
    · exact absurd hget (by simp [err])
  have hsize : node.size ≠ 0 ∧ found = true := by
    rw [NodePage.lookup, NodePage.lookupRouteOnly] at hlookup
    split at hlookup
    · obtain ⟨rfl, rfl⟩ := Prod.mk.inj (Except.ok.inj hlookup)
      exact absurd h (by simp [err])
    · rename_i hne
      obtain ⟨_, _, hok⟩ := Outcome.of_bind hlookup
      exact ⟨hne, (Prod.mk.inj (Except.ok.inj hok)).2.symm⟩
  obtain ⟨hne, rfl⟩ := hsize
  rw [if_neg (by simp)] at h
  obtain ⟨rep, hrep, h⟩ := Outcome.of_bind h
  refine ⟨node, leaf, rep, hpage, hne, hlookup, hrep, ?_⟩
  split at h
  · rename_i hchild
    obtain ⟨below, hbelow, h⟩ := Outcome.of_bind h
    obtain ⟨rfl, rfl⟩ := Prod.mk.inj (Except.ok.inj h)
    exact Or.inl ⟨hchild, below.1, rfl, hbelow⟩
  · rename_i hchild
    obtain ⟨rfl, rfl⟩ := Prod.mk.inj (Except.ok.inj h)
    exact Or.inr ⟨Bool.eq_false_of_not_eq_true hchild, rfl, rfl⟩

/-- **`InsertOrReplace` collects the path.** -/
theorem insertLoop_lookupPath {alloc : IndexM UInt64} {records : Position → Result ByteView}
    {rep : Rep} {ix : Index} : ∀ {fuel : ℕ} {id : UInt64} {frames : List PutFrame},
    lookupPath ix.nodes key fuel id = .ok (frames, pos) → ∀ above : List PutFrame,
    ∃ (last : PutFrame) (node : NodePage), frames.getLast? = some last ∧
      ix.nodes.page? last.id = some node ∧
      insertLoop alloc records key rep fuel above id ix
        = insertOrReplaceAt alloc records key rep (above ++ frames) last.id node last.leaf pos ix
  | 0, _, _, h, _ => absurd h (by simp [lookupPath])
  | fuel + 1, id, frames, h, above => by
    obtain ⟨node, leaf, r, hpage, hsize, hlookup, hrep, hcase⟩ := lookupPath_cases h
    have hrun : insertLoop alloc records key rep (fuel + 1) above id ix
        = (if r.isChild then insertLoop alloc records key rep fuel (above ++ [⟨id, leaf⟩]) r.childId
          else insertOrReplaceAt alloc records key rep (above ++ [⟨id, leaf⟩]) id node leaf
            r.position) ix := by
      rw [insertLoop, Prog.bind_ok (nodeByID_run hpage), if_neg hsize,
        Prog.bind_ok (ofOutcome_run hlookup), if_neg (by simp), Prog.bind_ok (ofOutcome_run hrep)]
    rcases hcase with ⟨hchild, below, rfl, hbelow⟩ | ⟨hrecord, rfl, rfl⟩
    · obtain ⟨last, node', hlast, hpage', hrun'⟩ :=
        insertLoop_lookupPath hbelow (above ++ [⟨id, leaf⟩])
      refine ⟨last, node', ?_, hpage', ?_⟩
      · rw [List.getLast?_cons, hlast]
        rfl
      · rw [hrun, if_pos hchild, hrun', List.append_assoc]
        rfl
    · exact ⟨⟨id, leaf⟩, node, rfl, hpage, by rw [hrun, hrecord]; rfl⟩

/-- **The seeks collect the path.** -/
theorem seekLoop_lookupPath (records : Position → Result ByteView) (dir : Direction) :
    ∀ {fuel : ℕ} {id : UInt64} {frames : List PutFrame},
    lookupPath ns key fuel id = .ok (frames, pos) → ∀ above : IterPath,
    ∃ path : IterPath, path.framesForInsert = above.framesForInsert ++ frames ∧
      seekLoop records ns dir key fuel above id = (do
        let stored ← recordKey records pos
        match compareAndDiffBit key stored with
        | .error (.status .equalKeys) => .ok (true, path)
        | .error fault => .error fault
        | .ok cmp => do
          let slot ← insertSlotFromPath ns key cmp.compare cmp.diff 0 path.framesForInsert
          positionAt ns dir path slot.target slot.slot)
  | 0, _, _, h, _ => absurd h (by simp [lookupPath])
  | fuel + 1, id, frames, h, above => by
    obtain ⟨node, leaf, r, hpage, hsize, hlookup, hrep, hcase⟩ := lookupPath_cases h
    have hframes := IterPath.frames_pushNode above id leaf
    rw [seekLoop]
    simp only [HeapNodeStore.get_eq hpage, bind, Except.bind, if_neg hsize, hlookup, hrep,
      Bool.true_eq_false, if_false]
    rcases hcase with ⟨hchild, below, rfl, hbelow⟩ | ⟨hrecord, rfl, rfl⟩
    · obtain ⟨path, hpath, hrun⟩ := seekLoop_lookupPath records dir hbelow
        (above.pushNode id leaf)
      refine ⟨path, ?_, ?_⟩
      · rw [hpath, hframes, List.append_assoc]
        rfl
      · rw [if_pos hchild, hrun]
        rfl
    · refine ⟨above.pushNode id leaf, hframes, ?_⟩
      rw [hrecord]
      rfl

variable (key) in
/-- **The path of a held tree**: it ends at the leaf the key is routed to. -/
theorem lookupPath_eq : ∀ (fuel : ℕ) (id : UInt64) (s : Tree), s.depth ≤ fuel →
    Stored ns.page? (.page id s) → s.Valid → Sized s →
    ∃ (w : TreePath) (k : ByteView) (v : Position), w ≠ [] ∧ Path.Along key w ∧
      Path.fill w.reverse (.leaf k v) = .page id s ∧
      lookupPath ns key fuel id = .ok (rootFrames w, v)
  | 0, _, s, hd, _, _, _ => by
    have := one_le_depth s
    omega
  | fuel + 1, id, s, hd, hst, hv, hs => by
    obtain ⟨c, x, rfl, hal, hx⟩ := descent_step key s
    have hitem : x.IsItem := by
      rcases hx with ⟨k, v, rfl⟩ | ⟨j, s', rfl, _⟩ <;> trivial
    obtain ⟨hlookup, hrep⟩ := lookup_run hst.1 hv hs hitem rfl hal
    have hsx : Sized x := hs.of_subset (fun e he => mem_entries_fill.mpr (Or.inr (Or.inl he)))
    rw [lookupPath]
    simp only [HeapNodeStore.get_eq hst.1.page_eq, bind, Except.bind, hlookup, hrep,
      Bool.true_eq_false, if_false]
    rcases hx with ⟨k, v, rfl⟩ | ⟨j, s', rfl, hdepth⟩
    · obtain ⟨h1, h2⟩ := repOf_leaf (k := k) (hsx (k, v) (List.mem_singleton_self _)).2
      refine ⟨[(c, id)], k, v, List.cons_ne_nil _ _, ?_, rfl, ?_⟩
      · intro ci hci
        rw [List.mem_singleton.mp hci]
        exact hal
      · rw [h1, h2]
        rfl
    · have hst' := ((Ctx.allPages_fill c _).mp hst.2).1
      obtain ⟨h1, h2⟩ := repOf_page (t := s') hst'.1.id_lt
      obtain ⟨w, k, v, _, hal', hfill, hrun⟩ := lookupPath_eq fuel j s' (by omega) hst'
        (Valid.of_fill (s := .page j s') hv) hsx
      refine ⟨(c, id) :: w, k, v, List.cons_ne_nil _ _, ?_, ?_, ?_⟩
      · intro ci hci
        rcases List.mem_cons.mp hci with rfl | hci
        · exact hal
        · exact hal' ci hci
      · rw [List.reverse_cons, Path.fill_append, hfill]
        rfl
      · rw [h1, h2, if_pos rfl, hrun]
        rfl

end Descent

/-! ### One rep more -/

/-- The positions of the records below a rep once page `id` has a new rep at `slot`, from left to
right. -/
def repRecordsWith (pages : Pages) (id : UInt64) (slot : ℕ) (newRep : Rep) :
    ℕ → Rep → Option (List Position)
  | 0, _ => none
  | fuel + 1, rep =>
    if rep.isChild then do
      let page ← pages rep.childId
      let reps := if rep.childId = id then insertedReps page slot newRep else page.repList
      let below ← reps.mapM (repRecordsWith pages id slot newRep fuel)
      some below.flatten
    else some [rep.position]

section With

variable {pages : Pages} {id : UInt64} {slot : ℕ} {key : ByteView} {δ : ℕ} {pos : Position}

theorem mem_ids_of_mem_items {t x : Tree} (hx : x ∈ t.items) {i : UInt64} (hi : i ∈ x.ids) :
    i ∈ t.ids := by
  rw [← flatMap_items_ids]
  exact List.mem_flatMap.mpr ⟨x, hx, hi⟩

variable (id slot key δ) in
/-- **The records below a rep are the entries of its altered tree.** -/
theorem repRecordsWith_eq (hp : pos.toNat < 2 ^ 63) : ∀ (fuel : ℕ) {x : Tree}, x.IsItem →
    Stored pages x → Sized x → x.ids.Nodup →
    (∀ s, (id, s) ∈ x.subpages → slot = s.insertSlot key δ) → x.depth ≤ fuel →
    repRecordsWith pages id slot ⟨pos⟩ fuel (repOf x)
      = some (positionsOf (alterPage id (insertPage key δ (.leaf key pos)) x))
  | 0, x, _, _, _, _, _, hd => absurd (one_le_depth x) (by omega)
  | fuel + 1, .leaf k p, _, _, hs, _, _, _ => by
    obtain ⟨h1, h2⟩ := repOf_leaf (k := k) (hs (k, p) (List.mem_singleton_self _)).2
    rw [repRecordsWith, h1, h2]
    rfl
  | fuel + 1, .page i t, _, hst, hs, hnd, hslot, hd => by
    obtain ⟨h1, h2⟩ := repOf_page (t := t) hst.1.id_lt
    obtain ⟨hi, hndt⟩ := List.nodup_cons.mp hnd
    have hdepth : t.depth ≤ fuel := by
      have : (PagedTree.page i t).depth = t.depth + 1 := rfl
      omega
    have hitem : ∀ x ∈ t.items, repRecordsWith pages id slot ⟨pos⟩ fuel (repOf x)
        = some (positionsOf (alterPage id (insertPage key δ (.leaf key pos)) x)) := by
      intro x hx
      have hsub : x.ids.Nodup := by
        rw [← flatMap_items_ids] at hndt
        exact (List.nodup_flatMap.mp hndt).1 x hx
      refine repRecordsWith_eq hp fuel (isItem_of_mem_items hx)
        ((allPages_iff_items t).mp hst.2 x hx)
        (Sized.of_subset (s := x) (t := t) hs (mem_entries_of_mem_items hx)) hsub ?_
        (le_trans (depth_le_of_mem_items hx) hdepth)
      intro s hsx
      refine hslot s (List.mem_cons_of_mem _ ?_)
      rw [subpages_eq]
      exact List.mem_flatMap.mpr ⟨x, hx, hsx⟩
    rw [repRecordsWith, h1, h2, if_pos rfl, hst.1.page_eq]
    simp only [bind, Option.bind]
    by_cases hid : i = id
    · subst hid
      have hbelow : ((insertPage key δ (.leaf key pos) t).items.map repOf).mapM
          (repRecordsWith pages i slot ⟨pos⟩ fuel)
          = some ((insertPage key δ (.leaf key pos) t).items.map positionsOf) := by
        refine mapM_map_pure repOf positionsOf (fun x hx => ?_)
        rw [items_insertPage (by trivial), List.mem_append, List.mem_cons] at hx
        have hold : x ∈ t.items → repRecordsWith pages i slot ⟨pos⟩ fuel (repOf x)
            = some (positionsOf x) := by
          intro hx
          rw [hitem x hx, alterPage_of_not_mem (fun hin => hi (mem_ids_of_mem_items hx hin))]
        rcases hx with hx | rfl | hx
        · exact hold (List.mem_of_mem_take hx)
        · obtain ⟨n, rfl⟩ : ∃ n, fuel = n + 1 :=
            ⟨fuel - 1, by have := one_le_depth t; omega⟩
          obtain ⟨h3, h4⟩ := repOf_leaf (k := key) hp
          rw [repRecordsWith, h3, h4]
          rfl
        · exact hold (List.mem_of_mem_drop hx)
      rw [if_pos rfl, hslot t List.mem_cons_self, insertedReps_eq hst.1.width_le,
        ← hslot t List.mem_cons_self, hbelow, alterPage_self]
      exact congrArg some (flatten_positionsOf _)
    · have hbelow : (t.items.map repOf).mapM (repRecordsWith pages id slot ⟨pos⟩ fuel)
          = some (t.items.map fun x =>
              positionsOf (alterPage id (insertPage key δ (.leaf key pos)) x)) :=
        mapM_map_pure repOf _ hitem
      rw [if_neg hid, repList_pageOf hst.1.width_le, hbelow, alterPage_of_ne hid]
      have hitems := flatten_positionsOf (alterPage id (insertPage key δ (.leaf key pos)) t)
      rw [items_alterPage, List.map_map] at hitems
      exact congrArg some hitems

end With

/-! ### The place of a key -/

/-- These are the keys below one node of the tree of the map. -/
def OneNode (m : SortedMap ByteView Position) (keys : List ByteView) : Prop :=
  ∃ (t : Tree) (c : TreeCtx) (u : Tree), PatriciaOf t m ∧ t = c.fill u ∧
    keys = u.entries.map Prod.fst

/-- **The sorted position** of a key: a page on the path and a slot of it, the entries of the map
`before` the page, `below` its reps and `after` it. -/
structure SortedSlot (ix : Index) (records : RecordStore) (m : SortedMap ByteView Position)
    (key : ByteView) (pos : Position) (frames : List PutFrame) (slot : InsertSlot)
    (frame : PutFrame) (page : NodePage) (before after : List (ByteView × Position))
    (below : List (List (ByteView × Position))) : Prop where
  frame_eq : frames[slot.target]? = some frame
  page_eq : ix.nodes.page? frame.id = some page
  slot_le : slot.slot ≤ page.size
  below_eq : pageRecords ix.nodes page = some (below.map fun l => l.map Prod.snd)
  entries_eq : m.entries = before ++ below.flatten ++ after
  smaller : ∀ e ∈ before ++ (below.take slot.slot).flatten, e.1 < key
  larger : ∀ e ∈ (below.drop slot.slot).flatten ++ after, key < e.1
  -- with the new rep in its slot, below the child reps of the path
  child : ∀ f ∈ frames, ∀ node rep, ix.nodes.page? f.id = some node →
    node.repList[f.leaf]? = some rep → rep.isChild → ∃ positions keys,
      repRecordsWith ix.nodes.page? frame.id slot.slot ⟨pos⟩ (ix.nodes.nodes.length + 1) rep
        = some positions ∧
      keysAt records positions = .ok keys ∧ OneNode (m.insert key pos) keys

section Sorted

variable {ns : HeapNodeStore} {records : RecordStore} {T : Tree} {key : ByteView} {pos : Position}

/-- The entries with a new one beside a slot. -/
theorem entries_insertTarget {m : SortedMap ByteView Position} {z : TreePath} {i : UInt64}
    {s : Tree} {δ : ℕ} (hm : m.entries = (z.fill (.page i s)).entries) (habsent : m.get? key = none)
    (hv : (z.fill (.page i (insertPage key δ (.leaf key pos) s))).Valid) :
    (z.fill (.page i (insertPage key δ (.leaf key pos) s))).entries
      = (m.insert key pos).entries := by
  have heq : (⟨_, hv.sorted⟩ : SortedMap ByteView Position) = m.insert key pos := by
    refine SortedMap.ext_mem (fun e => ?_)
    rw [SortedMap.mem_insert, hm]
    show e ∈ (z.fill (.page i (insertPage key δ (.leaf key pos) s))).entries ↔ _
    have hne : e ∈ (z.fill (.page i s)).entries → e.1 ≠ key := by
      rintro he rfl
      rw [← hm] at he
      exact (SortedMap.get?_eq_none_iff _ _).mp habsent e.2 he
    simp only [Path.entries_fill, entries, List.mem_append, mem_entries_insertPage,
      List.mem_singleton] at hne ⊢
    tauto
  exact congrArg SortedMap.entries heq

/-- **Below a child rep**, with a new record on page `i`, are the keys of one node. -/
theorem oneNode_of_child (h : Holds ns.page? T) {i : UInt64} {s : Tree} {δ : ℕ}
    {m : SortedMap ByteView Position} (hp : pos.toNat < 2 ^ 63) (hs : (i, s) ∈ T.subpages)
    (hv : (alterPage i (insertPage key δ (.leaf key pos)) T).Valid)
    (hm : (alterPage i (insertPage key δ (.leaf key pos)) T).entries = m.entries)
    (hk : KnowsAll records m.entries) {id : UInt64} {node : NodePage} {slot : ℕ} {rep : Rep}
    (hpage : ns.page? id = some node) (hrep : node.repList[slot]? = some rep)
    (hchild : rep.isChild) : ∃ positions keys,
      repRecordsWith ns.page? i (s.insertSlot key δ) ⟨pos⟩ (ns.nodes.length + 1) rep
        = some positions ∧
      keysAt records positions = .ok keys ∧ OneNode m keys := by
  obtain ⟨u, hu, rfl⟩ := h.exists_subpage hpage
  rw [repList_pageOf (h.pageAt_of_mem hu).width_le] at hrep
  obtain ⟨x, hx⟩ := child_rep (h.stored_of_mem hu) (h.sized_of_mem hu) hrep hchild
  have hxsub : (rep.childId, x) ∈ T.subpages :=
    subpages_subset hu _ (mem_subpages_of_mem_items (List.mem_of_getElem? hx))
  have hrepx : repOf (.page rep.childId x) = rep := by
    rw [List.getElem?_map, hx] at hrep
    exact Option.some.inj hrep
  have hnd : (PagedTree.page rep.childId x).ids.Nodup :=
    (ids_sublist_of_mem_subpages hxsub).nodup h.nodup
  have hdepth : (PagedTree.page rep.childId x).depth ≤ ns.nodes.length + 1 := by
    have h1 := depth_lt_of_mem_subpages hxsub
    have h2 := h.depth_le
    have h3 : (PagedTree.page rep.childId x).depth = x.depth + 1 := rfl
    simp only at h1
    omega
  have hrun := repRecordsWith_eq i (s.insertSlot key δ) key δ hp _ (x := .page rep.childId x) trivial
    ⟨h.pageAt_of_mem hxsub, h.stored_of_mem hxsub⟩ (h.sized_of_mem hxsub) hnd
    (fun s' hs' => ?_) hdepth
  · rw [hrepx] at hrun
    obtain ⟨x', halter, hx'⟩ := subpage_alterPage (f := insertPage key δ (.leaf key pos)) (i := i)
      h.nodup (fun s' _ p hp => by rw [subpages_insertPage]; exact hp) hxsub
    rw [halter] at hrun
    have hknows : Knows records x' := by
      intro e he
      refine hk e ?_
      rw [← hm]
      exact mem_entries_of_mem_subpages hx' e he
    obtain ⟨c, hc⟩ := strip_of_mem_subpages hx'
    refine ⟨_, _, hrun, keysAt_eq (t := .page rep.childId x') hknows, _, c, _,
      ⟨Valid.strip hv, ids_strip _, ?_⟩, hc, ?_⟩
    · rw [entries_strip, hm]
    · rw [entries_strip]
      rfl
  · rcases List.mem_cons.mp hs' with heq | hs'
    · obtain ⟨rfl, rfl⟩ := Prod.mk.inj heq
      rw [subpage_unique h.nodup hs hxsub]
    · rw [subpage_unique h.nodup hs (subpages_subset hxsub _ hs')]

end Sorted

/-- **The computed insertion slot is the sorted position.**  On an index of any depth that holds a
tree, for a key that is not in it. -/
theorem insertSlot_sorted {ix : Index} {t : Tree} (h : Represents ix (some t))
    {records : RecordStore} {key : ByteView} {pos : Position} (hkey : key.length ≤ kMaxKeySize)
    (hp : pos.toNat < 2 ^ 63) (habsent : (toMap h).get? key = none)
    (hk : KnowsAll records ((toMap h).insert key pos).entries) :
    ∃ frames v k diff slot frame page before after below,
      lookupPath ix.nodes key ix.fuel ix.rootId = .ok (frames, v) ∧
      (k, v) ∈ (toMap h).entries ∧ recordKey records v = .ok k ∧
      compareAndDiffBit key k = .ok ⟨compareKeys key k, diff⟩ ∧ findDiffBit key k = .ok diff ∧
      insertSlotFromPath ix.nodes key (compareKeys key k) diff 0 frames = .ok slot ∧
      SortedSlot ix records (toMap h) key pos frames slot frame page before after below := by
  obtain ⟨_, _, hholds, _⟩ := id h
  have hdepth := hholds.depth_le
  obtain ⟨w, k, v, hne, halong, hfill, hpath⟩ := lookupPath_eq key ix.fuel ix.rootId t
    (by simp only [depth, Index.fuel] at hdepth ⊢; omega) hholds.stored
    (Holds.valid_below (z := []) hholds) (Holds.sized_below (z := []) hholds)
  have hmem : (k, v) ∈ (toMap h).entries := by
    show (k, v) ∈ (PagedTree.page ix.rootId t).entries
    rw [← hfill, Path.entries_fill]
    simp [entries]
  have hkk : key ≠ k := by
    rintro rfl
    exact (SortedMap.get?_eq_none_iff _ _).mp habsent v hmem
  have hkl : k.length ≤ kMaxKeySize := (hholds.sized (k, v) hmem).1
  obtain ⟨w₁, c, i, w₂, s, hw, hslot, hpage, hvalid⟩ :=
    exists_insertTarget (hfill ▸ hholds) hne halong hkk
  rw [hfill] at hpage
  have hrecord : recordKey records v = .ok k := by
    refine recordKey_ok (hk (k, v) ?_) hkl
    rw [SortedMap.mem_insert]
    exact Or.inr ⟨hmem, Ne.symm hkk⟩
  have hcmp : compareAndDiffBit key k = .ok ⟨compareKeys key k, firstDiff key k⟩ := by
    rw [compareAndDiffBit_eq hkey hkl, if_neg hkk, compareKeys_eq, if_neg hkk]
  have hs : (i, s) ∈ (PagedTree.page ix.rootId t).subpages := by
    rw [← hpage]
    exact Path.mem_subpages_fill List.mem_cons_self
  have hnotin : i ∉ Path.ids w₁.reverse := by
    have hnd := hholds.nodup
    rw [← hpage, Path.nodup_fill] at hnd
    exact fun hin => (List.nodup_append.mp hnd).2.2 i List.mem_cons_self i hin rfl
  have halter : alterPage i (insertPage key (firstDiff key k) (.leaf key pos))
      (PagedTree.page ix.rootId t)
      = Path.fill w₁.reverse (.page i (insertPage key (firstDiff key k) (.leaf key pos) s)) := by
    rw [← hpage, Path.alterPage_fill hnotin, alterPage_self]
  have hentries : (toMap h).entries = (Path.fill w₁.reverse (.page i s)).entries := by
    rw [hpage]
    rfl
  refine ⟨rootFrames w, v, k, firstDiff key k, _, ⟨i, c.slot⟩, pageOf s, Path.leftEntries w₁.reverse,
    Path.rightEntries w₁.reverse, s.items.map entries, hpath, hmem, hrecord, hcmp,
    findDiffBit_eq hkey hkl hkk, hslot, ?_, (hholds.pageAt_of_mem hs).page_eq, insertSlot_le _ _ s,
    ?_, ?_, ?_, ?_, ?_⟩
  · rw [hw, rootFrames, List.map_append, List.getElem?_append_right (by simp)]
    simp
  · rw [pageRecords_eq ⟨hholds.pageAt_of_mem hs, hholds.stored_of_mem hs⟩ (hholds.sized_of_mem hs)
      (le_trans (depth_lt_of_mem_subpages hs).le hdepth), List.map_map]
    rfl
  · rw [hentries, Path.entries_fill, entries, ← List.flatMap_def, flatMap_items]
  · intro e he
    refine of_decide_eq_true (isBefore_gap (hvalid 0) .ascend e ?_)
    rw [← List.map_take, ← List.flatMap_def] at he
    exact he
  · intro e he
    refine of_decide_eq_true (isBefore_gap (hvalid 0) .descend e ?_)
    rw [← List.map_drop, ← List.flatMap_def] at he
    simp only [passed, passedGap, List.mem_append, List.mem_reverse] at he ⊢
    exact he.symm
  · intro f _ node rep hnode hrep hchild
    refine oneNode_of_child hholds hp hs ?_ ?_ hk hnode hrep hchild
    · rw [halter]
      exact hvalid pos
    · rw [halter]
      exact entries_insertTarget hentries habsent (hvalid pos)

/-- A store with one more record, which lies between two others. -/
def moreRecords : RecordStore := fun pos =>
  if pos = 1000 then .ok [0, 200, 7] else numberedRecords pos

theorem knowsAll_moreRecords :
    KnowsAll moreRecords ((numberedKeys 400).insert [0, 200, 7] 1000).entries := by
  intro e he
  rcases (SortedMap.mem_insert _ _ _ _).mp he with rfl | ⟨hold, _⟩
  · rfl
  · obtain ⟨i, hi, rfl⟩ := mem_numberedKeys hold
    have hne : UInt64.ofNat i ≠ 1000 := fun heq => by
      have hnat := congrArg UInt64.toNat heq
      rw [UInt64.toNat_ofNat_of_lt' (show i < 2 ^ 64 by omega)] at hnat
      exact absurd hnat (show i ≠ 1000 by omega)
    rw [moreRecords, if_neg hne]
    exact numberedRecords_ofNat (show i < 2 ^ 64 by omega)

/-- The place of the key `00 c8 07` on an index of 400 keys. -/
theorem insertSlot_sorted_numberedKeys : ∃ ix frames v k diff slot frame page before after below,
    lookupPath ix.nodes [0, 200, 7] ix.fuel ix.rootId = .ok (frames, v) ∧
    (k, v) ∈ (numberedKeys 400).entries ∧ recordKey moreRecords v = .ok k ∧
    compareAndDiffBit [0, 200, 7] k = .ok ⟨compareKeys [0, 200, 7] k, diff⟩ ∧
    findDiffBit [0, 200, 7] k = .ok diff ∧
    insertSlotFromPath ix.nodes [0, 200, 7] (compareKeys [0, 200, 7] k) diff 0 frames = .ok slot ∧
    SortedSlot ix moreRecords (numberedKeys 400) [0, 200, 7] 1000 frames slot frame page before
      after below := by
  obtain ⟨ix, hreach, _⟩ := exists_reachable_numberedKeys (show 400 < 2 ^ 62 by decide)
  obtain ⟨o, h, hmap⟩ := hreach.represents
  have hk := knowsAll_moreRecords
  have habsent : (numberedKeys 400).get? [0, 200, 7] = none := by
    rw [SortedMap.get?_eq_none_iff]
    intro v hv
    obtain ⟨i, _, he⟩ := mem_numberedKeys hv
    exact absurd (congrArg (fun e => e.1.length) he) (show 3 ≠ 2 by decide)
  have hfirst : ∃ v, (numberedKey 399, v) ∈ (numberedKeys 400).entries :=
    ⟨_, (SortedMap.mem_insert _ _ _ _).mpr (Or.inl rfl)⟩
  rw [← hmap] at hk habsent hfirst ⊢
  cases o with
  | none =>
    obtain ⟨v, hv⟩ := hfirst
    exact absurd hv List.not_mem_nil
  | some t =>
    exact ⟨ix, insertSlot_sorted h (by decide) (by decide) habsent hk⟩

end MinweightStore.Minpatricia
