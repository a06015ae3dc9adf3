import MinweightStore.Minpatricia.Structure

/-!
# Opening over existing nodes

`OpenWithNodes` and `NewWithNodes` over the pages of an index that was updated before.

* `countRecords_eq` — the recursive count is the number of entries below a page;
* `Represents.rebuild` — rebuilding the root from its keys writes the page that is there;
* `Reopened`, `reopening_faithful` — the pages and the length stay, and so does the map.
-/

namespace MinweightStore.Minpatricia

open BitKey PagedTree

/-! ### The recursive count -/

section Count

variable {ns : HeapNodeStore}

/-- One rep of the count. -/
def countRep (ns : HeapNodeStore) (fuel : ℕ) (total : Int32) (rep : Rep) : Result Int32 :=
  if rep.isChild then do
    let child ← ns.get rep.childId
    let childCount ← countRecords ns fuel child
    .ok (total + childCount)
  else .ok (total + 1)

theorem countRecords_succ (fuel : ℕ) (node : NodePage) :
    countRecords ns (fuel + 1) node = node.repList.foldlM (countRep ns fuel) 0 := rfl

variable (ns) in
/-- The count over reps that are counted one by one. -/
theorem foldlM_countRep (fuel : ℕ) : ∀ (l : List Tree) (n : ℕ),
    (∀ x ∈ l, ∀ n : ℕ, countRep ns fuel (Int32.ofNat n) (repOf x)
      = .ok (Int32.ofNat (n + x.entries.length))) →
    (l.map repOf).foldlM (countRep ns fuel) (Int32.ofNat n)
      = .ok (Int32.ofNat (n + (l.flatMap entries).length))
  | [], n, _ => rfl
  | x :: xs, n, h => by
    have hrest := foldlM_countRep fuel xs (n + x.entries.length)
      (fun y hy => h y (List.mem_cons_of_mem x hy))
    rw [List.map_cons, List.foldlM_cons, h x List.mem_cons_self n]
    show (xs.map repOf).foldlM _ _ = _
    rw [hrest, List.flatMap_cons, List.length_append, Nat.add_assoc]

/-- **The recursive count** is the number of entries. -/
theorem countRecords_eq : ∀ (fuel : ℕ) {i : UInt64} {t : Tree}, t.depth ≤ fuel →
    Stored ns.page? (.page i t) → Sized t →
    countRecords ns fuel (pageOf t) = .ok (Int32.ofNat t.entries.length)
  | 0, _, t, hd, _, _ => absurd (one_le_depth t) (by omega)
  | fuel + 1, _, t, hd, hst, hs => by
    have hcount := foldlM_countRep ns fuel t.items 0 (fun x hx n => ?_)
    · rw [countRecords_succ, repList_pageOf hst.1.width_le]
      rw [Nat.zero_add, flatMap_items] at hcount
      exact hcount
    · have hdx := depth_le_of_mem_items hx
      have hstx := (allPages_iff_items t).mp hst.2 x hx
      have hsx : Sized x := hs.of_subset (mem_entries_of_mem_items hx)
      rw [countRep]
      cases x with
      | leaf k p =>
        rw [(repOf_leaf (k := k) (hsx (k, p) (List.mem_singleton_self _)).2).1]
        rw [if_neg (by decide), Int32.ofNat_add]
        rfl
      | page j u =>
        obtain ⟨h1, h2⟩ := repOf_page (t := u) hstx.1.id_lt
        have hdu : (PagedTree.page j u).depth = u.depth + 1 := rfl
        have hbelow := countRecords_eq fuel (by omega) hstx hsx
        rw [h1, if_pos rfl, h2, HeapNodeStore.get_eq hstx.1.page_eq]
        simp only [bind, Except.bind, hbelow]
        rw [Int32.ofNat_add]
        rfl
      | node d l r => exact (isItem_of_mem_items hx).elim

end Count

/-! ### Reopening -/

section Reopen

variable {ix : Index} {o : Option Tree} {records : RecordStore}

/-- An index over the same pages with the same counter stands for the same tree. -/
theorem Represents.congr (h : Represents ix o) {ix' : Index} (hroot : ix'.rootId = ix.rootId)
    (hcount : ix'.count = ix.count) (hpages : ix'.nodes.page? = ix.nodes.page?) :
    Represents ix' o := by
  cases o with
  | none =>
    obtain ⟨h1, h2, h3, h4⟩ := h
    exact ⟨by rw [hroot, h1], by rw [hcount, h2], by rw [hpages, hroot, h3],
      fun j => by rw [hpages, hroot]; exact h4 j⟩
  | some t =>
    obtain ⟨h1, h2, h3, h4⟩ := h
    exact ⟨by rw [hroot, h1], by rw [hcount, h2], by rw [hpages, hroot]; exact h3, h4⟩

/-- The root page of an index, its recursive count and its rebuild. -/
theorem Represents.rebuild (h : Represents ix o) (hk : KnowsAll records (entriesOf o)) :
    ∃ root, ix.nodes.page? HeapNodeStore.root = some root ∧
      (∀ ns : HeapNodeStore, ns.page? = ix.nodes.page? →
        countRecords ns (ix.nodes.nodes.length + 1) root = .ok ix.count) ∧
      WritesPage (rebuildNode records HeapNodeStore.root) ⟨ix.nodes, HeapNodeStore.root, 0⟩
        HeapNodeStore.root root := by
  cases o with
  | none =>
    obtain ⟨hroot, hcount, hpage, _⟩ := h
    rw [hroot] at hpage
    refine ⟨NodePage.empty, hpage, fun ns _ => ?_, rebuildNode_empty records hpage⟩
    rw [hcount]
    rfl
  | some t =>
    obtain ⟨hroot, hcount, hholds, _⟩ := h
    rw [hroot] at hholds
    have hpage := Holds.pageAt (z := []) hholds
    have hdepth := hholds.depth_le
    have hnotin : HeapNodeStore.root ∉ t.ids :=
      (List.nodup_cons.mp (show (HeapNodeStore.root :: t.ids).Nodup from hholds.nodup)).1
    refine ⟨pageOf t, hpage.page_eq, fun ns hns => ?_, ?_⟩
    · rw [hcount]
      refine countRecords_eq _ ?_ (by rw [hns]; exact hholds.stored)
        (Holds.sized_below (z := []) hholds)
      simp only [depth] at hdepth
      omega
    · exact rebuildNode_eq _ hpage.page_eq ⟨rfl, rfl⟩ hpage.width_le
        (Holds.valid_below (z := []) hholds) (Holds.sized_below (z := []) hholds)
        (Holds.stored_below (z := []) hholds) (Knows.between hk) hnotin

/-- An index opened over the nodes of another one: every page, the length and the map are those
of the other one. -/
structure Reopened (ix ix' : Index) (m : SortedMap ByteView Position) : Prop where
  len_eq : ix'.len = ix.len
  page_eq : ∀ id, ix'.nodes.page? id = ix.nodes.page? id
  map_eq : ∃ o, ∃ h : Represents ix' o, toMap h = m

/-- **Opening over existing nodes is faithful.**  After any updates, with any record store that
knows the records. -/
theorem reopening_faithful {m : SortedMap ByteView Position} (hreach : Reachable ix m)
    (hk : KnowsAll records m.entries) :
    (∃ ix', openWithNodes records ix.nodes = .ok ix' ∧ Reopened ix ix' m) ∧
    ∃ ix', newWithNodes records ix.nodes = .ok ix' ∧ Reopened ix ix' m := by
  obtain ⟨o, h, rfl⟩ := hreach.represents
  obtain ⟨root, hroot, hcount, hrebuild⟩ := h.rebuild hk
  have hrootId : HeapNodeStore.root = ix.rootId := by
    cases o with
    | none => exact h.1.symm
    | some t => exact h.1.symm
  obtain ⟨ns, hnew, hpages, _⟩ := newWithNodes_run hroot hrebuild hcount
  refine ⟨⟨_, openWithNodes_eq hroot (hcount ix.nodes rfl), rfl, fun _ => rfl, o, ?_⟩,
    ⟨_, hnew, rfl, fun id => congrFun hpages id, o, ?_⟩⟩
  · exact ⟨h.congr hrootId rfl rfl, rfl⟩
  · exact ⟨h.congr hrootId rfl hpages, rfl⟩

/-- An index of 400 keys opened again. -/
theorem reopening_faithful_numberedKeys : ∃ ix,
    (∃ ix', openWithNodes numberedRecords ix.nodes = .ok ix' ∧
      Reopened ix ix' (numberedKeys 400)) ∧
    ∃ ix', newWithNodes numberedRecords ix.nodes = .ok ix' ∧
      Reopened ix ix' (numberedKeys 400) := by
  obtain ⟨ix, hreach, _⟩ := exists_reachable_numberedKeys (show 400 < 2 ^ 62 by decide)
  exact ⟨ix, reopening_faithful hreach (knowsAll_numberedKeys (by decide))⟩

end Reopen

end MinweightStore.Minpatricia
