import MinweightStore.Store.ManifestFile
import MinweightStore.Store.Publishing
import MinweightStore.Store.Shown
import MinweightStore.Store.SnapshotFile

/-!
# Live items

What a walk over the index reads from a store that shows a map, and the checkpoint that is made of
it.

* `IndexFor.key_le`, `IndexFor.probe` — the keys of an index and their positions;
* `visitIndex_ok` — a visitor of the store sees the items of the map;
* `collectLiveItems_ok` — the live items are the entries of the map;
* `Shows.fits` — a snapshot can hold them.
-/

namespace MinweightStore.Store

open Minpatricia (ByteView Position Index kMaxKeySize KnowsAll visitAll toMap)

/-! ### The index -/

section Index

variable {ix : Index} {m : SortedMap ByteView Position} {pages : ℕ} {key : ByteView} {pos : Position}

/-- The keys of an index have a legal size. -/
theorem IndexFor.key_le (h : IndexFor ix m pages) (hm : m.get? key = some pos) :
    key.length ≤ kMaxKeySize := by
  obtain ⟨o, hr, rfl, _⟩ := h
  have hmem := (SortedMap.mem_entries_iff _ _ _).mpr hm
  cases o with
  | none => exact absurd hmem List.not_mem_nil
  | some t => exact (hr.2.2.1.sized (key, pos) hmem).1

/-- `Probe` of a key of the index. -/
theorem IndexFor.probe (h : IndexFor ix m pages) (hm : m.get? key = some pos) :
    ix.probe key = .ok ⟨pos, true⟩ := by
  have hkey := h.key_le hm
  obtain ⟨o, hr, rfl, _⟩ := h
  exact Minpatricia.probe_of_get? hr hkey hm

/-- `Len`. -/
theorem IndexFor.count_eq (h : IndexFor ix m pages) : ix.count = Int32.ofNat m.size := by
  obtain ⟨o, hr, rfl, _⟩ := h
  cases o with
  | none => exact hr.2.1
  | some t => exact hr.2.1

end Index

/-! ### Walks -/

section Walk

variable {σ : Type} {w : World} {m : SortedMap ByteView Position}
  {v : SortedMap ByteView ByteView} {pages : ℕ} {key : ByteView} {pos : Position}

/-- The value at a position. -/
def World.valueAt (w : World) (pos : Position) : ByteView := (w.valueView pos).toOption.getD []

/-- The item at a key and a position. -/
def World.itemAt (w : World) (e : ByteView × Position) : Item := ⟨e.1, w.valueAt e.2⟩

/-- The items of a map. -/
def itemsOf (v : SortedMap ByteView ByteView) : List Item := v.entries.map fun e => ⟨e.1, e.2⟩

theorem World.Has.valueAt {value : ByteView} (h : w.Has pos key value) : w.valueAt pos = value := by
  rw [World.valueAt, h.2]
  rfl

/-- **The map of values** is the map of positions, read. -/
theorem Values.eq_mapValues (h : Values w m v) : v = m.mapValues fun _ pos => w.valueAt pos := by
  refine SortedMap.ext_get? (fun key => ?_)
  rw [SortedMap.get?_mapValues]
  cases hm : m.get? key with
  | none => rw [h.get_none hm, Option.map_none]
  | some pos =>
    obtain ⟨value, hv, hhas⟩ := h.get_some hm
    rw [hv, Option.map_some, hhas.valueAt]

theorem Values.itemsOf_eq (h : Values w m v) : itemsOf v = m.entries.map w.itemAt := by
  rw [h.eq_mapValues, itemsOf, SortedMap.mapValues, List.map_map]
  rfl

theorem Values.size_eq (h : Values w m v) : v.size = m.size := by
  rw [h.eq_mapValues, SortedMap.size, SortedMap.mapValues, List.length_map]
  rfl

/-- `VerifyReadPosition` of a key of the index. -/
theorem verifyReadPosition_ok (hix : IndexFor w.index m pages) (hm : m.get? key = some pos) :
    w.verifyReadPosition key pos = .ok () := by
  rw [World.verifyReadPosition]
  split
  · rfl
  · rw [hix.probe hm]
    simp [fromMinpatricia, bind, Except.bind]

/-- `MakeItem` of an entry of the index. -/
theorem makeItem_ok (hix : IndexFor w.index m pages) (hv : Values w m v) {e : ByteView × Position}
    (he : e ∈ m.entries) : w.makeItem e.1 e.2 = .ok (w.itemAt e) := by
  have hm := (SortedMap.mem_entries_iff m e.1 e.2).mp he
  obtain ⟨value, _, hhas⟩ := hv.get_some hm
  rw [World.makeItem, verifyReadPosition_ok hix hm, World.itemAt, hhas.valueAt]
  simp only [bind, Except.bind, hhas.2]

/-- The visits of a list of items, up to the first refusal. -/
def visitItems (fn : VisitFunc σ) : List Item → σ → σ
  | [], s => s
  | item :: l, s => if (fn item s).1 then visitItems fn l (fn item s).2 else (fn item s).2

/-- **A walk reads its items.** -/
theorem visitAll_items (fn : VisitFunc σ) (l : List (ByteView × Position)) (s : σ)
    (h : ∀ e ∈ l, w.makeItem e.1 e.2 = .ok (w.itemAt e)) :
    visitAll (itemVisitor w fn) l (none, s) = (none, visitItems fn (l.map w.itemAt) s) := by
  induction l generalizing s with
  | nil => rfl
  | cons e l ih =>
    have hone : itemVisitor w fn e.1 e.2 (none, s) =
        ((fn (w.itemAt e) s).1, (none, (fn (w.itemAt e) s).2)) := by
      rw [itemVisitor, h e List.mem_cons_self]
    rw [visitAll, hone, List.map_cons, visitItems]
    simp only
    split
    · exact ih _ (fun e he => h e (List.mem_cons_of_mem _ he))
    · rfl

/-- **`VisitIndex`** over entries of the index. -/
theorem visitIndex_ok (hix : IndexFor w.index m pages) (hv : Values w m v) {visit : IndexVisit σ}
    {l : List (ByteView × Position)} (hl : ∀ e ∈ l, e ∈ m.entries) (fn : VisitFunc σ) (s : σ)
    (hvisit : visit (itemVisitor w fn) (none, s) = .ok () (visitAll (itemVisitor w fn) l (none, s))) :
    visitIndex w visit fn s = (.ok (), visitItems fn (l.map w.itemAt) s) := by
  rw [visitAll_items fn l s (fun e he => makeItem_ok hix hv (hl e he))] at hvisit
  rw [visitIndex, hvisit]

theorem visitItems_collect (l s : List Item) :
    visitItems (fun item entries => (true, entries ++ [item])) l s = s ++ l := by
  induction l generalizing s with
  | nil => exact (List.append_nil s).symm
  | cons item l ih =>
    rw [visitItems, if_pos rfl, ih, List.append_assoc]
    rfl

/-- **`CollectLiveItemsLocked`**: the live items are the entries of the map. -/
theorem collectLiveItems_ok (h : Shows w v pages) : collectLiveItems w = .ok (itemsOf v) := by
  obtain ⟨m, hix, hv⟩ := h
  rw [collectLiveItems, visitIndex_ok hix hv (fun e he => he) _ _ (hix.ascend hv.knowsAll _ _),
    visitItems_collect, hv.itemsOf_eq, List.nil_append]

end Walk

/-! ### The checkpoint -/

/-- Values that a snapshot can hold. -/
def ValuesFit (v : SortedMap ByteView ByteView) : Prop :=
  ∀ key value, v.get? key = some value → value.length < 2 ^ 32

/-- The items of a map fit into a snapshot. -/
theorem Shows.fits {w : World} {v : SortedMap ByteView ByteView} {pages : ℕ} (h : Shows w v pages)
    (hv : ValuesFit v) : ∀ item ∈ itemsOf v, item.Fits := by
  obtain ⟨m, hix, hvalues⟩ := h
  intro item hitem
  obtain ⟨e, he, rfl⟩ := List.mem_map.mp hitem
  have hget := (SortedMap.mem_entries_iff v e.1 e.2).mp he
  refine ⟨?_, hv e.1 e.2 hget⟩
  cases hm : m.get? e.1 with
  | none => exact absurd (hvalues.get_none hm) (by rw [hget]; simp)
  | some pos => exact hix.key_le hm

end MinweightStore.Store
