import MinweightStore.Store.Recovery

/-!
# The map a store shows

The index stands for a map of positions; with the record store behind it, it shows a map of values.

* `Values` — a map of positions read through a record store is a map of values;
* `values_foldl`, `values_snapshot` — logged records and snapshot items keep the two together;
* `Shows`, `Shows.unique` — the map a store shows, of which there is one;
* `Opened.shows` — a replayed directory shows its valid prefix over its snapshot.
-/

namespace MinweightStore.Store

open Minpatricia (ByteView Position Index kMaxKeySize KnowsAll visitAll)
open ValidPrefix

/-! ### Maps of values -/

/-- The record store has a key and a value at a position. -/
def World.Has (w : World) (pos : Position) (key value : ByteView) : Prop :=
  w.key pos = .ok key ∧ w.valueView pos = .ok value

/-- A map of positions read through the record store. -/
def Values (w : World) (m : SortedMap ByteView Position) (v : SortedMap ByteView ByteView) : Prop :=
  ∀ key, Option.Rel (fun pos value => w.Has pos key value) (m.get? key) (v.get? key)

section Values

variable {w : World} {m : SortedMap ByteView Position} {v v' : SortedMap ByteView ByteView}
  {key value : ByteView} {pos : Position}

theorem values_empty (w : World) : Values w .empty .empty := fun _ => .none

theorem Values.insert (h : Values w m v) (hnew : w.Has pos key value) :
    Values w (m.insert key pos) (v.insert key value) := by
  intro k
  rw [SortedMap.get?_insert, SortedMap.get?_insert]
  split
  · rename_i hk
    rw [hk]
    exact .some hnew
  · exact h k

theorem Values.erase (h : Values w m v) (key : ByteView) :
    Values w (m.erase key) (v.erase key) := by
  intro k
  rw [SortedMap.get?_erase, SortedMap.get?_erase]
  split
  · exact .none
  · exact h k

theorem Values.get_some (h : Values w m v) (hm : m.get? key = some pos) :
    ∃ value, v.get? key = some value ∧ w.Has pos key value := by
  have hk := h key
  rw [hm] at hk
  cases hv : v.get? key with
  | none =>
    rw [hv] at hk
    cases hk
  | some value =>
    rw [hv] at hk
    cases hk with
    | some hhas => exact ⟨value, rfl, hhas⟩

theorem Values.get_none (h : Values w m v) (hm : m.get? key = none) : v.get? key = none := by
  have hk := h key
  rw [hm] at hk
  cases hv : v.get? key with
  | none => rfl
  | some value =>
    rw [hv] at hk
    cases hk

theorem Values.knowsAll (h : Values w m v) : KnowsAll w.key m.entries := by
  intro e he
  obtain ⟨_, _, hhas⟩ := h.get_some ((SortedMap.mem_entries_iff m e.1 e.2).mp he)
  exact hhas.1

/-- A map of positions has one map of values. -/
theorem Values.unique (h : Values w m v) (h' : Values w m v') : v = v' := by
  refine SortedMap.ext_get? (fun key => ?_)
  cases hm : m.get? key with
  | none => rw [h.get_none hm, h'.get_none hm]
  | some pos =>
    obtain ⟨value, hv, hhas⟩ := h.get_some hm
    obtain ⟨value', hv', hhas'⟩ := h'.get_some hm
    have hsame : value = value' := Except.ok.inj (hhas.2.symm.trans hhas'.2)
    rw [hv, hv', hsame]

/-- Another world that has the same records. -/
theorem Values.congr {w' : World} (h : Values w m v)
    (hhas : ∀ key pos value, m.get? key = some pos → w.Has pos key value → w'.Has pos key value) :
    Values w' m v := by
  intro key
  cases hm : m.get? key with
  | none =>
    rw [h.get_none hm]
    exact .none
  | some pos =>
    obtain ⟨value, hv, hold⟩ := h.get_some hm
    rw [hv]
    exact .some (hhas key pos value hm hold)

/-- **Logged records** keep the map of positions and the map of values together. -/
theorem values_foldl : ∀ (l : List Logged) {m : SortedMap ByteView Position}
    {v : SortedMap ByteView ByteView}, Values w m v →
    (∀ x ∈ l, x.2.2.op = kWalOpPut → w.Has x.pos x.2.2.key x.2.2.value) →
    Values w (l.foldl applyPosition m) (l.foldl applyValue v)
  | [], _, _, h, _ => h
  | x :: l, m, v, h, hall => by
    refine values_foldl l ?_ (fun y hy => hall y (List.mem_cons_of_mem _ hy))
    rw [applyPosition, applyValue, applyOp, applyOp]
    split
    · rename_i hop
      exact h.insert (hall x List.mem_cons_self hop)
    · exact h.erase _

/-- The map of values of a snapshot. -/
def valuesOf (entries : List Item) : SortedMap ByteView ByteView :=
  entries.foldl (fun v item => v.insert item.key item.value) .empty

/-- **Snapshot items** keep the map of positions and the map of values together. -/
theorem values_snapshot : ∀ (items : List Item) (n : ℕ) {m : SortedMap ByteView Position}
    {v : SortedMap ByteView ByteView}, Values w m v → 0 < n → n + items.length ≤ 2 ^ 30 →
    (∀ i item, items[i]? = some item → w.records.snapshotRecords[n + i]? = some item.owned) →
    Values w (snapshotMap n items m) (items.foldl (fun v item => v.insert item.key item.value) v)
  | [], _, _, _, h, _, _, _ => h
  | item :: items, n, m, v, h, hpos, hlen, hrec => by
    rw [List.length_cons] at hlen
    have hhas := key_of_snapshot hpos (by omega) (hrec 0 item rfl)
    refine values_snapshot items (n + 1) (h.insert hhas) (by omega) (by omega) (fun i it hi => ?_)
    rw [Nat.add_right_comm]
    exact hrec (i + 1) it hi

end Values

/-! ### Replayed records -/

section Recovered

variable {w : World}

/-- **The record store has every record of its segments.** -/
theorem has_of_marked (hok : SegmentsOk w) {id : ℕ} (hid : id ∈ w.segmentIDs) {x : Logged}
    (hx : x ∈ (w.piece id).marked) (hop : x.2.2.op = kWalOpPut) :
    w.Has x.pos x.2.2.key x.2.2.value := by
  obtain ⟨seg, hs⟩ := World.mem_segmentIDs.mp hid
  rw [World.piece_eq hs, Piece.marked, List.mem_map] at hx
  obtain ⟨y, hy, rfl⟩ := hx
  obtain ⟨ha, hrec⟩ := scan_accepted _ _ y hy
  exact key_of_accepted hs (hok id seg hs) ha hrec hop

/-- **The record store has every record of a recovery.** -/
theorem has_of_recovered (hok : SegmentsOk w) {x : Logged} (hx : x ∈ w.recovered)
    (hop : x.2.2.op = kWalOpPut) : w.Has x.pos x.2.2.key x.2.2.value := by
  obtain ⟨p, hp, hxp⟩ := mem_recover hx
  obtain ⟨id, hid, rfl⟩ := List.mem_map.mp hp
  exact has_of_marked hok hid hxp hop

/-- The record store has the items of its snapshot. -/
theorem values_of_snapshot {entries : List Item} (hcount : entries.length < 2 ^ 30)
    (hrec : w.records.snapshotRecords = .dummy :: entries.map Item.owned) :
    Values w (snapshotMap 1 entries .empty) (valuesOf entries) := by
  refine values_snapshot entries 1 (values_empty w) Nat.one_pos (by omega) (fun i item hi => ?_)
  rw [hrec, Nat.add_comm, List.getElem?_cons_succ, List.getElem?_map, hi]
  rfl

/-- **A replayed record store**: the valid prefix of the log over the snapshot. -/
theorem values_of_recovered (hok : SegmentsOk w) {entries : List Item}
    (hcount : entries.length < 2 ^ 30)
    (hrec : w.records.snapshotRecords = .dummy :: entries.map Item.owned) :
    Values w (w.recovered.foldl applyPosition (snapshotMap 1 entries .empty))
      (w.recovered.foldl applyValue (valuesOf entries)) :=
  values_foldl _ (values_of_snapshot hcount hrec) (fun _ hx hop => has_of_recovered hok hx hop)

end Recovered

/-! ### The map a store shows -/

/-- **The map a store shows**, with a bound on the pages of its index. -/
def Shows (w : World) (v : SortedMap ByteView ByteView) (pages : ℕ) : Prop :=
  ∃ m, IndexFor w.index m pages ∧ Values w m v

section Shows

variable {w : World} {v v' : SortedMap ByteView ByteView} {pages pages' : ℕ}

/-- A walk over the whole index. -/
theorem IndexFor.ascend {ix : Index} {m : SortedMap ByteView Position} {pages : ℕ} {σ : Type}
    {records : Position → Minpatricia.Result ByteView} (h : IndexFor ix m pages)
    (hk : KnowsAll records m.entries) (fn : Minpatricia.Visitor σ) (s : σ) :
    Minpatricia.ascend records ix fn s = .ok () (visitAll fn m.entries s) := by
  obtain ⟨o, hr, rfl, _⟩ := h
  exact Minpatricia.visit_edge hr hk .ascend fn s

theorem visitAll_collect : ∀ (l : List (ByteView × Position)) (s : List (ByteView × Position)),
    visitAll (fun key pos s => (true, s ++ [(key, pos)])) l s = s ++ l
  | [], s => (List.append_nil s).symm
  | e :: l, s => by
    rw [visitAll, if_pos rfl, visitAll_collect l, List.append_assoc]
    rfl

/-- An index stands for one map only. -/
theorem IndexFor.unique {ix : Index} {m m' : SortedMap ByteView Position}
    {records : Position → Minpatricia.Result ByteView} (h : IndexFor ix m pages)
    (h' : IndexFor ix m' pages') (hk : KnowsAll records m.entries)
    (hk' : KnowsAll records m'.entries) : m = m' := by
  have hwalk := h.ascend hk (fun key pos s => (true, s ++ [(key, pos)])) []
  rw [h'.ascend hk' _ [], visitAll_collect, visitAll_collect] at hwalk
  exact SortedMap.ext_entries (EStateM.Result.ok.inj hwalk).2.symm

/-- **A store shows one map.** -/
theorem Shows.unique (h : Shows w v pages) (h' : Shows w v' pages') : v = v' := by
  obtain ⟨m, hix, hv⟩ := h
  obtain ⟨m', hix', hv'⟩ := h'
  obtain rfl := hix.unique hix' hv.knowsAll hv'.knowsAll
  exact hv.unique hv'

/-- **A replayed directory** shows its valid prefix over its snapshot. -/
theorem Opened.shows {files : WalDir} (h : Opened w files) {entries : List Item}
    (hcount : entries.length < 2 ^ 30)
    (hrec : w.records.snapshotRecords = .dummy :: entries.map Item.owned)
    (hix : IndexFor w.index
      ((dirRecovered files).foldl applyPosition (snapshotMap 1 entries .empty)) pages) :
    Shows w ((dirRecovered files).foldl applyValue (valuesOf entries)) pages := by
  refine ⟨_, hix, ?_⟩
  rw [← h.recovered_eq]
  exact values_of_recovered h.segmentsOk hcount hrec

end Shows

end MinweightStore.Store
