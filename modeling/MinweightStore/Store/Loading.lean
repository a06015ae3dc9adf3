import MinweightStore.Store.Opening

/-!
# Loading a snapshot

The records of a snapshot enter the record store at small positions and the index at their keys.

* `snapshotMap` — the map of positions after loading;
* `loadSnapshotRecords_ok` — loading succeeds on keys of legal size, as long as positions last;
* `loadSnapshotRecords_cases` — and fails with a status on anything else.
-/

namespace MinweightStore.Store

open Minpatricia (ByteView Position Index kMaxKeySize KnowsAll)

/-! ### Positions of snapshot records -/

/-- The world with more snapshot records. -/
def World.withSnapshot (w : World) (records : List OwnedRecord) : World :=
  { w with records := { w.records with snapshotRecords := records } }

/-- A snapshot item as a live record. -/
def Item.owned (item : Item) : OwnedRecord := ⟨item.key, item.value, true⟩

/-- The map of positions after loading items from position `n` on. -/
def snapshotMap : ℕ → List Item → SortedMap ByteView Position → SortedMap ByteView Position
  | _, [], m => m
  | n, item :: items, m => snapshotMap (n + 1) items (m.insert item.key (UInt64.ofNat n))

section Positions

variable {w : World} {records : List OwnedRecord} {n : ℕ}

theorem ofNat_toNat (h : n < 2 ^ 30) : (UInt64.ofNat n).toNat = n := by
  rw [UInt64.toNat_ofNat']
  omega

theorem isSnapshotPosition_ofNat (hpos : 0 < n) (h : n < 2 ^ 30) :
    isSnapshotPosition (UInt64.ofNat n) = true := by
  have hk : kRecordOffsetLimit = 2 ^ 30 := rfl
  rw [isSnapshotPosition, ofNat_toNat h, hk, Bool.and_eq_true, decide_eq_true_iff,
    decide_eq_true_iff]
  exact ⟨hpos, h⟩

/-- The record store at the position of a snapshot record. -/
theorem key_of_snapshot {item : Item} (hpos : 0 < n) (h : n < 2 ^ 30)
    (hrec : w.records.snapshotRecords[n]? = some item.owned) :
    w.key (UInt64.ofNat n) = .ok item.key ∧ w.valueView (UInt64.ofNat n) = .ok item.value := by
  have hsnap := isSnapshotPosition_ofNat hpos h
  have hlen : n < w.records.snapshotRecords.length := (List.getElem?_eq_some_iff.mp hrec).1
  have hget : w.records.snapshotRecord (UInt64.ofNat n) = some item.owned := by
    rw [SegmentedRecordStore.snapshotRecord, ofNat_toNat h, if_neg (by omega), hrec]
    rfl
  refine ⟨?_, ?_⟩
  · rw [World.key, hsnap, if_pos rfl, hget]
    rfl
  · rw [World.valueView, hsnap, if_pos rfl, hget]
    rfl

/-- More snapshot records leave the answers of the record store as they were. -/
theorem key_withSnapshot {pos : Position} {key : ByteView} (more : List OwnedRecord)
    (h : w.key pos = .ok key) :
    (w.withSnapshot (w.records.snapshotRecords ++ more)).key pos = .ok key := by
  rw [World.key] at h ⊢
  by_cases hsnap : isSnapshotPosition pos = true
  · rw [if_pos hsnap] at h ⊢
    have hsame : ∀ r, w.records.snapshotRecord pos = some r →
        (w.withSnapshot (w.records.snapshotRecords ++ more)).records.snapshotRecord pos = some r := by
      intro r hr
      rw [SegmentedRecordStore.snapshotRecord] at hr ⊢
      split at hr
      · exact absurd hr (by simp)
      · rename_i hlt
        have hlt' : pos.toNat < w.records.snapshotRecords.length := by omega
        have hcond : ¬ (pos.toNat = 0 ∨
            pos.toNat ≥ (w.records.snapshotRecords ++ more).length) := by
          rw [List.length_append]
          omega
        show (if pos.toNat = 0 ∨ pos.toNat ≥ (w.records.snapshotRecords ++ more).length then none
          else (w.records.snapshotRecords ++ more)[pos.toNat]?.filter OwnedRecord.live) = some r
        rw [if_neg hcond, List.getElem?_append_left hlt']
        exact hr
    cases hr : w.records.snapshotRecord pos with
    | none =>
      rw [hr] at h
      exact absurd h (by simp [Minpatricia.err])
    | some r =>
      rw [hr] at h
      rw [hsame r hr]
      exact h
  · rw [if_neg hsnap] at h ⊢
    exact h

end Positions

/-! ### Loading -/

section Load

variable {w : World} {ix : Index} {m : SortedMap ByteView Position} {pages : ℕ}

/-- What loading starts from: the dummy record in front, and no more positions than there are. -/
structure Loadable (w : World) (ix : Index) (m : SortedMap ByteView Position) (pages : ℕ) :
    Prop where
  indexed : Indexed w ix m pages
  some_record : 0 < w.records.snapshotRecords.length
  pages_le : pages ≤ w.records.snapshotRecords.length
  records_le : w.records.snapshotRecords.length ≤ 2 ^ 30

/-- One item: it is added and put, or a status is returned. -/
theorem loadItem_cases (h : Loadable w ix m pages) (item : Item) (items : List Item) :
    (w.records.snapshotRecords.length < 2 ^ 30 ∧ item.key.length ≤ kMaxKeySize ∧ ∃ ix',
      loadSnapshotRecords (item :: items) ix w = loadSnapshotRecords items ix'
        (w.withSnapshot (w.records.snapshotRecords ++ [item.owned])) ∧
      Loadable (w.withSnapshot (w.records.snapshotRecords ++ [item.owned])) ix'
        (m.insert item.key (UInt64.ofNat w.records.snapshotRecords.length)) (pages + 1)) ∨
    ((2 ^ 30 ≤ w.records.snapshotRecords.length ∨ kMaxKeySize < item.key.length) ∧
      ∃ status w', loadSnapshotRecords (item :: items) ix w = .error (.status status) w') := by
  obtain ⟨hix, hsome, hle, hlen⟩ := h
  have hk : kRecordOffsetLimit = 2 ^ 30 := rfl
  by_cases hfull : 2 ^ 30 ≤ w.records.snapshotRecords.length
  · refine Or.inr ⟨Or.inl hfull, corruptSnapshot "too many snapshot records", w, ?_⟩
    have hadd : addSnapshotRecord item.key item.value w =
        .error (.status (corruptSnapshot "too many snapshot records")) w := by
      rw [addSnapshotRecord, Prog.get_bind]
      simp only
      rw [if_pos (by omega)]
      rfl
    rw [loadSnapshotRecords, Prog.bind_error hadd]
  · have hlt := Nat.not_le.mp hfull
    have hadd : addSnapshotRecord item.key item.value w =
        .ok (UInt64.ofNat w.records.snapshotRecords.length)
          (w.withSnapshot (w.records.snapshotRecords ++ [item.owned])) := by
      rw [addSnapshotRecord, Prog.get_bind]
      simp only
      rw [if_neg (by omega)]
      rfl
    have hknown := fun e he => key_withSnapshot [item.owned] (hix.2 e he)
    have hrec : (w.withSnapshot (w.records.snapshotRecords ++ [item.owned])).records.snapshotRecords[
        w.records.snapshotRecords.length]? = some item.owned := by
      show (w.records.snapshotRecords ++ [item.owned])[_]? = _
      rw [List.getElem?_append_right (le_refl _), Nat.sub_self]
      rfl
    have hnew := (key_of_snapshot hsome hlt hrec).1
    by_cases hkey : item.key.length ≤ kMaxKeySize
    · obtain ⟨ix', hput, hix'⟩ := hix.1.put hknown hkey
        (by rw [ofNat_toNat hlt]; omega) hnew (by omega)
      refine Or.inl ⟨hlt, hkey, ix', ?_, ⟨⟨hix', fun e he => ?_⟩, ?_, ?_, ?_⟩⟩
      · rw [loadSnapshotRecords, Prog.bind_ok hadd]
        refine Prog.bind_ok ?_
        rw [putInto, hput]
      · rcases (SortedMap.mem_insert m _ _ e).mp he with rfl | ⟨he, _⟩
        · exact hnew
        · exact hknown e he
      · show 0 < (w.records.snapshotRecords ++ [item.owned]).length
        rw [List.length_append]
        omega
      · show pages + 1 ≤ (w.records.snapshotRecords ++ [item.owned]).length
        rw [List.length_append, List.length_singleton]
        omega
      · show (w.records.snapshotRecords ++ [item.owned]).length ≤ 2 ^ 30
        rw [List.length_append, List.length_singleton]
        omega
    · refine Or.inr ⟨Or.inr (Nat.not_le.mp hkey), fromMinpatriciaStatus .keyTooLarge,
        w.withSnapshot (w.records.snapshotRecords ++ [item.owned]), ?_⟩
      rw [loadSnapshotRecords, Prog.bind_ok hadd]
      refine Prog.bind_error ?_
      rw [putInto, Minpatricia.put_tooLarge (Nat.not_le.mp hkey)]
      rfl

/-- **Loading succeeds** on keys of legal size, as long as positions last. -/
theorem loadSnapshotRecords_ok : ∀ (items : List Item) {w : World} {ix : Index}
    {m : SortedMap ByteView Position} {pages : ℕ}, Loadable w ix m pages →
    (∀ item ∈ items, item.key.length ≤ kMaxKeySize) →
    w.records.snapshotRecords.length + items.length ≤ 2 ^ 30 → ∃ ix',
    loadSnapshotRecords items ix w =
      .ok ix' (w.withSnapshot (w.records.snapshotRecords ++ items.map Item.owned)) ∧
    Loadable (w.withSnapshot (w.records.snapshotRecords ++ items.map Item.owned)) ix'
      (snapshotMap w.records.snapshotRecords.length items m) (pages + items.length)
  | [], w, ix, m, pages, h, _, _ => by
    have hsame : w.withSnapshot (w.records.snapshotRecords ++ [].map Item.owned) = w := by
      rw [List.map_nil, List.append_nil]
      rfl
    rw [hsame]
    exact ⟨ix, rfl, h⟩
  | item :: items, w, ix, m, pages, h, hkeys, hcount => by
    rw [List.length_cons] at hcount
    rcases loadItem_cases h item items with ⟨_, _, ix₁, hstep, h₁⟩ | ⟨hbad, _⟩
    · have hlen : (w.withSnapshot (w.records.snapshotRecords ++ [item.owned])
          ).records.snapshotRecords.length = w.records.snapshotRecords.length + 1 := by
        show (w.records.snapshotRecords ++ [item.owned]).length = _
        rw [List.length_append, List.length_singleton]
      obtain ⟨ix', hrun, h'⟩ := loadSnapshotRecords_ok items h₁
        (fun i hi => hkeys i (List.mem_cons_of_mem _ hi)) (by rw [hlen]; omega)
      have happ : (w.withSnapshot (w.records.snapshotRecords ++ [item.owned])).withSnapshot
          ((w.withSnapshot (w.records.snapshotRecords ++ [item.owned])).records.snapshotRecords ++
            items.map Item.owned) =
          w.withSnapshot (w.records.snapshotRecords ++ (item :: items).map Item.owned) := by
        show w.withSnapshot ((w.records.snapshotRecords ++ [item.owned]) ++ items.map Item.owned) = _
        rw [List.append_assoc]
        rfl
      rw [happ, hlen] at h'
      rw [happ] at hrun
      refine ⟨ix', hstep.trans hrun, ?_⟩
      rw [List.length_cons, show pages + (items.length + 1) = pages + 1 + items.length by omega]
      exact h'
    · have := hkeys item List.mem_cons_self
      omega

/-- **Loading fails with a status** on anything else. -/
theorem loadSnapshotRecords_cases : ∀ (items : List Item) {w : World} {ix : Index}
    {m : SortedMap ByteView Position} {pages : ℕ}, Loadable w ix m pages →
    ((∀ item ∈ items, item.key.length ≤ kMaxKeySize) ∧
      w.records.snapshotRecords.length + items.length ≤ 2 ^ 30) ∨
    ∃ status w', loadSnapshotRecords items ix w = .error (.status status) w'
  | [], w, _, _, _, h => Or.inl ⟨fun _ hi => absurd hi List.not_mem_nil, h.records_le⟩
  | item :: items, w, ix, m, pages, h => by
    rcases loadItem_cases h item items with ⟨hlt, hkey, ix₁, hstep, h₁⟩ | ⟨_, hfail⟩
    · have hlen : (w.withSnapshot (w.records.snapshotRecords ++ [item.owned])
          ).records.snapshotRecords.length = w.records.snapshotRecords.length + 1 := by
        show (w.records.snapshotRecords ++ [item.owned]).length = _
        rw [List.length_append, List.length_singleton]
      rcases loadSnapshotRecords_cases items h₁ with ⟨hkeys, hcount⟩ | ⟨status, w', hrun⟩
      · rw [hlen] at hcount
        refine Or.inl ⟨List.forall_mem_cons.mpr ⟨hkey, hkeys⟩, ?_⟩
        rw [List.length_cons]
        omega
      · exact Or.inr ⟨status, w', hstep.trans hrun⟩
    · exact Or.inr hfail

/-- A new index over a record store without snapshot records. -/
theorem newIndex_ok (w : World) (hrecords : w.records.snapshotRecords = [.dummy]) : ∃ ix,
    newIndex w = .ok ix w ∧ Loadable w ix .empty 1 := by
  obtain ⟨ix, hnew, hix⟩ := indexFor_new w.key
  refine ⟨ix, ?_, ⟨hix, fun e he => absurd he List.not_mem_nil⟩, ?_, ?_, ?_⟩
  · rw [newIndex, hnew]
    rfl
  · rw [hrecords]
    decide
  · rw [hrecords]
    decide
  · rw [hrecords]
    decide

end Load

end MinweightStore.Store
