import MinweightStore.Minpatricia.NodeStore

/-!
# The heap record store

`HeapRecordStore` (`record_store.h`) hands out positions and owns the records.  Its fields carry what
every operation keeps: the first record is never live, the free list names exactly the other records
that are not, each once, and `live` counts the live ones.

* `record?` — the live record of a position; `find_of_record?` — the checks of every read;
* `add_spec` — a record at a free position, the last one freed if there is one;
* `freeRecord_spec` — a position that is free again.
-/

namespace MinweightStore.Minpatricia

variable {V : Type}

/-- `HeapRecord`. -/
structure HeapRecord (V : Type) where
  key : ByteView
  value : V
  live : Bool

/-- `HeapRecord<V>{}`. -/
def HeapRecord.dead [Inhabited V] : HeapRecord V := ⟨[], default, false⟩

/-- `HeapRecordStore`; the back of `free_` is the head of the list. -/
structure HeapRecordStore (V : Type) where
  records : List (HeapRecord V)
  free : List Position
  live : Int32
  first_dead : ∃ r, records[0]? = some r ∧ r.live = false
  free_iff : ∀ pos : Position, pos ∈ free ↔
    0 < pos.toNat ∧ ∃ r, records[pos.toNat]? = some r ∧ r.live = false
  free_nodup : free.Nodup
  live_eq : live = Int32.ofNat (records.countP HeapRecord.live)
  length_lt : records.length < 2 ^ 63

namespace HeapRecordStore

variable {rs : HeapRecordStore V} {pos : Position} {r : HeapRecord V}

/-- `HeapRecordStore()`. -/
def new [Inhabited V] : HeapRecordStore V where
  records := [.dead]
  free := []
  live := 0
  first_dead := ⟨_, rfl, rfl⟩
  free_iff := by
    intro pos
    cases pos.toNat with
    | zero => simp
    | succ n => simp
  free_nodup := List.nodup_nil
  live_eq := rfl
  length_lt := show 1 < 2 ^ 63 by decide

/-- The live record of a position. -/
def record? (rs : HeapRecordStore V) (pos : Position) : Option (HeapRecord V) :=
  rs.records[pos.toNat]?.filter HeapRecord.live

theorem record?_eq_some :
    rs.record? pos = some r ↔ rs.records[pos.toNat]? = some r ∧ r.live = true := by
  rw [record?, Option.filter_eq_some_iff]

theorem lt_length_of_record? (h : rs.record? pos = some r) : pos.toNat < rs.records.length :=
  (List.getElem?_eq_some_iff.mp (record?_eq_some.mp h).1).1

/-- The first record has no position. -/
theorem pos_of_record? (h : rs.record? pos = some r) : 0 < pos.toNat := by
  obtain ⟨first, hget, hdead⟩ := rs.first_dead
  obtain ⟨hr, hlive⟩ := record?_eq_some.mp h
  by_contra hzero
  rw [show pos.toNat = 0 by omega, hget] at hr
  obtain rfl := Option.some.inj hr
  exact absurd (hdead.symm.trans hlive) Bool.false_ne_true

/-! ### Reads -/

/-- The checks of `Key`, `Value`, `Record` and `Free`. -/
def find (rs : HeapRecordStore V) (pos : Position) : Result (HeapRecord V) :=
  if pos = 0 ∨ pos.toNat ≥ rs.records.length then err .missingKey
  else match rs.records[pos.toNat]? with
    | none => .error .undefined
    | some record => if record.live = false then err .missingKey else .ok record

/-- `Key`. -/
def key (rs : HeapRecordStore V) (pos : Position) : Result ByteView := do
  let record ← rs.find pos
  .ok record.key

/-- `Value`. -/
def value (rs : HeapRecordStore V) (pos : Position) : Result V := do
  let record ← rs.find pos
  .ok record.value

/-- `Record`. -/
def record (rs : HeapRecordStore V) (pos : Position) : Result (HeapRecord V) := rs.find pos

/-- `Len`. -/
def len (rs : HeapRecordStore V) : Int32 := rs.live

/-- **The checks pass for the live records.** -/
theorem find_of_record? (h : rs.record? pos = some r) : rs.find pos = .ok r := by
  obtain ⟨hget, hlive⟩ := record?_eq_some.mp h
  have hlt := lt_length_of_record? h
  have hzero : pos ≠ 0 := by
    rintro rfl
    exact absurd (pos_of_record? h) (lt_irrefl _)
  rw [find, if_neg (not_or.mpr ⟨hzero, Nat.not_le.mpr hlt⟩), hget]
  simp only [hlive, Bool.true_eq_false, if_false]

theorem find_none (h : rs.record? pos = none) : rs.find pos = err .missingKey := by
  rw [find]
  split
  · rfl
  · rename_i hrange
    rw [record?] at h
    cases hget : rs.records[pos.toNat]? with
    | none => exact absurd (List.getElem?_eq_none_iff.mp hget) (not_or.mp hrange).2
    | some record =>
      rw [hget, Option.filter_some] at h
      cases hlive : record.live with
      | false => simp only [hlive, if_true]
      | true =>
        rw [hlive, if_pos rfl] at h
        exact nomatch h

theorem record?_of_find (h : rs.find pos = .ok r) : rs.record? pos = some r := by
  cases hrecord : rs.record? pos with
  | none =>
    rw [find_none hrecord] at h
    exact nomatch h
  | some record =>
    rw [find_of_record? hrecord] at h
    rw [Except.ok.inj h]

/-! ### One record replaced -/

section Replace

variable {old new : HeapRecord V}

/-- The first record is not the one replaced. -/
theorem first_dead_set (rs : HeapRecordStore V) (hpos : 0 < pos.toNat) (new : HeapRecord V) :
    ∃ r, (rs.records.set pos.toNat new)[0]? = some r ∧ r.live = false := by
  obtain ⟨first, hfirst, hdead⟩ := rs.first_dead
  exact ⟨first, by rw [List.getElem?_set_ne (by omega), hfirst], hdead⟩

/-- The other records that are not live are the free ones. -/
theorem dead_set_iff (hget : rs.records[pos.toNat]? = some old) (hpos : 0 < pos.toNat) (j : Position) :
    (0 < j.toNat ∧ ∃ r, (rs.records.set pos.toNat new)[j.toNat]? = some r ∧ r.live = false) ↔
      (j = pos ∧ new.live = false ∨ j ≠ pos ∧ j ∈ rs.free) := by
  have hlt := (List.getElem?_eq_some_iff.mp hget).1
  by_cases hj : j = pos
  · subst hj
    rw [List.getElem?_set_self hlt]
    simp [hpos]
  · rw [List.getElem?_set_ne (fun h => hj (UInt64.toNat_inj.mp h.symm)), rs.free_iff j]
    simp [hj]

/-- A record that comes to life. -/
theorem countP_set_live (hget : rs.records[pos.toNat]? = some old) (hold : old.live = false)
    (hnew : new.live = true) : (rs.records.set pos.toNat new).countP HeapRecord.live =
      rs.records.countP HeapRecord.live + 1 := by
  obtain ⟨hlt, hget⟩ := List.getElem?_eq_some_iff.mp hget
  rw [List.countP_set hlt, hget, hold, hnew]
  simp

/-- A record that dies. -/
theorem countP_set_dead (hget : rs.records[pos.toNat]? = some old) (hold : old.live = true)
    (hnew : new.live = false) : (rs.records.set pos.toNat new).countP HeapRecord.live + 1 =
      rs.records.countP HeapRecord.live := by
  obtain ⟨hlt, hget⟩ := List.getElem?_eq_some_iff.mp hget
  have hsome : 0 < rs.records.countP HeapRecord.live :=
    List.countP_pos_iff.mpr ⟨old, hget ▸ List.getElem_mem hlt, hold⟩
  rw [List.countP_set hlt, hget, hold, hnew]
  simp only [if_true, Bool.false_eq_true, if_false]
  omega

/-- What is read behind a replacement. -/
theorem filter_set (hget : rs.records[pos.toNat]? = some old) (j : Position) :
    (rs.records.set pos.toNat new)[j.toNat]?.filter HeapRecord.live =
      if j = pos then (some new).filter HeapRecord.live else rs.record? j := by
  by_cases hj : j = pos
  · rw [if_pos hj, hj, List.getElem?_set_self (List.getElem?_eq_some_iff.mp hget).1]
  · rw [if_neg hj, List.getElem?_set_ne (fun h => hj (UInt64.toNat_inj.mp h.symm)), record?]

end Replace

/-! ### Adding and freeing -/

/-- `Add`; without a free position the vector grows, up to its longest length. -/
def add (rs : HeapRecordStore V) (key : ByteView) (value : V) :
    Option (Position × HeapRecordStore V) :=
  match hf : rs.free with
  | pos :: rest =>
    have hfree := (rs.free_iff pos).mp (hf ▸ List.mem_cons_self)
    some (pos, {
      records := rs.records.set pos.toNat ⟨key, value, true⟩
      free := rest
      live := rs.live + 1
      first_dead := rs.first_dead_set hfree.1 _
      free_iff := by
        obtain ⟨hpos, old, hget, _⟩ := hfree
        have hnd := rs.free_nodup
        rw [hf] at hnd
        intro j
        rw [dead_set_iff hget hpos, hf, List.mem_cons]
        by_cases hj : j = pos
        · simp [hj, (List.nodup_cons.mp hnd).1]
        · simp [hj]
      free_nodup := by
        have hnd := rs.free_nodup
        rw [hf] at hnd
        exact (List.nodup_cons.mp hnd).2
      live_eq := by
        obtain ⟨_, old, hget, hdead⟩ := hfree
        rw [countP_set_live hget hdead rfl, rs.live_eq, Int32.ofNat_add]
        rfl
      length_lt := by
        rw [List.length_set]
        exact rs.length_lt })
  | [] =>
    if hlen : rs.records.length + 1 < 2 ^ 63 then
      some (UInt64.ofNat rs.records.length, {
        records := rs.records ++ [⟨key, value, true⟩]
        free := []
        live := rs.live + 1
        first_dead := by
          obtain ⟨first, hfirst, hdead⟩ := rs.first_dead
          exact ⟨first, by
            rw [List.getElem?_append_left (List.getElem?_eq_some_iff.mp hfirst).1, hfirst], hdead⟩
        free_iff := by
          intro j
          have hnone := rs.free_iff j
          rw [hf] at hnone
          rw [hnone]
          by_cases hj : j.toNat < rs.records.length
          · rw [List.getElem?_append_left hj]
          · rw [List.getElem?_eq_none (Nat.not_lt.mp hj),
              List.getElem?_append_right (Nat.not_lt.mp hj)]
            cases j.toNat - rs.records.length with
            | zero => simp
            | succ n => simp
        free_nodup := List.nodup_nil
        live_eq := by
          rw [List.countP_append, rs.live_eq, Int32.ofNat_add]
          rfl
        length_lt := by
          rw [List.length_append]
          exact hlen })
    else none

/-- **A record at a free position**, and nothing else changes. -/
theorem add_spec {rs' : HeapRecordStore V} {key : ByteView} {value : V}
    (h : rs.add key value = some (pos, rs')) :
    rs.record? pos = none ∧ 0 < pos.toNat ∧ pos.toNat < 2 ^ 63 ∧
      (∀ j, rs'.record? j = if j = pos then some ⟨key, value, true⟩ else rs.record? j) ∧
      rs'.records.countP HeapRecord.live = rs.records.countP HeapRecord.live + 1 := by
  obtain ⟨first, hfirst, _⟩ := rs.first_dead
  have hpositive := (List.getElem?_eq_some_iff.mp hfirst).1
  have hlength := rs.length_lt
  unfold add at h
  split at h
  · rename_i id rest hf
    obtain ⟨rfl, rfl⟩ := Prod.mk.inj (Option.some.inj h)
    obtain ⟨hpos, old, hget, hdead⟩ := (rs.free_iff id).mp (hf ▸ List.mem_cons_self)
    have hlt := (List.getElem?_eq_some_iff.mp hget).1
    refine ⟨?_, hpos, by omega, fun j => filter_set hget j, countP_set_live hget hdead rfl⟩
    rw [record?, hget, Option.filter_some, hdead]
    rfl
  · rename_i hf
    split at h
    · rename_i hlen
      obtain ⟨rfl, rfl⟩ := Prod.mk.inj (Option.some.inj h)
      have hnat : (UInt64.ofNat rs.records.length).toNat = rs.records.length := by
        rw [UInt64.toNat_ofNat']
        omega
      refine ⟨?_, by omega, by omega, fun j => ?_, ?_⟩
      · rw [record?, hnat, List.getElem?_eq_none (le_refl _)]
        rfl
      · show (rs.records ++ [⟨key, value, true⟩])[j.toNat]?.filter HeapRecord.live = _
        by_cases hj : j = UInt64.ofNat rs.records.length
        · rw [if_pos hj, hj, hnat, List.getElem?_append_right (le_refl _), Nat.sub_self]
          rfl
        · have hne : j.toNat ≠ rs.records.length := fun h =>
            hj (UInt64.toNat_inj.mp (h.trans hnat.symm))
          rw [if_neg hj, record?]
          by_cases hlt : j.toNat < rs.records.length
          · rw [List.getElem?_append_left hlt]
          · rw [List.getElem?_append_right (Nat.not_lt.mp hlt), List.getElem?_eq_none (by simp; omega),
              List.getElem?_eq_none (Nat.not_lt.mp hlt)]
      · exact List.countP_append
    · exact nomatch h

/-- `Free`. -/
def freeRecord [Inhabited V] (rs : HeapRecordStore V) (pos : Position) :
    Result (HeapRecordStore V) :=
  match h : rs.find pos with
  | .error fault => .error fault
  | .ok _ => .ok {
      records := rs.records.set pos.toNat .dead
      free := pos :: rs.free
      live := rs.live - 1
      first_dead := rs.first_dead_set (pos_of_record? (record?_of_find h)) _
      free_iff := by
        intro j
        have hrecord := record?_of_find h
        rw [dead_set_iff (record?_eq_some.mp hrecord).1 (pos_of_record? hrecord), List.mem_cons]
        by_cases hj : j = pos
        · simp [hj, HeapRecord.dead]
        · simp [hj]
      free_nodup := by
        obtain ⟨hget, hlive⟩ := record?_eq_some.mp (record?_of_find h)
        refine List.nodup_cons.mpr ⟨fun hmem => ?_, rs.free_nodup⟩
        obtain ⟨_, dead, hdead, hnot⟩ := (rs.free_iff pos).mp hmem
        rw [hget] at hdead
        obtain rfl := Option.some.inj hdead
        exact absurd (hnot.symm.trans hlive) Bool.false_ne_true
      live_eq := by
        obtain ⟨hget, hlive⟩ := record?_eq_some.mp (record?_of_find h)
        have hcount := countP_set_dead hget hlive (rfl : (HeapRecord.dead : HeapRecord V).live = false)
        rw [rs.live_eq, ← hcount, Int32.ofNat_add]
        exact Int32.add_sub_cancel _ _
      length_lt := by
        rw [List.length_set]
        exact rs.length_lt }

/-- A position that is not live cannot be freed. -/
theorem freeRecord_none [Inhabited V] (h : rs.record? pos = none) :
    rs.freeRecord pos = err .missingKey := by
  unfold freeRecord
  split
  · rename_i fault hfind
    rw [find_none h] at hfind
    rw [err, Except.error.inj hfind]
  · rename_i hfind
    exact absurd (h.symm.trans (record?_of_find hfind)) (by simp)

/-- **A live position can be freed**, and nothing else changes; it is the next one that is used. -/
theorem freeRecord_spec [Inhabited V] (h : rs.record? pos = some r) :
    ∃ rs', rs.freeRecord pos = .ok rs' ∧
      (∀ j, rs'.record? j = if j = pos then none else rs.record? j) ∧
      rs'.records.countP HeapRecord.live + 1 = rs.records.countP HeapRecord.live ∧
      ∀ key value, ∃ rs'', rs'.add key value = some (pos, rs'') := by
  obtain ⟨hget, hlive⟩ := record?_eq_some.mp h
  unfold freeRecord
  split
  · rename_i hfind
    exact absurd (hfind.symm.trans (find_of_record? h)) (by simp)
  · exact ⟨_, rfl, fun j => filter_set hget j, countP_set_dead hget hlive rfl, fun _ _ => ⟨_, rfl⟩⟩

end HeapRecordStore

end MinweightStore.Minpatricia
