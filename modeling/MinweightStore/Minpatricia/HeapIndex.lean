import MinweightStore.Base.EventRun
import MinweightStore.Minpatricia.RecordStore
import MinweightStore.Minpatricia.Runs

/-!
# An index over a heap record store

`NewHeap` (`minpatricia.h`) makes an index over a record store and a node store of its own.  Its caller
adds records, puts their positions under their keys, and frees the records that the index has dropped.

* `HeapIndex`, `HeapEvent`, `HeapStep` — what such a caller does, with what it sees;
* `RecordMap` — the abstract machine: a map of records, and a map of keys to positions;
* `heapSimulates_step`, `heap_index_refines_maps` — **they are two maps**, and every key of the second
  has its record in the first.
-/

namespace MinweightStore.Minpatricia

variable {V : Type}

/-! ### The stores -/

/-- `HeapIndex`; the index has its node store. -/
structure HeapIndex (V : Type) where
  records : HeapRecordStore V
  index : Index

/-- `NewHeap`. -/
def newHeap (V : Type) [Inhabited V] : Result (HeapIndex V) := do
  let records : HeapRecordStore V := .new
  let index ← newWithNodes records.key .new
  .ok ⟨records, index⟩

/-- **What can be seen of a caller**: its calls on both, with their replies. -/
inductive HeapEvent (V : Type) where
  | add (key : ByteView) (value : V) (pos : Position)
  | free (pos : Position) (reply : Result Unit)
  | key (pos : Position) (reply : Result ByteView)
  | value (pos : Position) (reply : Result V)
  | record (pos : Position) (reply : Result (HeapRecord V))
  | len (reply : Int32)
  | index (call : Call) (reply : Result Reply)

/-- A position goes under the key of its record. -/
def HeapIndex.Promised (h : HeapIndex V) : Call → Prop
  | .put key pos => h.records.key pos = .ok key
  | .retarget key _ newPos => h.records.key newPos = .ok key ∧
      ∃ pos, h.index.get h.records.key key = .ok ⟨pos, true⟩
  | _ => True

/-- **One call.**  A record is freed when the index does not find it any more; the records are
counted by an `int`. -/
inductive HeapStep [Inhabited V] (h : HeapIndex V) : HeapEvent V → HeapIndex V → Prop where
  | add {key : ByteView} {value : V} {pos : Position} {records : HeapRecordStore V}
      (few : h.records.records.countP HeapRecord.live + 1 < 2 ^ 31)
      (run : h.records.add key value = some (pos, records)) :
      HeapStep h (.add key value pos) ⟨records, h.index⟩
  | freed {pos : Position} {records : HeapRecordStore V}
      (unused : ∀ key, h.index.get h.records.key key ≠ .ok ⟨pos, true⟩)
      (run : h.records.freeRecord pos = .ok records) :
      HeapStep h (.free pos (.ok ())) ⟨records, h.index⟩
  | notFreed {pos : Position} {fault : Fault StatusCode}
      (run : h.records.freeRecord pos = .error fault) : HeapStep h (.free pos (.error fault)) h
  | key (pos : Position) : HeapStep h (.key pos (h.records.key pos)) h
  | value (pos : Position) : HeapStep h (.value pos (h.records.value pos)) h
  | record (pos : Position) : HeapStep h (.record pos (h.records.record pos)) h
  | len : HeapStep h (.len h.records.len) h
  | index {call : Call} (promised : h.Promised call) :
      HeapStep h (.index call (call.outcome h.records.key h.index).1)
        ⟨h.records, (call.outcome h.records.key h.index).2⟩

/-! ### The abstract machine -/

/-- **Records at positions, and positions under keys.** -/
structure RecordMap (V : Type) where
  records : SortedMap ℕ (ByteView × V)
  index : SortedMap ByteView Position
  puts : ℕ

namespace RecordMap

/-- A record that is there, or the status of one that is not. -/
def foundOr {α : Type} : Option α → Result α
  | some a => .ok a
  | none => err .missingKey

/-- A record of the map as the record store keeps it. -/
def recordOf (r : ByteView × V) : HeapRecord V := ⟨r.1, r.2, true⟩

/-- **What the two maps do.** -/
inductive Step : RecordMap V → HeapEvent V → RecordMap V → Prop where
  | add (m : RecordMap V) (key : ByteView) (value : V) (pos : Position)
      (fresh : m.records.get? pos.toNat = none) :
      Step m (.add key value pos) { m with records := m.records.insert pos.toNat (key, value) }
  | freed (m : RecordMap V) (pos : Position) (present : (m.records.get? pos.toNat).isSome)
      (unused : ∀ key, m.index.get? key ≠ some pos) :
      Step m (.free pos (.ok ())) { m with records := m.records.erase pos.toNat }
  | notFreed (m : RecordMap V) (pos : Position) (absent : m.records.get? pos.toNat = none) :
      Step m (.free pos (err .missingKey)) m
  | key (m : RecordMap V) (pos : Position) :
      Step m (.key pos (foundOr ((m.records.get? pos.toNat).map Prod.fst))) m
  | value (m : RecordMap V) (pos : Position) :
      Step m (.value pos (foundOr ((m.records.get? pos.toNat).map Prod.snd))) m
  | record (m : RecordMap V) (pos : Position) :
      Step m (.record pos (foundOr ((m.records.get? pos.toNat).map recordOf))) m
  | len (m : RecordMap V) (count : Int32) (exact : count.toInt = m.records.size) :
      Step m (.len count) m
  | index (m : RecordMap V) (call : Call) (reply : Result Reply) (index : SortedMap ByteView Position)
      (expected : Expected m.puts m.index reply index call) :
      Step m (.index call reply)
        { m with index := index, puts := if call.isPut then m.puts + 1 else m.puts }

/-- **Every key has its record.** -/
def Consistent (m : RecordMap V) : Prop :=
  ∀ key pos, m.index.get? key = some pos → ∃ value, m.records.get? pos.toNat = some (key, value)

/-- There are at least as many records as keys. -/
theorem Consistent.size_le {m : RecordMap V} (h : m.Consistent) : m.index.size ≤ m.records.size := by
  have hnodup : (m.index.entries.map fun e => e.2.toNat).Nodup := by
    refine (List.nodup_map_iff_inj_on m.index.entries_nodup).mpr (fun e he e' he' heq => ?_)
    obtain ⟨v, hv⟩ := h e.1 e.2 ((SortedMap.mem_entries_iff _ _ _).mp he)
    obtain ⟨v', hv'⟩ := h e'.1 e'.2 ((SortedMap.mem_entries_iff _ _ _).mp he')
    have hpos : e.2 = e'.2 := UInt64.toNat_inj.mp heq
    rw [← hpos, hv] at hv'
    exact Prod.ext (Prod.mk.inj (Option.some.inj hv')).1 hpos
  have hsub : (m.index.entries.map fun e => e.2.toNat) ⊆ m.records.entries.map Prod.fst := by
    intro n hn
    obtain ⟨e, he, rfl⟩ := List.mem_map.mp hn
    obtain ⟨v, hv⟩ := h e.1 e.2 ((SortedMap.mem_entries_iff _ _ _).mp he)
    exact List.mem_map.mpr ⟨_, (SortedMap.mem_entries_iff _ _ _).mpr hv, rfl⟩
  have hle := (hnodup.subperm hsub).length_le
  rwa [List.length_map, List.length_map] at hle

end RecordMap

/-! ### The simulation -/

/-- **The stores simulate the maps.** -/
structure HeapSimulates (h : HeapIndex V) (m : RecordMap V) : Prop where
  record : ∀ pos, h.records.record? pos = (m.records.get? pos.toNat).map RecordMap.recordOf
  count : h.records.records.countP HeapRecord.live = m.records.size
  few : m.records.size < 2 ^ 31
  represents : ∃ o, ∃ hr : Represents h.index o, toMap hr = m.index
  nodes : h.index.nodes.nodes.length ≤ m.puts + 1
  consistent : m.Consistent

namespace HeapSimulates

variable {h h' : HeapIndex V} {m : RecordMap V} {key : ByteView} {pos : Position} {event : HeapEvent V}

theorem find_eq (hsim : HeapSimulates h m) (pos : Position) : h.records.find pos =
    RecordMap.foundOr ((m.records.get? pos.toNat).map RecordMap.recordOf) := by
  have hrecord := hsim.record pos
  cases hget : m.records.get? pos.toNat with
  | none =>
    rw [hget] at hrecord
    exact HeapRecordStore.find_none hrecord
  | some r =>
    rw [hget] at hrecord
    exact HeapRecordStore.find_of_record? hrecord

theorem key_eq (hsim : HeapSimulates h m) (pos : Position) : h.records.key pos =
    RecordMap.foundOr ((m.records.get? pos.toNat).map Prod.fst) := by
  rw [HeapRecordStore.key, hsim.find_eq]
  cases m.records.get? pos.toNat <;> rfl

theorem value_eq (hsim : HeapSimulates h m) (pos : Position) : h.records.value pos =
    RecordMap.foundOr ((m.records.get? pos.toNat).map Prod.snd) := by
  rw [HeapRecordStore.value, hsim.find_eq]
  cases m.records.get? pos.toNat <;> rfl

/-- The record store knows a key for the record of its position. -/
theorem key_ok_iff (hsim : HeapSimulates h m) :
    h.records.key pos = .ok key ↔ ∃ value, m.records.get? pos.toNat = some (key, value) := by
  rw [hsim.key_eq]
  cases m.records.get? pos.toNat with
  | none => simp [RecordMap.foundOr, err]
  | some r =>
    obtain ⟨key', value⟩ := r
    simp [RecordMap.foundOr]

/-- **The record store knows all keys of the index.** -/
theorem knowsAll (hsim : HeapSimulates h m) : KnowsAll h.records.key m.index.entries := fun e he =>
  hsim.key_ok_iff.mpr (hsim.consistent e.1 e.2 ((SortedMap.mem_entries_iff _ _ _).mp he))

/-- `Get` finds the position of the map. -/
theorem get_eq (hsim : HeapSimulates h m) (hkey : key.length ≤ kMaxKeySize) :
    h.index.get h.records.key key = .ok (getResult (m.index.get? key)) := by
  obtain ⟨o, hr, hmap⟩ := hsim.represents
  have hknows := hsim.knowsAll
  rw [← hmap] at hknows ⊢
  exact get_spec hr hknows hkey

/-- The keys of the index are short enough. -/
theorem key_le (hsim : HeapSimulates h m) (hget : m.index.get? key = some pos) :
    key.length ≤ kMaxKeySize := by
  obtain ⟨o, hr, hmap⟩ := hsim.represents
  rw [← hmap] at hget
  have hmem := (SortedMap.mem_entries_iff _ _ _).mpr hget
  cases o with
  | none => exact absurd hmem List.not_mem_nil
  | some t =>
    have hs : Sized t := Holds.sized_below (z := []) hr.2.2.1
    exact (hs (key, pos) hmem).1

/-- A new record. -/
theorem add {value : V} {records : HeapRecordStore V} (hsim : HeapSimulates h m)
    (few : h.records.records.countP HeapRecord.live + 1 < 2 ^ 31)
    (hrun : h.records.add key value = some (pos, records)) :
    m.records.get? pos.toNat = none ∧ HeapSimulates ⟨records, h.index⟩
      { m with records := m.records.insert pos.toNat (key, value) } := by
  obtain ⟨hfree, _, _, hrecord, hcount⟩ := HeapRecordStore.add_spec hrun
  have hfresh : m.records.get? pos.toNat = none := by
    rw [hsim.record, Option.map_eq_none_iff] at hfree
    exact hfree
  have hsize := SortedMap.size_insert_of_none (key, value) hfresh
  have hold := hsim.count
  refine ⟨hfresh, fun j => ?_, by rw [hcount, hsize, hold], by rw [hsize]; omega, hsim.represents,
    hsim.nodes, fun k j hget => ?_⟩
  · rw [hrecord, SortedMap.get?_insert]
    by_cases hj : j = pos
    · rw [if_pos hj, if_pos (congrArg UInt64.toNat hj)]
      rfl
    · rw [if_neg hj, if_neg (fun h => hj (UInt64.toNat_inj.mp h)), hsim.record]
  · obtain ⟨v, hv⟩ := hsim.consistent k j hget
    have hne : j.toNat ≠ pos.toNat := by
      intro heq
      rw [heq, hfresh] at hv
      exact nomatch hv
    exact ⟨v, by rw [SortedMap.get?_insert, if_neg hne]; exact hv⟩

/-- A record freed. -/
theorem freed [Inhabited V] {records : HeapRecordStore V} (hsim : HeapSimulates h m)
    (hunused : ∀ key, h.index.get h.records.key key ≠ .ok ⟨pos, true⟩)
    (hrun : h.records.freeRecord pos = .ok records) :
    (m.records.get? pos.toNat).isSome ∧ (∀ key, m.index.get? key ≠ some pos) ∧
      HeapSimulates ⟨records, h.index⟩ { m with records := m.records.erase pos.toNat } := by
  have hdropped : ∀ key, m.index.get? key ≠ some pos := by
    intro key hget
    refine hunused key ?_
    rw [hsim.get_eq (hsim.key_le hget), hget]
    rfl
  cases hrecord : h.records.record? pos with
  | none => exact absurd (hrun.symm.trans (HeapRecordStore.freeRecord_none hrecord)) (by simp [err])
  | some r =>
    obtain ⟨records', hrun', hrecords, hcount, _⟩ := HeapRecordStore.freeRecord_spec hrecord
    obtain rfl := Except.ok.inj (hrun.symm.trans hrun')
    rw [hsim.record, Option.map_eq_some_iff] at hrecord
    obtain ⟨entry, hget, _⟩ := hrecord
    have hsize := SortedMap.size_erase_of_some hget
    have hold := hsim.count
    have hfew := hsim.few
    refine ⟨by rw [hget]; rfl, hdropped, fun j => ?_, ?_, ?_, hsim.represents, hsim.nodes,
      fun k j hj => ?_⟩
    · rw [hrecords, SortedMap.get?_erase]
      by_cases hj : j = pos
      · rw [if_pos hj, if_pos (congrArg UInt64.toNat hj)]
        rfl
      · rw [if_neg hj, if_neg (fun h => hj (UInt64.toNat_inj.mp h)), hsim.record]
    · show records.records.countP HeapRecord.live = (m.records.erase pos.toNat).size
      omega
    · show (m.records.erase pos.toNat).size < 2 ^ 31
      omega
    · obtain ⟨v, hv⟩ := hsim.consistent k j hj
      have hne : j.toNat ≠ pos.toNat := by
        intro heq
        rw [UInt64.toNat_inj.mp heq] at hj
        exact hdropped k hj
      exact ⟨v, by rw [SortedMap.get?_erase, if_neg hne]; exact hv⟩

/-- The promise of the caller is what the index needs. -/
theorem callerOk (hsim : HeapSimulates h m) {call : Call} (hpromised : h.Promised call) :
    CallerOk h.records.key m.index call := by
  cases call with
  | put key pos => exact ⟨hsim.knowsAll, hpromised⟩
  | retarget key oldPos newPos =>
    obtain ⟨_, pos, hget⟩ := hpromised
    refine ⟨hsim.knowsAll, ?_⟩
    by_cases hkey : key.length ≤ kMaxKeySize
    · rw [hsim.get_eq hkey] at hget
      cases hm : m.index.get? key with
      | none =>
        rw [hm] at hget
        exact absurd (Except.ok.inj hget) (by simp [getResult])
      | some v => rfl
    · rw [get_tooLarge (Nat.not_le.mp hkey)] at hget
      exact nomatch hget
  | delete key => exact hsim.knowsAll
  | get key => exact hsim.knowsAll
  | probe key => exact hsim.knowsAll
  | len => exact hsim.knowsAll

end HeapSimulates

/-- **The keys behind a call** are keys before it, or the one it puts or retargets. -/
theorem Expected.get?_cases {puts : ℕ} {m m' : SortedMap ByteView Position} {outcome : Result Reply}
    {call : Call} (h : Expected puts m outcome m' call) {key : ByteView} {pos : Position}
    (hget : m'.get? key = some pos) : m.get? key = some pos ∨ call = .put key pos ∨
      ∃ oldPos, call = .retarget key oldPos pos := by
  have hinsert : ∀ (k : ByteView) (p : Position), (m.insert k p).get? key = some pos →
      m.get? key = some pos ∨ key = k ∧ pos = p := by
    intro k p hp
    rw [SortedMap.get?_insert] at hp
    split at hp
    · rename_i hk
      exact Or.inr ⟨hk, (Option.some.inj hp).symm⟩
    · exact Or.inl hp
  cases call with
  | put k p =>
    rw [Expected] at h
    split at h
    · exact Or.inl (h.2 ▸ hget)
    split at h
    · exact Or.inl (h.2 ▸ hget)
    rcases h with ⟨_, rfl⟩ | ⟨_, _, rfl⟩
    · rcases hinsert k p hget with hold | ⟨rfl, rfl⟩
      · exact Or.inl hold
      · exact Or.inr (Or.inl rfl)
    · exact Or.inl hget
  | delete k =>
    rw [Expected] at h
    split at h
    · exact Or.inl (h.2 ▸ hget)
    · obtain ⟨_, rfl⟩ := h
      rw [SortedMap.get?_erase] at hget
      split at hget
      · cases hget
      · exact Or.inl hget
  | retarget k oldPos newPos =>
    rw [Expected] at h
    split at h
    · exact Or.inl (h.2 ▸ hget)
    split at h
    · exact Or.inl (h.2 ▸ hget)
    split at h
    · obtain ⟨_, rfl⟩ := h
      rcases hinsert k newPos hget with hold | ⟨rfl, rfl⟩
      · exact Or.inl hold
      · exact Or.inr (Or.inr ⟨oldPos, rfl⟩)
    · exact Or.inl (h.2 ▸ hget)
  | get k =>
    rw [Expected] at h
    split at h <;> exact Or.inl (h.2 ▸ hget)
  | probe k =>
    rw [Expected] at h
    exact Or.inl (h.1 ▸ hget)
  | len =>
    rw [Expected] at h
    obtain ⟨_, _, _, rfl⟩ := h
    exact Or.inl hget

section Simulation

variable {h h' h₀ : HeapIndex V} {m : RecordMap V} {event : HeapEvent V} {events : List (HeapEvent V)}

/-- **One call** is one of the two maps. -/
theorem heapSimulates_step [Inhabited V] (hsim : HeapSimulates h m) (hstep : HeapStep h event h') :
    ∃ m', RecordMap.Step m event m' ∧ HeapSimulates h' m' := by
  cases hstep with
  | add few hrun =>
    obtain ⟨hfresh, hsim'⟩ := hsim.add few hrun
    exact ⟨_, .add m _ _ _ hfresh, hsim'⟩
  | freed hunused hrun =>
    obtain ⟨hpresent, hdropped, hsim'⟩ := hsim.freed hunused hrun
    exact ⟨_, .freed m _ hpresent hdropped, hsim'⟩
  | notFreed hrun =>
    rename_i pos fault
    cases hrecord : h.records.record? pos with
    | none =>
      obtain rfl := Except.error.inj (hrun.symm.trans (HeapRecordStore.freeRecord_none hrecord))
      rw [hsim.record, Option.map_eq_none_iff] at hrecord
      exact ⟨m, .notFreed m pos hrecord, hsim⟩
    | some r =>
      obtain ⟨_, hrun', _⟩ := HeapRecordStore.freeRecord_spec hrecord
      exact absurd (hrun.symm.trans hrun') (by simp)
  | key pos =>
    rw [hsim.key_eq]
    exact ⟨m, .key m pos, hsim⟩
  | value pos =>
    rw [hsim.value_eq]
    exact ⟨m, .value m pos, hsim⟩
  | record pos =>
    rw [HeapRecordStore.record, hsim.find_eq]
    exact ⟨m, .record m pos, hsim⟩
  | len =>
    refine ⟨m, .len m _ ?_, hsim⟩
    rw [HeapRecordStore.len, h.records.live_eq, hsim.count, Int32.toInt_ofNat_of_lt hsim.few]
  | index hpromised =>
    rename_i call
    obtain ⟨o, hr, hmap⟩ := hsim.represents
    have hcaller := hsim.callerOk hpromised
    have hsize := lt_of_le_of_lt hsim.consistent.size_le hsim.few
    rw [← hmap] at hcaller hsize
    obtain ⟨index, o', hr', hmap', hexpected, _, hnodes⟩ := stepOk hr hsim.nodes hcaller hsize
    rw [hmap] at hexpected
    refine ⟨_, .index m call _ index hexpected, hsim.record, hsim.count, hsim.few, ⟨o', hr', hmap'⟩,
      hnodes, fun key pos hget => ?_⟩
    rcases hexpected.get?_cases hget with hold | rfl | ⟨oldPos, rfl⟩
    · exact hsim.consistent key pos hold
    · exact hsim.key_ok_iff.mp hpromised
    · exact hsim.key_ok_iff.mp hpromised.1

/-- **New stores** simulate the empty maps. -/
theorem heapSimulates_new [Inhabited V] (hnew : newHeap V = .ok h) : HeapSimulates h ⟨.empty, .empty, 0⟩ := by
  obtain ⟨ix, hindex, hrep, hlen⟩ := newWithNodes_eq (HeapRecordStore.new : HeapRecordStore V).key
  rw [newHeap, hindex] at hnew
  obtain rfl := Except.ok.inj hnew
  refine ⟨fun pos => ?_, rfl, show 0 < 2 ^ 31 by decide, ⟨none, hrep, rfl⟩, hlen.le,
    fun key pos hget => ?_⟩
  · show ([HeapRecord.dead] : List (HeapRecord V))[pos.toNat]?.filter HeapRecord.live = _
    rw [SortedMap.get?_empty]
    cases pos.toNat <;> rfl
  · exact absurd hget (by simp [SortedMap.get?_empty])

/-- **Two maps**: whatever a caller sees of an index over a heap record store, it sees of a map of
records and a map of keys to positions; and every key has its record. -/
theorem heap_index_refines_maps [Inhabited V] (hnew : newHeap V = .ok h₀) (hrun : Run HeapStep h₀ events h) :
    ∃ m, Run RecordMap.Step ⟨.empty, .empty, 0⟩ events m ∧ m.Consistent ∧
      ∀ key, key.length ≤ kMaxKeySize →
        h.index.get h.records.key key = .ok (getResult (m.index.get? key)) := by
  obtain ⟨m, hmap, hsim⟩ := hrun.simulated (heapSimulates_new hnew)
    (fun _ _ _ _ hsim hstep => heapSimulates_step hsim hstep)
  exact ⟨m, hmap, hsim.consistent, fun key hkey => hsim.get_eq hkey⟩

end Simulation

section Reused

variable [Inhabited V] {h : HeapIndex V} {m : RecordMap V} (key : ByteView) (pos : Position)

/-- A record that is there goes under its key. -/
theorem HeapSimulates.exists_put (hsim : HeapSimulates h m)
    (hrecord : ∃ value, m.records.get? pos.toNat = some (key, value))
    (hkey : key.length ≤ kMaxKeySize) (hpos : pos.toNat < 2 ^ 63) (hputs : m.puts + 1 < 2 ^ 63) :
    ∃ index, HeapStep h (.index (.put key pos) (.ok (.put (putResult (m.index.get? key)))))
        ⟨h.records, index⟩ ∧
      HeapSimulates ⟨h.records, index⟩ ⟨m.records, m.index.insert key pos, m.puts + 1⟩ := by
  have hput : h.Promised (.put key pos) := hsim.key_ok_iff.mpr hrecord
  have hstep := HeapStep.index hput
  obtain ⟨m', hm, hsim'⟩ := heapSimulates_step hsim hstep
  cases hm with
  | index _ _ index hexpected =>
    rw [Expected, if_neg (Nat.not_lt.mpr hkey), if_neg (Nat.not_le.mpr hpos)] at hexpected
    rcases hexpected with ⟨hout, rfl⟩ | ⟨hfull, _⟩
    · rw [hout] at hstep
      exact ⟨_, hstep, hsim'⟩
    · omega

/-- A key is deleted. -/
theorem HeapSimulates.exists_delete (hsim : HeapSimulates h m) (hkey : key.length ≤ kMaxKeySize) :
    ∃ index, HeapStep h (.index (.delete key) (.ok (.delete (deleteResult (m.index.get? key)))))
        ⟨h.records, index⟩ ∧
      HeapSimulates ⟨h.records, index⟩ ⟨m.records, m.index.erase key, m.puts⟩ := by
  have hstep := @HeapStep.index V _ h (.delete key) trivial
  obtain ⟨m', hm, hsim'⟩ := heapSimulates_step hsim hstep
  cases hm with
  | index _ _ index hexpected =>
    rw [Expected, if_neg (Nat.not_lt.mpr hkey)] at hexpected
    obtain ⟨hout, rfl⟩ := hexpected
    rw [hout] at hstep
    exact ⟨_, hstep, hsim'⟩

omit [Inhabited V] in
/-- A position that is under no key is not found. -/
theorem HeapSimulates.not_found (hsim : HeapSimulates h m) (hfree : ∀ e ∈ m.index.entries, e.2 ≠ pos)
    (key : ByteView) : h.index.get h.records.key key ≠ .ok ⟨pos, true⟩ := by
  intro hget
  by_cases hkey : key.length ≤ kMaxKeySize
  · rw [hsim.get_eq hkey] at hget
    have hfound := Except.ok.inj hget
    cases hm : m.index.get? key with
    | none =>
      rw [hm] at hfound
      exact absurd (congrArg ProbeResult.found hfound) (by simp [getResult])
    | some v =>
      rw [hm] at hfound
      exact hfree (key, v) ((SortedMap.mem_entries_iff _ _ _).mpr hm)
        (congrArg ProbeResult.pos hfound)
  · rw [get_tooLarge (Nat.not_le.mp hkey)] at hget
    exact absurd hget (by simp [err])

end Reused

/-- Four calls on the records: a record that is freed gives its position to the next one. -/
theorem exists_reused : ∃ r₁ r₂ r₃ r₄ : HeapRecordStore ℕ,
    HeapRecordStore.new.add [1] 7 = some (1, r₁) ∧ r₁.add [2] 8 = some (2, r₂) ∧
    r₂.freeRecord 1 = .ok r₃ ∧ r₃.add [3] 9 = some (1, r₄) :=
  ⟨_, _, _, _, rfl, rfl, rfl, rfl⟩

/-- Two keys, one of them deleted, its record freed, and its position used for a third one. -/
def reusedEvents : List (HeapEvent ℕ) :=
  [.add [1] 7 1, .index (.put [1] 1) (.ok (.put (putResult none))),
    .add [2] 8 2, .index (.put [2] 2) (.ok (.put (putResult none))),
    .index (.delete [1]) (.ok (.delete (deleteResult (some 1)))), .free 1 (.ok ()),
    .add [3] 9 1, .index (.put [3] 1) (.ok (.put (putResult none)))]

theorem exists_run_reused : ∃ h₀ h : HeapIndex ℕ, newHeap ℕ = .ok h₀ ∧
    Run HeapStep h₀ reusedEvents h := by
  obtain ⟨ix₀, hindex, _, _⟩ := newWithNodes_eq (HeapRecordStore.new : HeapRecordStore ℕ).key
  have hnew : newHeap ℕ = .ok ⟨.new, ix₀⟩ := by
    rw [newHeap, hindex]
    rfl
  obtain ⟨r₁, r₂, r₃, r₄, hadd₁, hadd₂, hfree, hadd₃⟩ := exists_reused
  have hsim₀ := heapSimulates_new hnew
  have few : ∀ {h : HeapIndex ℕ} {m : RecordMap ℕ}, HeapSimulates h m → m.records.size < 3 →
      h.records.records.countP HeapRecord.live + 1 < 2 ^ 31 := fun hsim hsize => by
    rw [hsim.count]
    omega
  obtain ⟨_, hsim₁⟩ := hsim₀.add (few hsim₀ (by decide)) hadd₁
  obtain ⟨ix₁, hput₁, hsim₂⟩ := hsim₁.exists_put [1] 1 ⟨7, rfl⟩ (by decide) (by decide) (by decide)
  obtain ⟨_, hsim₃⟩ := hsim₂.add (few hsim₂ (by decide)) hadd₂
  obtain ⟨ix₂, hput₂, hsim₄⟩ := hsim₃.exists_put [2] 2 ⟨8, rfl⟩ (by decide) (by decide) (by decide)
  obtain ⟨ix₃, hdelete, hsim₅⟩ := hsim₄.exists_delete [1] (by decide)
  have hunused := hsim₅.not_found 1 (fun e he => by
    rw [show e = ([2], 2) from List.mem_singleton.mp he]
    decide)
  obtain ⟨_, _, hsim₆⟩ := hsim₅.freed hunused hfree
  obtain ⟨_, hsim₇⟩ := hsim₆.add (few hsim₆ (by decide)) hadd₃
  obtain ⟨ix₄, hput₃, hsim₈⟩ := hsim₇.exists_put [3] 1 ⟨9, rfl⟩ (by decide) (by decide) (by decide)
  exact ⟨_, _, hnew, .snoc (.snoc (.snoc (.snoc (.snoc (.snoc (.snoc (.snoc (.nil _)
    (.add (few hsim₀ (by decide)) hadd₁)) hput₁) (.add (few hsim₂ (by decide)) hadd₂)) hput₂)
    hdelete) (.freed hunused hfree)) (.add (few hsim₆ (by decide)) hadd₃)) hput₃⟩

theorem heap_index_refines_maps_reused : ∃ h₀ h : HeapIndex ℕ, newHeap ℕ = .ok h₀ ∧
    ∃ m, Run RecordMap.Step ⟨.empty, .empty, 0⟩ reusedEvents m ∧ m.Consistent ∧
      ∀ key, key.length ≤ kMaxKeySize →
        h.index.get h.records.key key = .ok (getResult (m.index.get? key)) := by
  obtain ⟨h₀, h, hnew, hrun⟩ := exists_run_reused
  exact ⟨h₀, h, hnew, heap_index_refines_maps hnew hrun⟩

end MinweightStore.Minpatricia
