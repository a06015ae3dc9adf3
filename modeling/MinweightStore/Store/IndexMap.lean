import MinweightStore.Minpatricia.IterSpec
import MinweightStore.Store.Impl

/-!
# The index as a map of positions

What the store needs to know of the index: which map it stands for, and a bound on the pages it has
ever used.  The page numbers of the node store run out after `2 ^ 63` pages only.

* `IndexFor` — the index stands for a map, within a number of pages;
* `IndexFor.put`, `IndexFor.delete`, `IndexFor.get` — the calls of the store on it.
-/

namespace MinweightStore.Store

open Minpatricia (ByteView Position Index kMaxKeySize Represents toMap entriesOf KnowsAll
  putResult deleteResult getResult)

/-- The index stands for the map, and its node store has held at most `pages` pages. -/
def IndexFor (ix : Index) (m : SortedMap ByteView Position) (pages : ℕ) : Prop :=
  ∃ o, ∃ h : Represents ix o, toMap h = m ∧ ix.nodes.nodes.length ≤ pages

section Index

variable {ix : Index} {m : SortedMap ByteView Position} {pages : ℕ}
  {records : Position → Minpatricia.Result ByteView} {key : ByteView} {pos : Position}

theorem IndexFor.mono (h : IndexFor ix m pages) {pages' : ℕ} (hle : pages ≤ pages') :
    IndexFor ix m pages' := by
  obtain ⟨o, hr, hm, hn⟩ := h
  exact ⟨o, hr, hm, le_trans hn hle⟩

/-- `Index::NewWithNodes`. -/
theorem indexFor_new (records : Position → Minpatricia.Result ByteView) : ∃ ix,
    Minpatricia.newWithNodes records .new = .ok ix ∧ IndexFor ix .empty 1 := by
  obtain ⟨ix, hnew, hrep, hlen⟩ := Minpatricia.newWithNodes_eq records
  exact ⟨ix, hnew, none, hrep, rfl, le_of_eq hlen⟩

/-- `Put`. -/
theorem IndexFor.put (h : IndexFor ix m pages) (hk : KnowsAll records m.entries)
    (hkey : key.length ≤ kMaxKeySize) (hp : pos.toNat < 2 ^ 63) (hnew : records pos = .ok key)
    (hpages : pages < 2 ^ 63) : ∃ ix', Minpatricia.put records key pos ix =
      .ok (putResult (m.get? key)) ix' ∧ IndexFor ix' (m.insert key pos) (pages + 1) := by
  obtain ⟨o, hr, rfl, hn⟩ := h
  rcases Minpatricia.put_spec hr hk hkey hp hnew with ⟨ix', o', h', hrun, hmap, hlen⟩ | ⟨_, hfull⟩
  · exact ⟨ix', hrun, o', h', hmap, by omega⟩
  · omega

/-- `Delete`. -/
theorem IndexFor.delete (h : IndexFor ix m pages) (hk : KnowsAll records m.entries)
    (hkey : key.length ≤ kMaxKeySize) : ∃ ix', Minpatricia.delete records key ix =
      .ok (deleteResult (m.get? key)) ix' ∧ IndexFor ix' (m.erase key) pages := by
  obtain ⟨o, hr, rfl, hn⟩ := h
  obtain ⟨ix', o', h', hrun, hmap, hlen⟩ := Minpatricia.delete_spec hr hk hkey
  exact ⟨ix', hrun, o', h', hmap, by omega⟩

/-- `Get`. -/
theorem IndexFor.get (h : IndexFor ix m pages) (hk : KnowsAll records m.entries)
    (hkey : key.length ≤ kMaxKeySize) : ix.get records key = .ok (getResult (m.get? key)) := by
  obtain ⟨o, hr, rfl, _⟩ := h
  exact Minpatricia.get_spec hr hk hkey

end Index

/-! ### Calls on the index of a world -/

/-- The world with another index. -/
def World.withIndex (w : World) (ix : Index) : World := { w with index := ix }

@[simp] theorem World.withIndex_index (w : World) (ix : Index) : (w.withIndex ix).index = ix := rfl

@[simp] theorem World.withIndex_records (w : World) (ix : Index) :
    (w.withIndex ix).records = w.records := rfl

@[simp] theorem World.withIndex_disk (w : World) (ix : Index) : (w.withIndex ix).disk = w.disk := rfl

@[simp] theorem World.withIndex_key (w : World) (ix : Index) : (w.withIndex ix).key = w.key := rfl

@[simp] theorem World.withIndex_mapping (w : World) (ix : Index) (fileNo : ℕ) :
    (w.withIndex ix).mapping fileNo = w.mapping fileNo := rfl

@[simp] theorem World.withIndex_withIndex (w : World) (ix ix' : Index) :
    (w.withIndex ix).withIndex ix' = w.withIndex ix' := rfl

@[simp] theorem World.withIndex_self (w : World) : w.withIndex w.index = w := rfl

theorem onIndex_ok {α : Type} {f : (Position → Minpatricia.Result ByteView) → Minpatricia.IndexM α}
    {w : World} {a : α} {ix : Index} (h : f w.key w.index = .ok a ix) :
    onIndex f w = .ok (.ok a) (w.withIndex ix) := by
  rw [onIndex, h]
  rfl

/-! ### Maps of logged operations -/

section Ops

variable {V : Type}

/-- What a record does to a map: its key gets a value, or goes. -/
def applyOp (op : UInt8) (key : ByteView) (value : V) (m : SortedMap ByteView V) :
    SortedMap ByteView V :=
  if op = kWalOpPut then m.insert key value else m.erase key

theorem applyOp_put (key : ByteView) (value : V) (m : SortedMap ByteView V) :
    applyOp kWalOpPut key value m = m.insert key value := rfl

theorem applyOp_delete (key : ByteView) (value : V) (m : SortedMap ByteView V) :
    applyOp kWalOpDelete key value m = m.erase key := rfl

theorem mem_applyOp {op : UInt8} {key : ByteView} {value : V} {m : SortedMap ByteView V}
    {e : ByteView × V} (h : e ∈ (applyOp op key value m).entries) :
    (op = kWalOpPut ∧ e = (key, value)) ∨ e ∈ m.entries := by
  rw [applyOp] at h
  split at h
  · rename_i hop
    exact ((SortedMap.mem_insert m key value e).mp h).imp (fun he => ⟨hop, he⟩) And.left
  · exact Or.inr ((SortedMap.mem_erase m key e).mp h).1

end Ops

end MinweightStore.Store
