import MinweightStore.Minpatricia.Runs

/-!
# Updates that fail

`Put` and `Delete` over a record store that does not answer everywhere and a node store that may
have no page left.

* `Failing` — a record store with unreadable records; `AllocOutcome` — what `Alloc` may do;
* `updates_atomic` — an update that returns an error has changed nothing.
-/

namespace MinweightStore.Minpatricia

open BitKey PagedTree

/-- **A record store with unreadable records**: where it answers it agrees with the stored keys, and
with the key that is being put. -/
structure Failing (records : RecordStore) (entries : List (ByteView × Position)) (key : ByteView)
    (pos : Position) : Prop where
  stored : KnowsAllOrFails records entries
  put : records pos = .ok key ∨ ∃ code, records pos = err code

/-- **What `Alloc` may do**: it fails, or gives an empty page under an untagged number that is not in
use.  Every page number of a heap node store is untagged. -/
def AllocOutcome (alloc : IndexM UInt64) (ix : Index) : Prop :=
  (∃ id ns, alloc ix = .ok id { ix with nodes := ns } ∧ ix.nodes.page? id = none ∧
    ns.page? = Function.update ix.nodes.page? id (some NodePage.empty)) ∨
  ∃ code, alloc ix = .error (.status code) ix

section Atomic

variable {alloc : IndexM UInt64} {records : RecordStore} {ix : Index} {o : Option Tree}
  {key : ByteView} {pos : Position}

theorem AllocOutcome.allocAt (h : AllocOutcome alloc ix) : ∃ grow, AllocAt alloc grow ix := by
  rcases h with ⟨id, ns, hrun, hnone, hpages⟩ | hfails
  · exact ⟨ns.nodes.length, Or.inl ⟨id, ns, hrun, hnone, by omega, hpages⟩⟩
  · exact ⟨0, Or.inr hfails⟩

/-- A put that fails leaves the index as it was. -/
theorem putWith_atomic (h : Represents ix o) (hf : Failing records (entriesOf o) key pos)
    (ha : AllocOutcome alloc ix) {fault : Fault StatusCode} {ix' : Index}
    (hrun : putWith alloc records key pos ix = .error fault ix') : ix' = ix := by
  have hsame : ∀ {code}, putWith alloc records key pos ix = .error (.status code) ix → ix' = ix := by
    intro code hcode
    rw [hcode] at hrun
    exact (EStateM.Result.error.inj hrun).2.symm
  by_cases hkey : key.length ≤ kMaxKeySize
  · by_cases hp : pos.toNat < 2 ^ 63
    · obtain ⟨grow, halloc⟩ := ha.allocAt
      rcases putWith_spec h hf.stored hf.put halloc hkey hp with
        ⟨ix'', o', h', hok, _⟩ | ⟨code, hcode, _⟩
      · rw [hok] at hrun
        exact absurd hrun (by simp)
      · exact hsame hcode
    · exact hsame (putWith_tagged hkey (Nat.not_lt.mp hp))
  · exact hsame (putWith_tooLarge (Nat.not_le.mp hkey))

/-- A delete that fails leaves the index as it was. -/
theorem delete_atomic (h : Represents ix o) (hf : KnowsAllOrFails records (entriesOf o))
    {fault : Fault StatusCode} {ix' : Index}
    (hrun : delete records key ix = .error fault ix') : ix' = ix := by
  by_cases hkey : key.length ≤ kMaxKeySize
  · rcases delete_spec_or h hf hkey with ⟨ix'', o', h', hok, _⟩ | ⟨_, code, hcode⟩
    · rw [hok] at hrun
      exact absurd hrun (by simp)
    · rw [hcode] at hrun
      exact (EStateM.Result.error.inj hrun).2.symm
  · rw [delete_tooLarge (Nat.not_le.mp hkey)] at hrun
    exact (EStateM.Result.error.inj hrun).2.symm

end Atomic

/-- What an observer of an index sees: its pages, the numbers in use, their count and the length. -/
structure SameIndex (ix ix' : Index) : Prop where
  pages : ix'.nodes.page? = ix.nodes.page?
  live : ∀ id, (ix'.nodes.page? id).isSome ↔ (ix.nodes.page? id).isSome
  liveNodes : ix'.liveNodes = ix.liveNodes
  len : ix'.len = ix.len

theorem SameIndex.refl (ix : Index) : SameIndex ix ix := ⟨rfl, fun _ => Iff.rfl, rfl, rfl⟩

/-- **Updates are atomic** under unreadable records and every outcome of `Alloc`: when `Put` or
`Delete` returns an error, the pages, the pages in use and the length are as before. -/
theorem updates_atomic {ix : Index} {o : Option Tree} (h : Represents ix o)
    {alloc : IndexM UInt64} {records : RecordStore} {key : ByteView} {pos : Position}
    (hf : Failing records (entriesOf o) key pos) (ha : AllocOutcome alloc ix) :
    (∀ fault ix', putWith alloc records key pos ix = .error fault ix' → SameIndex ix ix') ∧
      ∀ fault ix', delete records key ix = .error fault ix' → SameIndex ix ix' := by
  refine ⟨fun fault ix' hrun => ?_, fun fault ix' hrun => ?_⟩
  · rw [putWith_atomic h hf ha hrun]
    exact SameIndex.refl ix
  · rw [delete_atomic h hf.stored hrun]
    exact SameIndex.refl ix

/-- A record store that answers at the even positions only. -/
def evenRecords : RecordStore := fun pos =>
  if pos.toNat % 2 = 0 then numberedRecords pos else err .missingKey

/-- An index of 400 keys, every second of which cannot be read, and a node store without pages. -/
theorem updates_atomic_numberedKeys : ∃ ix o, ∃ h : Represents ix o, toMap h = numberedKeys 400 ∧
    (∀ fault ix', putWith (throw (.status .nilNodeStore)) evenRecords (numberedKey 500) 500 ix
      = .error fault ix' → SameIndex ix ix') ∧
    ∀ fault ix', delete evenRecords (numberedKey 500) ix = .error fault ix' → SameIndex ix ix' := by
  obtain ⟨ix, hreach, _⟩ := exists_reachable_numberedKeys (show 400 < 2 ^ 62 by decide)
  obtain ⟨o, h, hmap⟩ := hreach.represents
  refine ⟨ix, o, h, hmap, updates_atomic h ⟨fun e he => ?_, Or.inl rfl⟩ (Or.inr ⟨_, rfl⟩)⟩
  have hmem : e ∈ (toMap h).entries := he
  rw [hmap] at hmem
  have hknown := knowsAll_numberedKeys (show 400 ≤ 2 ^ 63 by decide) e hmem
  by_cases heven : e.2.toNat % 2 = 0
  · left
    rw [evenRecords, if_pos heven, hknown]
  · right
    exact ⟨.missingKey, if_neg heven⟩

end MinweightStore.Minpatricia
