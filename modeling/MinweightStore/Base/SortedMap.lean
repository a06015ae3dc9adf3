import Mathlib.Order.Basic
import Mathlib.Data.List.Sort
import Mathlib.Tactic

/-!
# Sorted maps: the abstract ordered map

A finite map over a linearly ordered key type, kept as the list of its entries in strictly
increasing key order.  The order is a field, so an unsorted map cannot be built.

* `get?`, `insert`, `erase`, `size` with their membership laws;
* `SortedMap.ext_mem` — two maps with the same entries (as a set) are equal: the list is
  determined by the map, which is what lets a tree be compared with a map entry by entry.
-/

namespace MinweightStore

/-- A finite map with its entries in strictly increasing key order. -/
structure SortedMap (K V : Type*) [LinearOrder K] where
  entries : List (K × V)
  sorted : entries.Pairwise (fun a b => a.1 < b.1)

namespace SortedMap

variable {K V : Type*} [LinearOrder K]

/-! ### Uniqueness of the sorted list -/

theorem entries_nodup (m : SortedMap K V) : m.entries.Nodup :=
  m.sorted.imp (fun {a b} hab => by rintro rfl; exact lt_irrefl _ hab)

/-- Strictly sorted lists with the same members are equal. -/
theorem eq_of_sorted_of_mem {l₁ l₂ : List (K × V)}
    (h₁ : l₁.Pairwise (fun a b => a.1 < b.1)) (h₂ : l₂.Pairwise (fun a b => a.1 < b.1))
    (h : ∀ x, x ∈ l₁ ↔ x ∈ l₂) : l₁ = l₂ := by
  have hn₁ : l₁.Nodup := h₁.imp (fun {a b} hab => by rintro rfl; exact lt_irrefl _ hab)
  have hn₂ : l₂.Nodup := h₂.imp (fun {a b} hab => by rintro rfl; exact lt_irrefl _ hab)
  have hperm : l₁.Perm l₂ := (List.perm_ext_iff_of_nodup hn₁ hn₂).2 h
  refine hperm.eq_of_pairwise ?_ h₁ h₂
  intro a b _ _ hab hba
  exact absurd (lt_trans hab hba) (lt_irrefl _)

/-- **A sorted map is determined by its entries.** -/
theorem ext_mem {m m' : SortedMap K V} (h : ∀ x, x ∈ m.entries ↔ x ∈ m'.entries) : m = m' := by
  have he := eq_of_sorted_of_mem m.sorted m'.sorted h
  cases m
  cases m'
  simp only at he
  subst he
  rfl

theorem ext_entries {m m' : SortedMap K V} (h : m.entries = m'.entries) : m = m' :=
  ext_mem (fun x => by rw [h])

/-- A key occurs with one value only. -/
theorem mem_entries_unique (m : SortedMap K V) {k : K} {v w : V}
    (hv : (k, v) ∈ m.entries) (hw : (k, w) ∈ m.entries) : v = w := by
  obtain ⟨l, hs⟩ := m
  induction l with
  | nil => exact absurd hv List.not_mem_nil
  | cons x xs ih =>
    have hx := (List.pairwise_cons.mp hs).1
    rcases List.mem_cons.mp hv with rfl | hv' <;> rcases List.mem_cons.mp hw with hw' | hw'
    · exact (congrArg Prod.snd hw').symm
    · exact absurd (hx _ hw') (lt_irrefl _)
    · subst hw'; exact absurd (hx _ hv') (lt_irrefl _)
    · exact ih (List.pairwise_cons.mp hs).2 hv' hw'

/-! ### The operations -/

/-- The map with no entries. -/
def empty : SortedMap K V := ⟨[], List.Pairwise.nil⟩

/-- The number of keys. -/
def size (m : SortedMap K V) : ℕ := m.entries.length

/-- The value stored under a key. -/
def get? (m : SortedMap K V) (k : K) : Option V :=
  (m.entries.find? (fun e => e.1 = k)).map Prod.snd

theorem mem_entries_iff (m : SortedMap K V) (k : K) (v : V) :
    (k, v) ∈ m.entries ↔ m.get? k = some v := by
  constructor
  · intro h
    have hsome : (m.entries.find? (fun e => e.1 = k)).isSome := by
      rw [List.find?_isSome]
      exact ⟨_, h, by simp⟩
    obtain ⟨⟨k', v'⟩, hf⟩ := Option.isSome_iff_exists.mp hsome
    have hk : k' = k := by simpa using List.find?_some hf
    subst hk
    have hv := mem_entries_unique m h (List.mem_of_find?_eq_some hf)
    rw [get?, hf, hv]
    rfl
  · intro h
    rw [get?, Option.map_eq_some_iff] at h
    obtain ⟨⟨k', v'⟩, hf, rfl⟩ := h
    have hk : k' = k := by simpa using List.find?_some hf
    exact hk ▸ List.mem_of_find?_eq_some hf

theorem get?_eq_none_iff (m : SortedMap K V) (k : K) :
    m.get? k = none ↔ ∀ v, (k, v) ∉ m.entries := by
  constructor
  · intro h v hv
    rw [mem_entries_iff, h] at hv
    exact absurd hv (by simp)
  · intro h
    cases hg : m.get? k with
    | none => rfl
    | some v => exact absurd ((mem_entries_iff m k v).mpr hg) (h v)

theorem get?_empty (k : K) : (empty : SortedMap K V).get? k = none := rfl

/-- Put an entry at its sorted place, replacing the entry of an equal key. -/
def insertEntries (k : K) (v : V) : List (K × V) → List (K × V)
  | [] => [(k, v)]
  | x :: xs =>
    if k < x.1 then (k, v) :: x :: xs
    else if k = x.1 then (k, v) :: xs
    else x :: insertEntries k v xs

theorem mem_insertEntries (k : K) (v : V) (l : List (K × V))
    (hs : l.Pairwise (fun a b => a.1 < b.1)) (x : K × V) :
    x ∈ insertEntries k v l ↔ x = (k, v) ∨ (x ∈ l ∧ x.1 ≠ k) := by
  induction l with
  | nil => simp [insertEntries]
  | cons y ys ih =>
    have hy := (List.pairwise_cons.mp hs).1
    have ih' := ih (List.pairwise_cons.mp hs).2
    simp only [insertEntries]
    split
    · rename_i hlt
      simp only [List.mem_cons]
      have : ∀ z, z = y ∨ z ∈ ys → z.1 ≠ k := by
        rintro z (rfl | hz)
        · exact ne_of_gt hlt
        · exact ne_of_gt (lt_trans hlt (hy z hz))
      grind
    · split
      · rename_i _ heq
        have : ∀ z ∈ ys, z.1 ≠ k := fun z hz => by rw [heq]; exact ne_of_gt (hy z hz)
        simp only [List.mem_cons]
        grind
      · rename_i _ hne
        simp only [List.mem_cons, ih']
        grind

theorem insertEntries_sorted (k : K) (v : V) (l : List (K × V))
    (hs : l.Pairwise (fun a b => a.1 < b.1)) :
    (insertEntries k v l).Pairwise (fun a b => a.1 < b.1) := by
  induction l with
  | nil => simp [insertEntries]
  | cons y ys ih =>
    obtain ⟨hy, hys⟩ := List.pairwise_cons.mp hs
    simp only [insertEntries]
    split
    · rename_i hlt
      refine List.pairwise_cons.mpr ⟨?_, hs⟩
      intro z hz
      rcases List.mem_cons.mp hz with rfl | hz
      · exact hlt
      · exact lt_trans hlt (hy z hz)
    · split
      · rename_i _ heq
        exact List.pairwise_cons.mpr ⟨fun z hz => by rw [heq]; exact hy z hz, hys⟩
      · rename_i hnlt hne
        refine List.pairwise_cons.mpr ⟨?_, ih hys⟩
        intro z hz
        rcases (mem_insertEntries k v ys hys z).mp hz with rfl | ⟨hz, _⟩
        · exact lt_of_le_of_ne (not_lt.mp hnlt) (fun h => hne h.symm)
        · exact hy z hz

/-- The map with `k` bound to `v`. -/
def insert (m : SortedMap K V) (k : K) (v : V) : SortedMap K V :=
  ⟨insertEntries k v m.entries, insertEntries_sorted k v m.entries m.sorted⟩

/-- The map without `k`. -/
def erase (m : SortedMap K V) (k : K) : SortedMap K V :=
  ⟨m.entries.filter (fun e => e.1 ≠ k), m.sorted.filter _⟩

/-- The map with every value changed. -/
def mapValues {W : Type*} (f : K → V → W) (m : SortedMap K V) : SortedMap K W :=
  ⟨m.entries.map fun e => (e.1, f e.1 e.2), m.sorted.map _ (fun _ _ h => h)⟩

theorem mem_insert (m : SortedMap K V) (k : K) (v : V) (x : K × V) :
    x ∈ (m.insert k v).entries ↔ x = (k, v) ∨ (x ∈ m.entries ∧ x.1 ≠ k) :=
  mem_insertEntries k v m.entries m.sorted x

theorem mem_erase (m : SortedMap K V) (k : K) (x : K × V) :
    x ∈ (m.erase k).entries ↔ x ∈ m.entries ∧ x.1 ≠ k := by
  simp [erase]

theorem get?_insert (m : SortedMap K V) (k k' : K) (v : V) :
    (m.insert k v).get? k' = if k' = k then some v else m.get? k' := by
  ext w
  rw [← mem_entries_iff, mem_insert]
  split
  · rename_i h
    subst h
    simp [eq_comm]
  · rename_i h
    rw [← mem_entries_iff]
    simp [h]

theorem get?_erase (m : SortedMap K V) (k k' : K) :
    (m.erase k).get? k' = if k' = k then none else m.get? k' := by
  ext w
  rw [← mem_entries_iff, mem_erase]
  split
  · rename_i h
    simp [h]
  · rename_i h
    rw [← mem_entries_iff]
    simp [h]

/-- Around an entry no other has its key. -/
theorem ne_of_entries_eq {m : SortedMap K V} {l r : List (K × V)} {k : K} {v : V}
    (h : m.entries = l ++ [(k, v)] ++ r) : (∀ e ∈ l, e.1 ≠ k) ∧ ∀ e ∈ r, e.1 ≠ k := by
  have hs := m.sorted
  rw [h, List.append_assoc, List.pairwise_append] at hs
  obtain ⟨_, hr, hlr⟩ := hs
  exact ⟨fun e he => ne_of_lt (hlr e he (k, v) (List.mem_append_left _ List.mem_cons_self)),
    fun e he => ne_of_gt ((List.pairwise_cons.mp hr).1 e he)⟩

theorem insert_middle {m : SortedMap K V} {l r : List (K × V)} {k : K} {v w : V}
    (h : m.entries = l ++ [(k, v)] ++ r) : ∀ x, x ∈ l ++ [(k, w)] ++ r ↔
      x = (k, w) ∨ (x ∈ m.entries ∧ x.1 ≠ k) := by
  obtain ⟨hl, hr⟩ := ne_of_entries_eq h
  intro x
  rw [h]
  simp only [List.mem_append, List.mem_singleton]
  constructor
  · rintro ((hx | hx) | hx)
    · exact Or.inr ⟨Or.inl (Or.inl hx), hl x hx⟩
    · exact Or.inl hx
    · exact Or.inr ⟨Or.inr hx, hr x hx⟩
  · rintro (hx | ⟨(hx | hx) | hx, hne⟩)
    · exact Or.inl (Or.inr hx)
    · exact Or.inl (Or.inl hx)
    · exact absurd (by rw [hx]) hne
    · exact Or.inr hx

theorem erase_middle {m : SortedMap K V} {l r : List (K × V)} {k : K} {v : V}
    (h : m.entries = l ++ [(k, v)] ++ r) : (m.erase k).entries = l ++ r := by
  obtain ⟨hl, hr⟩ := ne_of_entries_eq h
  have hkeep : ∀ {xs : List (K × V)}, (∀ e ∈ xs, e.1 ≠ k) → xs.filter (fun e => e.1 ≠ k) = xs :=
    fun hx => List.filter_eq_self.mpr (fun e he => by simpa using hx e he)
  show m.entries.filter (fun e => e.1 ≠ k) = _
  rw [h, List.filter_append, List.filter_append, hkeep hl, hkeep hr]
  simp

theorem length_insertEntries (k : K) (v : V) (l : List (K × V))
    (hs : l.Pairwise (fun a b => a.1 < b.1)) (hk : ∀ e ∈ l, e.1 ≠ k) :
    (insertEntries k v l).length = l.length + 1 := by
  induction l with
  | nil => rfl
  | cons y ys ih =>
    have hy := hk y List.mem_cons_self
    have ih' := ih (List.pairwise_cons.mp hs).2 (fun e he => hk e (List.mem_cons_of_mem _ he))
    simp only [insertEntries]
    split
    · rfl
    · rw [if_neg hy.symm, List.length_cons, ih', List.length_cons]

/-- A new key makes the map larger by one. -/
theorem size_insert_of_none {m : SortedMap K V} {k : K} (v : V) (h : m.get? k = none) :
    (m.insert k v).size = m.size + 1 := by
  refine length_insertEntries k v m.entries m.sorted (fun e he hek => ?_)
  subst hek
  exact (get?_eq_none_iff m e.1).mp h e.2 he

/-- The entries around a present key. -/
theorem exists_middle {m : SortedMap K V} {k : K} {v : V} (h : m.get? k = some v) :
    ∃ l r, m.entries = l ++ [(k, v)] ++ r := by
  obtain ⟨l, r, hlr⟩ := List.append_of_mem ((mem_entries_iff m k v).mpr h)
  exact ⟨l, r, by rw [hlr, List.append_assoc]; rfl⟩

theorem insert_entries_middle {m : SortedMap K V} {l r : List (K × V)} {k : K} {v w : V}
    (h : m.entries = l ++ [(k, v)] ++ r) : (m.insert k w).entries = l ++ [(k, w)] ++ r := by
  obtain ⟨hl, hr⟩ := ne_of_entries_eq h
  have hs : (l ++ [(k, w)] ++ r).Pairwise (fun a b => a.1 < b.1) := by
    have hs := m.sorted
    rw [h] at hs
    simp only [List.append_assoc, List.pairwise_append, List.pairwise_cons, List.singleton_append,
      List.mem_cons] at hs ⊢
    refine ⟨hs.1, hs.2.1, fun a ha b hb => ?_⟩
    rcases hb with rfl | hb
    · exact hs.2.2 a ha (k, v) (Or.inl rfl)
    · exact hs.2.2 a ha b (Or.inr hb)
  have : m.insert k w = ⟨l ++ [(k, w)] ++ r, hs⟩ := by
    refine ext_mem (fun x => ?_)
    rw [mem_insert]
    exact (insert_middle h x).symm
  rw [this]

/-- A key behind all others is entered at the end. -/
theorem insert_entries_last {m : SortedMap K V} {k : K} (v : V) (h : ∀ e ∈ m.entries, e.1 < k) :
    (m.insert k v).entries = m.entries ++ [(k, v)] := by
  have hs : (m.entries ++ [(k, v)]).Pairwise (fun a b => a.1 < b.1) := by
    refine List.pairwise_append.mpr ⟨m.sorted, List.pairwise_singleton _ _, fun a ha b hb => ?_⟩
    rw [List.mem_singleton.mp hb]
    exact h a ha
  have : m.insert k v = ⟨m.entries ++ [(k, v)], hs⟩ := by
    refine ext_mem (fun x => ?_)
    rw [mem_insert, List.mem_append, List.mem_singleton]
    exact ⟨fun hx => hx.elim Or.inr (fun hx => Or.inl hx.1),
      fun hx => hx.elim (fun hx => Or.inr ⟨hx, ne_of_lt (h x hx)⟩) Or.inl⟩
  rw [this]

/-- Rebinding a present key keeps the size. -/
theorem size_insert_of_some {m : SortedMap K V} {k : K} {v : V} (w : V) (h : m.get? k = some v) :
    (m.insert k w).size = m.size := by
  obtain ⟨l, r, hlr⟩ := exists_middle h
  rw [size, size, insert_entries_middle hlr, hlr]
  simp

theorem size_insert_le (m : SortedMap K V) (k : K) (v : V) : (m.insert k v).size ≤ m.size + 1 := by
  cases h : m.get? k with
  | none => exact le_of_eq (size_insert_of_none v h)
  | some w => exact le_trans (le_of_eq (size_insert_of_some v h)) (Nat.le_succ _)

theorem size_erase_of_some {m : SortedMap K V} {k : K} {v : V} (h : m.get? k = some v) :
    (m.erase k).size + 1 = m.size := by
  obtain ⟨l, r, hlr⟩ := exists_middle h
  rw [size, size, erase_middle hlr, hlr]
  simp only [List.length_append, List.length_singleton]
  omega

/-- Binding a key to the value it already has changes nothing. -/
theorem insert_eq_self {m : SortedMap K V} {k : K} {v : V} (h : m.get? k = some v) :
    m.insert k v = m := by
  refine ext_mem (fun x => ?_)
  rw [mem_insert]
  have hmem := (mem_entries_iff m k v).mpr h
  constructor
  · rintro (rfl | ⟨hx, _⟩)
    · exact hmem
    · exact hx
  · intro hx
    by_cases hk : x.1 = k
    · left
      obtain ⟨a, b⟩ := x
      simp only at hk
      subst hk
      rw [mem_entries_unique m hx hmem]
    · exact Or.inr ⟨hx, hk⟩

theorem erase_eq_self {m : SortedMap K V} {k : K} (h : m.get? k = none) : m.erase k = m := by
  refine ext_mem (fun x => ?_)
  rw [mem_erase]
  refine ⟨fun hx => hx.1, fun hx => ⟨hx, ?_⟩⟩
  rintro rfl
  exact (get?_eq_none_iff m x.1).mp h x.2 hx

/-- **A sorted map is determined by its lookups.** -/
theorem ext_get? {m m' : SortedMap K V} (h : ∀ k, m.get? k = m'.get? k) : m = m' := by
  refine ext_mem (fun x => ?_)
  rw [mem_entries_iff m x.1 x.2, mem_entries_iff m' x.1 x.2, h]

theorem insert_insert (m : SortedMap K V) (k : K) (v w : V) :
    (m.insert k v).insert k w = m.insert k w := by
  refine ext_get? (fun k' => ?_)
  rw [get?_insert, get?_insert, get?_insert]
  split <;> rfl

/-- What has been erased is put back. -/
theorem insert_erase {m : SortedMap K V} {k : K} {v : V} (h : m.get? k = some v) :
    (m.erase k).insert k v = m := by
  refine ext_get? (fun k' => ?_)
  rw [get?_insert, get?_erase]
  split
  · rename_i hk
    rw [hk, h]
  · rfl

theorem erase_insert (m : SortedMap K V) (k : K) (v : V) : (m.insert k v).erase k = m.erase k := by
  refine ext_get? (fun k' => ?_)
  rw [get?_erase, get?_erase, get?_insert]
  split <;> rfl

theorem get?_mapValues {W : Type*} (f : K → V → W) (m : SortedMap K V) (k : K) :
    (m.mapValues f).get? k = (m.get? k).map (f k) := by
  ext w
  rw [← mem_entries_iff, Option.map_eq_some_iff]
  simp only [mapValues, List.mem_map]
  constructor
  · rintro ⟨e, he, heq⟩
    obtain ⟨rfl, rfl⟩ := Prod.mk.inj heq
    exact ⟨e.2, (mem_entries_iff m e.1 e.2).mp he, rfl⟩
  · rintro ⟨v, hv, rfl⟩
    exact ⟨(k, v), (mem_entries_iff m k v).mpr hv, rfl⟩

/-- The map without some keys. -/
def eraseAll (m : SortedMap K V) (ks : List K) : SortedMap K V := ks.foldl erase m

theorem eraseAll_cons (m : SortedMap K V) (k : K) (ks : List K) :
    m.eraseAll (k :: ks) = (m.erase k).eraseAll ks := rfl

theorem entries_eraseAll : ∀ (ks : List K) (m : SortedMap K V),
    (m.eraseAll ks).entries = m.entries.filter (fun e => e.1 ∉ ks)
  | [], m => by simp [eraseAll]
  | k :: ks, m => by
    rw [eraseAll_cons, entries_eraseAll ks, erase, List.filter_filter]
    refine List.filter_congr (fun e _ => ?_)
    simp only [List.mem_cons, not_or, Bool.decide_and, decide_not]
    exact Bool.and_comm _ _

theorem get?_eraseAll (m : SortedMap K V) (ks : List K) (k : K) :
    (m.eraseAll ks).get? k = if k ∈ ks then none else m.get? k := by
  ext v
  rw [← mem_entries_iff, entries_eraseAll, List.mem_filter, mem_entries_iff]
  split
  · rename_i h
    simp [h]
  · rename_i h
    simp [h]

/-- A map whose keys are small numbers is small. -/
theorem size_le_of_keys_lt {V : Type*} {m : SortedMap ℕ V} {n : ℕ}
    (h : ∀ e ∈ m.entries, e.1 < n) : m.size ≤ n := by
  have hsub : m.entries.map Prod.fst ⊆ List.range n := by
    intro k hk
    obtain ⟨e, he, rfl⟩ := List.mem_map.mp hk
    exact List.mem_range.mpr (h e he)
  have hnd : (m.entries.map Prod.fst).Nodup :=
    (List.pairwise_map.mpr m.sorted).imp (fun hab => ne_of_lt hab)
  have hle := (List.subperm_of_subset hnd hsub).length_le
  rwa [List.length_map, List.length_range] at hle

end SortedMap

end MinweightStore
