import MinweightStore.Base.PagedTreeOps
import MinweightStore.Base.SortedMap

/-!
# The Patricia tree of a sorted list

A strictly increasing list of entries has one Patricia tree without page boundaries.

* `exists_valid_of_sorted` — the tree, grown key by key;
* `sortedSlot_unique` — a new key has one place in a sorted list.
-/

namespace MinweightStore

open BitKey

namespace PagedTree

variable {K V I : Type} [LinearOrder K] [BitKey K]

/-- Without page boundaries every item is a leaf. -/
theorem slotCtx_leaf {t : PagedTree K V I} (h : t.ids = []) (q : K) :
    (t.slotCtx q).2 = leaf (t.find q).1 (t.find q).2 := by
  induction t with
  | leaf k v => rfl
  | page i t ih => exact absurd h (List.cons_ne_nil _ _)
  | node d l r ihl ihr =>
    obtain ⟨hl, hr⟩ := List.append_eq_nil_iff.mp h
    simp only [slotCtx, find]
    split
    · exact ihr hr
    · exact ihl hl

/-- A new key in a single page. -/
theorem Valid.insert_leaf {t : PagedTree K V I} (h : t.Valid) (hids : t.ids = []) {q : K} {v : V}
    {δ : ℕ} (hnear : Near q δ t) :
    (PagedTree.insertPage q δ (leaf q v) t).Valid ∧
      (PagedTree.insertPage q δ (leaf q v) t).ids = [] := by
  refine ⟨h.insertPage trivial ?_ hnear (Or.inr ⟨_, _, slotCtx_leaf hids q⟩), ?_⟩
  · intro e he
    rw [List.mem_singleton.mp he]
  · rw [ids_insertPage, hids]

/-- **Every sorted list is the list of entries of a tree without page boundaries.** -/
theorem exists_valid_of_sorted (l : List (K × V)) (hne : l ≠ [])
    (hs : l.Pairwise (fun a b => a.1 < b.1)) :
    ∃ t : PagedTree K V I, t.Valid ∧ t.ids = [] ∧ t.entries = l := by
  induction l using List.reverseRecOn with
  | nil => exact absurd rfl hne
  | append_singleton l e ih =>
    by_cases hl : l = []
    · subst hl
      exact ⟨leaf e.1 e.2, trivial, rfl, rfl⟩
    · obtain ⟨hsl, _, hlt⟩ := List.pairwise_append.mp hs
      obtain ⟨t, hv, hids, hent⟩ := ih hl hsl
      have hfind : (t.find e.1).1 < e.1 :=
        hlt _ (hent ▸ find_mem e.1 t) e (List.mem_singleton_self e)
      obtain ⟨δ, hagree, hbit⟩ := exists_firstDiff (ne_of_gt hfind)
      obtain ⟨hv', hids'⟩ := hv.insert_leaf hids (v := e.2) ⟨hagree, hbit⟩
      refine ⟨_, hv', hids', SortedMap.eq_of_sorted_of_mem hv'.sorted hs (fun x => ?_)⟩
      rw [mem_entries_insertPage, hent, List.mem_append, or_comm]
      exact Iff.rfl

omit [BitKey K] in
/-- **A new key has one place in a sorted list.** -/
theorem sortedSlot_unique {l : List K} {q : K} {s : ℕ} (hs : s ≤ l.length)
    (hlt : ∀ k ∈ l.take s, k < q) (hgt : ∀ k ∈ l.drop s, q < k) :
    s = (l.filter (· < q)).length := by
  have h1 : (l.take s).filter (· < q) = l.take s :=
    List.filter_eq_self.mpr (fun k hk => by simpa using hlt k hk)
  have h2 : (l.drop s).filter (· < q) = [] :=
    List.filter_eq_nil_iff.mpr (fun k hk => by simpa using (hgt k hk).le)
  rw [← List.take_append_drop s l, List.filter_append, h1, h2, List.append_nil,
    List.length_take, Nat.min_eq_left hs]

end PagedTree

end MinweightStore
