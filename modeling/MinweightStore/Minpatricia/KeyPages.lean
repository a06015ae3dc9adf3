import MinweightStore.Base.PatriciaOfList
import MinweightStore.Minpatricia.PageWrites

/-!
# Pages of a list of keys

A page whose routes are what `BuildCartesian` and `WritePreorderRoutes` write for the diffs of
neighbouring keys, with no index around it.

* `routesOfKeys` — the routes computed from the keys alone, `PageOfKeys` — a page that has them;
* `routesOfKeys_eq` — they are the packed preorder of the Patricia tree of the keys;
* `lookup_best_match` — a lookup ends at a key that shares the longest prefix;
* `insertRoute_eq_rebuild`, `deleteRoute_eq_rebuild` — the packed updates leave what a rebuild from
  the keys writes.
-/

namespace MinweightStore.Minpatricia

open BitKey PagedTree

/-! ### Routes from keys -/

/-- The first differing bits of neighbouring keys. -/
def adjacentDiffs : List ByteView → Result (List ℕ)
  | left :: right :: keys => do
    let diff ← findDiffBit left right
    let diffs ← adjacentDiffs (right :: keys)
    .ok (diff :: diffs)
  | _ => .ok []

/-- `BuildCartesian` and `WritePreorderRoutes` one after the other, where there are diffs. -/
def preorderRoutes (diffs : List ℕ) : Result (List Route) :=
  if diffs = [] then .ok []
  else do
    let cartesian ← buildCartesian diffs
    writePreorderRoutes diffs cartesian (diffs.length + 1)

/-- The routes of a page with these keys, written from scratch. -/
def routesOfKeys (keys : List ByteView) : Result (List Route) := do
  let diffs ← adjacentDiffs keys
  preorderRoutes diffs

/-- A page of as many reps as there are keys, with their routes; what stands behind the routes is
left open. -/
structure PageOfKeys (page : NodePage) (keys : List ByteView) : Prop where
  size_eq : page.size = keys.length
  routes_eq : routesOfKeys keys = .ok (page.routes.toList.take (keys.length - 1))

/-- Keys a page can be about: in strictly increasing order and of an admitted size. -/
structure PageKeys (keys : List ByteView) : Prop where
  sorted : keys.Pairwise (· < ·)
  sized : ∀ k ∈ keys, k.length ≤ kMaxKeySize

/-- The tree behind a list of keys, all at position zero. -/
structure TreeOfKeys (t : Tree) (keys : List ByteView) : Prop where
  valid : t.Valid
  ids_nil : t.ids = []
  entries_eq : t.entries = keys.map fun k => (k, 0)

section Tree

variable {keys : List ByteView} {t : Tree}

theorem exists_treeOfKeys (h : PageKeys keys) (hne : keys ≠ []) : ∃ t, TreeOfKeys t keys := by
  obtain ⟨t, hv, hids, hent⟩ := exists_valid_of_sorted (I := UInt64)
    (keys.map fun k => (k, (0 : Position))) (by simpa using hne)
    (List.pairwise_map.mpr h.sorted)
  exact ⟨t, hv, hids, hent⟩

theorem TreeOfKeys.width_eq (h : TreeOfKeys t keys) : t.width = keys.length := by
  rw [width_of_ids_nil h.ids_nil, h.entries_eq, List.length_map]

theorem TreeOfKeys.items_eq (h : TreeOfKeys t keys) :
    t.items = keys.map fun k => (.leaf k 0 : Tree) := by
  rw [items_of_ids_nil h.ids_nil, h.entries_eq, List.map_map]
  rfl

theorem TreeOfKeys.mem (h : TreeOfKeys t keys) {k : ByteView} (hk : k ∈ keys) :
    (k, 0) ∈ t.entries := by
  rw [h.entries_eq]
  exact List.mem_map_of_mem hk

theorem TreeOfKeys.key_mem (h : TreeOfKeys t keys) {e : ByteView × Position}
    (he : e ∈ t.entries) : e.1 ∈ keys := by
  rw [h.entries_eq] at he
  obtain ⟨k, hk, rfl⟩ := List.mem_map.mp he
  exact hk

theorem TreeOfKeys.smallDiffs (h : TreeOfKeys t keys) (hk : PageKeys keys) : SmallDiffs t := by
  intro d hd
  obtain ⟨a, ha, b, hb, hab⟩ := h.valid.exists_of_mem_diffs hd
  exact diffAt_lt (hk.sized _ (h.key_mem ha)) (hk.sized _ (h.key_mem hb)) hab

/-- The diffs read from neighbouring keys are the branch positions between them. -/
theorem adjacentDiffs_eq {l : List Tree} {ds : List ℕ} (h : Adjacent l ds) :
    ∀ {keys : List ByteView}, l = keys.map (fun k => .leaf k 0) →
      (∀ k ∈ keys, k.length ≤ kMaxKeySize) → adjacentDiffs keys = .ok ds := by
  induction h with
  | single x =>
    intro keys hl _
    match keys, hl with
    | [_], _ => rfl
  | cons hd hrest ih =>
    intro keys hl hs
    match keys, hl with
    | a :: b :: keys, hl =>
      obtain ⟨rfl, hl'⟩ := List.cons.inj hl
      have hsize := fun k hk => hs k (List.mem_cons_of_mem a hk)
      obtain ⟨rfl, _⟩ := List.cons.inj hl'
      have hlt : a < b := hd.lt
      have hfirst : firstDiff a b = _ := (diffAt_firstDiff hlt).unique hd
      rw [adjacentDiffs, findDiffBit_eq (hs a List.mem_cons_self)
        (hsize b List.mem_cons_self) (ne_of_lt hlt), ih hl' hsize, hfirst]
      rfl

/-- The routes written for the branch positions of a tree are its packed preorder. -/
theorem preorderRoutes_eq (hv : t.Valid) (hn : t.width ≤ kMaxNodeReps) :
    preorderRoutes t.diffs = .ok (routesOf t) := by
  have hlen := length_diffs t
  have hpre := length_preorder t
  rw [preorderRoutes]
  by_cases hd : t.diffs = []
  · have hnil : t.preorder = [] := by
      rw [hd, List.length_nil] at hlen
      exact List.length_eq_zero_iff.mp (by omega)
    rw [if_pos hd, routesOf, hnil]
    rfl
  · have hpos := List.length_pos_of_ne_nil hd
    obtain ⟨root, hroot⟩ := exists_rootAt (t := t) (by omega) 0
    rw [if_neg hd, buildCartesian_eq (heapOrdered_of_valid hv).cartesian hroot, hlen]
    exact writePreorderRoutes_eq (lt_of_le_of_lt hn (by decide)) hroot

/-- **The routes computed from the keys are the packed preorder of their tree.** -/
theorem routesOfKeys_eq (h : TreeOfKeys t keys) (hk : PageKeys keys)
    (hn : keys.length ≤ kMaxNodeReps) : routesOfKeys keys = .ok (routesOf t) := by
  rw [routesOfKeys, adjacentDiffs_eq h.valid.adjacent h.items_eq hk.sized]
  exact preorderRoutes_eq h.valid (h.width_eq ▸ hn)

/-- The diffs of neighbouring keys, place by place. -/
theorem adjacentDiffs_get : ∀ {keys : List ByteView}, PageKeys keys →
    ∃ ds, adjacentDiffs keys = .ok ds ∧ ds.length = keys.length - 1 ∧ ∀ i a b,
      keys[i]? = some a → keys[i + 1]? = some b → ds[i]? = some (firstDiff a b)
  | [], _ => ⟨[], rfl, rfl, fun i a b ha _ => absurd ha (by simp)⟩
  | [k], _ => ⟨[], rfl, rfl, fun i a b _ hb => absurd hb (by simp)⟩
  | a :: b :: keys, h => by
    obtain ⟨ha, hsorted⟩ := List.pairwise_cons.mp h.sorted
    have hlt : a < b := ha b List.mem_cons_self
    obtain ⟨ds, hds, hlen, hget⟩ := adjacentDiffs_get
      (show PageKeys (b :: keys) from
        ⟨hsorted, fun k hk => h.sized k (List.mem_cons_of_mem a hk)⟩)
    refine ⟨firstDiff a b :: ds, ?_, congrArg (· + 1) hlen, fun i x y hx hy => ?_⟩
    · rw [adjacentDiffs, findDiffBit_eq (h.sized a List.mem_cons_self)
        (h.sized b (List.mem_cons_of_mem a List.mem_cons_self)) (ne_of_lt hlt), hds]
      rfl
    · cases i with
      | zero =>
        obtain rfl := Option.some.inj hx
        obtain rfl := Option.some.inj hy
        rfl
      | succ i => exact hget i x y hx hy

/-- A page of keys routes as their tree. -/
theorem PageOfKeys.routed {page : NodePage} (hp : PageOfKeys page keys) (h : TreeOfKeys t keys)
    (hk : PageKeys keys) (hn : keys.length ≤ kMaxNodeReps) : Routed page t := by
  have hw := h.width_eq
  have hroutes : page.routes.toList.take (keys.length - 1) = routesOf t := by
    have := hp.routes_eq
    rw [routesOfKeys_eq h hk hn] at this
    exact (Except.ok.inj this).symm
  refine ⟨hp.size_eq.trans hw.symm, ⟨by rw [hp.size_eq, hw]; omega, fun j p hj => ?_⟩,
    hw ▸ hn, h.smallDiffs hk⟩
  have hlen := length_preorder t
  have hjlt : j < t.preorder.length := (List.getElem?_eq_some_iff.mp hj).1
  have hget : page.routes.toList[j]? = some (packRoute p) := by
    rw [← List.getElem?_take_of_lt (show j < keys.length - 1 by omega), hroutes, routesOf,
      List.getElem?_map, hj]
    rfl
  rw [Vector.getElem?_toList] at hget
  rw [NodePage.routeAt, Nat.zero_add, hget]

/-- The leaf a key is routed to, as a key of the list. -/
theorem TreeOfKeys.get_slot (h : TreeOfKeys t keys) (q : ByteView) :
    keys[(t.slotCtx q).1.slot]? = some (t.find q).1 := by
  have hslot := items_slot (c := (t.slotCtx q).1) (isItem_slotCtx q t)
  rw [fill_slotCtx, slotCtx_leaf h.ids_nil, h.items_eq, List.getElem?_map,
    Option.map_eq_some_iff] at hslot
  obtain ⟨k, hget, hleaf⟩ := hslot
  rw [hget, (PagedTree.leaf.inj hleaf).1]

end Tree

/-! ### The words behind the routes -/

section Tail

variable {p q : NodePage} {n : ℕ} {as : List ℕ}

/-- Two tables agree on their first `n` words. -/
def AgreeTo (n : ℕ) (a b : Vector Route (kMaxNodeReps - 1)) : Prop := ∀ i < n, a[i]? = b[i]?

theorem AgreeTo.set {a b : Vector Route (kMaxNodeReps - 1)} (h : AgreeTo n a b) (j : ℕ)
    (x : Route) : AgreeTo n (a.setIfInBounds j x) (b.setIfInBounds j x) := by
  intro i hi
  rw [Vector.getElem?_setIfInBounds, Vector.getElem?_setIfInBounds, h i hi]

/-- A change of left counts, the one thing both updates end with. -/
theorem AgreeTo.foldl {a b : Vector Route (kMaxNodeReps - 1)} (h : AgreeTo n a b)
    (g : Route → Route) (hlt : ∀ x ∈ as, x < n) :
    AgreeTo n (as.foldl (fun rs x => rs.setIfInBounds x (g (rs[x]?.getD Route.zero))) a)
      (as.foldl (fun rs x => rs.setIfInBounds x (g (rs[x]?.getD Route.zero))) b) := by
  induction as generalizing a b with
  | nil => exact h
  | cons x xs ih =>
    rw [List.foldl_cons, List.foldl_cons, h x (hlt x List.mem_cons_self)]
    exact ih (h.set x _) (fun y hy => hlt y (List.mem_cons_of_mem x hy))

/-- A change of left counts keeps all other words. -/
theorem foldl_counts_keep (g : Route → Route) (a : Vector Route (kMaxNodeReps - 1)) {i : ℕ}
    (hi : i ∉ as) :
    (as.foldl (fun rs x => rs.setIfInBounds x (g (rs[x]?.getD Route.zero))) a)[i]? = a[i]? := by
  induction as generalizing a with
  | nil => rfl
  | cons x xs ih =>
    rw [List.foldl_cons, ih _ (fun h => hi (List.mem_cons_of_mem x h)),
      Vector.getElem?_setIfInBounds, if_neg (by rintro rfl; exact hi List.mem_cons_self)]

theorem shiftUp_get {a : Vector Route (kMaxNodeReps - 1)} {lo hi i : ℕ}
    (h : i < kMaxNodeReps - 1) :
    (shiftUp a lo hi)[i]? = if lo < i ∧ i ≤ hi then a[i - 1]? else a[i]? := by
  rw [Vector.getElem?_eq_getElem h, shiftUp, Vector.getElem_ofFn]
  split
  · rw [Vector.getElem?_eq_getElem (by omega)]
  · rw [Vector.getElem?_eq_getElem h]
    rfl

theorem shiftDown_get {a : Vector Route (kMaxNodeReps - 1)} {lo hi i : ℕ}
    (h : i + 1 < kMaxNodeReps - 1) :
    (shiftDown a lo hi)[i]? = if lo ≤ i ∧ i < hi then a[i + 1]? else a[i]? := by
  rw [Vector.getElem?_eq_getElem (by omega), shiftDown, Vector.getElem_ofFn]
  split
  · rw [Vector.getElem?_eq_getElem h]
    rfl
  · rw [Vector.getElem?_eq_getElem (by omega)]
    rfl

/-- The routes after an insertion depend on the routes before it alone. -/
theorem insertRouteAt_agree {r d c : ℕ} (hsize : p.size = q.size) (h1 : 1 ≤ p.size)
    (hroom : p.size < kMaxNodeReps) (h : AgreeTo (p.size - 1) p.routes q.routes)
    (hpos : r ≤ p.size - 1) (hlt : ∀ x ∈ as, x < r) :
    AgreeTo p.size (p.insertRouteAt r d c as).routes (q.insertRouteAt r d c as).routes := by
  refine AgreeTo.foldl ?_ _ (fun x hx => by have := hlt x hx; omega)
  intro i hi
  rw [Vector.getElem?_setIfInBounds, Vector.getElem?_setIfInBounds, hsize]
  by_cases hpi : r = i
  · rw [if_pos hpi, if_pos hpi]
  · rw [if_neg hpi, if_neg hpi, shiftUp_get (by omega), shiftUp_get (by omega)]
    split
    · exact h (i - 1) (by omega)
    · exact h i (by omega)

/-- The routes after a removal depend on the routes before it alone. -/
theorem deleteRouteAt_agree {r : ℕ} (hsize : p.size = q.size) (h2 : 2 ≤ p.size)
    (hfit : p.size ≤ kMaxNodeReps) (h : AgreeTo (p.size - 1) p.routes q.routes)
    (hpos : r < p.size - 1) (hlt : ∀ x ∈ as, x < r) :
    AgreeTo (p.size - 1) (p.deleteRouteAt r as).routes (q.deleteRouteAt r as).routes := by
  refine AgreeTo.foldl ?_ _ (fun x hx => by have := hlt x hx; omega)
  intro i hi
  rw [Vector.getElem?_setIfInBounds, Vector.getElem?_setIfInBounds, hsize]
  by_cases hpi : q.size - 2 = i
  · rw [if_pos hpi, if_pos hpi]
  · rw [if_neg hpi, if_neg hpi, shiftDown_get (by omega), shiftDown_get (by omega)]
    split
    · exact h (i + 1) (by omega)
    · exact h i hi

/-- A removal leaves the words behind the routes as they are. -/
theorem deleteRouteAt_keep {pos i : ℕ} (h2 : 2 ≤ p.size) (hi : p.size - 1 ≤ i)
    (hpos : pos < p.size - 1) (hlt : ∀ x ∈ as, x < pos) :
    (p.deleteRouteAt pos as).routes[i]? = p.routes[i]? := by
  rw [NodePage.deleteRouteAt,
    foldl_counts_keep Route.decLeftCount _ (fun hm => by have := hlt i hm; omega),
    Vector.getElem?_setIfInBounds, if_neg (by omega)]
  by_cases hn : i < kMaxNodeReps - 1
  · rw [Vector.getElem?_eq_getElem hn, Vector.getElem?_eq_getElem hn, shiftDown,
      Vector.getElem_ofFn, if_neg (show ¬ (pos ≤ i ∧ i < p.size - 2) by omega)]
    rfl
  · rw [Vector.getElem?_eq_none (by omega), Vector.getElem?_eq_none (by omega)]

end Tail

/-! ### Lookup -/

theorem take_pad {α : Type} {n : ℕ} {zero : α} {l : List α} (h : l.length ≤ n) :
    (pad n zero l).toList.take l.length = l := by
  apply List.ext_getElem?
  intro i
  by_cases hi : i < l.length
  · rw [List.getElem?_take_of_lt hi, Vector.getElem?_toList, pad_get (by omega),
      List.getD_eq_getElem?_getD, List.getElem?_eq_getElem hi]
    rfl
  · rw [List.getElem?_eq_none (by rw [List.length_take]; omega),
      List.getElem?_eq_none (by omega)]

/-- The page of the keys `01` and `02`. -/
def twoKeyPage : NodePage :=
  { NodePage.empty with size := 2, routes := pad _ Route.zero [Route.make 7 1] }

theorem pageKeys_two : PageKeys [[1], [2]] := ⟨by decide, by decide⟩

theorem pageOfKeys_two : PageOfKeys twoKeyPage [[1], [2]] :=
  ⟨rfl, by
    have htake : twoKeyPage.routes.toList.take 1 = [Route.make 7 1] :=
      take_pad (l := [Route.make 7 1]) (by decide)
    show routesOfKeys [[1], [2]] = .ok (twoKeyPage.routes.toList.take 1)
    rw [htake]
    decide⟩

/-- **A page lookup ends at a best match**, and at the key itself when the page has it. -/
theorem lookup_best_match {keys : List ByteView} {page : NodePage} (hk : PageKeys keys)
    (h1 : 1 ≤ keys.length) (hn : keys.length ≤ kMaxNodeReps) (hp : PageOfKeys page keys)
    (q : ByteView) :
    ∃ j k, page.lookup q = .ok (j, true) ∧ keys[j]? = some k ∧
      (∀ k' ∈ keys, ∀ n, (∀ i < n, getDiffBit q i = getDiffBit k' i) →
        ∀ i < n, getDiffBit q i = getDiffBit k i) ∧
      ∀ i, keys[i]? = some q → j = i := by
  obtain ⟨t, ht⟩ := exists_treeOfKeys hk (List.length_pos_iff.mp h1)
  have hslot := ht.get_slot q
  refine ⟨_, _, lookup_eq q (hp.routed ht hk hn), hslot, ?_, ?_⟩
  · intro k' hk' n hagree i hi
    have hbits : ∀ (a b : ByteView) (i : ℕ), getDiffBit a i = getDiffBit b i ↔ bit a i = bit b i := by
      intro a b i
      rw [getDiffBit_eq, getDiffBit_eq, bit_eq, bit_eq]
      cases slotBit a i <;> cases slotBit b i <;> decide
    have hbest := ht.valid.find_best (ht.mem hk') (fun i hi => (hbits q k' i).mp (hagree i hi))
    exact (hbits _ _ i).mpr (hbest i hi)
  · intro i hi
    have hfind := ht.valid.find_of_mem (ht.mem (List.mem_of_getElem? hi))
    rw [hfind] at hslot
    obtain ⟨hj, hgetj⟩ := List.getElem?_eq_some_iff.mp hslot
    obtain ⟨hi', hgeti⟩ := List.getElem?_eq_some_iff.mp hi
    have hnd : keys.Nodup := hk.sorted.imp (fun hab => ne_of_lt hab)
    exact (hnd.getElem_inj_iff).mp (hgetj.trans hgeti.symm)

theorem lookup_best_match_two :
    ∃ j k, twoKeyPage.lookup [2, 0] = .ok (j, true) ∧ ([[1], [2]] : List ByteView)[j]? = some k ∧
      (∀ k' ∈ ([[1], [2]] : List ByteView), ∀ n,
        (∀ i < n, getDiffBit [2, 0] i = getDiffBit k' i) →
        ∀ i < n, getDiffBit [2, 0] i = getDiffBit k i) ∧
      ∀ i, ([[1], [2]] : List ByteView)[i]? = some [2, 0] → j = i :=
  lookup_best_match pageKeys_two (by decide) (by decide) pageOfKeys_two [2, 0]

/-! ### Incremental updates -/

section Update

variable {keys : List ByteView} {page : NodePage} {t : Tree}

/-- The same page with zeros behind its routes. -/
theorem PageOfKeys.hasRoutes (hp : PageOfKeys page keys) (h : TreeOfKeys t keys)
    (hk : PageKeys keys) (hn : keys.length ≤ kMaxNodeReps) :
    HasRoutes { page with routes := routeTable t.preorder } t ∧
      AgreeTo (page.size - 1) page.routes (routeTable t.preorder) := by
  have hr := hp.routed h hk hn
  have hlen := length_preorder t
  refine ⟨⟨hr.size_eq, rfl, hr.width_le, hr.small⟩, fun i hi => ?_⟩
  have hw := hr.size_eq
  have hle := hr.width_le
  have hi' : i < t.preorder.length := by omega
  have hroute := hr.routesAt.2 i _ (List.getElem?_eq_getElem hi')
  rw [Nat.zero_add, NodePage.routeAt, Vector.getElem?_eq_getElem (by omega)] at hroute
  rw [Vector.getElem?_eq_getElem (by omega), routeTable, pad_get (by omega),
    List.getD_eq_getElem?_getD, List.getElem?_map, List.getElem?_eq_getElem hi']
  exact congrArg some (Except.ok.inj hroute)

/-- The routes of a table that starts with a packed preorder. -/
theorem take_of_agree {a : Vector Route (kMaxNodeReps - 1)} {n : ℕ}
    (h : AgreeTo n a (routeTable t.preorder)) (hn : t.preorder.length = n)
    (hfit : n ≤ kMaxNodeReps - 1) : a.toList.take n = routesOf t := by
  apply List.ext_getElem?
  intro i
  by_cases hi : i < n
  · rw [List.getElem?_take_of_lt hi, Vector.getElem?_toList, h i hi, routeTable,
      pad_get (by omega), List.getD_eq_getElem?_getD, routesOf, List.getElem?_map,
      List.getElem?_eq_getElem (by omega)]
    rfl
  · rw [List.getElem?_eq_none (by rw [List.length_take]; omega),
      List.getElem?_eq_none (by rw [routesOf, List.length_map]; omega)]

theorem PageKeys.insert {key : ByteView} {s : ℕ} (hk : PageKeys keys)
    (hkey : key.length ≤ kMaxKeySize) (hlt : ∀ k ∈ keys.take s, k < key)
    (hgt : ∀ k ∈ keys.drop s, key < k) : PageKeys (keys.take s ++ key :: keys.drop s) := by
  refine ⟨List.pairwise_append.mpr ⟨hk.sorted.sublist (List.take_sublist s keys),
    List.pairwise_cons.mpr ⟨hgt, hk.sorted.sublist (List.drop_sublist s keys)⟩, ?_⟩, ?_⟩
  · intro a ha b hb
    rcases List.mem_cons.mp hb with rfl | hb
    · exact hlt a ha
    · exact lt_trans (hlt a ha) (hgt b hb)
  · intro k hm
    rcases List.mem_append.mp hm with h | h
    · exact hk.sized k (List.mem_of_mem_take h)
    · rcases List.mem_cons.mp h with rfl | h
      · exact hkey
      · exact hk.sized k (List.mem_of_mem_drop h)

/-- A new key goes into the tree at its sorted place. -/
theorem TreeOfKeys.insert {key k : ByteView} {s : ℕ} (h : TreeOfKeys t keys)
    (hk : PageKeys (keys.take s ++ key :: keys.drop s)) (hs : s ≤ keys.length)
    (hfind : (t.find key).1 = k) (hne : key ≠ k) :
    TreeOfKeys (insertPage key (firstDiff key k) (.leaf key 0) t)
        (keys.take s ++ key :: keys.drop s) ∧ t.insertSlot key (firstDiff key k) = s := by
  subst hfind
  have hnear : Near key (firstDiff key (t.find key).1) t := near_firstDiff hne
  obtain ⟨hv, hids⟩ := h.valid.insert_leaf h.ids_nil (v := 0) hnear
  have hent : (insertPage key (firstDiff key (t.find key).1) (.leaf key 0) t).entries
      = (keys.take s ++ key :: keys.drop s).map (fun k => (k, 0)) := by
    refine SortedMap.eq_of_sorted_of_mem hv.sorted (List.pairwise_map.mpr hk.sorted) (fun e => ?_)
    rw [mem_entries_insertPage, h.entries_eq]
    simp only [entries, List.map_append, List.map_cons, List.mem_append, List.mem_cons,
      List.not_mem_nil, or_false]
    rw [show keys.map (fun k => (k, (0 : Position)))
        = (keys.take s).map (fun k => (k, 0)) ++ (keys.drop s).map (fun k => (k, 0)) by
      rw [← List.map_append, List.take_append_drop], List.mem_append]
    tauto
  refine ⟨⟨hv, hids, hent⟩, ?_⟩
  have hitems := items_insertPage (q := key) (δ := firstDiff key (t.find key).1)
    (show (.leaf key 0 : Tree).IsItem from trivial) t
  have hle := insertSlot_le key (firstDiff key (t.find key).1) t
  have hw := h.width_eq
  generalize t.insertSlot key (firstDiff key (t.find key).1) = j at *
  rw [items_of_ids_nil hids, hent, h.items_eq] at hitems
  have hkeys : keys.take s ++ key :: keys.drop s = keys.take j ++ key :: keys.drop j := by
    have := congrArg (List.map firstKey) hitems
    simpa [List.map_take, List.map_drop, Function.comp_def, firstKey] using this
  have hsorted := hk.sorted
  have hs' := hsorted
  rw [hkeys] at hs'
  obtain ⟨_, hgt, hlt⟩ := List.pairwise_append.mp hsorted
  obtain ⟨_, hgt', hlt'⟩ := List.pairwise_append.mp hs'
  rw [sortedSlot_unique hs (fun a ha => hlt a ha key List.mem_cons_self)
      (List.pairwise_cons.mp hgt).1,
    sortedSlot_unique (hw ▸ hle) (fun a ha => hlt' a ha key List.mem_cons_self)
      (List.pairwise_cons.mp hgt').1]

/-- **Inserting a route leaves what a rebuild from the keys writes.** -/
theorem insertRoute_eq_rebuild {key : ByteView} {s : ℕ} (hk : PageKeys keys)
    (h1 : 1 ≤ keys.length) (hn : keys.length < kMaxNodeReps) (hp : PageOfKeys page keys)
    (hkey : key.length ≤ kMaxKeySize) (hs : s ≤ keys.length)
    (hlt : ∀ k ∈ keys.take s, k < key) (hgt : ∀ k ∈ keys.drop s, key < k) :
    ∃ leaf k diff page', page.lookup key = .ok (leaf, true) ∧ keys[leaf]? = some k ∧
      findDiffBit key k = .ok diff ∧ page.insertRoute s key diff = .ok page' ∧
      routesOfKeys (keys.take s ++ key :: keys.drop s)
        = .ok (page'.routes.toList.take keys.length) := by
  obtain ⟨t, ht⟩ := exists_treeOfKeys hk (List.length_pos_iff.mp h1)
  have hr := hp.routed ht hk hn.le
  have hw := ht.width_eq
  have hslot := ht.get_slot key
  have hne : key ≠ (t.find key).1 := by
    have hmem := List.mem_of_getElem? hslot
    rw [← List.take_append_drop s keys] at hmem
    exact (List.mem_append.mp hmem).elim (fun h => ne_of_gt (hlt _ h)) (fun h => ne_of_lt (hgt _ h))
  have hk' := hk.insert hkey hlt hgt
  obtain ⟨ht', hins⟩ := ht.insert hk' hs rfl hne
  have hdiff := findDiffBit_eq hkey (hk.sized _ (List.mem_of_getElem? hslot)) hne
  have hrun := insertRoute_run key (δ := firstDiff key (t.find key).1) hr (by omega)
  obtain ⟨hhas, hagree⟩ := hp.hasRoutes ht hk hn.le
  have hfull := insertRoute_eq key (δ := firstDiff key (t.find key).1) (.leaf key 0) hhas
    (by trivial) (by omega)
  rw [insertRoute_run key hhas.routed (by omega)] at hfull
  have hroutes := congrArg NodePage.routes (Except.ok.inj hfull)
  rw [hins] at hrun
  refine ⟨_, _, _, _, lookup_eq key hr, hslot, hdiff, hrun, ?_⟩
  have hlen := length_preorder t
  have hpos := insertPos_le key (δ := firstDiff key (t.find key).1) t
  have hsize := hr.size_eq
  have hag := insertRouteAt_agree (p := page) (q := { page with routes := routeTable t.preorder })
    (r := insertPos key (firstDiff key (t.find key).1) t)
    (d := firstDiff key (t.find key).1)
    (c := insertCount key (firstDiff key (t.find key).1) t) rfl (by omega) (by omega) hagree
    (by omega) (insertAncestors_lt t)
  rw [hroutes] at hag
  have hwn := ht'.width_eq
  have hlen' := length_preorder (insertPage key (firstDiff key (t.find key).1) (.leaf key 0) t)
  have hkl : (keys.take s ++ key :: keys.drop s).length = keys.length + 1 := by
    rw [List.length_append, List.length_cons, List.length_take, List.length_drop]
    omega
  rw [routesOfKeys_eq ht' hk' (by omega), hp.size_eq.symm,
    take_of_agree hag (by omega) (by omega)]

theorem insertRoute_eq_rebuild_two :
    ∃ leaf k diff page', twoKeyPage.lookup [2, 0] = .ok (leaf, true) ∧
      ([[1], [2]] : List ByteView)[leaf]? = some k ∧ findDiffBit [2, 0] k = .ok diff ∧
      twoKeyPage.insertRoute 2 [2, 0] diff = .ok page' ∧
      routesOfKeys [[1], [2], [2, 0]] = .ok (page'.routes.toList.take 2) :=
  insertRoute_eq_rebuild pageKeys_two (by decide) (by decide) pageOfKeys_two (by decide)
    (by decide) (by decide) (by decide)

/-- Dropping a key drops its leaf. -/
theorem TreeOfKeys.erase {c : TreeCtx} {x u : Tree} (h : TreeOfKeys (c.fill x) keys)
    (hx : x.IsItem) (hu : c.remove = some u) : TreeOfKeys u (keys.eraseIdx c.slot) := by
  have hitems : u.items = (c.fill x).items.eraseIdx c.slot := by
    rw [Ctx.items_remove c hu, Ctx.items_fill, items_of_isItem hx, List.append_assoc, Ctx.slot,
      List.eraseIdx_append_of_length_le (le_refl _), Nat.sub_self]
    rfl
  refine ⟨Ctx.valid_remove h.valid hu, ?_, ?_⟩
  · have hids := h.ids_nil
    rw [← flatMap_items_ids, List.flatMap_eq_nil_iff] at hids ⊢
    rw [hitems]
    exact fun y hy => hids y (List.mem_of_mem_eraseIdx hy)
  · rw [← flatMap_items, hitems, h.items_eq, List.eraseIdx_map, List.flatMap_map]
    exact List.map_eq_flatMap.symm

/-- **Deleting a route leaves what a rebuild from the keys writes**, then a zero word, then what
stood behind the routes before; the diff across the gap is the smaller one of its two. -/
theorem deleteRoute_eq_rebuild {s : ℕ} (hk : PageKeys keys) (h2 : 2 ≤ keys.length)
    (hn : keys.length ≤ kMaxNodeReps) (hp : PageOfKeys page keys) (hs : s < keys.length) :
    ∃ page' routes diffs diffs', page.deleteRoute s = .ok page' ∧
      routesOfKeys (keys.eraseIdx s) = .ok routes ∧
      page'.routes.toList
        = routes ++ Route.zero :: page.routes.toList.drop (keys.length - 1) ∧
      ((∀ r ∈ page.routes.toList.drop (keys.length - 1), r = Route.zero) →
        ∀ r ∈ page'.routes.toList.drop routes.length, r = Route.zero) ∧
      adjacentDiffs keys = .ok diffs ∧ adjacentDiffs (keys.eraseIdx s) = .ok diffs' ∧
      (1 ≤ s → ∀ d e, diffs[s - 1]? = some d → diffs[s]? = some e →
        diffs'[s - 1]? = some (min d e)) := by
  obtain ⟨t, ht⟩ := exists_treeOfKeys hk (List.length_pos_iff.mp (by omega))
  have hw := ht.width_eq
  obtain ⟨c, x, rfl, hx, hslot⟩ := Ctx.exists_fill_of_lt (t := t) (i := s) (by omega)
  have hr := hp.routed ht hk hn
  have hcx := Ctx.width_fill c x
  have hxw := width_eq_one_of_isItem hx
  cases hu : c.remove with
  | none =>
    rw [Ctx.remove_eq_none hu] at hw
    simp only [Ctx.fill] at hw
    omega
  | some u =>
    have hone := one_le_width_fill hx hu
    have hlen := length_preorder (c.fill x)
    have hpos := removePos_lt (s := x) hu
    have hsize := hp.size_eq
    have hku : PageKeys (keys.eraseIdx s) :=
      ⟨hk.sorted.sublist (List.eraseIdx_sublist keys s),
        fun k hm => hk.sized k (List.mem_of_mem_eraseIdx hm)⟩
    have htu := ht.erase hx hu
    rw [hslot] at htu
    have hue := htu.width_eq
    have hlenu := length_preorder u
    have hrun := deleteRoute_run hr hx hu
    rw [hslot] at hrun
    obtain ⟨hhas, hagree⟩ := hp.hasRoutes ht hk hn
    have hfull := deleteRoute_eq hhas hx hu
    rw [deleteRoute_run hhas.routed hx hu] at hfull
    have hroutes := congrArg NodePage.routes (Except.ok.inj hfull)
    have hag := deleteRouteAt_agree (p := page)
      (q := { page with routes := routeTable (c.fill x).preorder }) (r := removePos c)
      rfl (by omega) (by omega) hagree (by omega) (removeAncestors_lt c)
    rw [hroutes] at hag
    dsimp only at hag
    obtain ⟨ds, hds, hdl, hget⟩ := adjacentDiffs_get hk
    obtain ⟨ds', hds', _, hget'⟩ := adjacentDiffs_get hku
    have hlist : (page.deleteRouteAt (removePos c) (removeAncestors c)).routes.toList
        = routesOf u ++ Route.zero :: page.routes.toList.drop (keys.length - 1) := by
      apply List.ext_getElem?
      intro i
      have hrl : (routesOf u).length = keys.length - 2 := by
        rw [routesOf, List.length_map]
        omega
      rw [Vector.getElem?_toList]
      rcases Nat.lt_trichotomy i (keys.length - 2) with hi | hi | hi
      · rw [List.getElem?_append_left (by omega), hag i (by omega), routeTable,
          pad_get (by omega), List.getD_eq_getElem?_getD, routesOf, List.getElem?_map,
          List.getElem?_eq_getElem (by omega)]
        rfl
      · rw [List.getElem?_append_right (by omega), hag i (by omega), routeTable,
          pad_get (by omega), List.getD_eq_getElem?_getD,
          List.getElem?_eq_none (by rw [List.length_map]; omega), hi, hrl, Nat.sub_self]
        rfl
      · rw [List.getElem?_append_right (by omega), hrl,
          show i - (keys.length - 2) = (i - (keys.length - 1)) + 1 by omega,
          List.getElem?_cons_succ, List.getElem?_drop, Vector.getElem?_toList,
          deleteRouteAt_keep (by omega) (by omega) (by omega) (removeAncestors_lt c)]
        congr 1
        omega
    refine ⟨_, _, ds, ds', hrun, routesOfKeys_eq htu hku (by omega), hlist, ?_, hds, hds', ?_⟩
    · intro hzero r hm
      rw [hlist, List.drop_left] at hm
      exact (List.mem_cons.mp hm).elim id (hzero r)
    · intro h1 d e hd he
      have he' := (List.getElem?_eq_some_iff.mp he).1
      have hk1 := List.getElem?_eq_getElem (l := keys) (i := s - 1) (by omega)
      have hk2 := List.getElem?_eq_getElem (l := keys) (i := s) (by omega)
      have hk3 := List.getElem?_eq_getElem (l := keys) (i := s + 1) (by omega)
      have hab := List.pairwise_iff_getElem.mp hk.sorted (s - 1) s (by omega) (by omega) (by omega)
      have hbc := List.pairwise_iff_getElem.mp hk.sorted s (s + 1) (by omega) (by omega) (by omega)
      have hgap := (diffAt_firstDiff hab).trans (diffAt_firstDiff hbc)
      rw [hget (s - 1) _ _ hk1 (by rw [Nat.sub_add_cancel h1]; exact hk2)] at hd
      rw [hget s _ _ hk2 hk3] at he
      rw [Option.some.inj hd, Option.some.inj he] at hgap
      rw [← (diffAt_firstDiff (lt_trans hab hbc)).unique hgap.2]
      refine hget' (s - 1) _ _ ?_ ?_
      · rw [List.getElem?_eraseIdx_of_lt (by omega), hk1]
      · rw [Nat.sub_add_cancel h1, List.getElem?_eraseIdx_of_ge (le_refl s), hk3]

/-- The page of the keys `01`, `02` and `03`. -/
def threeKeyPage : NodePage :=
  { NodePage.empty with size := 3, routes := pad _ Route.zero [Route.make 7 1, Route.make 8 1] }

theorem pageKeys_three : PageKeys [[1], [2], [3]] := ⟨by decide, by decide⟩

theorem pageOfKeys_three : PageOfKeys threeKeyPage [[1], [2], [3]] :=
  ⟨rfl, by
    have htake : threeKeyPage.routes.toList.take 2 = [Route.make 7 1, Route.make 8 1] :=
      take_pad (l := [Route.make 7 1, Route.make 8 1]) (by decide)
    show routesOfKeys [[1], [2], [3]] = .ok (threeKeyPage.routes.toList.take 2)
    rw [htake]
    decide⟩

/-- The key between two others is dropped. -/
theorem deleteRoute_eq_rebuild_three :
    ∃ page' routes diffs diffs', threeKeyPage.deleteRoute 1 = .ok page' ∧
      routesOfKeys [[1], [3]] = .ok routes ∧
      page'.routes.toList = routes ++ Route.zero :: threeKeyPage.routes.toList.drop 2 ∧
      ((∀ r ∈ threeKeyPage.routes.toList.drop 2, r = Route.zero) →
        ∀ r ∈ page'.routes.toList.drop routes.length, r = Route.zero) ∧
      adjacentDiffs [[1], [2], [3]] = .ok diffs ∧ adjacentDiffs [[1], [3]] = .ok diffs' ∧
      (1 ≤ 1 → ∀ d e, diffs[1 - 1]? = some d → diffs[1]? = some e →
        diffs'[1 - 1]? = some (min d e)) :=
  deleteRoute_eq_rebuild (s := 1) pageKeys_three (by decide) (by decide) pageOfKeys_three (by decide)

end Update

end MinweightStore.Minpatricia
