import MinweightStore.Minpatricia.NodePage

/-!
# The heap node store

`HeapNodeStore` (`node_store.h`) hands out page numbers and owns the pages.  Its fields carry what
every operation keeps: the root page is there, the free list names exactly the empty slots, each
once, and `live` counts the pages.

* `page?` — the page behind a number;
* `write_spec`, `alloc_cases`, `freePage_spec` — what is behind the numbers after a write, after an
  `Alloc` (a fresh page, or no number left below the tag bit) and after a `Free`;
* `live_eq_length` — the live count is the number of page numbers in use.
-/

namespace MinweightStore.Minpatricia

/-- `HeapNodeStore`; the back of `free_` is the head of the list. -/
structure HeapNodeStore where
  nodes : List (Option NodePage)
  free : List UInt64
  live : Int
  root_alloc : ∃ page, nodes[0]? = some (some page)
  free_iff : ∀ id : UInt64, id ∈ free ↔ nodes[id.toNat]? = some none
  free_nodup : free.Nodup
  live_eq : live = nodes.countP Option.isSome
  length_le : nodes.length ≤ 2 ^ 63

namespace HeapNodeStore

/-- `HeapNodeStore()`. -/
def new : HeapNodeStore where
  nodes := [some NodePage.empty]
  free := []
  live := 1
  root_alloc := ⟨_, rfl⟩
  free_iff := by
    intro id
    simp only [List.not_mem_nil, false_iff]
    cases id.toNat with
    | zero => simp
    | succ n => simp
  free_nodup := List.nodup_nil
  live_eq := rfl
  length_le := by decide

/-- `Root`. -/
def root : UInt64 := 0

/-- The page behind a number. -/
def page? (ns : HeapNodeStore) (id : UInt64) : Option NodePage := ns.nodes[id.toNat]?.join

theorem page?_eq_some {ns : HeapNodeStore} {id : UInt64} {page : NodePage} :
    ns.page? id = some page ↔ ns.nodes[id.toNat]? = some (some page) := by
  rw [page?, Option.join_eq_some_iff]

theorem lt_length_of_page? {ns : HeapNodeStore} {id : UInt64} {page : NodePage}
    (h : ns.page? id = some page) : id.toNat < ns.nodes.length :=
  (List.getElem?_eq_some_iff.mp (page?_eq_some.mp h)).1

/-- The number of a page has no tag bit. -/
theorem toNat_lt_of_page? (ns : HeapNodeStore) {id : UInt64} {page : NodePage}
    (h : ns.page? id = some page) : id.toNat < 2 ^ 63 :=
  lt_of_lt_of_le (lt_length_of_page? h) ns.length_le

/-- `Get`. -/
def get (ns : HeapNodeStore) (id : UInt64) : Result NodePage :=
  match ns.page? id with
  | some page => .ok page
  | none => err .corruptLayout

theorem get_eq {ns : HeapNodeStore} {id : UInt64} {page : NodePage} (h : ns.page? id = some page) :
    ns.get id = .ok page := by
  rw [get, h]

/-- A read through a page pointer. -/
def deref (ns : HeapNodeStore) (id : UInt64) : Result NodePage :=
  match ns.page? id with
  | some page => .ok page
  | none => .error .undefined

theorem deref_eq {ns : HeapNodeStore} {id : UInt64} {page : NodePage}
    (h : ns.page? id = some page) : ns.deref id = .ok page := by
  rw [deref, h]

/-! ### Writing through a page pointer -/

/-- The store with the page of one number replaced. -/
def setPage (ns : HeapNodeStore) (id : UInt64) (page : NodePage) {old : NodePage}
    (h : ns.page? id = some old) : HeapNodeStore where
  nodes := ns.nodes.set id.toNat (some page)
  free := ns.free
  live := ns.live
  root_alloc := by
    obtain ⟨p, hp⟩ := ns.root_alloc
    have hlt := (List.getElem?_eq_some_iff.mp hp).1
    by_cases h0 : id.toNat = 0
    · exact ⟨page, by rw [h0, List.getElem?_set_self hlt]⟩
    · exact ⟨p, by rw [List.getElem?_set_ne h0, hp]⟩
  free_iff := by
    intro j
    rw [ns.free_iff j]
    by_cases hj : id.toNat = j.toNat
    · rw [← hj, List.getElem?_set_self (lt_length_of_page? h), page?_eq_some.mp h]
      simp
    · rw [List.getElem?_set_ne hj]
  free_nodup := ns.free_nodup
  live_eq := by
    have hlt := lt_length_of_page? h
    have hget := (List.getElem?_eq_some_iff.mp (page?_eq_some.mp h)).2
    have hpos : 0 < ns.nodes.countP Option.isSome :=
      List.countP_pos_iff.mpr ⟨some old, hget ▸ List.getElem_mem hlt, rfl⟩
    rw [List.countP_set hlt, hget, ns.live_eq]
    simp only [Option.isSome_some, if_true]
    omega
  length_le := by
    rw [List.length_set]
    exact ns.length_le

/-- `*page = ...` through the pointer of a page. -/
def write (ns : HeapNodeStore) (id : UInt64) (page : NodePage) : Result HeapNodeStore :=
  match h : ns.page? id with
  | some _ => .ok (ns.setPage id page h)
  | none => .error .undefined

/-- A write succeeds on a live page and changes only that page. -/
theorem write_spec {ns : HeapNodeStore} {id : UInt64} {old : NodePage} (page : NodePage)
    (h : ns.page? id = some old) :
    ∃ ns', ns.write id page = .ok ns' ∧ ns'.nodes.length = ns.nodes.length ∧
      ∀ j, ns'.page? j = if j = id then some page else ns.page? j := by
  unfold write
  split
  · rename_i p hp
    refine ⟨_, rfl, List.length_set, fun j => ?_⟩
    show (ns.nodes.set id.toNat (some page))[j.toNat]?.join = _
    by_cases hj : j = id
    · rw [if_pos hj, hj, List.getElem?_set_self (lt_length_of_page? h)]
      rfl
    · rw [if_neg hj, List.getElem?_set_ne (fun h' => hj (UInt64.toNat_inj.mp h'.symm))]
      rfl
  · rename_i hn
    exact absurd (h.symm.trans hn) (by simp)

/-! ### Taking and giving back pages -/

/-- `Alloc`: the number of an empty page. -/
def alloc (ns : HeapNodeStore) : Result (UInt64 × HeapNodeStore) :=
  match hf : ns.free with
  | id :: rest =>
    .ok (id, {
      nodes := ns.nodes.set id.toNat (some NodePage.empty)
      free := rest
      live := ns.live + 1
      root_alloc := by
        obtain ⟨p, hp⟩ := ns.root_alloc
        have hid := (ns.free_iff id).mp (hf ▸ List.mem_cons_self)
        have h0 : id.toNat ≠ 0 := by
          intro h0
          rw [h0, hp] at hid
          exact absurd hid (by simp)
        exact ⟨p, by rw [List.getElem?_set_ne h0, hp]⟩
      free_iff := by
        have hid := (ns.free_iff id).mp (hf ▸ List.mem_cons_self)
        have hnd := ns.free_nodup
        rw [hf] at hnd
        intro j
        by_cases hj : id = j
        · subst hj
          rw [List.getElem?_set_self (List.getElem?_eq_some_iff.mp hid).1]
          simp [(List.nodup_cons.mp hnd).1]
        · have := ns.free_iff j
          rw [hf, List.mem_cons, or_iff_right (fun h => hj h.symm)] at this
          rw [List.getElem?_set_ne (fun h => hj (UInt64.toNat_inj.mp h)), this]
      free_nodup := by
        have hnd := ns.free_nodup
        rw [hf] at hnd
        exact (List.nodup_cons.mp hnd).2
      live_eq := by
        have hid := (ns.free_iff id).mp (hf ▸ List.mem_cons_self)
        obtain ⟨hlt, hget⟩ := List.getElem?_eq_some_iff.mp hid
        rw [List.countP_set hlt, hget, ns.live_eq]
        simp
      length_le := by
        rw [List.length_set]
        exact ns.length_le })
  | [] =>
    let id := UInt64.ofNat ns.nodes.length
    if hid : id &&& kChildTag ≠ 0 then err .positionTag
    else
      .ok (id, {
        nodes := ns.nodes ++ [some NodePage.empty]
        free := []
        live := ns.live + 1
        root_alloc := by
          obtain ⟨p, hp⟩ := ns.root_alloc
          exact ⟨p, by rw [List.getElem?_append_left (List.getElem?_eq_some_iff.mp hp).1, hp]⟩
        free_iff := by
          intro j
          have := ns.free_iff j
          rw [hf] at this
          rw [this]
          by_cases hj : j.toNat < ns.nodes.length
          · rw [List.getElem?_append_left hj]
          · rw [List.getElem?_eq_none (by omega), List.getElem?_append_right (by omega)]
            cases j.toNat - ns.nodes.length with
            | zero => simp
            | succ n => simp
        free_nodup := List.nodup_nil
        live_eq := by
          rw [List.countP_append, ns.live_eq]
          rfl
        length_le := by
          rw [List.length_append, List.length_singleton]
          have hle := ns.length_le
          rcases Nat.lt_or_ge ns.nodes.length (2 ^ 63) with h | h
          · omega
          · have h63 : ns.nodes.length = 2 ^ 63 := by omega
            refine absurd ?_ hid
            simp only [id, h63]
            decide })

/-- **A new page, or no number left.**  The number was not in use, the page is empty, and nothing
else changes; without a free slot the code needs one below the tag bit. -/
theorem alloc_cases (ns : HeapNodeStore) :
    (∃ id ns', ns.alloc = .ok (id, ns') ∧ ns.page? id = none ∧ id ≠ root ∧
      ns'.nodes.length ≤ ns.nodes.length + 1 ∧
      ∀ j, ns'.page? j = if j = id then some NodePage.empty else ns.page? j) ∨
    (ns.alloc = err .positionTag ∧ ns.nodes.length = 2 ^ 63) := by
  obtain ⟨rootPage, hroot⟩ := ns.root_alloc
  have hneroot : ∀ id : UInt64, ns.page? id = none → id ≠ root := by
    rintro id hid rfl
    rw [page?, show root.toNat = 0 from rfl, hroot] at hid
    exact absurd hid (by simp)
  unfold alloc
  split
  · rename_i id rest hf
    left
    have hid := (ns.free_iff id).mp (hf ▸ List.mem_cons_self)
    have hnone : ns.page? id = none := by rw [page?, hid]; rfl
    refine ⟨id, _, rfl, hnone, hneroot id hnone, by simp, fun j => ?_⟩
    show (ns.nodes.set id.toNat (some NodePage.empty))[j.toNat]?.join = _
    by_cases hj : j = id
    · rw [if_pos hj, hj, List.getElem?_set_self (List.getElem?_eq_some_iff.mp hid).1]
      rfl
    · rw [if_neg hj, List.getElem?_set_ne (fun h => hj (UInt64.toNat_inj.mp h.symm))]
      rfl
  · rename_i hf
    have hle := ns.length_le
    rcases Nat.lt_or_ge ns.nodes.length (2 ^ 63) with hlt | hge
    · left
      have hnat : (UInt64.ofNat ns.nodes.length).toNat = ns.nodes.length := by
        rw [UInt64.toNat_ofNat']
        omega
      have htag : ¬ (UInt64.ofNat ns.nodes.length &&& kChildTag ≠ 0) := by
        rw [not_not]
        exact and_kChildTag_eq_zero (by omega)
      simp only [dif_neg htag]
      have hnone : ns.page? (UInt64.ofNat ns.nodes.length) = none := by
        rw [page?, hnat, List.getElem?_eq_none (le_refl _)]
        rfl
      refine ⟨_, _, rfl, hnone, hneroot _ hnone, by simp, fun j => ?_⟩
      show (ns.nodes ++ [some NodePage.empty])[j.toNat]?.join = _
      by_cases hj : j = UInt64.ofNat ns.nodes.length
      · rw [if_pos hj, hj, hnat, List.getElem?_append_right (le_refl _), Nat.sub_self]
        rfl
      · rw [if_neg hj]
        have hne : j.toNat ≠ ns.nodes.length :=
          fun h => hj (UInt64.toNat_inj.mp (h.trans hnat.symm))
        by_cases hjl : j.toNat < ns.nodes.length
        · rw [List.getElem?_append_left hjl]
          rfl
        · rw [List.getElem?_append_right (by omega), List.getElem?_eq_none (by simp; omega), page?,
            List.getElem?_eq_none (by omega)]
    · right
      have h63 : ns.nodes.length = 2 ^ 63 := by omega
      refine ⟨?_, h63⟩
      simp only [h63]
      rw [dif_pos (by decide)]

/-- `Free`. -/
def freePage (ns : HeapNodeStore) (id : UInt64) : Result HeapNodeStore :=
  if hroot : id = root then err .corruptLayout
  else match h : ns.page? id with
    | none => err .corruptLayout
    | some page => .ok {
        nodes := ns.nodes.set id.toNat none
        free := id :: ns.free
        live := ns.live - 1
        root_alloc := by
          obtain ⟨p, hp⟩ := ns.root_alloc
          have h0 : id.toNat ≠ 0 := fun h0 => hroot (UInt64.toNat_inj.mp h0)
          exact ⟨p, by rw [List.getElem?_set_ne h0, hp]⟩
        free_iff := by
          intro j
          by_cases hj : id = j
          · subst hj
            rw [List.getElem?_set_self (lt_length_of_page? h)]
            simp
          · rw [List.mem_cons, or_iff_right (fun h' => hj h'.symm), ns.free_iff j,
              List.getElem?_set_ne (fun h' => hj (UInt64.toNat_inj.mp h'))]
        free_nodup := by
          refine List.nodup_cons.mpr ⟨?_, ns.free_nodup⟩
          rw [ns.free_iff id, page?_eq_some.mp h]
          simp
        live_eq := by
          have hlt := lt_length_of_page? h
          have hget := (List.getElem?_eq_some_iff.mp (page?_eq_some.mp h)).2
          have hpos : 0 < ns.nodes.countP Option.isSome :=
            List.countP_pos_iff.mpr ⟨some page, hget ▸ List.getElem_mem hlt, rfl⟩
          rw [List.countP_set hlt, hget, ns.live_eq]
          simp only [Option.isSome_some, if_true, Option.isSome_none, Bool.false_eq_true, if_false]
          omega
        length_le := by
          rw [List.length_set]
          exact ns.length_le }

/-- A live page other than the root can be given back. -/
theorem freePage_spec {ns : HeapNodeStore} {id : UInt64} {page : NodePage} (hroot : id ≠ root)
    (h : ns.page? id = some page) :
    ∃ ns', ns.freePage id = .ok ns' ∧ ns'.nodes.length = ns.nodes.length ∧
      ∀ j, ns'.page? j = if j = id then none else ns.page? j := by
  unfold freePage
  rw [dif_neg hroot]
  split
  · rename_i hn
    exact absurd (h.symm.trans hn) (by simp)
  · refine ⟨_, rfl, List.length_set, fun j => ?_⟩
    show (ns.nodes.set id.toNat none)[j.toNat]?.join = _
    by_cases hj : j = id
    · rw [if_pos hj, hj, List.getElem?_set_self (lt_length_of_page? h)]
      rfl
    · rw [if_neg hj, List.getElem?_set_ne (fun h' => hj (UInt64.toNat_inj.mp h'.symm))]
      rfl

/-- `LiveNodes`. -/
def liveNodes (ns : HeapNodeStore) : Int := ns.live

theorem range_map_nodes (l : List (Option NodePage)) :
    (List.range l.length).map (fun i => l[i]?.join) = l := by
  apply List.ext_getElem
  · simp
  · intro i h1 h2
    simp [List.getElem?_eq_getElem h2]

/-- **The live count is the number of pages in use.** -/
theorem live_eq_length {ns : HeapNodeStore} {ids : List UInt64} (hnd : ids.Nodup)
    (h : ∀ j, (ns.page? j).isSome ↔ j ∈ ids) : ns.liveNodes = ids.length := by
  have hcount : ns.nodes.countP Option.isSome
      = ((List.range ns.nodes.length).filter (fun i => (ns.nodes[i]?.join).isSome)).length := by
    conv_lhs => rw [← range_map_nodes ns.nodes, List.countP_map, List.countP_eq_length_filter]
    rfl
  have hperm : ((List.range ns.nodes.length).filter (fun i => (ns.nodes[i]?.join).isSome)).Perm
      (ids.map UInt64.toNat) := by
    rw [List.perm_ext_iff_of_nodup (List.nodup_range.filter _)
      (hnd.map (fun a b hab => UInt64.toNat_inj.mp hab))]
    intro i
    rw [List.mem_filter, List.mem_range, List.mem_map]
    constructor
    · rintro ⟨hi, hsome⟩
      have hnat : (UInt64.ofNat i).toNat = i := by
        have := ns.length_le
        rw [UInt64.toNat_ofNat']
        omega
      refine ⟨UInt64.ofNat i, (h _).mp ?_, hnat⟩
      rw [page?, hnat]
      exact hsome
    · rintro ⟨j, hj, rfl⟩
      have hsome := (h j).mpr hj
      obtain ⟨page, hpage⟩ := Option.isSome_iff_exists.mp hsome
      exact ⟨lt_length_of_page? hpage, hsome⟩
  rw [liveNodes, ns.live_eq, hcount, hperm.length_eq, List.length_map]

end HeapNodeStore

end MinweightStore.Minpatricia
