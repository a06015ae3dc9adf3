import MinweightStore.Minpatricia.Put

/-!
# Lookups and retargeting

`Probe`, `Get` and `Retarget` walk down to the one leaf a key can be at.

* `probe_some`, `probe_none` — the position of that leaf, found unless the index is empty;
* `get_spec` — the lookup in the map;
* `retarget_spec`, `retarget_mismatch` — the record moved, or nothing changed.
-/

namespace MinweightStore.Minpatricia

open BitKey PagedTree

section Read

variable {records : Position → Result ByteView} {ix : Index} {key : ByteView}

/-- The walk ends at the leaf the key is routed to. -/
theorem probeLoop_eq {ns : HeapNodeStore} : ∀ (fuel : ℕ) (id : UInt64) (s : Tree),
    s.depth ≤ fuel → PageAt ns.page? id s → Stored ns.page? s → s.Valid → Sized s →
    probeLoop ns key fuel (pageOf s) = .ok ⟨(s.find key).2, true⟩
  | 0, _, s, hd, _, _, _, _ => by
    have := one_le_depth s
    omega
  | fuel + 1, id, s, hd, hp, hst, hv, hs => by
    obtain ⟨c, x, rfl, hal, hx⟩ := descent_step key s
    have hitem : x.IsItem := by
      rcases hx with ⟨k, v, rfl⟩ | ⟨j, s', rfl, _⟩ <;> trivial
    obtain ⟨hlookup, hrep⟩ := lookup_run hp hv hs hitem rfl hal
    have hsx : Sized x := hs.of_subset (fun e he => mem_entries_fill.mpr (Or.inr (Or.inl he)))
    rw [probeLoop, hlookup, Ctx.find_fill hal]
    simp only [bind, Except.bind, hrep]
    rcases hx with ⟨k, v, rfl⟩ | ⟨j, s', rfl, hdepth⟩
    · obtain ⟨h1, h2⟩ := repOf_leaf (k := k) (hsx (k, v) (List.mem_singleton_self _)).2
      rw [h1, h2]
      rfl
    · obtain ⟨hpage, hst'⟩ := ((Ctx.allPages_fill c _).mp hst).1
      obtain ⟨h1, h2⟩ := repOf_page (t := s') hpage.id_lt
      rw [h1, h2, if_neg (by decide), if_pos rfl, HeapNodeStore.get_eq hpage.page_eq]
      exact probeLoop_eq fuel j s' (by omega) hpage hst' (Valid.of_fill (s := .page j s') hv) hsx

theorem probe_none (h : Represents ix none) (hkey : key.length ≤ kMaxKeySize) :
    ix.probe key = .ok ⟨0, false⟩ := by
  rw [Index.probe, checkKeySize_ok hkey]
  simp only [bind, Except.bind, HeapNodeStore.get_eq h.2.2.1, Index.fuel]
  rw [probeLoop, show NodePage.empty.lookup key = .ok (0, false) from rfl]
  rfl

theorem probe_some {t : Tree} (h : Represents ix (some t)) (hkey : key.length ≤ kMaxKeySize) :
    ix.probe key = .ok ⟨(t.find key).2, true⟩ := by
  obtain ⟨_, _, hholds, _⟩ := h
  have hat : PageAt ix.nodes.page? ix.rootId t := Holds.pageAt (z := []) hholds
  have hdepth := hholds.depth_le
  rw [Index.probe, checkKeySize_ok hkey]
  simp only [bind, Except.bind, HeapNodeStore.get_eq hat.page_eq, Index.fuel]
  exact probeLoop_eq _ ix.rootId t (by simp only [depth] at hdepth; omega) hat
    (Holds.stored_below (z := []) hholds) (Holds.valid_below (z := []) hholds)
    (Holds.sized_below (z := []) hholds)

/-- **`Probe` of a present key** gives its position. -/
theorem probe_of_get? {o : Option Tree} (h : Represents ix o) (hkey : key.length ≤ kMaxKeySize)
    {v : Position} (hget : (toMap h).get? key = some v) : ix.probe key = .ok ⟨v, true⟩ := by
  cases o with
  | none => exact absurd hget (by simp [toMap, entriesOf, SortedMap.get?])
  | some t =>
    have hv : t.Valid := Holds.valid_below (z := []) h.2.2.1
    have hmem : (key, v) ∈ t.entries := (SortedMap.mem_entries_iff _ _ _).mpr hget
    rw [probe_some h hkey, hv.find_of_mem hmem]

/-- `Probe` finds some stored position unless the index is empty. -/
theorem probe_cases {o : Option Tree} (h : Represents ix o) (hkey : key.length ≤ kMaxKeySize) :
    (toMap h = SortedMap.empty ∧ ix.probe key = .ok ⟨0, false⟩) ∨
    ∃ e ∈ (toMap h).entries, ix.probe key = .ok ⟨e.2, true⟩ := by
  cases o with
  | none => exact Or.inl ⟨rfl, probe_none h hkey⟩
  | some t => exact Or.inr ⟨t.find key, find_mem key t, probe_some h hkey⟩

/-- What `Get` answers about a stored position. -/
def getResult : Option Position → ProbeResult
  | some v => ⟨v, true⟩
  | none => ⟨0, false⟩

/-- **`Get` is the lookup in the map.** -/
theorem get_spec {o : Option Tree} (h : Represents ix o) (hk : KnowsAll records (entriesOf o))
    (hkey : key.length ≤ kMaxKeySize) :
    ix.get records key = .ok (getResult ((toMap h).get? key)) := by
  cases o with
  | none =>
    rw [Index.get, probe_none h hkey]
    rfl
  | some t =>
    have hv : t.Valid := Holds.valid_below (z := []) h.2.2.1
    have hs : Sized t := Holds.sized_below (z := []) h.2.2.1
    have hget : (toMap h).get? key = _ := get?_eq_find hv key
    have hread := recordKey_eq hk hs (find_mem key t)
    rw [hget, Index.get, probe_some h hkey]
    simp only [bind, Except.bind, hread]
    by_cases hf : (t.find key).1 = key
    · rw [if_pos hf, if_neg (by decide), if_neg (fun hne => hne (compareKeys_eq_zero.mpr hf))]
      rfl
    · rw [if_neg hf, if_neg (by decide), if_pos (fun h0 => hf (compareKeys_eq_zero.mp h0))]
      rfl

end Read

/-! ### Retargeting -/

section Retarget

variable {ix : Index} {key : ByteView} {oldPos newPos : Position}

variable (key oldPos newPos) in
/-- The walk of `Retarget` ends at the leaf the key is routed to. -/
theorem retargetLoop_run {t : Tree} (hp : newPos.toNat < 2 ^ 63) : ∀ (fuel : ℕ) (z : TreePath) (id : UInt64) (s : Tree),
    s.depth ≤ fuel → z.fill (.page id s) = t → Holds ix.nodes.page? t → Path.Along key z →
    ∃ (z' : TreePath) (id' : UInt64) (c : TreeCtx) (k : ByteView) (v : Position),
      z'.fill (.page id' (c.fill (.leaf k v))) = t ∧ t.find key = (k, v) ∧
      retargetLoop key oldPos ⟨newPos⟩ fuel (framesOf z).reverse id ix
        = (if v ≠ oldPos then Prog.fail .positionMismatch
          else do
            writePage id' (pageOf (c.fill (.leaf k newPos)))
            propagateBoundary ((framesOf z').reverse ++ [⟨id', c.slot⟩]) z'.length
              (c.fill (.leaf k v)).first (c.fill (.leaf k v)).last :
          IndexM Unit) ix
  | 0, _, _, s, hd, _, _, _ => by
    have := one_le_depth s
    omega
  | fuel + 1, z, id, s, hd, ht, h, halong => by
    subst ht
    obtain ⟨c, x, rfl, hal, hx⟩ := descent_step key s
    have hitem : x.IsItem := by
      rcases hx with ⟨k, v, rfl⟩ | ⟨j, s', rfl, _⟩ <;> trivial
    obtain ⟨hlookup, hrep⟩ := lookup_run h.pageAt h.valid_below h.sized_below hitem rfl hal
    have halong' : Path.Along key ((c, id) :: z) := by
      intro ci hci
      rcases List.mem_cons.mp hci with rfl | hci
      · exact hal
      · exact halong ci hci
    rw [retargetLoop, Prog.bind_ok (nodeByID_run h.pageAt.page_eq),
      Prog.bind_ok (ofOutcome_run hlookup), if_neg (by simp), Prog.bind_ok (ofOutcome_run hrep)]
    rcases hx with ⟨k, v, rfl⟩ | ⟨j, s', rfl, hdepth⟩
    · have hsv : v.toNat < 2 ^ 63 := by
        refine (h.sized_below (k, v) ?_).2
        rw [Ctx.entries_fill]
        simp [entries]
      obtain ⟨h1, h2⟩ := repOf_leaf (k := k) hsv
      refine ⟨z, id, c, k, v, rfl, Path.find_fill (z := (c, id) :: z) halong', ?_⟩
      have hpage := pageOf_setLeaf c k v newPos
      simp only [pageOf_size] at hpage
      have hzlen : (framesOf z).reverse.length = z.length := by
        rw [List.length_reverse, framesOf, List.length_map]
      simp only [h1, h2, (Rep.record_spec hp).2, pageOf_size, pageOf_firstPos, pageOf_lastPos,
        hzlen, ← hpage, Bool.false_eq_true, if_false]
    · have hj : j.toNat < 2 ^ 63 := (Holds.pageAt (z := (c, id) :: z) h).id_lt
      obtain ⟨h1, h2⟩ := repOf_page (t := s') hj
      have hframes : (framesOf z).reverse ++ [⟨id, c.slot⟩]
          = (framesOf ((c, id) :: z)).reverse := by
        rw [framesOf, framesOf, List.map_cons, List.reverse_cons]
      rw [h1, if_pos rfl, h2, hframes]
      exact retargetLoop_run hp fuel ((c, id) :: z) j s' (by omega) rfl h halong'

theorem retarget_run (hkey : key.length ≤ kMaxKeySize)
    (hp : newPos.toNat < 2 ^ 63) : retarget key oldPos newPos ix
      = retargetLoop key oldPos ⟨newPos⟩ ix.fuel (framesOf []).reverse ix.rootId ix := by
  rw [retarget, Prog.bind_ok (ofOutcome_run (checkKeySize_ok hkey)),
    Prog.bind_ok (ofOutcome_run (Rep.makeRecord_eq hp)), Prog.get_bind]
  rfl

/-- **`Retarget` of a present key with another old position** changes nothing. -/
theorem retarget_mismatch {o : Option Tree} (h : Represents ix o)
    (hkey : key.length ≤ kMaxKeySize) (hp : newPos.toNat < 2 ^ 63) {v : Position}
    (hget : (toMap h).get? key = some v) (hne : v ≠ oldPos) :
    retarget key oldPos newPos ix = .error (.status .positionMismatch) ix := by
  cases o with
  | none => exact absurd hget (by simp [toMap, entriesOf, SortedMap.get?])
  | some t =>
    obtain ⟨_, _, hholds, _⟩ := id h
    have hdepth := hholds.depth_le
    have hmem : (key, v) ∈ (PagedTree.page ix.rootId t : Tree).entries :=
      (SortedMap.mem_entries_iff _ _ _).mpr hget
    obtain ⟨z, id, c, k, w, _, hfind, hrun⟩ := retargetLoop_run key oldPos newPos (t := .page ix.rootId t) hp ix.fuel [] ix.rootId t
      (by simp only [depth, Index.fuel] at hdepth ⊢; omega) rfl hholds
      (fun ci hci => absurd hci List.not_mem_nil)
    rw [hholds.valid.find_of_mem hmem] at hfind
    obtain ⟨rfl, rfl⟩ := Prod.mk.inj hfind
    rw [retarget_run hkey hp, hrun, if_pos hne]
    rfl

/-- **`Retarget` of a present key at its position** moves it. -/
theorem retarget_spec {o : Option Tree} (h : Represents ix o)
    (hkey : key.length ≤ kMaxKeySize) (hp : newPos.toNat < 2 ^ 63)
    (hget : (toMap h).get? key = some oldPos) :
    Answers (retarget key oldPos newPos) ix () ((toMap h).insert key newPos) 0 := by
  cases o with
  | none => exact absurd hget (by simp [toMap, entriesOf, SortedMap.get?])
  | some t =>
    obtain ⟨hroot, hcount, hholds, hnp⟩ := id h
    have hdepth := hholds.depth_le
    have hmem : (key, oldPos) ∈ (PagedTree.page ix.rootId t : Tree).entries :=
      (SortedMap.mem_entries_iff _ _ _).mpr hget
    obtain ⟨z, id, c, k, w, htree, hfind, hrun⟩ := retargetLoop_run key oldPos newPos (t := .page ix.rootId t) hp ix.fuel [] ix.rootId t
      (by simp only [depth, Index.fuel] at hdepth ⊢; omega) rfl hholds
      (fun ci hci => absurd hci List.not_mem_nil)
    rw [hholds.valid.find_of_mem hmem] at hfind
    obtain ⟨rfl, rfl⟩ := Prod.mk.inj hfind
    have hholds' : Holds ix.nodes.page? (z.fill (.page id (c.fill (.leaf key oldPos)))) := by
      rw [htree]
      exact hholds
    obtain ⟨ns, hset, hlen, hnew⟩ := setLeaf_holds c.slot [] hholds' hp
    have hroot' := Path.root_fill (c.fill (.leaf key newPos)) htree hnp (fun hz => by
      subst hz
      simp only [Path.fill, PagedTree.page.injEq] at htree
      obtain ⟨rfl, rfl⟩ := htree
      exact Path.notPage_fill hnp (fun _ i s h' => PagedTree.noConfusion rfl rfl rfl (heq_of_eq h')))
    obtain ⟨t', ht', hnp'⟩ := hroot'
    have hents := mem_entries_setLeaf newPos hholds'.valid
    rw [htree, ht'] at hents
    rw [ht'] at hnew
    have hmap : (⟨t'.entries, hnew.valid.sorted⟩ : SortedMap ByteView Position)
        = (toMap h).insert key newPos := by
      refine SortedMap.ext_mem (fun e => ?_)
      rw [SortedMap.mem_insert]
      exact hents e
    have hsize : t'.entries.length = t.entries.length := by
      have := SortedMap.size_insert_of_some newPos hget
      rw [← hmap] at this
      exact this
    refine ⟨{ ix with nodes := ns }, some t', ⟨hroot, ?_, hnew, hnp'⟩, ?_, hmap, ?_⟩
    · show ix.count = _
      rw [hsize, hcount]
    · rw [retarget_run hkey hp, hrun, if_neg (by simp)]
      exact hset
    · simp only
      omega

end Retarget

end MinweightStore.Minpatricia
