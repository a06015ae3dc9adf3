import MinweightStore.Minpatricia.Split

/-!
# Route tables as a code

`BuildCartesian` and `WritePreorderRoutes` turn a list of diffs into a route table, and `RouteDiffs`
turns the table back into the list.  Any list of 16-bit diffs may be written, not only those of the
keys of a page.

* `HoldsRoutes` — a page with a given route table, whatever stands behind it;
* `routed_of_holds` — such a page routes as the Cartesian tree of the diffs does;
* `routeDiffs_of_written` — **what was written is read back**, every slot once.
-/

namespace MinweightStore.Minpatricia

open BitKey PagedTree

/-- **A page with a route table** of one route less than it has reps. -/
structure HoldsRoutes (page : NodePage) (routes : List Route) : Prop where
  size_eq : page.size = routes.length + 1
  route_eq : ∀ (i : ℕ) r, routes[i]? = some r → page.routes[i]? = some r

/-- The routes `RebuildRoutesWithDiffs` stores. -/
theorem holdsRoutes_setRoutes {page : NodePage} {routes : List Route}
    (hsize : page.size = routes.length + 1) (hle : routes.length ≤ kMaxNodeReps - 1) :
    HoldsRoutes (setRoutes page routes.length routes) routes := by
  have hsame : (setRoutes page routes.length routes).size = page.size := by rw [setRoutes]
  refine ⟨hsame.trans hsize, fun i r hr => ?_⟩
  obtain ⟨hi, hget⟩ := List.getElem?_eq_some_iff.mp hr
  have hi' : i < kMaxNodeReps - 1 := by omega
  rw [Vector.getElem?_eq_getElem hi', setRoutes, Vector.getElem_ofFn]
  simp only [if_pos hi]
  rw [List.getD_eq_getElem _ _ hi, hget]

/-- **A page with the routes of a tree** routes as the tree does. -/
theorem routed_of_holds {page : NodePage} {t : Tree} (h : HoldsRoutes page (routesOf t))
    (hw : t.width ≤ kMaxNodeReps) (hs : SmallDiffs t) : Routed page t := by
  have hlen := length_preorder t
  have hsize : page.size = t.width := by
    rw [h.size_eq, routesOf, List.length_map]
    omega
  refine ⟨hsize, ⟨by rw [hsize]; omega, fun j p hp => ?_⟩, hw, hs⟩
  have hroute : (routesOf t)[j]? = some (packRoute p) := by
    rw [routesOf, List.getElem?_map, hp]
    rfl
  rw [Nat.zero_add, NodePage.routeAt, h.route_eq j _ hroute]

/-- **The decoder of a page** writes these slots, and leaves this list. -/
structure Decodes (page : NodePage) (diffs : List ℕ) (writes : List (ℕ × ℕ)) : Prop where
  writes_eq : routeDiffsWrites page kMaxNodeReps [⟨0, 0, page.size⟩] = .ok writes
  once : (writes.map Prod.fst).Perm (List.range diffs.length)
  result : ∀ out, out.length = diffs.length → page.routeDiffs out = .ok diffs ∧
    applyWrites out writes = diffs

/-- A page with the routes of a tree is decoded to the diffs of the tree. -/
theorem decodes_of_routed {page : NodePage} {t : Tree} (h : Routed page t) (h1 : 1 < t.width) :
    Decodes page t.diffs (writesOf 0 t) := by
  have hd := length_diffs t
  refine ⟨routeDiffsWrites_page h h1, ?_, fun out hout => ⟨routeDiffs_eq out h (by omega), ?_⟩⟩
  · rw [List.range_eq_range']
    exact writesOf_slots t 0
  · have hread := routeDiffs_eq out h (by omega)
    rw [NodePage.routeDiffs, if_neg (by rw [h.size_eq]; omega), if_neg (by rw [h.size_eq]; omega),
      routeDiffsLoop_eq_writes, routeDiffsWrites_page h h1] at hread
    exact Except.ok.inj hread

/-- **Route tables decode to the diffs they were built from**: any 16-bit diffs, also repeated ones,
come back unchanged, every slot is written once, and the stack of the decoder is large enough. -/
theorem routeDiffs_of_written {diffs : List ℕ} (hlo : 1 ≤ diffs.length)
    (hhi : diffs.length ≤ kMaxNodeReps - 1) (hsmall : ∀ d ∈ diffs, d < 2 ^ 16) :
    ∃ cartesian routes, buildCartesian diffs = .ok cartesian ∧
      writePreorderRoutes diffs cartesian (diffs.length + 1) = .ok routes ∧
      routes.length = diffs.length ∧
      ∀ page, HoldsRoutes page routes → ∃ writes, Decodes page diffs writes := by
  obtain ⟨t, hcart, rfl⟩ := exists_cartesian diffs
  have hd := length_diffs t
  have hp := length_preorder t
  have hw : t.width ≤ kMaxNodeReps := by
    have hk : kMaxNodeReps = 339 := rfl
    omega
  have hwidth : t.diffs.length + 1 = t.width := by omega
  obtain ⟨root, hroot⟩ := exists_rootAt (t := t) (by omega) 0
  refine ⟨cartesianOf t root, routesOf t, buildCartesian_eq hcart hroot, ?_, ?_, fun page hpage => ?_⟩
  · rw [hwidth]
    exact writePreorderRoutes_eq (lt_trans (width_lt_of_le hw) (by decide)) hroot
  · rw [routesOf, List.length_map]
    omega
  · exact ⟨writesOf 0 t, decodes_of_routed (routed_of_holds hpage hw hsmall) (by omega)⟩

/-- A list with a repeated diff. -/
theorem routeDiffs_of_written_repeated : ∃ page : NodePage, page.routeDiffs [0, 0, 0] = .ok [7, 3, 3] := by
  have hsmall : ∀ d ∈ [7, 3, 3], d < 2 ^ 16 := by decide
  obtain ⟨cartesian, routes, _, _, hlen, hdecodes⟩ :=
    routeDiffs_of_written (by decide) (by decide) hsmall
  have hroutes : routes.length = 3 := hlen
  have hsize : ({ NodePage.empty with size := 4 } : NodePage).size = routes.length + 1 := by
    rw [hroutes]
  have hle : routes.length ≤ kMaxNodeReps - 1 := by
    rw [hroutes]
    decide
  obtain ⟨writes, h⟩ := hdecodes _ (holdsRoutes_setRoutes hsize hle)
  exact ⟨_, (h.result [0, 0, 0] rfl).1⟩

end MinweightStore.Minpatricia
