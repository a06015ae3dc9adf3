import MinweightStore.Base.Wp
import MinweightStore.Minpatricia.PageWrites

/-!
# Split ranges

`ChooseSplitRange` on any reps in ascending order, and what `SplitAndWriteNodeAt` makes of a page
with one rep too many.

* `IncreasingReps`, `buildDiffs_increasing` — the diffs of reps whose keys ascend;
* `exists_cartesian` — a list of diffs has a Cartesian tree;
* `chooseSplitRange_edge` — at an edge slot, a range without the slot is preferred;
* `Sets` — a call after which a page has a certain size;
* `split_cuts_out_subtree` — **a split cuts out a subtree, and one split is enough**.
-/

namespace MinweightStore.Minpatricia

open BitKey PagedTree

/-! ### Reps in ascending order -/

/-- `ChooseSplitRange`. -/
def chooseSplitRangeOf (records : Position → Result ByteView) (ns : HeapNodeStore) (reps : List Rep)
    (insertSlot : Int) : Result SplitRange :=
  if reps.length < 4 then err .corruptLayout
  else do
    let diffs ← buildDiffs records ns reps
    chooseSplitRange diffs reps.length insertSlot

/-- The smallest and the largest key of a rep, as `MinPos`, `MaxPos` and the record store give
them. -/
structure RepBounds (records : Position → Result ByteView) (ns : HeapNodeStore) (rep : Rep)
    (bounds : ByteView × ByteView) : Prop where
  min : ∃ pos, minPos ns rep = .ok pos ∧ records pos = .ok bounds.1
  max : ∃ pos, maxPos ns rep = .ok pos ∧ records pos = .ok bounds.2
  min_le : bounds.1.length ≤ kMaxKeySize
  max_le : bounds.2.length ≤ kMaxKeySize

/-- **Reps with strictly increasing keys.** -/
structure IncreasingReps (records : Position → Result ByteView) (ns : HeapNodeStore)
    (reps : List Rep) (bounds : List (ByteView × ByteView)) : Prop where
  known : List.Forall₂ (RepBounds records ns) reps bounds
  increasing : bounds.IsChain (fun a b => a.2 < b.1)

/-- The first differing bits between neighbouring reps. -/
def gapDiffs : List (ByteView × ByteView) → List ℕ
  | a :: b :: bounds => firstDiff a.2 b.1 :: gapDiffs (b :: bounds)
  | _ => []

theorem length_gapDiffs (bounds : List (ByteView × ByteView)) :
    (gapDiffs bounds).length = bounds.length - 1 := by
  induction bounds with
  | nil => rfl
  | cons a bounds ih =>
    cases bounds with
    | nil => rfl
    | cons b bounds =>
      rw [gapDiffs, List.length_cons, ih]
      rfl

section Increasing

variable {records : Position → Result ByteView} {ns : HeapNodeStore} {reps : List Rep}
  {bounds : List (ByteView × ByteView)}

theorem diffBetweenReps_increasing {left right : Rep} {a b : ByteView × ByteView}
    (ha : RepBounds records ns left a) (hb : RepBounds records ns right b) (hlt : a.2 < b.1) :
    diffBetweenReps records ns left right = .ok (firstDiff a.2 b.1) := by
  obtain ⟨p, hp, hrp⟩ := ha.max
  obtain ⟨q, hq, hrq⟩ := hb.min
  have hcmp := compareAndDiffBit_eq ha.max_le hb.min_le
  rw [if_neg (ne_of_lt hlt), if_pos hlt] at hcmp
  rw [diffBetweenReps, hp]
  simp only [bind, Except.bind, hq, recordKey_ok hrp ha.max_le, recordKey_ok hrq hb.min_le, hcmp]
  rfl

/-- **`BuildDiffs` of reps in ascending order**, by induction on them. -/
theorem buildDiffs_increasing (h : IncreasingReps records ns reps bounds) :
    buildDiffs records ns reps = .ok (gapDiffs bounds) := by
  obtain ⟨hknown, hincreasing⟩ := h
  induction hknown with
  | nil => rfl
  | cons ha hrest ih =>
    cases hrest with
    | nil => rfl
    | cons hb hrest =>
      obtain ⟨hlt, hchain⟩ := List.isChain_cons_cons.mp hincreasing
      rw [buildDiffs, diffBetweenReps_increasing ha hb hlt]
      simp only [bind, Except.bind, ih hchain]
      rfl

end Increasing

/-! ### Cartesian trees -/

/-- The last of the smallest numbers of a list. -/
theorem exists_last_min (d : ℕ) (ds : List ℕ) : ∃ l e r, d :: ds = l ++ e :: r ∧
    (∀ x ∈ l, e ≤ x) ∧ ∀ x ∈ r, e < x := by
  induction ds generalizing d with
  | nil => exact ⟨[], d, [], rfl, fun _ hx => absurd hx List.not_mem_nil,
      fun _ hx => absurd hx List.not_mem_nil⟩
  | cons d' ds ih =>
    obtain ⟨l, e, r, heq, hl, hr⟩ := ih d'
    by_cases hlt : d < e
    · refine ⟨[], d, d' :: ds, rfl, fun _ hx => absurd hx List.not_mem_nil, fun x hx => ?_⟩
      rw [heq] at hx
      rcases List.mem_append.mp hx with hx | hx
      · exact lt_of_lt_of_le hlt (hl x hx)
      · rcases List.mem_cons.mp hx with rfl | hx
        · exact hlt
        · exact lt_trans hlt (hr x hx)
    · exact ⟨d :: l, e, r, congrArg (d :: ·) heq,
        List.forall_mem_cons.mpr ⟨Nat.not_lt.mp hlt, hl⟩, hr⟩

/-- **A list of diffs has a Cartesian tree**, by induction on its length. -/
theorem exists_cartesian (ds : List ℕ) : ∃ t : Tree, CartesianOrdered t ∧ t.diffs = ds := by
  induction hn : ds.length using Nat.strong_induction_on generalizing ds with
  | _ n ih =>
    cases ds with
    | nil => exact ⟨.leaf [] 0, trivial, rfl⟩
    | cons d ds =>
      obtain ⟨l, e, r, heq, hl, hr⟩ := exists_last_min d ds
      have hlength := congrArg List.length heq
      rw [List.length_append, List.length_cons, List.length_cons] at hlength
      rw [List.length_cons] at hn
      obtain ⟨left, hleft, rfl⟩ := ih l.length (by omega) l rfl
      obtain ⟨right, hright, rfl⟩ := ih r.length (by omega) r rfl
      exact ⟨.node e left right, ⟨hl, hr, hleft, hright⟩, heq.symm⟩

/-! ### The edge choice -/

/-- The range does not contain the slot. -/
def Avoids (slot : Int) (range : SplitRange) : Prop :=
  slot < range.start ∨ (range.start : Int) + range.count ≤ slot

section Edge

variable {t : Tree} {slot : Int}

/-- Every range the edge choice holds avoids the slot. -/
theorem visitEdgeSplit_avoids {n : ℕ} {best : Option SplitRange} {node start count : ℕ}
    (h : ∀ b ∈ best, Avoids slot b) :
    ∀ b ∈ visitEdgeSplit n slot best ⟨node, (start : ℕ), (start : ℕ) + (count : ℕ)⟩,
      Avoids slot b := by
  have hcount : ((start : Int) + (count : Int) - (start : Int)).toNat = count := by omega
  have hstart : (start : Int).toNat = start := Int.toNat_natCast start
  simp only [visitEdgeSplit, hcount, hstart]
  split
  · rename_i hrange
    have havoids : Avoids slot ⟨start, count⟩ := hrange.2.2
    cases best with
    | none => exact fun b hb => Option.some.inj hb ▸ havoids
    | some b₀ =>
      simp only
      split
      · exact fun b hb => Option.some.inj hb ▸ havoids
      · exact h
  · exact h

theorem visitEdgeSplit_keeps {n : ℕ} {best : Option SplitRange} {frame : RouteFrame}
    (h : best ≠ none) : visitEdgeSplit n slot best frame ≠ none := by
  obtain ⟨b, rfl⟩ := Option.ne_none_iff_exists'.mp h
  simp only [visitEdgeSplit]
  split
  · split <;> exact Option.some_ne_none _
  · exact Option.some_ne_none _

theorem visitEdgeSplit_takes {n : ℕ} {best : Option SplitRange} {node start count : ℕ}
    (htwo : 2 ≤ count) (hle : count ≤ n - 2) (h : Avoids slot ⟨start, count⟩) :
    visitEdgeSplit n slot best ⟨node, (start : ℕ), (start : ℕ) + (count : ℕ)⟩ ≠ none := by
  have hcount : ((start : Int) + (count : Int) - (start : Int)).toNat = count := by omega
  have hrange : slot < (start : Int) ∨ slot ≥ (start : Int) + (count : Int) := h
  simp only [visitEdgeSplit, hcount, hrange, and_self, htwo, hle, ge_iff_le, if_true]
  cases best with
  | none => exact Option.some_ne_none _
  | some b =>
    simp only
    split <;> exact Option.some_ne_none _

/-- **At an edge slot**, a range without the slot is chosen if there is one. -/
theorem chooseSplitRange_edge (h : CartesianOrdered t) (hw : 4 ≤ t.width)
    (hslot : slot = 0 ∨ slot = (t.width : Int) - 1) {range : SplitRange}
    (hrange : IsSplit t range) (havoids : Avoids slot range) :
    ∃ range', chooseSplitRange t.diffs t.width slot = .ok range' ∧ Avoids slot range' := by
  obtain ⟨c, s, hc, rfl, htwo, hle⟩ := hrange
  obtain ⟨d, l, r, rfl⟩ : ∃ d l r, s = .node d l r := by
    cases s with
    | leaf k v => simp [width] at htwo
    | page i s => simp [width] at htwo
    | node d l r => exact ⟨d, l, r, rfl⟩
  have hall := visitTree_inv (visitEdgeSplit t.width slot)
    (P := fun best => ∀ b ∈ best, Avoids slot b) t 0 none (fun b hb => by cases hb)
    (fun c d l r s' _ hs' => visitEdgeSplit_avoids hs')
  have hsome := visitTree_mem (visitEdgeSplit t.width slot) (Q := fun best => best ≠ none) t 0 none
    c d l r hc (fun s' frame hs' => visitEdgeSplit_keeps hs')
    (fun s' => visitEdgeSplit_takes htwo (by omega) (by rw [Nat.zero_add]; exact havoids))
  obtain ⟨best, hbest⟩ := Option.ne_none_iff_exists'.mp hsome
  refine ⟨best, ?_, hall best hbest⟩
  rw [chooseSplitRange, if_pos hslot, chooseEdgeSplitRange_eq h (by omega), hbest]

end Edge

/-! ### The sizes of written pages -/

/-- A call after which, if it returns, one page has been replaced by one of a certain size. -/
def Sets (m : IndexM Unit) (ix : Index) (id : UInt64) (size : ℕ) : Prop :=
  Prog.wp m (fun _ ix' => ∃ page : NodePage, page.size = size ∧
    ix'.nodes.page? = Function.update ix.nodes.page? id (some page)) (fun _ _ => True) ix

section Sets

variable {ix : Index} {id : UInt64} {size size' : ℕ} {records : Position → Result ByteView}

theorem sets_fails {m : IndexM Unit} {e : Fault StatusCode} {ix' : Index} (h : m ix = .error e ix') :
    Sets m ix id size := (Prog.wp_of_error h).mpr trivial

theorem sets_writePage {old : NodePage} (page : NodePage) (h : ix.nodes.page? id = some old) :
    Sets (writePage id page) ix id page.size := by
  obtain ⟨ns, hrun, _, hpages⟩ := writePage_run ix page h
  exact (Prog.wp_of_ok hrun).mpr ⟨page, rfl, hpages⟩

/-- A second write to the same page decides about its size. -/
theorem Sets.bind {m k : IndexM Unit} (h : Sets m ix id size)
    (hk : ∀ (ix' : Index) (page : NodePage), page.size = size → ix'.nodes.page? id = some page →
      Sets k ix' id size') : Sets (m >>= fun _ => k) ix id size' := by
  refine Prog.wp_seq h ?_ (fun _ _ _ => trivial)
  rintro _ ix' ⟨page, hsize, hpages⟩
  have hpage : ix'.nodes.page? id = some page := by rw [hpages, Function.update_self]
  refine Prog.wp_mono (hk ix' page hsize hpage) ?_ (fun _ _ _ => trivial)
  rintro _ ix'' ⟨page', hsize', hpages'⟩
  exact ⟨page', hsize', by rw [hpages', hpages, Function.update_idem]⟩

/-- A read in front of a call. -/
theorem sets_readNodes {α : Type} {f : HeapNodeStore → Result α} {k : α → IndexM Unit}
    (h : ∀ a, f ix.nodes = .ok a → Sets (k a) ix id size) : Sets (readNodes f >>= k) ix id size := by
  cases hf : f ix.nodes with
  | ok a =>
    rw [Sets, Prog.wp_bind, Prog.wp_of_ok (readNodes_run hf)]
    exact h a hf
  | error e =>
    have hrun : readNodes f ix = .error e ix := by
      rw [readNodes, hf]
      rfl
    exact sets_fails (Prog.bind_error hrun)

/-- A computation in front of a call. -/
theorem sets_ofOutcome {α : Type} {o : Result α} {k : α → IndexM Unit}
    (h : ∀ a, o = .ok a → Sets (k a) ix id size) : Sets (Prog.ofOutcome o >>= k) ix id size :=
  sets_readNodes (f := fun _ => o) h

theorem sets_rebuildRoutesWithDiffs {node : NodePage} (h : ix.nodes.page? id = some node)
    (diffs : List ℕ) : Sets (rebuildRoutesWithDiffs id diffs) ix id node.size := by
  refine sets_readNodes (fun page hpage => ?_)
  obtain rfl := Except.ok.inj ((HeapNodeStore.deref_eq h).symm.trans hpage)
  refine sets_ofOutcome (fun cartesian _ => sets_ofOutcome (fun written _ => ?_))
  have hsize : (setRoutes node diffs.length written).size = node.size := by rw [setRoutes]
  exact hsize ▸ sets_writePage (setRoutes node diffs.length written) h

theorem sets_rebuildBoundary {node : NodePage} (h : ix.nodes.page? id = some node) :
    Sets (rebuildBoundary id node) ix id node.size := by
  refine sets_ofOutcome (fun firstRep _ => sets_readNodes (fun firstPos _ => ?_))
  refine sets_ofOutcome (fun lastRep _ => sets_readNodes (fun lastPos _ => ?_))
  exact sets_writePage { node with firstPos := firstPos, lastPos := lastPos } h

/-- **`RebuildNode` keeps the size.** -/
theorem sets_rebuildNode {node : NodePage} (h : ix.nodes.page? id = some node) :
    Sets (rebuildNode records id) ix id node.size := by
  refine sets_readNodes (fun page hpage => ?_)
  obtain rfl := Except.ok.inj ((HeapNodeStore.deref_eq h).symm.trans hpage)
  split
  · exact sets_writePage _ h
  · refine (sets_rebuildBoundary h).bind (fun ix' page hsize hpage => ?_)
    split
    · refine sets_readNodes (fun page' hpage' => ?_)
      obtain rfl := Except.ok.inj ((HeapNodeStore.deref_eq hpage).symm.trans hpage')
      exact hsize ▸ sets_writePage (clearRoutes page) hpage
    · exact sets_readNodes (fun diffs _ => hsize ▸ sets_rebuildRoutesWithDiffs hpage diffs)

/-- **A list of reps written into a page.** -/
theorem sets_writeSmallNode (id : UInt64) (reps : List Rep) :
    Sets (writeSmallNode records id reps) ix id reps.length := by
  refine sets_readNodes (fun node hnode => ?_)
  have hpage : ix.nodes.page? id = some node := by
    cases hp : ix.nodes.page? id with
    | none =>
      rw [HeapNodeStore.get, hp] at hnode
      exact absurd hnode (by simp [err])
    | some page =>
      rw [HeapNodeStore.get_eq hp] at hnode
      rw [Except.ok.inj hnode]
  refine (sets_writePage (setReps node reps) hpage).bind (fun ix' page hsize hpage' => ?_)
  have hlength : page.size = reps.length := hsize
  exact hlength ▸ sets_rebuildNode hpage'

end Sets

/-! ### One split -/

/-- One turn of the loop of `SplitAndWriteNodeAt`, and the write behind it, on pages that are not
split again. -/
def splitOnce (alloc : IndexM UInt64) (records : Position → Result ByteView) (id : UInt64)
    (reps : List Rep) (range : SplitRange) : IndexM Unit := do
  let childId ← alloc
  writeSmallNode records childId ((reps.drop range.start).take range.count)
  let child ← derefNode childId
  if child.size = 0 then Prog.fail .corruptLayout
  else do
    let childRep ← Prog.ofOutcome (Rep.makeChild childId)
    writeSmallNode records id
      (reps.take range.start ++ childRep :: reps.drop (range.start + range.count))

/-- A page of an admitted size after a split. -/
def SplitPage (ix : Index) (id : UInt64) : Prop :=
  ∃ page, ix.nodes.page? id = some page ∧ 2 ≤ page.size ∧ page.size ≤ kMaxNodeReps

section Once

variable {records : Position → Result ByteView} {alloc : IndexM UInt64} {reps : List Rep}
  {range : SplitRange} {id : UInt64}

/-- The lengths of the two lists of a split of one rep too many. -/
theorem length_split (hn : reps.length = kMaxNodeReps + 1)
    (hin : range.start + range.count ≤ reps.length) (htwo : 2 ≤ range.count)
    (hle : range.count + 2 ≤ reps.length) (childRep : Rep) :
    ((reps.drop range.start).take range.count).length = range.count ∧
      range.count ≤ kMaxNodeReps ∧
      2 ≤ (reps.take range.start ++ childRep ::
        reps.drop (range.start + range.count)).length ∧
      (reps.take range.start ++ childRep ::
        reps.drop (range.start + range.count)).length ≤ kMaxNodeReps := by
  rw [List.length_take, List.length_drop, List.length_append, List.length_take, List.length_cons,
    List.length_drop]
  omega

/-- **`SplitAndWriteNodeAt` on one rep too many** is one turn: neither list is split again. -/
theorem splitAndWriteNodeAt_once {ix : Index} {slot : Int}
    (hn : reps.length = kMaxNodeReps + 1)
    (hrange : chooseSplitRangeOf records ix.nodes reps slot = .ok range)
    (hin : range.start + range.count ≤ reps.length) (htwo : 2 ≤ range.count)
    (hle : range.count + 2 ≤ reps.length) (fuel : ℕ) :
    splitAndWriteNodeAt alloc records (fuel + 3) id reps slot ix =
      splitOnce alloc records id reps range ix := by
  have hfour : ¬reps.length < 4 := by
    rw [hn]
    decide
  rw [chooseSplitRangeOf, if_neg hfour] at hrange
  cases hdiffs : buildDiffs records ix.nodes reps with
  | error e =>
    rw [hdiffs] at hrange
    exact absurd hrange (by simp [bind, Except.bind])
  | ok diffs =>
    rw [hdiffs] at hrange
    have hchosen : chooseSplitRange diffs reps.length slot = .ok range := hrange
    have hsmall : ∀ childId, writeNode alloc records (fuel + 2) childId
        ((reps.drop range.start).take range.count) =
        writeSmallNode records childId ((reps.drop range.start).take range.count) := fun childId => by
      obtain ⟨hlen, hmax, _⟩ := length_split hn hin htwo hle Rep.zero
      rw [writeNode, if_neg (by omega)]
    have hrest : ∀ childRep slot', splitAndWriteNodeAt alloc records (fuel + 2) id
        (reps.take range.start ++ childRep :: reps.drop (range.start + range.count)) slot' =
        writeSmallNode records id
          (reps.take range.start ++ childRep :: reps.drop (range.start + range.count)) :=
      fun childRep slot' => by
        obtain ⟨_, _, _, hmax⟩ := length_split hn hin htwo hle childRep
        rw [splitAndWriteNodeAt, if_neg (by omega), writeNode, if_neg (by omega)]
    rw [splitAndWriteNodeAt, if_pos (by omega), Prog.bind_ok (readNodes_run hdiffs),
      Prog.bind_ok (ofOutcome_run hchosen)]
    simp only [hsmall, hrest]
    rfl

/-- **Both pages of a split** have between two reps and as many as a page can have. -/
theorem splitOnce_pages {ix ix' : Index} (hn : reps.length = kMaxNodeReps + 1)
    (hin : range.start + range.count ≤ reps.length) (htwo : 2 ≤ range.count)
    (hle : range.count + 2 ≤ reps.length)
    (hrun : splitOnce alloc records id reps range ix = .ok () ix') :
    ∃ childId ix₁, alloc ix = .ok childId ix₁ ∧ SplitPage ix' id ∧ SplitPage ix' childId := by
  cases halloc : alloc ix with
  | error e ix₁ =>
    rw [splitOnce, Prog.bind_error halloc] at hrun
    exact absurd hrun (by simp)
  | ok childId ix₁ =>
    refine ⟨childId, ix₁, rfl, ?_⟩
    rw [splitOnce, Prog.bind_ok halloc] at hrun
    obtain ⟨hlen, hmax, _⟩ := length_split hn hin htwo hle Rep.zero
    have hwp : Prog.wp (writeSmallNode records childId ((reps.drop range.start).take range.count) >>=
        fun _ => derefNode childId >>= fun child =>
          if child.size = 0 then Prog.fail .corruptLayout
          else Prog.ofOutcome (Rep.makeChild childId) >>= fun childRep =>
            writeSmallNode records id
              (reps.take range.start ++ childRep :: reps.drop (range.start + range.count)))
        (fun _ ix' => SplitPage ix' id ∧ SplitPage ix' childId) (fun _ _ => True) ix₁ := by
      refine Prog.wp_seq (sets_writeSmallNode childId _) ?_ (fun _ _ _ => trivial)
      rintro _ ix₂ ⟨child, hsize, hpages⟩
      have hchild : ix₂.nodes.page? childId = some child := by rw [hpages, Function.update_self]
      rw [Prog.wp_bind, Prog.wp_of_ok (derefNode_run hchild)]
      split
      · trivial
      rw [Prog.wp_bind, Prog.wp_ofOutcome]
      refine ⟨fun childRep _ => ?_, fun _ _ => trivial⟩
      obtain ⟨_, _, hlo, hhi⟩ := length_split hn hin htwo hle childRep
      refine Prog.wp_mono (sets_writeSmallNode id _) ?_ (fun _ _ _ => trivial)
      rintro _ ix₃ ⟨page, hsize', hpages'⟩
      refine ⟨⟨page, by rw [hpages', Function.update_self], by omega, by omega⟩, ?_⟩
      by_cases hid : childId = id
      · exact ⟨page, by rw [hid, hpages', Function.update_self], by omega, by omega⟩
      · exact ⟨child, by rw [hpages', Function.update_of_ne hid, hchild], by omega, by omega⟩
    exact Prog.wp_run_ok hwp hrun

/-- **A split cuts out a subtree, and one split is enough.**  For reps in ascending order and every
insert slot, `ChooseSplitRange` returns the leaf range of one branch of the Cartesian tree of their
diffs with at least two reps inside and outside, chosen by the walk and not by its fallback; at an
edge slot it avoids the slot if some such range does.  With one rep too many for a page, the loop of
`SplitAndWriteNodeAt` then makes one turn and both pages have admitted sizes. -/
theorem split_cuts_out_subtree {ns : HeapNodeStore} {bounds : List (ByteView × ByteView)}
    (h : IncreasingReps records ns reps bounds) (hn : 4 ≤ reps.length) :
    (∃ t : Tree, CartesianOrdered t ∧ t.diffs = gapDiffs bounds) ∧
    ∀ t : Tree, CartesianOrdered t → t.diffs = gapDiffs bounds → t.width = reps.length ∧
      (∃ cartesian choice, buildCartesian t.diffs = .ok cartesian ∧
        foldFrames cartesian (visitSplit t.width) t.diffs.length [⟨cartesian.root, 0, t.width⟩]
          ⟨none, t.width, none⟩ = .ok choice ∧ choice.best ≠ none) ∧
      ∀ slot : Int, ∃ range, chooseSplitRangeOf records ns reps slot = .ok range ∧
        IsSplit t range ∧
        (slot = 0 ∨ slot = (reps.length : Int) - 1 →
          (∃ other, IsSplit t other ∧ Avoids slot other) → Avoids slot range) ∧
        (reps.length = kMaxNodeReps + 1 → ∀ (alloc : IndexM UInt64) (id : UInt64) (ix : Index)
          (fuel : ℕ), ix.nodes = ns →
          splitAndWriteNodeAt alloc records (fuel + 3) id reps slot ix =
            splitOnce alloc records id reps range ix ∧
          ∀ ix', splitOnce alloc records id reps range ix = .ok () ix' →
            ∃ childId ix₁, alloc ix = .ok childId ix₁ ∧ SplitPage ix' id ∧
              SplitPage ix' childId) := by
  refine ⟨exists_cartesian (gapDiffs bounds), fun t ht hdiffs => ?_⟩
  have hlength := List.Forall₂.length_eq h.known
  have hgaps := length_gapDiffs bounds
  have hwidth := length_diffs t
  rw [hdiffs] at hwidth
  have hw : t.width = reps.length := by omega
  have hchoose : ∀ slot, chooseSplitRangeOf records ns reps slot =
      chooseSplitRange t.diffs t.width slot := fun slot => by
    rw [chooseSplitRangeOf, if_neg (by omega), buildDiffs_increasing h, hdiffs, hw]
    rfl
  refine ⟨hw, ?_, fun slot => ?_⟩
  · obtain ⟨root, hroot⟩ := exists_rootAt (show 2 ≤ t.width by omega) 0
    exact ⟨_, _, buildCartesian_eq ht hroot, foldFrames_root hroot _ _,
      visitTree_best (by omega)⟩
  · obtain ⟨range, hrange, hsplit⟩ := chooseSplitRange_spec ht (by omega) slot
    obtain ⟨c, s, hc, hstart, htwo, hle⟩ := hsplit
    have hin : range.start + range.count ≤ reps.length := by
      have := Ctx.width_fill c s
      rw [hc] at this
      rw [hstart]
      show c.slot + s.width ≤ _
      have hleft : c.slot = c.leftItems.length := rfl
      omega
    refine ⟨range, (hchoose slot).trans hrange, ⟨c, s, hc, hstart, htwo, hle⟩,
      fun hslot hother => ?_, fun hfull alloc id ix fuel hix => ⟨?_, fun ix' hrun => ?_⟩⟩
    · obtain ⟨other, hsplit, havoids⟩ := hother
      obtain ⟨range', hrange', havoids'⟩ :=
        chooseSplitRange_edge ht (by omega) (hw ▸ hslot) hsplit havoids
      rwa [Except.ok.inj (hrange'.symm.trans hrange)] at havoids'
    · exact splitAndWriteNodeAt_once hfull (hix ▸ (hchoose slot).trans hrange) hin
        (by rw [hstart]; exact htwo) (by rw [hstart, ← hw]; exact hle) fuel
    · exact splitOnce_pages hfull hin (by rw [hstart]; exact htwo)
        (by rw [hstart, ← hw]; exact hle) hrun

/-- The reps of the first `n` numbered keys. -/
def numberedReps (n : ℕ) : List Rep := (List.range n).map fun i => ⟨UInt64.ofNat i⟩

theorem increasingReps_numbered {n : ℕ} (hn : n ≤ 2 ^ 16) (ns : HeapNodeStore) :
    IncreasingReps numberedRecords ns (numberedReps n)
      ((List.range n).map fun i => (numberedKey i, numberedKey i)) := by
  refine ⟨?_, List.Pairwise.isChain ?_⟩
  · rw [numberedReps, List.forall₂_map_left_iff, List.forall₂_map_right_iff, List.forall₂_same]
    intro i hi
    have hlt : i < 2 ^ 16 := lt_of_lt_of_le (List.mem_range.mp hi) hn
    have hpos : (UInt64.ofNat i).toNat < 2 ^ 63 := by
      rw [UInt64.toNat_ofNat_of_lt' (show i < 2 ^ 64 by omega)]
      omega
    have hknown := numberedRecords_ofNat (show i < 2 ^ 64 by omega)
    have htwo : (numberedKey i).length ≤ kMaxKeySize := show 2 ≤ kMaxKeySize by decide
    obtain ⟨hrecord, hposition⟩ := Rep.record_spec hpos
    have hmin : minPos ns ⟨UInt64.ofNat i⟩ = .ok (UInt64.ofNat i) := by
      rw [minPos, hrecord, hposition]
      rfl
    have hmax : maxPos ns ⟨UInt64.ofNat i⟩ = .ok (UInt64.ofNat i) := by
      rw [maxPos, hrecord, hposition]
      rfl
    exact ⟨⟨_, hmin, hknown⟩, ⟨_, hmax, hknown⟩, htwo, htwo⟩
  · rw [List.pairwise_map, List.pairwise_iff_getElem]
    intro i j hi hj hlt
    rw [List.length_range] at hj
    rw [List.getElem_range, List.getElem_range]
    exact numberedKey_lt hlt (by omega)

/-- The reps of a page and one more, split at the second one. -/
theorem split_cuts_out_subtree_numbered : ∃ (t : Tree) (range : SplitRange), t.width = 340 ∧
    chooseSplitRangeOf numberedRecords .new (numberedReps 340) 1 = .ok range ∧ IsSplit t range ∧
    ∀ (alloc : IndexM UInt64) (id : UInt64) (ix : Index), ix.nodes = .new →
      splitAndWriteNodeAt alloc numberedRecords 3 id (numberedReps 340) 1 ix =
        splitOnce alloc numberedRecords id (numberedReps 340) range ix ∧
      ∀ ix', splitOnce alloc numberedRecords id (numberedReps 340) range ix = .ok () ix' →
        ∃ childId ix₁, alloc ix = .ok childId ix₁ ∧ SplitPage ix' id ∧ SplitPage ix' childId := by
  have hlength : (numberedReps 340).length = 340 := by
    rw [numberedReps, List.length_map, List.length_range]
  obtain ⟨⟨t, ht, hdiffs⟩, hall⟩ := split_cuts_out_subtree
    (increasingReps_numbered (show 340 ≤ 2 ^ 16 by decide) .new) (by rw [hlength]; decide)
  obtain ⟨hwidth, _, hranges⟩ := hall t ht hdiffs
  obtain ⟨range, hrange, hsplit, _, hfull⟩ := hranges 1
  exact ⟨t, range, hwidth.trans hlength, hrange, hsplit, fun alloc id ix hix =>
    hfull (hlength.trans rfl) alloc id ix 0 hix⟩

end Once

end MinweightStore.Minpatricia
