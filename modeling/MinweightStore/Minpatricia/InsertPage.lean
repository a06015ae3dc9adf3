import MinweightStore.Minpatricia.Represents

/-!
# A page with one more item

The three ways a page takes a new record, and where it does so.

* `insertSlotFromPath_eq` — the target is the first page on the way with a branch above the new
  difference, or the last page; `exists_insertTarget` — a record there keeps the tree valid;
* `insertAtIncremental_eq` — a page with room;
* `promoteSibling_eq` — a full page gives half of itself to its parent;
* `splitAndWriteNodeAt_eq` — a full page moves a subtree to a new page.

The only error on the way is a node store without a free page number below the tag bit, and then
nothing has changed.
-/

namespace MinweightStore.Minpatricia

open BitKey PagedTree

/-! ### The slot of a new key -/

/-- The frames of a path, the root's page first. -/
def rootFrames (w : TreePath) : List PutFrame := w.map fun ci => ⟨ci.2, ci.1.slot⟩

theorem rootFrames_eq (z : TreePath) : rootFrames z.reverse = (framesOf z).reverse :=
  List.map_reverse

/-- **The target page.**  The walk stops at the first page with a branch above the difference, or
at the page the key ends in; all turns before it are below the difference. -/
theorem insertSlotFromPath_eq (ns : HeapNodeStore) {key k : ByteView} {v : Position} {δ : ℕ}
    {cmp : Int} (hcmp : cmp < 0 ↔ bit key δ = false) : ∀ (w : TreePath) (n : ℕ), w ≠ [] →
    Stored ns.page? (Path.fill w.reverse (.leaf k v)) →
    (Path.fill w.reverse (.leaf k v)).Valid → Sized (Path.fill w.reverse (.leaf k v)) →
    Path.Along key w →
    ∃ w₁ c i w₂, w = w₁ ++ (c, i) :: w₂ ∧
      insertSlotFromPath ns key cmp δ n (rootFrames w) = .ok ⟨n + w₁.length,
        (c.fill (Path.fill w₂.reverse (.leaf k v))).insertSlot key δ⟩ ∧
      TakesInsert key δ (c.fill (Path.fill w₂.reverse (.leaf k v))) ∧
      ∀ ci ∈ w₁, ∀ d ∈ ci.1.turns, d ≤ δ
  | [], _, hne, _, _, _, _ => absurd rfl hne
  | (c, i) :: rest, n, _, hst, hv, hs, hal => by
    have htree : Path.fill ((c, i) :: rest).reverse (.leaf k v)
        = .page i (c.fill (Path.fill rest.reverse (.leaf k v))) := by
      rw [List.reverse_cons, Path.fill_append]
      rfl
    rw [htree] at hst hv hs
    have hitem : (Path.fill rest.reverse (.leaf k v) : Tree).IsItem := by
      cases rest with
      | nil => trivial
      | cons next rest =>
        rw [List.reverse_cons, Path.fill_append]
        trivial
    have hctx := slotCtx_of_along hitem (hal _ List.mem_cons_self)
    have habove := insertSlotAbovePath_eq key (δ := δ)
      (hasRoutes_pageOf hst.1.width_le hv hs)
    rw [hctx] at habove
    rw [rootFrames, List.map_cons, insertSlotFromPath.eq_def]
    simp only [HeapNodeStore.get_eq hst.1.page_eq, bind, Except.bind, habove]
    by_cases ha : (c.fill (Path.fill rest.reverse (.leaf k v))).HasAbove key δ
    · rw [if_pos ha]
      exact ⟨[], c, i, rest, rfl, rfl, Or.inl ha, fun ci hci => absurd hci List.not_mem_nil⟩
    · rw [if_neg ha]
      have hturns := turns_le_of_not_hasAbove ha
      have hslot := insertSlot_of_not_hasAbove ha
      rw [hctx] at hturns hslot
      cases rest with
      | nil =>
        refine ⟨[], c, i, [], rfl, ?_, Or.inr ⟨k, v, ?_⟩, fun ci hci => absurd hci List.not_mem_nil⟩
        · show (if cmp < 0 then (Except.ok ⟨n, c.slot⟩ : Result InsertSlot)
            else .ok ⟨n, c.slot + 1⟩) = _
          simp only [List.reverse_nil, Path.fill] at hslot ⊢
          rw [hslot, List.length_nil]
          by_cases hb : bit key δ = false
          · rw [if_pos (hcmp.mpr hb), if_neg (by rw [hb]; decide), Nat.add_zero]
            rfl
          · rw [if_neg (fun h => hb (hcmp.mp h)), if_pos (by simpa using hb)]
            rfl
        · rw [hctx]
          rfl
      | cons next rest =>
        have hrest := ((Ctx.allPages_fill c _).mp hst.2).1
        have hvrest := Valid.of_fill (c := c) hv
        have hsrest : Sized (Path.fill (next :: rest).reverse (.leaf k v)) :=
          hs.of_subset (fun e he => mem_entries_fill.mpr (Or.inr (Or.inl he)))
        obtain ⟨w₁, c', i', w₂, hw, hrun, htake, hle⟩ := insertSlotFromPath_eq ns hcmp
          (next :: rest) (n + 1) (List.cons_ne_nil _ _) hrest hvrest hsrest
          (fun ci hci => hal ci (List.mem_cons_of_mem _ hci))
        refine ⟨(c, i) :: w₁, c', i', w₂, by rw [hw]; rfl, ?_, htake, ?_⟩
        · simp only [List.map_cons, Bool.false_eq_true, if_false]
          rw [rootFrames, List.map_cons] at hrun
          rw [hrun, List.length_cons, show n + 1 + w₁.length = n + (w₁.length + 1) by omega]
        · intro ci hci
          rcases List.mem_cons.mp hci with rfl | hci
          · exact hturns
          · exact hle ci hci

/-- **Where a new key goes**: the page of a held tree that takes it, with the way there, and the
tree with a record beside the slot. -/
structure InsertTarget (ns : HeapNodeStore) (key k : ByteView) (w : TreePath) (t : Tree)
    (w₁ : TreePath) (c : TreeCtx) (i : UInt64) (w₂ : TreePath) (s : Tree) : Prop where
  path_eq : w = w₁ ++ (c, i) :: w₂
  slot_eq : insertSlotFromPath ns key (compareKeys key k) (firstDiff key k) 0 (rootFrames w)
    = .ok ⟨w₁.length, s.insertSlot key (firstDiff key k)⟩
  fill_eq : Path.fill w₁.reverse (.page i s) = t
  valid : ∀ v : Position,
    (Path.fill w₁.reverse (.page i (insertPage key (firstDiff key k) (.leaf key v) s))).Valid

/-- The walk of `InsertSlotFromPath` finds the place of a key that is not there. -/
theorem exists_insertTarget {ns : HeapNodeStore} {key k : ByteView} {v : Position} {w : TreePath}
    (h : Holds ns.page? (Path.fill w.reverse (.leaf k v))) (hne : w ≠ [])
    (halong : Path.Along key w) (hkk : key ≠ k) : ∃ w₁ c i w₂ s,
    InsertTarget ns key k w (Path.fill w.reverse (.leaf k v)) w₁ c i w₂ s := by
  obtain ⟨w₁, c, i, w₂, hw, hrun, htake, hle⟩ := insertSlotFromPath_eq ns
    (compareKeys_neg_bit hkk) w 0 hne h.stored h.valid h.sized halong
  have hfill : Path.fill w₁.reverse (.page i (c.fill (Path.fill w₂.reverse (.leaf k v))))
      = Path.fill w.reverse (.leaf k v) := by
    rw [hw, List.reverse_append, List.reverse_cons, List.append_assoc, Path.fill_append]
    rfl
  have halong₁ : Path.Along key w₁.reverse := by
    intro ci hci
    refine halong ci ?_
    rw [hw]
    exact List.mem_append_left _ (List.mem_reverse.mp hci)
  have hnear : Near key (firstDiff key k) (c.fill (Path.fill w₂.reverse (.leaf k v)) : Tree) := by
    have hfind : (Path.fill w.reverse (.leaf k v) : Tree).find key = (k, v) :=
      Path.find_fill (fun ci hci => halong ci (List.mem_reverse.mp hci))
    rw [← hfill, Path.find_fill halong₁] at hfind
    unfold Near
    rw [show (c.fill (Path.fill w₂.reverse (.leaf k v)) : Tree).find key = (k, v) from hfind]
    exact near_firstDiff hkk
  refine ⟨w₁, c, i, w₂, _, hw, ?_, hfill, fun v' => ?_⟩
  · rw [hrun, Nat.zero_add]
  · exact Path.Valid.fill_insertPage (hfill ▸ h.valid) halong₁ hnear htake
      (fun ci hci => hle ci (List.mem_reverse.mp hci))

/-! ### A page with room -/

section Incremental

variable {alloc : IndexM UInt64} {records : Position → Result ByteView} {ix : Index} {id : UInt64}
  {s : Tree} {key : ByteView} {pos : Position} {δ : ℕ}

theorem minPos_record {ns : HeapNodeStore} (hp : pos.toNat < 2 ^ 63) :
    minPos ns ⟨pos⟩ = .ok pos := by
  obtain ⟨h1, h2⟩ := Rep.record_spec hp
  rw [minPos, h1, h2]
  rfl

theorem maxPos_record {ns : HeapNodeStore} (hp : pos.toNat < 2 ^ 63) :
    maxPos ns ⟨pos⟩ = .ok pos := by
  obtain ⟨h1, h2⟩ := Rep.record_spec hp
  rw [maxPos, h1, h2]
  rfl

theorem minPosIf_record {ns : HeapNodeStore} (hp : pos.toNat < 2 ^ 63) (cond : Prop)
    [Decidable cond] (known : Position) :
    minPosIf ns cond ⟨pos⟩ known = .ok (if cond then pos else known) := by
  unfold minPosIf
  split
  · exact minPos_record hp
  · rfl

theorem maxPosIf_record {ns : HeapNodeStore} (hp : pos.toNat < 2 ^ 63) (cond : Prop)
    [Decidable cond] (known : Position) :
    maxPosIf ns cond ⟨pos⟩ known = .ok (if cond then pos else known) := by
  unfold maxPosIf
  split
  · exact maxPos_record hp
  · rfl

/-- The reps of the larger page. -/
theorem shiftUp_repTable {new : Tree} (hnew : new.IsItem) (s : Tree) :
    (shiftUp (repTable s.items) (s.insertSlot key δ) s.width).setIfInBounds (s.insertSlot key δ)
        (repOf new) = repTable (insertPage key δ new s).items := by
  have hle := insertSlot_le key δ s
  have hlen := length_items s
  have hpos : s.insertSlot key δ ≤ (s.items.map repOf).length := by
    rw [List.length_map]
    omega
  have := shiftUp_pad Rep.zero _ (n := kMaxNodeReps) (repOf new) hpos
  rw [List.length_map, hlen] at this
  rw [repTable, repTable, this, items_insertPage hnew, ← List.map_insertIdx,
    insertIdx_eq_take_drop _ (by omega)]

variable (alloc records key pos) in
/-- **`InsertAtIncremental`** on a page that is not empty and has room. -/
theorem insertAtIncremental_eq (hpage : ix.nodes.page? id = some (pageOf s))
    (hw : s.width < kMaxNodeReps) (hv : s.Valid) (hs : Sized s) (hp : pos.toNat < 2 ^ 63) :
    WritesPage (insertAtIncremental alloc records id (s.insertSlot key δ) ⟨pos⟩ key δ) ix id
      (pageOf (insertPage key δ (.leaf key pos) s)) := by
  have hs1 := width_pos s
  have hle := insertSlot_le key δ s
  have hroute := insertRoute_eq key (.leaf key pos) (δ := δ)
    (hasRoutes_pageOf hw.le hv hs) trivial hw
  have hnew : (PagedTree.leaf key pos : Tree).IsItem := trivial
  have hwrite := writesPage_writePage (pageOf (insertPage key δ (.leaf key pos) s)) hpage
  have hpageEq : pageOf (insertPage key δ (.leaf key pos) s) = {
      routes := routeTable (insertPage key δ (.leaf key pos) s).preorder
      reps := (shiftUp (pageOf s).reps (s.insertSlot key δ) s.width).setIfInBounds
        (s.insertSlot key δ) ⟨pos⟩
      size := s.width + 1
      firstPos := if s.width = 0 ∨ s.insertSlot key δ = 0 then pos else s.first
      lastPos := if s.width = 0 ∨ s.insertSlot key δ = s.width then pos else s.last } := by
    have h0 : ¬ s.width = 0 := by omega
    rw [pageOf, pageOf_reps, first_insertPage hnew, last_insertPage hnew, width_insertPage hnew]
    rw [show (⟨pos⟩ : Rep) = repOf (.leaf key pos) from rfl, shiftUp_repTable hnew]
    simp only [h0, false_or, first, last]
  unfold WritesPage insertAtIncremental
  rw [Prog.bind_ok (nodeByID_run hpage), pageOf_size, if_neg (by omega), if_neg (by omega),
    Prog.bind_ok (readNodes_run (minPosIf_record hp _ _)),
    Prog.bind_ok (readNodes_run (maxPosIf_record hp _ _)),
    if_neg (by omega), Prog.bind_ok (ofOutcome_run hroute)]
  rw [hpageEq] at hwrite ⊢
  exact hwrite

variable (alloc records key pos) in
/-- `InsertAtIncremental` into the empty root page. -/
theorem insertAtIncremental_empty (hpage : ix.nodes.page? id = some NodePage.empty)
    (hp : pos.toNat < 2 ^ 63) :
    WritesPage (insertAtIncremental alloc records id 0 ⟨pos⟩ key δ) ix id
      (pageOf (.leaf key pos)) := by
  have hwrite := writesPage_writePage (pageOf (.leaf key pos : Tree)) hpage
  have hreps : (shiftUp NodePage.empty.reps 0 0).setIfInBounds 0 ⟨pos⟩
      = repTable (PagedTree.leaf key pos : Tree).items := by
    have := shiftUp_pad Rep.zero 0 (n := kMaxNodeReps) (l := [])
      (repOf (.leaf key pos)) (le_refl 0)
    have hempty : NodePage.empty.reps = pad kMaxNodeReps Rep.zero [] := by
      apply pad_ext
      intro i hi
      rw [NodePage.empty, Vector.getElem_replicate]
      rfl
    rw [hempty]
    exact this
  have hroutes : NodePage.empty.routes = routeTable [] := by
    apply pad_ext
    intro i hi
    rw [NodePage.empty, Vector.getElem_replicate]
    rfl
  have hpageEq : pageOf (.leaf key pos : Tree) = { NodePage.empty with
      reps := (shiftUp NodePage.empty.reps 0 NodePage.empty.size).setIfInBounds 0 ⟨pos⟩
      size := NodePage.empty.size + 1
      firstPos := if NodePage.empty.size = 0 ∨ 0 = 0 then pos else NodePage.empty.firstPos
      lastPos := if NodePage.empty.size = 0 ∨ 0 = NodePage.empty.size then pos
        else NodePage.empty.lastPos } := by
    rw [show NodePage.empty.size = 0 from rfl, hreps, if_pos (Or.inl rfl), if_pos (Or.inl rfl)]
    simp only [hroutes]
    rfl
  unfold WritesPage insertAtIncremental
  rw [Prog.bind_ok (nodeByID_run hpage), if_neg (by decide), if_neg (by decide),
    Prog.bind_ok (readNodes_run (minPosIf_record hp _ _)),
    Prog.bind_ok (readNodes_run (maxPosIf_record hp _ _)), if_pos (by rfl),
    Prog.bind_ok (ofOutcome_run rfl), ← hpageEq]
  exact hwrite

end Incremental

/-! ### A full page -/

/-- The identifiers beside the hole of a page of a held tree differ from the page's own. -/
theorem update_ne {pages : Pages} {i j : UInt64} {x : Option NodePage} (h : j ≠ i) :
    Function.update pages i x j = pages j := Function.update_of_ne h _ _

/-- A new element behind the one that follows a list. -/
theorem take_insert_drop {α : Type} (l r : List α) (x y : α) :
    (l ++ [x] ++ r).take (l.length + 1) ++ y :: (l ++ [x] ++ r).drop (l.length + 1)
      = l ++ ([x] ++ [y]) ++ r := by
  have h : (l ++ [x]).length = l.length + 1 := by rw [List.length_append]; rfl
  rw [List.take_left' h, List.drop_left' h]
  simp

section Full

variable {alloc : IndexM UInt64} {records : Position → Result ByteView} {ix : Index} {grow : ℕ}

/-- The call has changed nothing: there was no page to be had, or a key could not be read. -/
def Refused {α : Type} (alloc : IndexM UInt64) (known : Prop) (m : IndexM α) (ix : Index) : Prop :=
  ∃ code, m ix = .error (.status code) ix ∧ (alloc ix = .error (.status code) ix ∨ ¬ known)

theorem Refused.mono {α : Type} {P Q : Prop} {m : IndexM α} (h : Refused alloc P m ix)
    (himp : Q → P) : Refused alloc Q m ix := by
  obtain ⟨code, hrun, hwhy⟩ := h
  exact ⟨code, hrun, hwhy.imp_right fun hp hq => hp (himp hq)⟩

/-- The pages after a page has taken a sibling beside one of its children. -/
structure Promoted (pages pages' : Pages) (pid id j : UInt64) (c : TreeCtx) (d : ℕ)
    (l r : Tree) : Prop where
  parent : PageAt pages' pid (c.fill (.node d (.page id l) (.page j r)))
  left : PageAt pages' id l
  right : PageAt pages' j r
  other : ∀ x, x ≠ pid → x ≠ id → x ≠ j → pages' x = pages x

/-- **`PromoteSibling`**: the root branch of the full child moves into the parent. -/
theorem promoteSibling_eq {pid id : UInt64} {c : TreeCtx} {s l r : Tree} {d : ℕ}
    (hparent : PageAt ix.nodes.page? pid (c.fill (.page id s)))
    (hroom : (c.fill (.page id s)).width < kMaxNodeReps)
    (hvp : (c.fill (.page id s)).Valid) (hsp : Sized (c.fill (.page id s)))
    (hchild : PageAt ix.nodes.page? id s)
    (hw : (PagedTree.node d l r).width = kMaxNodeReps + 1)
    (hv : (c.fill (.page id (.node d l r))).Valid)
    (hs : Sized (c.fill (.page id (.node d l r))))
    (hk : KnowsOrFails records (.node d l r)) (ha : AllocAt alloc grow ix)
    (hst : Stored ix.nodes.page? (.node d l r)) (hrest : c.AllRest (PageAt ix.nodes.page?))
    (hpid : pid ≠ id) (hnp : pid ∉ (PagedTree.node d l r : Tree).ids ++ (c.leftIds ++ c.rightIds))
    (hni : id ∉ (PagedTree.node d l r : Tree).ids ++ (c.leftIds ++ c.rightIds)) :
    (∃ j ns, promoteSibling alloc records pid c.slot id
        ((PagedTree.node d l r : Tree).items.map repOf) ix = .ok () { ix with nodes := ns } ∧ ix.nodes.page? j = none ∧
      ns.nodes.length ≤ ix.nodes.nodes.length + grow ∧
      Promoted ix.nodes.page? ns.page? pid id j c d l r) ∨
    Refused alloc (Knows records (.node d l r))
      (promoteSibling alloc records pid c.slot id ((PagedTree.node d l r : Tree).items.map repOf))
      ix := by
  have hl1 := width_pos l
  have hr1 := width_pos r
  have hld := length_diffs l
  have hli := length_items l
  have hwn : (PagedTree.node d l r).width = l.width + r.width := rfl
  have hlen : ((PagedTree.node d l r : Tree).items.map repOf).length = kMaxNodeReps + 1 := by
    rw [List.length_map, length_items, hw]
  have hvs : (PagedTree.node d l r : Tree).Valid := Valid.of_fill (c := c) (s := .page id _) hv
  have hss : Sized (.node d l r) := hs.of_subset
    (fun e he => mem_entries_fill.mpr (Or.inr (Or.inl he)))
  have hsl : Sized l := hss.of_subset (fun e he => List.mem_append_left _ he)
  have hsr : Sized r := hss.of_subset (fun e he => List.mem_append_right _ he)
  have hnl : ∀ x, x ∈ l.ids → x ∈ (PagedTree.node d l r : Tree).ids ++ (c.leftIds ++ c.rightIds) :=
    fun x hx => List.mem_append_left _ (List.mem_append_left _ hx)
  have hnr : ∀ x, x ∈ r.ids → x ∈ (PagedTree.node d l r : Tree).ids ++ (c.leftIds ++ c.rightIds) :=
    fun x hx => List.mem_append_left _ (List.mem_append_right _ hx)
  have hslot := slot_lt_width c (.page id s)
  obtain ⟨hisc, hcid⟩ := repOf_page (t := s) hchild.id_lt
  have hrep : (pageOf (c.fill (.page id s))).repAt c.slot = .ok (repOf (.page id s)) :=
    repAt_slot (by exact trivial) hparent.width_le
  -- every key is read before a page is taken
  rcases (buildDiffs_cases ix.nodes hvs hst hss hk).symm with ⟨hunknown, code, hdiffs⟩ | ⟨_, hdiffs⟩
  · right
    refine ⟨code, ?_, Or.inr hunknown⟩
    rw [promoteSibling, if_neg (by omega), Prog.bind_ok (nodeByID_run hparent.page_eq), pageOf_size,
      if_neg (by omega), Prog.bind_ok (ofOutcome_run hrep), hisc, hcid, if_neg (by simp),
      Prog.bind_error (readNodes_err hdiffs)]
  have hcart := buildCartesian_eq (heapOrdered_of_valid hvs).cartesian
    (show rootAt 0 (PagedTree.node d l r) = some (0 + l.diffs.length) from rfl)
  have hcall : promoteSibling alloc records pid c.slot id
        ((PagedTree.node d l r : Tree).items.map repOf) ix = (do
      let siblingId ← alloc
      writeNodeWithDiffs id (l.items.map repOf) l.diffs
      writeNodeWithDiffs siblingId (r.items.map repOf) r.diffs
      let siblingRep ← Prog.ofOutcome (Rep.makeChild siblingId)
      let parent ← derefNode pid
      let oldDiffs ← Prog.ofOutcome (parent.routeDiffs (List.replicate (parent.size - 1) 0))
      writeNodeWithDiffs pid
        (parent.repList.take (c.slot + 1) ++ siblingRep :: parent.repList.drop (c.slot + 1))
        (oldDiffs.take c.slot ++ d :: oldDiffs.drop c.slot) : IndexM Unit) ix := by
    have htake : ((PagedTree.node d l r : Tree).items.map repOf).take (0 + l.diffs.length + 1)
        = l.items.map repOf := by
      rw [items, List.map_append, List.take_left' (by rw [List.length_map]; omega)]
    have hdrop : ((PagedTree.node d l r : Tree).items.map repOf).drop (0 + l.diffs.length + 1)
        = r.items.map repOf := by
      rw [items, List.map_append, List.drop_left' (by rw [List.length_map]; omega)]
    have hdtake : (PagedTree.node d l r : Tree).diffs.take (0 + l.diffs.length + 1 - 1) = l.diffs := by
      rw [diffs, Nat.add_sub_cancel, Nat.zero_add, List.take_left]
    have hddrop : (PagedTree.node d l r : Tree).diffs.drop (0 + l.diffs.length + 1) = r.diffs := by
      rw [diffs, Nat.zero_add, List.drop_append, List.drop_of_length_le (by omega),
        Nat.add_sub_cancel_left]
      rfl
    have hsplit : (PagedTree.node d l r : Tree).diffs.getD (0 + l.diffs.length) 0 = d := by
      rw [diffs, Nat.zero_add, List.getD_eq_getElem?_getD, List.getElem?_append_right (le_refl _),
        Nat.sub_self]
      rfl
    rw [promoteSibling, if_neg (by omega), Prog.bind_ok (nodeByID_run hparent.page_eq), pageOf_size,
      if_neg (by omega), Prog.bind_ok (ofOutcome_run hrep), hisc, hcid, if_neg (by simp),
      Prog.bind_ok (readNodes_run hdiffs), Prog.bind_ok (ofOutcome_run hcart)]
    simp only [cartesianOf, htake, hdrop, hdtake, hddrop, hsplit]
  rw [hcall]
  rcases ha with ⟨j, ns₁, halloc, hnone, hlen₁, hp₁⟩ | ⟨code, halloc⟩
  · left
    have hne : ∀ x, (ix.nodes.page? x).isSome → x ≠ j := by
      rintro x hx rfl
      rw [hnone] at hx
      exact absurd hx (by decide)
    have hidj : id ≠ j := hne id (by rw [hchild.page_eq]; rfl)
    have hpj : pid ≠ j := hne pid (by rw [hparent.page_eq]; rfl)
    have hjl : j ∉ l.ids := fun h => hne j (Stored.isSome hst.1 h) rfl
    have hjr : j ∉ r.ids := fun h => hne j (Stored.isSome hst.2 h) rfl
    have hjc : j ∉ c.leftIds ++ c.rightIds := by
      intro h
      rw [Ctx.leftIds, Ctx.rightIds, ← List.flatMap_append] at h
      obtain ⟨x, hx, hj⟩ := List.mem_flatMap.mp h
      exact hne j (Stored.isSome (hrest x hx) hj) rfl
    have hjlt : j.toNat < 2 ^ 63 := HeapNodeStore.toNat_lt_of_page? ns₁
      (by rw [hp₁, Function.update_self])
    -- the left half over the child's page
    have hl_st : Stored ns₁.page? l := by
      rw [hp₁]
      exact Stored.update hst.1 hjl
    obtain ⟨ns₂, hrun₂, hlen₂, hp₂⟩ := writeNodeWithDiffs_eq { ix with nodes := ns₁ } id (pageOf s) (t := l)
      (by show ns₁.page? id = _; rw [hp₁, update_ne hidj]; exact hchild.page_eq) (by omega)
      hvs.2.1 hsl hl_st (fun h => hni (hnl id h))
    -- the right half into the new page
    have hr_st : Stored ns₂.page? r := by
      rw [hp₂]
      refine Stored.update ?_ (fun h => hni (hnr id h))
      show Stored ns₁.page? r
      rw [hp₁]
      exact Stored.update hst.2 hjr
    obtain ⟨ns₃, hrun₃, hlen₃, hp₃⟩ := writeNodeWithDiffs_eq { ix with nodes := ns₂ } j NodePage.empty (t := r)
      (by
        show ns₂.page? j = _
        rw [hp₂, update_ne hidj.symm]
        show ns₁.page? j = _
        rw [hp₁, Function.update_self])
      (by omega) hvs.2.2 hsr hr_st hjr
    have hpar₃ : ns₃.page? pid = some (pageOf (c.fill (.page id s))) := by
      rw [hp₃, update_ne hpj]
      show ns₂.page? pid = _
      rw [hp₂, update_ne hpid]
      show ns₁.page? pid = _
      rw [hp₁, update_ne hpj]
      exact hparent.page_eq
    have hid₃ : PageAt ns₃.page? id l := by
      rw [hp₃]
      refine PageAt.update ?_ hidj
      show PageAt ns₂.page? id l
      rw [hp₂]
      exact pageAt_update_self (by omega) hchild.id_lt
    have hj₃ : PageAt ns₃.page? j r := by
      rw [hp₃]
      exact pageAt_update_self (by omega) hjlt
    -- the parent with the branch and both halves
    have hold : (pageOf (c.fill (.page id s))).routeDiffs
        (List.replicate ((c.fill (.page id s)).width - 1) 0)
        = .ok (c.leftDiffs ++ c.rightDiffs) := by
      have hwp := width_pos (c.fill (.page id s))
      rw [routeDiffs_eq _ (hasRoutes_pageOf hparent.width_le hvp hsp).routed
        (by rw [List.length_replicate]; omega), Ctx.diffs_fill]
      simp [diffs]
    have hslotd : c.leftDiffs.length = c.slot := Ctx.length_leftDiffs c
    have hnewDiffs : (c.leftDiffs ++ c.rightDiffs).take c.slot ++ d
        :: (c.leftDiffs ++ c.rightDiffs).drop c.slot
        = (c.fill (.node d (.page id l) (.page j r))).diffs := by
      rw [← hslotd, List.take_left, List.drop_left, Ctx.diffs_fill]
      simp [diffs]
    have hnewReps : (pageOf (c.fill (.page id s))).repList.take (c.slot + 1) ++ ⟨kChildTag ||| j⟩
        :: (pageOf (c.fill (.page id s))).repList.drop (c.slot + 1)
        = (c.fill (.node d (.page id l) (.page j r))).items.map repOf := by
      have hleft : (c.leftItems.map repOf).length = c.slot := by rw [List.length_map]; rfl
      rw [repList_pageOf hparent.width_le, Ctx.items_fill, Ctx.items_fill]
      simp only [items, List.map_append, List.map_cons, List.map_nil]
      rw [← hleft, take_insert_drop]
      rfl
    have hvnew : (c.fill (.node d (.page id l) (.page j r))).Valid :=
      Valid.fill_congr hv hvs (fun e he => ⟨e, he, rfl⟩)
    have hsnew : Sized (c.fill (.node d (.page id l) (.page j r))) := by
      refine hs.of_subset (fun e he => ?_)
      rw [mem_entries_fill] at he ⊢
      exact he
    have hwnew : (c.fill (.node d (.page id l) (.page j r))).width
        = (c.fill (.page id s)).width + 1 := by
      rw [Ctx.width_fill, Ctx.width_fill]
      simp only [width]
      omega
    have hr3 : ∀ x, x ≠ id → x ≠ j → ns₃.page? x = ix.nodes.page? x := by
      intro x h1 h2
      rw [hp₃, update_ne h2]
      show ns₂.page? x = _
      rw [hp₂, update_ne h1]
      show ns₁.page? x = _
      rw [hp₁, update_ne h2]
    have hst_new : Stored ns₃.page? (c.fill (.node d (.page id l) (.page j r))) := by
      refine (Ctx.allPages_fill c _).mpr ⟨⟨⟨hid₃, ?_⟩, ⟨hj₃, ?_⟩⟩, ?_⟩
      · exact Stored.congr hst.1 (fun x hx => hr3 x (fun h => hni (h ▸ hnl x hx)) (fun h => hjl (h ▸ hx)))
      · exact Stored.congr hst.2 (fun x hx => hr3 x (fun h => hni (h ▸ hnr x hx)) (fun h => hjr (h ▸ hx)))
      · exact allRest_congr hrest (fun x hx => hr3 x
          (fun h => hni (h ▸ List.mem_append_right _ hx)) (fun h => hjc (h ▸ hx)))
    have hpnew : pid ∉ (c.fill (.node d (.page id l) (.page j r)) : Tree).ids := by
      rw [Ctx.ids_fill]
      simp only [ids, List.mem_append, List.mem_cons, not_or] at hnp ⊢
      tauto
    obtain ⟨ns₄, hrun₄, hlen₄, hp₄⟩ := writeNodeWithDiffs_eq { ix with nodes := ns₃ } pid _ (t := c.fill (.node d (.page id l) (.page j r))) hpar₃ (by omega) hvnew hsnew
      hst_new hpnew
    refine ⟨j, ns₄, ?_, hnone, ?_, ?_⟩
    · rw [Prog.bind_ok halloc, Prog.bind_ok hrun₂, Prog.bind_ok hrun₃,
        Prog.bind_ok (ofOutcome_run (Rep.makeChild_eq hjlt)), Prog.bind_ok (derefNode_run hpar₃),
        pageOf_size, Prog.bind_ok (ofOutcome_run hold), hnewReps, hnewDiffs]
      exact hrun₄
    · simp only at hlen₂ hlen₃ hlen₄
      omega
    · refine ⟨?_, ?_, ?_, ?_⟩
      · rw [hp₄]
        exact pageAt_update_self (by omega) hparent.id_lt
      · rw [hp₄]
        exact hid₃.update hpid.symm
      · rw [hp₄]
        exact hj₃.update hpj.symm
      · intro x h1 h2 h3
        rw [hp₄, update_ne h1]
        exact hr3 x h2 h3
  · right
    exact ⟨code, by rw [hcall]; exact Prog.bind_error halloc, Or.inl halloc⟩

/-- The pages after a subtree of a page has moved to a page of its own. -/
structure SplitOff (pages pages' : Pages) (id j : UInt64) (c : TreeCtx) (u : Tree) : Prop where
  parent : PageAt pages' id (c.fill (.page j u))
  child : PageAt pages' j u
  other : ∀ x, x ≠ id → x ≠ j → pages' x = pages x
  width_two : 2 ≤ (c.fill (.page j u)).width

/-- The reps of a subtree, and the list with one rep in their place. -/
theorem reps_fill (c : TreeCtx) (u : Tree) (j : UInt64) :
    (((c.fill u).items.map repOf).drop c.slot).take u.width = u.items.map repOf ∧
    ((c.fill u).items.map repOf).take c.slot ++ ⟨kChildTag ||| j⟩
        :: ((c.fill u).items.map repOf).drop (c.slot + u.width)
      = (c.fill (.page j u)).items.map repOf := by
  have hleft : (c.leftItems.map repOf).length = c.slot := by rw [List.length_map]; rfl
  have hmid : (u.items.map repOf).length = u.width := by rw [List.length_map, length_items]
  have hitems : (c.fill u).items.map repOf
      = c.leftItems.map repOf ++ (u.items.map repOf ++ c.rightItems.map repOf) := by
    rw [Ctx.items_fill, List.map_append, List.map_append, List.append_assoc]
  refine ⟨?_, ?_⟩
  · rw [hitems, List.drop_left' hleft, List.take_left' hmid]
  · rw [hitems, List.take_left' hleft, ← List.drop_drop, List.drop_left' hleft,
      List.drop_left' hmid, Ctx.items_fill]
    simp [items, repOf]

/-- **`SplitAndWriteNodeAt`** on one rep too many: a subtree moves to a new page. -/
theorem splitAndWriteNodeAt_eq {id : UInt64} {old : NodePage} {t : Tree}
    (hpage : ix.nodes.page? id = some old) (hw : t.width = kMaxNodeReps + 1) (hv : t.Valid)
    (hs : Sized t) (hk : KnowsOrFails records t) (ha : AllocAt alloc grow ix)
    (hst : Stored ix.nodes.page? t) (hid : id ∉ t.ids) (slot : Int) (fuel : ℕ) :
    (∃ c u j ns, c.fill u = t ∧
      splitAndWriteNodeAt alloc records (fuel + 3) id (t.items.map repOf) slot ix
        = .ok () { ix with nodes := ns } ∧
      ix.nodes.page? j = none ∧ ns.nodes.length ≤ ix.nodes.nodes.length + grow ∧
      SplitOff ix.nodes.page? ns.page? id j c u) ∨
    Refused alloc (Knows records t)
      (splitAndWriteNodeAt alloc records (fuel + 3) id (t.items.map repOf) slot) ix := by
  have hlen : (t.items.map repOf).length = t.width := by rw [List.length_map, length_items]
  rcases (buildDiffs_cases ix.nodes hv hst hs hk).symm with ⟨hunknown, code, hdiffs⟩ | ⟨hkb, hdiffs⟩
  · right
    refine ⟨code, ?_, Or.inr hunknown⟩
    rw [splitAndWriteNodeAt, if_pos (by omega), Prog.bind_error (readNodes_err hdiffs)]
  have h4 : 4 ≤ t.width := by rw [hw]; decide
  obtain ⟨range, hrange, c, u, rfl, rfl, hu2, huw⟩ :=
    chooseSplitRange_spec (heapOrdered_of_valid hv).cartesian h4 slot
  have hvu := Valid.of_fill hv
  have hsu : Sized u := hs.of_subset (fun e he => mem_entries_fill.mpr (Or.inr (Or.inl he)))
  obtain ⟨hku, hkrest⟩ := hkb.of_fill
  obtain ⟨hstu, hrest⟩ := (Ctx.allPages_fill c u).mp hst
  rw [Ctx.ids_fill] at hid
  rw [splitAndWriteNodeAt, if_pos (by omega), Prog.bind_ok (readNodes_run hdiffs), hlen,
    Prog.bind_ok (ofOutcome_run hrange)]
  rcases ha with ⟨j, ns₁, halloc, hnone, hlen₁, hp₁⟩ | ⟨code, halloc⟩
  · left
    have hne : ∀ x, (ix.nodes.page? x).isSome → x ≠ j := by
      rintro x hx rfl
      rw [hnone] at hx
      exact absurd hx (by decide)
    have hidj : id ≠ j := hne id (by rw [hpage]; rfl)
    have hju : j ∉ u.ids := fun h => hne j (Stored.isSome hstu h) rfl
    have hjt : j ∉ (c.fill u).ids := fun h => hne j (Stored.isSome hst h) rfl
    have hjlt : j.toNat < 2 ^ 63 := HeapNodeStore.toNat_lt_of_page? ns₁
      (by rw [hp₁, Function.update_self])
    have hidlt : id.toNat < 2 ^ 63 := HeapNodeStore.toNat_lt_of_page? _ hpage
    obtain ⟨hmid, hjoined⟩ := reps_fill c u j
    -- the subtree into the new page
    obtain ⟨ns₂, hrun₂, hlen₂, hp₂⟩ := writeNode_eq { ix with nodes := ns₁ } j NodePage.empty alloc records (fuel + 1) (t := u)
      (by show ns₁.page? j = _; rw [hp₁, Function.update_self]) (by omega) hvu hsu
      (by show Stored ns₁.page? u; rw [hp₁]; exact Stored.update hstu hju) hku hju
    have hkeep : ∀ x, x ≠ j → ns₂.page? x = ix.nodes.page? x := by
      intro x hx
      rw [hp₂, update_ne hx]
      show ns₁.page? x = _
      rw [hp₁, update_ne hx]
    have hchild : PageAt ns₂.page? j u := by
      rw [hp₂]
      exact pageAt_update_self (by omega) hjlt
    -- the rest over the old page
    have hvnew : (c.fill (.page j u)).Valid := Valid.fill_congr hv hvu (fun e he => ⟨e, he, rfl⟩)
    have hsub : ∀ e ∈ (c.fill (.page j u)).entries, e ∈ (c.fill u).entries := by
      intro e he
      rw [mem_entries_fill] at he ⊢
      exact he
    have hwnew : (c.fill (.page j u)).width + u.width = (c.fill u).width + 1 := by
      rw [Ctx.width_fill, Ctx.width_fill]
      simp only [width]
      omega
    have hstnew : Stored ns₂.page? (c.fill (.page j u)) := by
      refine (Ctx.allPages_fill c _).mpr ⟨⟨hchild, ?_⟩, ?_⟩
      · exact Stored.congr hstu (fun x hx => hkeep x (fun h => hju (h ▸ hx)))
      · refine allRest_congr hrest (fun x hx => hkeep x (fun h => hjt ?_))
        subst h
        rw [Ctx.ids_fill]
        rcases List.mem_append.mp hx with hx | hx
        · exact List.mem_append_left _ (List.mem_append_left _ hx)
        · exact List.mem_append_right _ hx
    have hidnew : id ∉ (c.fill (.page j u)).ids := by
      rw [Ctx.ids_fill]
      simp only [ids, List.mem_append, List.mem_cons, not_or] at hid ⊢
      tauto
    obtain ⟨ns₃, hrun₃, hlen₃, hp₃⟩ := writeNode_eq { ix with nodes := ns₂ } id old alloc records fuel (t := c.fill (.page j u))
      (by show ns₂.page? id = _; rw [hkeep id hidj]; exact hpage) (by omega) hvnew
      (hs.of_subset hsub) hstnew (hkrest j) hidnew
    refine ⟨c, u, j, ns₃, rfl, ?_, hnone, ?_, ?_, ?_, ?_, by omega⟩
    · rw [Prog.bind_ok halloc]
      simp only [hmid]
      rw [Prog.bind_ok hrun₂, Prog.bind_ok (derefNode_run hchild.page_eq), pageOf_size,
        if_neg (by omega), Prog.bind_ok (ofOutcome_run (Rep.makeChild_eq hjlt)), hjoined,
        splitAndWriteNodeAt, if_neg (by rw [List.length_map, length_items]; omega)]
      exact hrun₃
    · simp only at hlen₂ hlen₃
      omega
    · rw [hp₃]
      exact pageAt_update_self (by omega) hidlt
    · rw [hp₃]
      exact hchild.update hidj.symm
    · intro x h1 h2
      rw [hp₃, update_ne h1]
      exact hkeep x h2
  · right
    refine ⟨code, ?_, Or.inl halloc⟩
    rw [Prog.bind_ok (readNodes_run hdiffs), Prog.bind_ok (ofOutcome_run hrange),
      Prog.bind_error halloc]

end Full

end MinweightStore.Minpatricia
