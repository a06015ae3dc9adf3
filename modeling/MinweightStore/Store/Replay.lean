import MinweightStore.Store.Scan

/-!
# Replay

What `ReplayAll` does with the segments of a record store: it applies the valid prefix of their
records to the index, and then keeps the segments as they are, fails, or rearranges them, depending
on the policy.

* `applyRecord_spec` — one record;
* `replayLoop_spec` — the records of one segment, by induction on the turns of the loop;
* `replaySegments_complete`, `replaySegments_stop` — all segments, up to the first incomplete one;
* `replayAll_complete`, `replayAll_stop` — `ReplayAll` as a whole.
-/

namespace MinweightStore.Store

open Minpatricia (ByteView Position Index kMaxKeySize KnowsAll)
open ValidPrefix

/-! ### One record -/

/-- The record store knows the position of a record that puts. -/
def KnowsRecord (w : World) (pos : Position) (r : WalRecord) : Prop :=
  (r.op = kWalOpPut ∨ r.op = kWalOpDelete) ∧ r.key.length ≤ kMaxKeySize ∧ pos.toNat < 2 ^ 63 ∧
    (r.op = kWalOpPut → w.key pos = .ok r.key)

/-- The index of a replay: it stands for a map of positions that the record store knows. -/
def Indexed (w : World) (ix : Index) (m : SortedMap ByteView Position) (pages : ℕ) : Prop :=
  IndexFor ix m pages ∧ KnowsAll w.key m.entries

theorem knowsAll_applyOp {w : World} {m : SortedMap ByteView Position} {r : WalRecord}
    {pos : Position} (hk : KnowsAll w.key m.entries) (hr : KnowsRecord w pos r) :
    KnowsAll w.key (applyOp r.op r.key pos m).entries := by
  intro e he
  rcases mem_applyOp he with ⟨hop, rfl⟩ | he
  · exact hr.2.2.2 hop
  · exact hk e he

/-- **One record**: the index goes on to the map with the record applied. -/
theorem applyRecord_spec {w : World} {ix : Index} {m : SortedMap ByteView Position} {pages : ℕ}
    {r : WalRecord} {pos : Position} (h : Indexed w ix m pages) (hr : KnowsRecord w pos r)
    (hpages : pages < 2 ^ 63) : ∃ ix',
    applyRecord r pos (w.withIndex ix) = .ok () (w.withIndex ix') ∧
      Indexed w ix' (applyOp r.op r.key pos m) (pages + 1) := by
  obtain ⟨hix, hk⟩ := h
  have hknows := knowsAll_applyOp hk hr
  obtain ⟨hop, hkey, hpos, hnew⟩ := hr
  rcases hop with hop | hop
  · obtain ⟨ix', hrun, hix'⟩ := hix.put hk hkey hpos (hnew hop) hpages
    have hon := onIndex_ok (f := fun records => Minpatricia.put records r.key pos)
      (w := w.withIndex ix) hrun
    refine ⟨ix', ?_, ?_, hknows⟩
    · rw [applyRecord, if_pos hop, Prog.bind_ok hon]
      rfl
    · rw [hop, applyOp_put]
      exact hix'
  · obtain ⟨ix', hrun, hix'⟩ := hix.delete hk hkey
    have hne : r.op ≠ kWalOpPut := by
      rw [hop]
      decide
    have hon := onIndex_ok (f := fun records => Minpatricia.delete records r.key)
      (w := w.withIndex ix) hrun
    refine ⟨ix', ?_, ?_, hknows⟩
    · rw [applyRecord, if_neg hne, if_pos hop, Prog.bind_ok hon]
      rfl
    · rw [hop, applyOp_delete]
      exact hix'.mono (Nat.le_succ _)

/-! ### A list of records -/

/-- The records applied one after the other. -/
def applyRecords : List Logged → StoreM Unit
  | [] => pure ()
  | x :: l => do
    applyRecord x.2.2 x.pos
    applyRecords l

/-- **Records applied to an index**, and to the map it stands for. -/
structure Applied (w : World) (l : List Logged) (ix ix' : Index) (m : SortedMap ByteView Position)
    (pages : ℕ) : Prop where
  run : applyRecords l (w.withIndex ix) = .ok () (w.withIndex ix')
  indexed : Indexed w ix' (l.foldl applyPosition m) (pages + l.length)

section Applied

variable {w : World} {ix ix' ix'' : Index} {m : SortedMap ByteView Position} {pages : ℕ}
  {l l' : List Logged}

theorem Applied.nil (h : Indexed w ix m pages) : Applied w [] ix ix m pages := ⟨rfl, h⟩

theorem Applied.cons {x : Logged}
    (hrun : applyRecord x.2.2 x.pos (w.withIndex ix) = .ok () (w.withIndex ix'))
    (h : Applied w l ix' ix'' (applyPosition m x) (pages + 1)) :
    Applied w (x :: l) ix ix'' m pages := by
  refine ⟨?_, ?_⟩
  · rw [applyRecords, Prog.bind_ok hrun]
    exact h.run
  · rw [List.length_cons, Nat.add_comm l.length, ← Nat.add_assoc]
    exact h.indexed

theorem applyRecords_append (l' : List Logged) : ∀ l : List Logged,
    applyRecords (l ++ l') = applyRecords l >>= fun _ => applyRecords l'
  | [] => rfl
  | x :: l => by
    rw [List.cons_append, applyRecords, applyRecords, bind_assoc]
    exact congrArg _ (funext fun _ => applyRecords_append l' l)

theorem Applied.append (h : Applied w l ix ix' m pages)
    (h' : Applied w l' ix' ix'' (l.foldl applyPosition m) (pages + l.length)) :
    Applied w (l ++ l') ix ix'' m pages := by
  refine ⟨?_, ?_⟩
  · rw [applyRecords_append, Prog.bind_ok h.run]
    exact h'.run
  · rw [List.foldl_append, List.length_append, ← Nat.add_assoc]
    exact h'.indexed

end Applied

/-! ### One segment -/

/-- The status `RecordAtOffset` rejects a record with. -/
def rejection (m : Mapping) (used offset : ℕ) : Status :=
  match recordAtOffset m used offset true with
  | .error (.status status) => status
  | _ => corruptWal "WAL replay ended off the used offset"

/-- The end of a replay, after its last valid record. -/
def endReplay (env : Env) (policy : WALReplayPolicy) (fileNo used : ℕ) (m : Mapping) (stop : ℕ) :
    StoreM Bool :=
  if stop = used then pure false
  else WalSegment.stopReplay env policy fileNo stop (rejection m used stop)

section Segment

variable {w : World} {fileNo : ℕ} {seg : WalSegment}

/-- The record store knows every record of a scan. -/
theorem knowsRecord_of_accepted (hs : w.records.segments.get? fileNo = some seg)
    (hok : SegmentOk fileNo seg) {offset : ℕ}
    (ha : AcceptedAt (w.mapping fileNo) seg.used offset true) :
    KnowsRecord w (recordPosition fileNo offset) (recordOf (w.mapping fileNo) offset) := by
  have ho := hok.position_lt ha
  refine ⟨ha.op, ?_, recordPosition_lt hok.fileNo_lt ho, fun hop => ?_⟩
  · show (readBytes _ _ _).length ≤ _
    rw [length_readBytes]
    exact ha.keySize
  · exact (key_of_accepted hs hok ha rfl hop).1

/-- The records of one segment, marked with its file number. -/
def markWith (fileNo : ℕ) (l : List (ℕ × WalRecord)) : List Logged := l.map fun x => (fileNo, x)

/-- **The records of one segment**, by induction on the turns of the loop: the index goes on to the
map with all of them applied, and the policy decides about the end. -/
theorem replayLoop_spec (hs : w.records.segments.get? fileNo = some seg)
    (hok : SegmentOk fileNo seg) : ∀ (fuel offset : ℕ) (ix : Index)
    (m : SortedMap ByteView Position) (pages : ℕ), kWalHeaderSize ≤ offset → offset ≤ seg.used →
    seg.used < offset + fuel → Indexed w ix m pages →
    pages + (scanFrom (readAt (w.mapping fileNo) seg.used) seg.used fuel offset).1.length < 2 ^ 63 →
    ∃ ix', Applied w (markWith fileNo
        (scanFrom (readAt (w.mapping fileNo) seg.used) seg.used fuel offset).1) ix ix' m pages ∧
    ∀ env policy, WalSegment.replayLoop env policy fileNo applyRecord fuel offset (w.withIndex ix) =
      endReplay env policy fileNo seg.used (w.mapping fileNo)
        (scanFrom (readAt (w.mapping fileNo) seg.used) seg.used fuel offset).2 (w.withIndex ix')
  | 0, offset, ix, m, pages, _, h, hf, _, _ => by omega
  | fuel + 1, offset, ix, m, pages, hlo, hle, hf, hix, hpages => by
    have hderef : WalSegment.deref fileNo (w.withIndex ix) = .ok seg (w.withIndex ix) := by
      rw [WalSegment.deref, World.withIndex_records, hs]
    by_cases hlt : offset < seg.used
    · rcases recordAtOffset_cases (w.mapping fileNo) seg.used offset true with
        ⟨ha, hrec⟩ | ⟨hna, message, hrec⟩
      · have hr := readAt_eq_some.mpr ⟨ha, rfl, rfl⟩
        obtain ⟨hadv, hin⟩ := readAt_advances _ _ _ _ _ hr
        have hend : (recordOf (w.mapping fileNo) offset).endOffset =
            offset + sizeAt (w.mapping fileNo) offset := rfl
        rw [scanFrom_some hlt hr] at hpages ⊢
        rw [List.length_cons] at hpages
        obtain ⟨ix₁, hrun, hix₁⟩ := applyRecord_spec hix (knowsRecord_of_accepted hs hok ha)
          (by omega)
        obtain ⟨ix', hix', hloop⟩ := replayLoop_spec hs hok fuel _ ix₁ _ (pages + 1) (by omega) hin
          (by omega) hix₁ (by omega)
        refine ⟨ix', .cons hrun hix', fun env policy => ?_⟩
        · rw [WalSegment.replayLoop, Prog.bind_ok hderef, Prog.get_bind, if_pos hlt,
            World.withIndex_mapping, hrec]
          simp only
          rw [makeRecordPosition_eq hok.fileNo_lt (hok.position_lt ha) hok.pos, Prog.ofOutcome,
            Prog.pure_bind_run, Prog.bind_ok hrun, hend]
          exact hloop env policy
      · have hr := readAt_eq_none.mpr hna
        rw [scanFrom_none hr] at hpages ⊢
        refine ⟨ix, .nil hix, fun env policy => ?_⟩
        have hrej : rejection (w.mapping fileNo) seg.used offset = corruptWal message := by
          rw [rejection, hrec]
          rfl
        rw [WalSegment.replayLoop, Prog.bind_ok hderef, Prog.get_bind, if_pos hlt,
          World.withIndex_mapping, hrec, endReplay, if_neg (by simp only; omega), hrej]
        rfl
    · obtain rfl : offset = seg.used := by omega
      rw [scanFrom_end (le_refl _)] at hpages ⊢
      refine ⟨ix, .nil hix, fun env policy => ?_⟩
      rw [WalSegment.replayLoop, Prog.bind_ok hderef, Prog.get_bind, if_neg hlt,
        if_neg (not_not.mpr rfl), endReplay, if_pos rfl]

end Segment

/-! ### All segments -/

section Segments

variable {w : World}

/-- `Replay` of one segment. -/
theorem replay_spec {fileNo : ℕ} {seg : WalSegment} {ix : Index}
    {m : SortedMap ByteView Position} {pages : ℕ}
    (hs : w.records.segments.get? fileNo = some seg) (hok : SegmentOk fileNo seg)
    (hix : Indexed w ix m pages) (hpages : pages + (w.piece fileNo).marked.length < 2 ^ 63) :
    ∃ ix', Applied w (w.piece fileNo).marked ix ix' m pages ∧
    ∀ env policy, WalSegment.replay env policy fileNo applyRecord (w.withIndex ix) =
      endReplay env policy fileNo seg.used (w.mapping fileNo)
        (scanSegment (w.mapping fileNo) seg.used).2 (w.withIndex ix') := by
  have hpiece := World.piece_eq hs
  have hlen : (w.piece fileNo).marked.length = (scanSegment (w.mapping fileNo) seg.used).1.length := by
    rw [hpiece, Piece.marked, List.length_map]
    rfl
  rw [hlen] at hpages
  obtain ⟨ix', hix', hloop⟩ := replayLoop_spec hs hok (seg.used + 1) kWalHeaderSize ix m pages
    (le_refl _) hok.header (by omega) hix hpages
  refine ⟨ix', ?_, fun env policy => ?_⟩
  · rw [hpiece]
    exact hix'
  · have hderef : WalSegment.deref fileNo (w.withIndex ix) = .ok seg (w.withIndex ix) := by
      rw [WalSegment.deref, World.withIndex_records, hs]
    rw [WalSegment.replay, Prog.bind_ok hderef]
    exact hloop env policy

/-- **Complete segments** are replayed in order, under either policy. -/
theorem replaySegments_complete (hok : SegmentsOk w) : ∀ (ids : List ℕ) (ix : Index)
    (m : SortedMap ByteView Position) (pages : ℕ),
    (∀ id ∈ ids, (w.records.segments.get? id).isSome) → AllComplete (ids.map w.piece) →
    Indexed w ix m pages → pages + ((ids.map w.piece).flatMap Piece.marked).length < 2 ^ 63 →
    ∃ ix', Applied w ((ids.map w.piece).flatMap Piece.marked) ix ix' m pages ∧
    ∀ env policy rest last, replaySegments env policy (ids ++ rest) false last (w.withIndex ix) =
      replaySegments env policy rest false (ids.getLastD last) (w.withIndex ix')
  | [], ix, m, pages, _, _, hix, _ => ⟨ix, .nil hix, fun _ _ _ _ => rfl⟩
  | id :: ids, ix, m, pages, hmem, hcomplete, hix, hpages => by
    obtain ⟨seg, hs⟩ := Option.isSome_iff_exists.mp (hmem id List.mem_cons_self)
    rw [List.map_cons, List.flatMap_cons] at hpages ⊢
    rw [List.length_append] at hpages
    obtain ⟨ix₁, hix₁, hone⟩ := replay_spec hs (hok id seg hs) hix (by omega)
    obtain ⟨ix', hix', hrest⟩ := replaySegments_complete hok ids ix₁ _ _
      (fun i hi => hmem i (List.mem_cons_of_mem _ hi))
      (fun p hp => hcomplete p (List.mem_cons_of_mem _ hp)) hix₁.indexed (by omega)
    have hend : (scanSegment (w.mapping id) seg.used).2 = seg.used := by
      have := hcomplete (w.piece id) List.mem_cons_self
      rw [World.piece_eq hs] at this
      exact of_decide_eq_true this
    refine ⟨ix', hix₁.append hix', fun env policy rest last => ?_⟩
    · have hrun : WalSegment.replay env policy id applyRecord (w.withIndex ix) =
          .ok false (w.withIndex ix₁) := by
        rw [hone, endReplay, if_pos hend]
        rfl
      rw [List.cons_append, replaySegments, Prog.bind_ok hrun, hrest, List.getLastD_cons]

/-- **The first incomplete segment**: strict recovery fails behind its valid records, point-in-time
recovery truncates it there and drops what comes after. -/
theorem replaySegments_stop (hok : SegmentsOk w) {id : ℕ} {seg : WalSegment} {ix : Index}
    {m : SortedMap ByteView Position} {pages : ℕ} (hs : w.records.segments.get? id = some seg)
    (hincomplete : (w.piece id).complete = false) (hix : Indexed w ix m pages)
    (hpages : pages + (w.piece id).marked.length < 2 ^ 63) :
    ∃ ix', Applied w (w.piece id).marked ix ix' m pages ∧
    ∀ env rest last,
      replaySegments env .strict (id :: rest) false last (w.withIndex ix) =
        .error (.status (rejection (w.mapping id) seg.used
          (scanSegment (w.mapping id) seg.used).2)) (w.withIndex ix') ∧
      replaySegments env .pointInTime (id :: rest) false last (w.withIndex ix) =
        (WalSegment.writeUsed env id (scanSegment (w.mapping id) seg.used).2 >>= fun _ =>
          replaySegments env .pointInTime rest true id) (w.withIndex ix') := by
  obtain ⟨ix', hix', hone⟩ := replay_spec hs (hok id seg hs) hix hpages
  have hend : (scanSegment (w.mapping id) seg.used).2 ≠ seg.used := by
    rw [World.piece_eq hs] at hincomplete
    exact of_decide_eq_false hincomplete
  refine ⟨ix', hix', fun env rest last => ⟨?_, ?_⟩⟩
  · have hrun : WalSegment.replay env .strict id applyRecord (w.withIndex ix) =
        .error (.status (rejection (w.mapping id) seg.used
          (scanSegment (w.mapping id) seg.used).2)) (w.withIndex ix') := by
      rw [hone, endReplay, if_neg hend]
      rfl
    rw [replaySegments, Prog.bind_error hrun]
  · rw [replaySegments]
    have hrun := hone env .pointInTime
    rw [endReplay, if_neg hend, WalSegment.stopReplay] at hrun
    cases hw : WalSegment.writeUsed env id (scanSegment (w.mapping id) seg.used).2
        (w.withIndex ix') with
    | ok a w' =>
      rw [Prog.bind_ok hw] at hrun ⊢
      rw [Prog.bind_ok hrun]
    | error e w' =>
      rw [Prog.bind_error hw] at hrun ⊢
      rw [Prog.bind_error hrun]

/-- All the records there can be. -/
theorem length_marked_lt (hok : SegmentsOk w) :
    (w.pieces.flatMap Piece.marked).length ≤ 2 ^ 60 := by
  have hsize : w.records.segments.size ≤ 2 ^ 33 := by
    refine SortedMap.size_le_of_keys_lt (fun e he => ?_)
    exact (hok e.1 e.2 ((SortedMap.mem_entries_iff _ _ _).mp he)).fileNo_lt
  have hone : ∀ p ∈ w.pieces, p.marked.length ≤ 2 ^ 27 := by
    intro p hp
    obtain ⟨id, hid, rfl⟩ := List.mem_map.mp hp
    obtain ⟨seg, hs⟩ := World.mem_segmentIDs.mp hid
    have hseg := hok id seg hs
    have hlen := scanSegment_length (m := w.mapping id) hseg.header
    have h1 := hseg.used_le
    have h2 := hseg.size_le
    rw [World.piece_eq hs, Piece.marked, List.length_map]
    show (scanSegment (w.mapping id) seg.used).1.length ≤ _
    omega
  have hsum : (w.pieces.flatMap Piece.marked).length ≤ w.pieces.length * 2 ^ 27 := by
    rw [List.length_flatMap]
    refine le_trans (List.sum_le_card_nsmul _ (2 ^ 27) (fun n hn => ?_)) (le_of_eq ?_)
    · obtain ⟨p, hp, rfl⟩ := List.mem_map.mp hn
      exact hone p hp
    · rw [List.length_map, smul_eq_mul]
  have hlen : w.pieces.length = w.records.segments.size := by
    rw [World.pieces, World.segmentIDs, List.length_map, List.length_map]
    rfl
  rw [hlen] at hsum
  omega

/-! ### `ReplayAll` -/

/-- The segments behind a file number. -/
def World.behind (w : World) (fileNo : ℕ) : List ℕ := w.segmentIDs.filter (fileNo < ·)

/-- Drop segments one after the other. -/
def dropSegments (env : Env) : List ℕ → StoreM Unit
  | [] => pure ()
  | id :: ids => do
    dropSegment env id
    dropSegments env ids

/-- What point-in-time recovery does after the first invalid record. -/
def rearrange (env : Env) (ids : List ℕ) (fileNo stop : ℕ) : StoreM Unit := do
  WalSegment.writeUsed env fileNo stop
  dropSegments env ids
  modify fun w => { w with records := w.records.activate fileNo }

theorem replaySegments_drop (env : Env) (policy : WALReplayPolicy) (last : ℕ) : ∀ ids : List ℕ,
    replaySegments env policy ids true last =
      (dropSegments env ids >>= fun _ => pure (true, last))
  | [] => rfl
  | id :: ids => by
    rw [replaySegments, dropSegments, bind_assoc]
    refine congrArg _ (funext fun _ => ?_)
    exact replaySegments_drop env policy last ids

/-- The file numbers are in ascending order. -/
theorem World.segmentIDs_sorted (w : World) : w.segmentIDs.Pairwise (· < ·) :=
  List.pairwise_map.mpr w.records.segments.sorted

/-- The segments around one of them. -/
theorem behind_eq {pre post : List ℕ} {id : ℕ} (h : w.segmentIDs = pre ++ id :: post) :
    w.behind id = post ∧ (∀ i ∈ pre, i < id) ∧ ∀ i ∈ post, id < i := by
  have hs := w.segmentIDs_sorted
  rw [h, List.pairwise_append, List.pairwise_cons] at hs
  obtain ⟨_, ⟨hpost, _⟩, hpre⟩ := hs
  have hlt : ∀ i ∈ pre, i < id := fun i hi => hpre i hi id List.mem_cons_self
  refine ⟨?_, hlt, hpost⟩
  rw [World.behind, h, List.filter_append, List.filter_cons_of_neg (by simp),
    List.filter_eq_nil_iff.mpr (fun i hi => by simpa using Nat.le_of_lt (hlt i hi)),
    List.filter_eq_self.mpr (fun i hi => by simpa using hpost i hi), List.nil_append]

/-- **`ReplayAll` on complete segments** applies all records and leaves the segments alone, under
either policy. -/
theorem replayAll_complete (hok : SegmentsOk w) (hcomplete : AllComplete w.pieces)
    {m : SortedMap ByteView Position} {pages : ℕ} (hix : Indexed w w.index m pages)
    (hpages : pages ≤ 2 ^ 62) :
    ∃ ix', Applied w w.recovered w.index ix' m pages ∧
      ∀ env policy, replayAll env policy w = .ok () (w.withIndex ix') := by
  have hlen := length_marked_lt hok
  obtain ⟨ix', hix', hrun⟩ := replaySegments_complete hok w.segmentIDs w.index m pages
    (fun id hid => Option.isSome_iff_exists.mpr (World.mem_segmentIDs.mp hid)) hcomplete hix
    (by rw [← World.pieces]; omega)
  refine ⟨ix', ?_, fun env policy => ?_⟩
  · rw [World.recovered, recover_complete hcomplete]
    exact hix'
  · have hall := hrun env policy [] w.records.activeFileNo
    rw [List.append_nil, World.withIndex_self] at hall
    rw [replayAll, Prog.get_bind, Prog.bind_ok hall]
    rfl

/-- **`ReplayAll` on segments with an invalid record** applies the records before it.  Then strict
recovery fails, and point-in-time recovery rearranges the segments. -/
theorem replayAll_stop (hok : SegmentsOk w) {p : Piece ℕ (ℕ × WalRecord)}
    (hstop : firstIncomplete w.pieces = some p) {m : SortedMap ByteView Position} {pages : ℕ}
    (hix : Indexed w w.index m pages) (hpages : pages ≤ 2 ^ 62) :
    ∃ seg ix', w.records.segments.get? p.id = some seg ∧
      Applied w w.recovered w.index ix' m pages ∧ ∀ env,
      replayAll env .strict w = .error (.status (rejection (w.mapping p.id) seg.used
        (scanSegment (w.mapping p.id) seg.used).2)) (w.withIndex ix') ∧
      replayAll env .pointInTime w = rearrange env (w.behind p.id) p.id
        (scanSegment (w.mapping p.id) seg.used).2 (w.withIndex ix') := by
  have hlen := length_marked_lt hok
  obtain ⟨pre, post, hsplit, hpre, hincomplete, hrec⟩ := firstIncomplete_split hstop
  obtain ⟨preIDs, postIDs', hids, hpreIDs, hpostIDs⟩ := List.map_eq_append_iff.mp hsplit
  obtain ⟨id, postIDs, rfl, rfl, _⟩ := List.map_eq_cons_iff.mp hpostIDs
  subst hpreIDs
  obtain ⟨hbehind, _, _⟩ := behind_eq hids
  have hmem : ∀ i ∈ preIDs ++ id :: postIDs, ∃ seg, w.records.segments.get? i = some seg :=
    fun i hi => World.mem_segmentIDs.mp (hids ▸ hi)
  obtain ⟨seg, hs⟩ := hmem id (List.mem_append_right _ List.mem_cons_self)
  rw [hsplit, List.flatMap_append, List.flatMap_cons, List.length_append, List.length_append] at hlen
  obtain ⟨ix₁, hix₁, hfirst⟩ := replaySegments_complete hok preIDs w.index m pages
    (fun i hi => Option.isSome_iff_exists.mpr (hmem i (List.mem_append_left _ hi))) hpre hix
    (by omega)
  obtain ⟨ix', hix', hlast⟩ := replaySegments_stop hok hs hincomplete hix₁.indexed (by omega)
  have hidEq : (w.piece id).id = id := rfl
  rw [hidEq, hbehind]
  refine ⟨seg, ix', hs, ?_, fun env => ⟨?_, ?_⟩⟩
  · rw [World.recovered, hrec]
    exact hix₁.append hix'
  · have hall := hfirst env .strict (id :: postIDs) w.records.activeFileNo
    rw [(hlast env _ _).1, World.withIndex_self, ← hids] at hall
    rw [replayAll, Prog.get_bind, Prog.bind_error hall]
  · have hall := hfirst env .pointInTime (id :: postIDs) w.records.activeFileNo
    rw [(hlast env _ _).2, World.withIndex_self, ← hids, replaySegments_drop] at hall
    rw [replayAll, Prog.get_bind, rearrange]
    cases hw : WalSegment.writeUsed env id (scanSegment (w.mapping id) seg.used).2
        (w.withIndex ix') with
    | ok a w' =>
      rw [Prog.bind_ok hw] at hall ⊢
      cases hd : dropSegments env postIDs w' with
      | ok b w'' =>
        rw [Prog.bind_ok hd] at hall ⊢
        rw [Prog.bind_ok hall]
        rfl
      | error e w'' =>
        rw [Prog.bind_error hd] at hall ⊢
        rw [Prog.bind_error hall]
    | error e w' =>
      rw [Prog.bind_error hw] at hall ⊢
      rw [Prog.bind_error hall]

end Segments

end MinweightStore.Store
