import MinweightStore.Store.Positions
import MinweightStore.Store.Replay

/-!
# A record store within one generation

The states a record store can be in: after `Open`, after `ReplayAll`, after `ResetToSnapshot` and
between its operations.

* `AllOpen` — every segment of the map is an open file of the right size;
* `returns_openSegments`, `returns_replaySegments` — the loops of `Open` and `ReplayAll` keep that;
* `InUse`, `InUse.logOk` — the states of a record store in use, and what all of them satisfy;
* `positions_valid_distinct` — **positions stay valid, and no two are the same**.
-/

namespace MinweightStore.Store

open Minpatricia (ByteView Position Index kMaxKeySize)

/-! ### Open segments -/

/-- **Every segment of the map is an open file** of the size of the record store. -/
def AllOpen (w : World) : Prop :=
  ∀ id seg, w.records.segments.get? id = some seg → SegmentOk id seg ∧
    seg.size = w.records.walSize ∧
    ∃ f, w.disk.walFile? w.records.generation id = some f ∧ f.size = w.records.walSize

/-- **Only segments, the index and the disk have changed**, and the segments have these numbers. -/
structure Holds (w w' : World) (ids : ℕ → Prop) : Prop where
  records : w'.records = { w.records with segments := w'.records.segments }
  ids_iff : ∀ id, (∃ seg, w'.records.segments.get? id = some seg) ↔ ids id

/-- The numbers of the segments of the map. -/
def World.held (w : World) (id : ℕ) : Prop := ∃ seg, w.records.segments.get? id = some seg

section AllOpen

variable {w w' w'' : World} {ids ids' : ℕ → Prop}

theorem Holds.refl (w : World) : Holds w w w.held := ⟨rfl, fun _ => Iff.rfl⟩

theorem Holds.trans (h : Holds w w' ids) (h' : Holds w' w'' ids') : Holds w w'' ids' := by
  refine ⟨?_, h'.ids_iff⟩
  have hrecords := h'.records
  rw [h.records] at hrecords
  exact hrecords

theorem Holds.congr (h : Holds w w' ids) (hids : ∀ id, ids id ↔ ids' id) : Holds w w' ids' :=
  ⟨h.records, fun id => (h.ids_iff id).trans (hids id)⟩

theorem Holds.held_iff (h : Holds w w' ids) (id : ℕ) : w'.held id ↔ ids id := h.ids_iff id

/-- Another disk, with the files of the open segments. -/
theorem AllOpen.onDisk (h : AllOpen w) {d : Disk} (t : ℕ)
    (hd : ∀ id, w.held id → ∀ f, w.disk.walFile? w.records.generation id = some f →
      ∃ f', d.walFile? w.records.generation id = some f' ∧ f'.size = f.size) :
    AllOpen (w.onDisk d t) := by
  intro id seg hs
  obtain ⟨hok, hsize, f, hf, hfsize⟩ := h id seg hs
  obtain ⟨f', hf', hfsize'⟩ := hd id ⟨seg, hs⟩ f hf
  exact ⟨hok, hsize, f', hf', hfsize'.trans hfsize⟩

/-- One segment is entered or replaced. -/
theorem AllOpen.setSegment (h : AllOpen w) {seg : WalSegment} {id : ℕ} (hok : SegmentOk id seg)
    (hsize : seg.size = w.records.walSize)
    (hf : ∃ f, w.disk.walFile? w.records.generation id = some f ∧ f.size = w.records.walSize) :
    AllOpen (w.setSegment seg) ∧ Holds w (w.setSegment seg) (fun i => i = id ∨ w.held i) := by
  have hget : ∀ i, (w.setSegment seg).records.segments.get? i =
      if i = id then some seg else w.records.segments.get? i := fun i => by
    rw [← hok.fileNo_eq]
    exact SortedMap.get?_insert _ _ _ _
  refine ⟨fun i s hs => ?_, rfl, fun i => ?_⟩
  · rw [hget] at hs
    split at hs
    · rename_i hi
      obtain rfl := Option.some.inj hs
      subst hi
      exact ⟨hok, hsize, hf⟩
    · exact h i s hs
  · rw [hget]
    by_cases hi : i = id
    · rw [if_pos hi]
      exact ⟨fun _ => Or.inl hi, fun _ => ⟨seg, rfl⟩⟩
    · rw [if_neg hi]
      exact ⟨Or.inr, fun hheld => hheld.resolve_left hi⟩

end AllOpen

/-! ### `Open` and `ResetToSnapshot` -/

section Open

variable {env : Env} {site : Site} {w : World} {active id : ℕ} {isSealed : Bool}

/-- One segment more. -/
theorem returns_openSegment (henv : env.Survives)
    (hlo : kWalHeaderSize + kWalRecordHeaderSize ≤ w.records.walSize)
    (hhi : w.records.walSize ≤ kRecordOffsetLimit) (h : AllOpen w) :
    returns (openSegment env site id isSealed)
      (fun _ w' => AllOpen w' ∧ Holds w w' (fun i => i = id ∨ w.held i)) w := by
  rw [openSegment, returns, Prog.wp_bind, Prog.wp_get]
  refine returns_bind (Prog.wp_mono (wp_open henv hlo hhi) (fun _ _ h => h) (fun _ _ _ => trivial))
    ?_
  rintro seg w₁ ⟨⟨d, t, rfl, hd⟩, hnew, f, hf, hfsize⟩
  have h₁ : AllOpen (w.onDisk d t) := h.onDisk t (fun i hheld f' hf' => by
    by_cases hi : i = id
    · subst hi
      obtain ⟨s, hs⟩ := hheld
      obtain ⟨_, _, f'', hf'', hsize''⟩ := h i s hs
      obtain rfl := Option.some.inj (hf'.symm.trans hf'')
      exact ⟨f, hf, hfsize.trans hsize''.symm⟩
    · exact ⟨f', (hd _ _ (fun hne => hi hne.2)).trans hf', rfl⟩)
  obtain ⟨h1, h2, h3, h4, h5, h6⟩ := hnew.ok
  have hok : SegmentOk id { seg with isSealed := isSealed } := ⟨h1, h2, h3, h4, h5, h6⟩
  obtain ⟨hall, hholds⟩ := h₁.setSegment hok hnew.size_eq ⟨f, hf, hfsize⟩
  exact Prog.wp_modify.mpr ⟨hall, hholds.records, hholds.ids_iff⟩

/-- **The loop of `Open`**, by induction on the file numbers. -/
theorem returns_openSegments (henv : env.Survives) (ids : List ℕ)
    (hlo : kWalHeaderSize + kWalRecordHeaderSize ≤ w.records.walSize)
    (hhi : w.records.walSize ≤ kRecordOffsetLimit) (h : AllOpen w) :
    returns (openSegments env active ids)
      (fun _ w' => AllOpen w' ∧ Holds w w' (fun i => i ∈ ids ∨ w.held i)) w := by
  induction ids generalizing w with
  | nil => exact ⟨h, (Holds.refl w).congr (fun i => by simp)⟩
  | cons id ids ih =>
    refine returns_bind (returns_openSegment henv hlo hhi h) ?_
    rintro _ w₁ ⟨h₁, hk₁⟩
    have hwal : w₁.records.walSize = w.records.walSize := by rw [hk₁.records]
    refine returns_mono (ih (hwal ▸ hlo) (hwal ▸ hhi) h₁) ?_
    rintro _ w₂ ⟨h₂, hk₂⟩
    refine ⟨h₂, (hk₁.trans hk₂).congr (fun i => ?_)⟩
    rw [hk₁.held_iff, List.mem_cons]
    tauto

/-- A new record store without snapshot records. -/
theorem logOk_of_allOpen {ids : List ℕ} {w₀ : World} (hids : ids ≠ []) (hsorted : ids.Pairwise (· < ·))
    (hlo : kWalHeaderSize + kWalRecordHeaderSize ≤ w₀.records.walSize)
    (hhi : w₀.records.walSize ≤ kRecordOffsetLimit) (hactive : w₀.records.activeFileNo = ids.getLastD 0)
    (hnext : w₀.records.nextFileNo = w₀.records.activeFileNo + 1)
    (hsnapshots : w₀.records.snapshotRecords = [.dummy]) (h : AllOpen w)
    (hk : Holds w₀ w (fun i => i ∈ ids)) : LogOk w := by
  have hlast : ids.getLastD 0 = ids.getLast hids := List.getLastD_eq_getLast?.trans (by
    rw [List.getLast?_eq_some_getLast hids]
    rfl)
  have hwal : w.records.walSize = w₀.records.walSize := by rw [hk.records]
  have hact : w.records.activeFileNo = ids.getLast hids := by rw [hk.records, ← hlast, ← hactive]
  have hlength : w.records.snapshotRecords.length = 1 := by
    rw [hk.records]
    show w₀.records.snapshotRecords.length = 1
    rw [hsnapshots]
    rfl
  have hlimit : kRecordOffsetLimit = 2 ^ 30 := rfl
  refine ⟨hwal ▸ hlo, hwal ▸ hhi, h, ?_, fun id seg hs => ?_, ?_, by omega, by omega⟩
  · rw [hact]
    exact (hk.ids_iff _).mpr (List.getLast_mem hids)
  · -- the last number is the largest one
    have hmem := (hk.ids_iff id).mp ⟨seg, hs⟩
    rw [hact]
    rw [← List.dropLast_append_getLast hids] at hmem hsorted
    rcases List.mem_append.mp hmem with hin | hin
    · exact Nat.le_of_lt ((List.pairwise_append.mp hsorted).2.2 id hin _ List.mem_cons_self)
    · exact Nat.le_of_eq (List.mem_singleton.mp hin)
  · rw [hk.records]
    exact hnext

/-- The listed file numbers are in ascending order. -/
theorem returns_listWalSegmentIDs (generation : ℕ) :
    returns (listWalSegmentIDs env site generation) (fun ids _ => ids.Pairwise (· < ·)) w := by
  rw [listWalSegmentIDs]
  refine returns_bind (returns_trivial _ _) (fun _ _ _ => ?_)
  refine returns_bind (returns_trivial _ _) (fun _ _ _ => ?_)
  refine returns_bind (returns_trivial _ _) (fun _ w₁ _ => ?_)
  exact (List.pairwise_map.mpr (w₁.disk.dir generation).sorted).filter _

/-- **`SegmentedRecordStore::Open`**, on any disk. -/
theorem returns_openRecords (henv : env.Survives) (walSize generation : ℕ) :
    returns (openRecords env walSize generation) (fun _ w' => LogOk w') w := by
  rw [openRecords]
  split
  · trivial
  split
  · trivial
  rename_i hsize _
  refine returns_bind (returns_trivial _ _) (fun _ w₁ _ => ?_)
  refine returns_bind (returns_listWalSegmentIDs generation) (fun listed w₂ hsorted => ?_)
  have hids : initialIDs listed ≠ [] ∧ (initialIDs listed).Pairwise (· < ·) := by
    cases listed with
    | nil => exact ⟨by simp [initialIDs], by simp [initialIDs]⟩
    | cons id ids => exact ⟨by simp [initialIDs], hsorted⟩
  refine returns_bind (Q := fun _ w₃ => w₃ = { w₂ with records := ⟨walSize, generation,
    (initialIDs listed).getLastD 0, (initialIDs listed).getLastD 0 + 1, [.dummy], .empty⟩ }) rfl ?_
  rintro _ w₃ rfl
  have hnone : ∀ i, ¬World.held { w₂ with records := ⟨walSize, generation,
      (initialIDs listed).getLastD 0, (initialIDs listed).getLastD 0 + 1, [.dummy], .empty⟩ } i := by
    intro i hheld
    obtain ⟨seg, hs⟩ := hheld
    exact absurd hs (by simp [SortedMap.get?_empty])
  refine returns_mono (returns_openSegments henv (initialIDs listed) (by show _ ≤ walSize; omega)
    (by show walSize ≤ _; omega) (fun id seg hs => absurd ⟨seg, hs⟩ (hnone id))) ?_
  rintro _ w' ⟨h, hk⟩
  exact logOk_of_allOpen hids.1 hids.2 (by show _ ≤ walSize; omega) (by show walSize ≤ _; omega) rfl
    rfl rfl h (hk.congr (fun i => ⟨fun hi => hi.resolve_right (hnone i), Or.inl⟩))

/-- `Close` of a segment changes no record. -/
theorem returns_close (sync : Bool) (seg : WalSegment) {r : SegmentedRecordStore}
    (h : w.records = r) :
    returns (seg.close env site sync) (fun _ w' => w'.records = r) w := by
  have hcheck : ∀ {w' : World} {op : String}, w'.records = r →
      returns (check env site op) (fun _ w'' => w''.records = r) w' := fun h => returns_check h
  refine returns_both (P := fun w' => w'.records = r) ?_ (fun w₁ h₁ => ?_)
  · split
    · have hmetadata : ∀ {w' : World}, w'.records = r →
          returns (if seg.metadataDirty = true then check env site "fsync" else pure ())
            (fun _ w'' => w''.records = r) w' := fun h => by
        split
        · exact hcheck h
        · exact h
      rw [WalSegment.sync]
      split
      · exact returns_bind (Q := fun _ w' => w'.records = r) (hcheck h) (fun _ w₁ h₁ => hmetadata h₁)
      · exact hmetadata h
    · exact h
  · exact returns_both (P := fun w' => w'.records = r) (hcheck h₁) (fun w₂ h₂ => hcheck h₂)

/-- `Close` of the segments, by induction on them. -/
theorem returns_closeAll (sync : Bool) (segments : List WalSegment) {r : SegmentedRecordStore}
    (h : w.records = r) : returns (Prog.allOf (segments.map (WalSegment.close env site sync)))
      (fun _ w' => w'.records = r) w := by
  induction segments generalizing w with
  | nil => exact h
  | cons seg segments ih =>
    exact returns_both (P := fun w' => w'.records = r) (returns_close sync seg h) (fun w₁ h₁ => ih h₁)

/-- `SegmentedRecordStore::Close`. -/
theorem returns_closeRecords (sync : Bool) : returns (closeRecords env site sync)
    (fun _ w' => w'.records = { w.records with segments := .empty }) w := by
  rw [closeRecords, returns, Prog.wp_bind, Prog.wp_get]
  refine returns_bind (Q := fun r w' => ∀ a, r = .ok a → w'.records = w.records)
    (returns_attempt ?_ (fun _ _ h _ _ => h) (fun _ _ _ hr => absurd hr (by simp))) ?_
  · have hmap : (w.records.segments.entries.map fun e => e.2.close env site sync) =
        (w.records.segments.entries.map Prod.snd).map (WalSegment.close env site sync) := by
      rw [List.map_map]
      rfl
    rw [hmap]
    exact returns_closeAll sync _ rfl
  · intro status w₁ h₁
    rw [returns, Prog.wp_bind, Prog.wp_modify]
    cases status with
    | ok a => exact congrArg (fun r => { r with segments := SortedMap.empty }) (h₁ a rfl)
    | error e => trivial

/-- **`ResetToSnapshot`**: a new generation. -/
theorem returns_resetToSnapshot (henv : env.Survives) (h : LogOk w) (generation : ℕ) :
    returns (resetToSnapshot env generation) (fun _ w' => LogOk w') w := by
  rw [resetToSnapshot]
  split
  · trivial
  refine returns_bind (returns_closeRecords false) (fun _ w₁ h₁ => ?_)
  refine returns_bind (returns_syscall (Q := fun _ w₂ => w₂.records = w₁.records) rfl)
    (fun _ w₂ h₂ => ?_)
  rw [h₁] at h₂
  refine returns_bind (Q := fun _ w₃ => w₃ = { w₂ with records := { w₂.records with
    snapshotRecords := [.dummy]
    generation := generation
    activeFileNo := kFirstWalSegmentNo
    nextFileNo := kFirstWalSegmentNo + 1 } }) rfl ?_
  rintro _ w₃ rfl
  rw [h₂]
  have hnone : ∀ i, ¬World.held { w₂ with records := { w.records with
      segments := .empty
      snapshotRecords := [.dummy]
      generation := generation
      activeFileNo := kFirstWalSegmentNo
      nextFileNo := kFirstWalSegmentNo + 1 } } i :=
    fun i ⟨seg, hs⟩ => absurd hs (by simp [SortedMap.get?_empty])
  refine returns_mono (returns_openSegment henv h.size_lo h.size_hi
    (fun id seg hs => absurd ⟨seg, hs⟩ (hnone id))) ?_
  rintro _ w' ⟨hall, hk⟩
  refine logOk_of_allOpen (List.cons_ne_nil kFirstWalSegmentNo [])
    (List.pairwise_singleton _ _) ?_ ?_ ?_ ?_ ?_ hall
    (hk.congr (fun i => ⟨fun hi => List.mem_singleton.mpr (hi.resolve_right (hnone i)),
      fun hi => Or.inl (List.mem_singleton.mp hi)⟩))
  · exact h.size_lo
  · exact h.size_hi
  · rfl
  · rfl
  · rfl

end Open

/-! ### `ReplayAll` -/

section Replay

variable {env : Env} {w : World} {policy : WALReplayPolicy} {fileNo : ℕ}

/-- A record goes to the index and to nothing else. -/
theorem returns_applyRecord (record : WalRecord) (pos : Position) :
    returns (applyRecord record pos) (fun _ w' => ∃ ix, w' = w.withIndex ix) w := by
  have hindex : ∀ {α : Type} (m : (Position → Minpatricia.Result ByteView) → Minpatricia.IndexM α),
      returns (onIndex m >>= fun result => fromIndex result >>= fun _ => pure ())
        (fun _ w' => ∃ ix, w' = w.withIndex ix) w := fun m => by
    refine returns_bind (Q := fun _ w' => ∃ ix, w' = w.withIndex ix) ?_ (fun result w₁ h₁ => ?_)
    · rw [returns, Prog.wp, onIndex]
      cases m w.key w.index with
      | ok a ix => exact ⟨ix, rfl⟩
      | error e ix =>
        cases e with
        | status code => exact ⟨ix, rfl⟩
        | undefined => trivial
        | diverges => trivial
        | killed => trivial
    · cases result with
      | ok a => exact h₁
      | error code => trivial
  rw [applyRecord]
  split
  · exact hindex _
  split
  · exact hindex _
  · trivial

/-- The end of a replay: the segment is truncated, or nothing has changed. -/
theorem returns_stopReplay (henv : env.Survives) {seg : WalSegment} {lastGood : ℕ} {status : Status}
    (h : AllOpen w) (hs : w.records.segments.get? fileNo = some seg) (hlo : kWalHeaderSize ≤ lastGood)
    (hhi : lastGood ≤ seg.used) :
    returns (WalSegment.stopReplay env policy fileNo lastGood status)
      (fun _ w' => AllOpen w' ∧ Holds w w' w.held) w := by
  cases policy with
  | strict => trivial
  | pointInTime =>
    obtain ⟨⟨h1, h2, h3, h4, h5, h6⟩, hsize, f, hf, hfsize⟩ := h fileNo seg hs
    have hrun := writeUsed_stored henv.stores.sparesHeaders hs lastGood
    have hcut : SegmentOk fileNo (seg.cut lastGood) := ⟨h1, h2, h3, hlo, le_trans hhi h5, h6⟩
    obtain ⟨hall, hk⟩ := h.setSegment hcut hsize ⟨f, hf, hfsize⟩
    rw [WalSegment.stopReplay, returns, Prog.wp_bind, Prog.wp_of_ok hrun]
    have hids : ∀ i, i = fileNo ∨ w.held i ↔ w.held i := fun i =>
      ⟨fun hi => hi.elim (fun heq => heq ▸ ⟨seg, hs⟩) id, Or.inr⟩
    refine Prog.wp_pure.mpr ⟨hall.onDisk _ (fun i _ f' hf' => ?_), hk.records, fun i =>
      (hk.ids_iff i).trans (hids i)⟩
    have hfile : w.disk.walFile? w.records.generation i = some f' := hf'
    show ∃ f'', (w.disk.storeBytes w.records.generation fileNo _ _).walFile? w.records.generation i =
      some f'' ∧ _
    rw [Disk.walFile?_storeBytes]
    by_cases hi : i = fileNo
    · subst hi
      rw [if_pos ⟨rfl, rfl⟩, hfile]
      exact ⟨_, rfl, rfl⟩
    · rw [if_neg (fun hne => hi hne.2)]
      exact ⟨f', hfile, rfl⟩

/-- **The records of one segment**, by induction on the turns of the loop. -/
theorem returns_replayLoop (henv : env.Survives) {seg : WalSegment} (fuel : ℕ) {offset : ℕ}
    (h : AllOpen w) (hs : w.records.segments.get? fileNo = some seg) (hlo : kWalHeaderSize ≤ offset)
    (hhi : offset ≤ seg.used) :
    returns (WalSegment.replayLoop env policy fileNo applyRecord fuel offset)
      (fun _ w' => AllOpen w' ∧ Holds w w' w.held) w := by
  induction fuel generalizing w offset with
  | zero => trivial
  | succ fuel ih =>
    have hderef : WalSegment.deref fileNo w = .ok seg w := by rw [WalSegment.deref, hs]
    rw [WalSegment.replayLoop, returns, Prog.wp_bind, Prog.wp_of_ok hderef, Prog.wp_bind, Prog.wp_get]
    split
    · cases hrec : recordAtOffset (w.mapping fileNo) seg.used offset true with
      | ok record =>
        obtain ⟨haccepted, rfl⟩ := recordAtOffset_ok_iff.mp hrec
        refine returns_bind (Q := fun _ w' => w = w') (returns_ofOutcome (fun _ _ => rfl)) ?_
        rintro pos _ rfl
        refine returns_bind (returns_applyRecord _ pos) ?_
        rintro _ _ ⟨ix, rfl⟩
        have hinside := haccepted.inside
        refine returns_mono (ih (w := w.withIndex ix) h hs (le_trans hlo (Nat.le_add_right _ _))
          hinside) ?_
        exact fun _ w' h' => ⟨h'.1, h'.2.records, h'.2.ids_iff⟩
      | error fault =>
        cases fault with
        | status status => exact returns_stopReplay henv h hs hlo hhi
        | undefined => trivial
        | diverges => trivial
        | killed => trivial
    · split
      · exact returns_stopReplay henv h hs hlo hhi
      · exact ⟨h, Holds.refl w⟩

/-- A segment is dropped, whatever becomes of its file. -/
theorem returns_dropSegment (henv : env.Survives) (h : AllOpen w) :
    returns (dropSegment env fileNo)
      (fun _ w' => AllOpen w' ∧ Holds w w' (fun i => w.held i ∧ i ≠ fileNo)) w := by
  obtain ⟨d, hd, hrun⟩ := ignore_syscall_survives env henv .replay "unlink"
    (fun d => d.eraseWalFile w.records.generation fileNo) w
  rw [dropSegment, returns, Prog.wp_bind, Prog.wp_get, Prog.wp_bind, Prog.wp_of_ok hrun,
    Prog.wp_modify]
  refine ⟨fun i seg hs => ?_, rfl, fun i => ?_⟩
  · have hs' : (w.records.segments.erase fileNo).get? i = some seg := hs
    rw [SortedMap.get?_erase] at hs'
    split at hs'
    · exact absurd hs' (by simp)
    rename_i hi
    obtain ⟨hok, hsize, f, hf, hfsize⟩ := h i seg hs'
    refine ⟨hok, hsize, f, ?_, hfsize⟩
    show d.walFile? w.records.generation i = some f
    rcases hd with rfl | rfl
    · rw [Disk.walFile?_eraseWalFile, if_neg (fun hne => hi hne.2)]
      exact hf
    · exact hf
  · show (∃ seg, (w.records.segments.erase fileNo).get? i = some seg) ↔ _
    rw [SortedMap.get?_erase]
    by_cases hi : i = fileNo
    · rw [if_pos hi]
      constructor
      · intro hheld
        obtain ⟨_, hnone⟩ := hheld
        exact absurd hnone (by simp)
      · intro hne
        exact absurd hi hne.2
    · rw [if_neg hi]
      exact ⟨fun hheld => ⟨hheld, hi⟩, fun hheld => hheld.1⟩

/-- Segments are dropped one after the other. -/
theorem returns_dropSegments (henv : env.Survives) (ids : List ℕ) (h : AllOpen w) :
    returns (dropSegments env ids)
      (fun _ w' => AllOpen w' ∧ Holds w w' (fun i => w.held i ∧ i ∉ ids)) w := by
  induction ids generalizing w with
  | nil => exact ⟨h, (Holds.refl w).congr (fun i => by simp)⟩
  | cons id ids ih =>
    refine returns_bind (returns_dropSegment henv h) ?_
    rintro _ w₁ ⟨h₁, hk₁⟩
    refine returns_mono (ih h₁) ?_
    rintro _ w₂ ⟨h₂, hk₂⟩
    refine ⟨h₂, (hk₁.trans hk₂).congr (fun i => ?_)⟩
    rw [hk₁.held_iff, List.mem_cons, not_or]
    tauto

/-- **The loop of `ReplayAll`**, by induction on the file numbers: it reaches the last one, or drops
all segments behind the one it ended in. -/
theorem returns_replaySegments (henv : env.Survives) (ids : List ℕ) (last : ℕ) (h : AllOpen w)
    (hsorted : ids.Pairwise (· < ·)) (hheld : ∀ i ∈ ids, w.held i)
    (hrest : ∀ i, w.held i → i ∈ ids ∨ ∀ j ∈ ids, i < j) :
    returns (replaySegments env policy ids false last)
      (fun r w' => AllOpen w' ∧ (r.1 = false → Holds w w' w.held) ∧
        (r.1 = true → Holds w w' w'.held ∧ w'.held r.2 ∧ ∀ i, w'.held i → i ≤ r.2)) w := by
  induction ids generalizing w last with
  | nil => exact ⟨h, fun _ => Holds.refl w, fun hf => absurd hf (by simp)⟩
  | cons id ids ih =>
    obtain ⟨hless, hsorted'⟩ := List.pairwise_cons.mp hsorted
    obtain ⟨seg, hs⟩ := hheld id List.mem_cons_self
    have hderef : WalSegment.deref id w = .ok seg w := by rw [WalSegment.deref, hs]
    have hone : returns (WalSegment.replay env policy id applyRecord)
        (fun _ w' => AllOpen w' ∧ Holds w w' w.held) w := by
      rw [WalSegment.replay, returns, Prog.wp_bind, Prog.wp_of_ok hderef]
      exact returns_replayLoop henv _ h hs (le_refl _) (h id seg hs).1.header
    rw [replaySegments]
    refine returns_bind hone ?_
    rintro truncated w₁ ⟨h₁, hk₁⟩
    cases truncated with
    | false =>
      refine returns_mono (ih id h₁ hsorted'
        (fun i hi => (hk₁.held_iff i).mpr (hheld i (List.mem_cons_of_mem _ hi))) (fun i hi => ?_)) ?_
      · rcases hrest i ((hk₁.held_iff i).mp hi) with hin | hlt
        · rcases List.mem_cons.mp hin with rfl | hin
          · exact Or.inr hless
          · exact Or.inl hin
        · exact Or.inr (fun j hj => hlt j (List.mem_cons_of_mem _ hj))
      · rintro r w₂ ⟨h₂, hfull, hdrop⟩
        refine ⟨h₂, fun hr => (hk₁.trans (hfull hr)).congr hk₁.held_iff, fun hr => ?_⟩
        obtain ⟨hk₂, hend⟩ := hdrop hr
        exact ⟨hk₁.trans hk₂, hend⟩
    | true =>
      rw [replaySegments_drop]
      refine returns_bind (returns_dropSegments henv ids h₁) ?_
      rintro _ w₂ ⟨h₂, hk₂⟩
      have hk := hk₁.trans hk₂
      refine ⟨h₂, fun hf => absurd hf (by simp), fun _ => ⟨⟨hk.records, fun _ => Iff.rfl⟩, ?_,
        fun i hi => ?_⟩⟩
      · exact (hk.held_iff id).mpr ⟨(hk₁.held_iff id).mpr ⟨seg, hs⟩,
          fun hin => absurd (hless id hin) (lt_irrefl id)⟩
      · obtain ⟨hi₁, hnot⟩ := (hk.held_iff i).mp hi
        rcases hrest i ((hk₁.held_iff i).mp hi₁) with hin | hlt
        · exact Nat.le_of_eq ((List.mem_cons.mp hin).resolve_right hnot)
        · exact Nat.le_of_lt (hlt id List.mem_cons_self)

/-- **`ReplayAll`**: the segments that are left are those of a record store. -/
theorem returns_replayAll (henv : env.Survives) (h : LogOk w) :
    returns (replayAll env policy) (fun _ w' => LogOk w') w := by
  rw [replayAll, returns, Prog.wp_bind, Prog.wp_get]
  have hall : AllOpen w := h.segment
  refine returns_bind (returns_replaySegments henv w.segmentIDs _ hall w.segmentIDs_sorted
    (fun i hi => World.mem_segmentIDs.mp hi) (fun i hi => Or.inl (World.mem_segmentIDs.mpr hi))) ?_
  rintro ⟨drop, last⟩ w₁ ⟨h₁, hfull, hdrop⟩
  have hlogOk : ∀ {ids : ℕ → Prop}, Holds w w₁ ids → kWalHeaderSize + kWalRecordHeaderSize ≤
      w₁.records.walSize ∧ w₁.records.walSize ≤ kRecordOffsetLimit ∧
      1 ≤ w₁.records.snapshotRecords.length ∧
      w₁.records.snapshotRecords.length ≤ kRecordOffsetLimit := fun hk => by
    rw [hk.records]
    exact ⟨h.size_lo, h.size_hi, h.snapshots_lo, h.snapshots_hi⟩
  cases drop with
  | false =>
    have hk := hfull rfl
    obtain ⟨hlo, hhi, hslo, hshi⟩ := hlogOk hk
    have hactive : w₁.records.activeFileNo = w.records.activeFileNo := by rw [hk.records]
    refine ⟨hlo, hhi, h₁, hactive ▸ (hk.ids_iff _).mpr h.active, fun id seg hs => ?_, ?_, hslo, hshi⟩
    · obtain ⟨seg', hs'⟩ := (hk.ids_iff id).mp ⟨seg, hs⟩
      rw [hactive]
      exact h.top id seg' hs'
    · rw [hk.records]
      exact h.next
  | true =>
    obtain ⟨hk, ⟨active, hlast⟩, htop⟩ := hdrop rfl
    obtain ⟨hlo, hhi, hslo, hshi⟩ := hlogOk hk
    have hget : ∀ id seg, (w₁.records.segments.mapValues fun id (seg : WalSegment) =>
        { seg with isSealed := id ≠ last }).get? id = some seg → ∃ seg',
        w₁.records.segments.get? id = some seg' ∧ seg = { seg' with isSealed := id ≠ last } := by
      intro id seg hs
      rw [SortedMap.get?_mapValues, Option.map_eq_some_iff] at hs
      obtain ⟨seg', hs', rfl⟩ := hs
      exact ⟨seg', hs', rfl⟩
    refine Prog.wp_modify.mpr ⟨hlo, hhi, fun id seg hs => ?_, ⟨{ active with isSealed := last ≠ last },
      ?_⟩, fun id seg hs => ?_, rfl, hslo, hshi⟩
    · obtain ⟨seg', hs', rfl⟩ := hget id seg hs
      obtain ⟨⟨h1, h2, h3, h4, h5, h6⟩, hrest⟩ := h₁ id seg' hs'
      exact ⟨⟨h1, h2, h3, h4, h5, h6⟩, hrest⟩
    · show (SortedMap.mapValues _ _).get? last = _
      rw [SortedMap.get?_mapValues, hlast]
      rfl
    · obtain ⟨seg', hs', _⟩ := hget id seg hs
      exact htop id ⟨seg', hs'⟩

end Replay

/-! ### Record stores in use -/

/-- **The states of a record store in use**: opened on any disk, with its segments replayed, its
index changed, an operation run, or reset to a snapshot. -/
inductive InUse (env : Env) : World → Prop where
  | opened {w w' : World} {walSize generation : ℕ}
      (run : openRecords env walSize generation w = .ok () w') : InUse env w'
  | replayed {w w' : World} {policy : WALReplayPolicy} (before : InUse env w)
      (run : replayAll env policy w = .ok () w') : InUse env w'
  | indexed {w : World} (before : InUse env w) (ix : Index) : InUse env (w.withIndex ix)
  | ran {w : World} {op : RecordOp} (before : InUse env w) (keySize : op.key.length ≤ kMaxKeySize) :
      InUse env (Prog.final (op.run env) w)
  | reset {w w' : World} {generation : ℕ} (before : InUse env w)
      (run : resetToSnapshot env generation w = .ok () w') : InUse env w'

section InUse

variable {env : Env} {w : World}

/-- Every state of a record store in use, by induction on how it came to be. -/
theorem InUse.logOk (henv : env.Survives) (h : InUse env w) : LogOk w := by
  induction h with
  | opened run => exact Prog.wp_run_ok (returns_openRecords henv _ _) run
  | replayed before run ih => exact Prog.wp_run_ok (returns_replayAll henv ih) run
  | indexed before ix ih =>
    exact ⟨ih.size_lo, ih.size_hi, ih.segment, ih.active, ih.top, ih.next, ih.snapshots_lo,
      ih.snapshots_hi⟩
  | ran before keySize ih =>
    obtain ⟨w', h', _, ⟨pos, hrun, _⟩ | ⟨status, hrun⟩⟩ := RecordOp.run_hands henv ih keySize
    · rw [Prog.final_ok hrun]
      exact h'
    · rw [Prog.final_error hrun]
      exact h'
  | reset before run ih => exact Prog.wp_run_ok (returns_resetToSnapshot henv ih _) run

/-- **Positions stay valid, and no two are the same.**  Whatever calls fail, every position a
sequence of operations returns gives its key and its value in the end (and hence, as every sequence
is the beginning of others, all the time), lies in the range of its kind, and differs from every
other; WAL positions increase and have the file number and the offset of their record. -/
theorem positions_valid_distinct (henv : env.Survives) (h : InUse env w) (ops : List RecordOp)
    (hkeys : ∀ op ∈ ops, op.key.length ≤ kMaxKeySize) :
    ∃ results w', runOps env ops w = .ok results w' ∧ results.map Prod.fst = ops ∧
      (∀ r ∈ results, ∀ pos, r.2 = .ok pos →
        r.1.Resolves w' pos ∧ r.1.InRange pos ∧ r.1.Decodes w' pos) ∧
      results.Pairwise Ordered := by
  obtain ⟨results, w', hrun, hlog, _, hops, hpairs, hall⟩ := runOps_ok henv ops hkeys (h.logOk henv)
  refine ⟨results, w', hrun, hops, fun r hr pos hpos => ?_, hpairs⟩
  obtain ⟨hfound, _⟩ := hall r hr pos hpos
  exact ⟨hfound.resolves hlog, hfound.inRange hlog, hfound.decodes hlog⟩

/-- A new record store: two values of one key, and a snapshot record between them. -/
theorem positions_valid_distinct_new : ∃ w results w', InUse .reliable w ∧
    runOps .reliable [.append [1] [2], .addSnapshot [3] [4], .append [1] [5]] w = .ok results w' ∧
    results.length = 3 ∧ results.Pairwise Ordered := by
  have hempty : OpenableDir ((World.boot .empty).disk.dir 1) 4160 := fun _ _ h => absurd h (by
    rw [show (World.boot .empty).disk.dir 1 = SortedMap.empty from rfl, SortedMap.get?_empty]
    simp)
  obtain ⟨t, hopen⟩ := openRecords_ok (reliableAt_reliable _)
    Env.reliable_survives.stores (by decide) (by decide) one_ne_zero hempty
  have hstate := InUse.opened hopen
  obtain ⟨results, w', hrun, hops, _, hpairs⟩ := positions_valid_distinct Env.reliable_survives
    hstate [.append [1] [2], .addSnapshot [3] [4], .append [1] [5]] (by decide)
  refine ⟨_, results, w', hstate, hrun, ?_, hpairs⟩
  rw [← List.length_map, hops]
  rfl

end InUse

end MinweightStore.Store
