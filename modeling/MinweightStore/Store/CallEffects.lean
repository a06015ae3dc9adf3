import MinweightStore.Store.Generation
import MinweightStore.Store.PublicCalls
import MinweightStore.Store.Publishing
import MinweightStore.Store.Writing

/-!
# What the calls leave of the record store

The effect of a public call on the segments, whichever of its file-system calls fail.

* `Drained` — a record store whose segments are closed, which is where a reset that fails stops;
* `leaves_checkpointLocked` — a checkpoint leaves a store that accepts records, or a drained one;
* `leaves_put`, `leaves_delete` — the rule for a write: the log may grow, and a checkpoint may follow.
-/

namespace MinweightStore.Store

open Minpatricia (ByteView Position Index kMaxKeySize)

/-! ### Closing -/

/-- The record store without its segments. -/
def World.drained (w : World) : World :=
  { w with records := { w.records with segments := .empty } }

/-- **No segment is open.** -/
def Drained (w : World) : Prop := w.records.segments = .empty

theorem drained_of_records {w : World} {r : SegmentedRecordStore}
    (h : w.records = r) (hr : r.segments = .empty) : Drained w := by
  rw [Drained, h, hr]

section Close

variable {env : Env} {site : Site} {w w₀ : World} {P : Disk → Prop}

/-- `Close` of a segment makes calls that change no file. -/
theorem ends_close (sync : Bool) (seg : WalSegment) (h : OnlyDisk P w₀ w) :
    Prog.ends (seg.close env site sync) (OnlyDisk P w₀) w := by
  have hsync : ∀ w', OnlyDisk P w₀ w' →
      Prog.ends (WalSegment.sync env site seg) (OnlyDisk P w₀) w' := by
    have hmetadata : ∀ w', OnlyDisk P w₀ w' → Prog.ends
        (if seg.metadataDirty = true then check env site "fsync" else pure ()) (OnlyDisk P w₀) w' := by
      intro w' h'
      split
      · exact ends_check h'
      · exact h'
    intro w' h'
    rw [WalSegment.sync]
    split
    · exact Prog.ends_seq (ends_check h') (fun _ w₁ h₁ => hmetadata w₁ h₁)
    · exact hmetadata w' h'
  refine Prog.ends_both ?_ (fun w₁ h₁ => ?_)
  · split
    · exact hsync w h
    · exact h
  · exact Prog.ends_both (ends_check h₁) (fun w₂ h₂ => ends_check h₂)

/-- **`SegmentedRecordStore::Close`** closes all segments, whatever it returns. -/
theorem leaves_closeRecords (sync : Bool) (h : P w.disk) :
    Prog.leaves (closeRecords env site sync) (OnlyDisk P w.drained) w := by
  have hall : Prog.ends (Prog.allOf (w.records.segments.entries.map fun e =>
      e.2.close env site sync)) (OnlyDisk P w) w := by
    refine Prog.ends_allOf (fun x hx w' h' => ?_) (OnlyDisk.refl h)
    obtain ⟨e, _, rfl⟩ := List.mem_map.mp hx
    exact ends_close sync e.2 h'
  rw [closeRecords, Prog.leaves, Prog.wp_bind, Prog.wp_get]
  refine Prog.leaves_bind (Q := fun _ w' => OnlyDisk P w w')
    (Prog.leaves_attempt (Prog.ends.leaves hall)) (fun status w₁ h₁ => ?_)
  obtain ⟨d, t, rfl, hd⟩ := h₁
  rw [Prog.leaves, Prog.wp_bind, Prog.wp_modify]
  cases status with
  | ok _ => exact ⟨d, t, rfl, hd⟩
  | error e => exact ⟨d, t, rfl, hd⟩

theorem close_ok (h : env.ReliableAt site) (sync : Bool) (seg : WalSegment) (w : World) :
    ∃ t, seg.close env site sync w = .ok () (w.onDisk w.disk t) := by
  have hmetadata : ∀ t, ∃ t', (if seg.metadataDirty = true then check env site "fsync" else pure ())
      (w.onDisk w.disk t) = .ok () (w.onDisk w.disk t') := by
    intro t
    split
    · exact ⟨_, check_ok h _ _⟩
    · exact ⟨t, rfl⟩
  have hsync : ∃ t, (if sync = true then WalSegment.sync env site seg else pure ()) w =
      .ok () (w.onDisk w.disk t) := by
    split
    · rw [WalSegment.sync]
      split
      · obtain ⟨t, ht⟩ := hmetadata (w.clock + 1)
        exact ⟨t, (Prog.bind_ok (check_ok h _ _)).trans ht⟩
      · exact hmetadata w.clock
    · exact ⟨w.clock, rfl⟩
  obtain ⟨t, ht⟩ := hsync
  exact ⟨_, Prog.both_ok ht (Prog.both_ok (check_ok h _ _) (check_ok h _ _))⟩

/-- **`SegmentedRecordStore::Close`** when all calls succeed. -/
theorem closeRecords_ok (h : env.ReliableAt site) (sync : Bool) (w : World) :
    ∃ t, closeRecords env site sync w = .ok () (w.drained.onDisk w.disk t) := by
  have hall : ∀ (l : List (ℕ × WalSegment)) (t : ℕ), ∃ t', Prog.allOf (l.map fun e =>
      e.2.close env site sync) (w.onDisk w.disk t) = .ok () (w.onDisk w.disk t') := by
    intro l
    induction l with
    | nil => exact fun t => ⟨t, rfl⟩
    | cons e l ih =>
      intro t
      obtain ⟨t₁, hone⟩ := close_ok h sync e.2 (w.onDisk w.disk t)
      obtain ⟨t', hrest⟩ := ih t₁
      exact ⟨t', Prog.both_ok hone hrest⟩
  obtain ⟨t, hrun⟩ : ∃ t, Prog.allOf (w.records.segments.entries.map fun e =>
      e.2.close env site sync) w = .ok () (w.onDisk w.disk t) :=
    hall w.records.segments.entries w.clock
  refine ⟨t, ?_⟩
  rw [closeRecords, Prog.get_bind, Prog.bind_ok (Prog.attempt_ok hrun), Prog.modify_bind]
  rfl

end Close

/-! ### The reset -/

section Reset

variable {env : Env} {site : Site} {w w₀ : World} {id generation : ℕ} {isSealed : Bool}

/-- A segment that is opened has the flag it is given; a failure leaves the record store. -/
theorem wp_openSegment (henv : env.Survives)
    (hlo : kWalHeaderSize + kWalRecordHeaderSize ≤ w.records.walSize)
    (hhi : w.records.walSize ≤ kRecordOffsetLimit) :
    Prog.wp (openSegment env site id isSealed)
      (fun _ w' => w'.records.generation = w.records.generation ∧
        w'.records.activeFileNo = w.records.activeFileNo ∧
        ∃ seg, w'.records.segments.get? id = some seg ∧ seg.isSealed = isSealed)
      (fun _ w' => w'.records = w.records) w := by
  rw [openSegment, Prog.wp_bind, Prog.wp_get]
  refine Prog.wp_seq (wp_open henv hlo hhi) (fun seg w₁ h₁ => ?_) (fun _ _ h => h.2.records)
  obtain ⟨hbeside, hnew, _⟩ := h₁
  have hrecords := hbeside.records
  refine Prog.wp_modify.mpr ⟨?_, ?_, { seg with isSealed := isSealed }, ?_, rfl⟩
  · show w₁.records.generation = _
    rw [hrecords]
  · show w₁.records.activeFileNo = _
    rw [hrecords]
  show (w₁.records.segments.insert seg.fileNo _).get? id = _
  rw [SortedMap.get?_insert, hnew.ok.fileNo_eq, if_pos rfl]

/-- **`ResetToSnapshot`**: a store that accepts records, or no open segment. -/
theorem wp_resetToSnapshot (henv : env.Survives) (h : Accepting w) :
    Prog.wp (resetToSnapshot env generation)
      (fun _ w' => Accepting w' ∧ w'.records.generation = generation)
      (Prog.onStatus fun w' => Accepting w' ∨ Drained w') w := by
  have hlog := returns_resetToSnapshot henv h.log generation
  have hopen : Prog.wp (resetToSnapshot env generation)
      (fun _ w' => w'.records.generation = generation ∧ ∃ seg,
        w'.records.segments.get? w'.records.activeFileNo = some seg ∧ seg.isSealed = false)
      (Prog.onStatus fun w' => Accepting w' ∨ Drained w') w := by
    rw [resetToSnapshot]
    split
    · exact Or.inl h
    have hclosed : Prog.leaves (closeRecords env .reset false) (OnlyDisk (fun _ => True) w.drained) w :=
      leaves_closeRecords false trivial
    refine Prog.wp_seq hclosed (fun _ w₁ h₁ => ?_) (fun fault w' hw => ?_)
    · refine Prog.wp_seq (wp_effect (Q := fun _ => True) h₁ (fun _ _ => trivial)) (fun _ w₂ h₂ => ?_)
        (fun fault w₂ h₂ => ?_)
      · have hrecords := h₂.records
        rw [Prog.wp_bind, Prog.wp_modify, hrecords]
        refine Prog.wp_mono (wp_openSegment henv h.log.size_lo h.log.size_hi) ?_
          (fun fault w₃ h₃ => Prog.onStatus_of (Or.inr (drained_of_records h₃ rfl)))
        rintro _ w₃ ⟨hgeneration, hactive, hseg⟩
        rw [hactive]
        exact ⟨hgeneration, hseg⟩
      · exact Prog.onStatus_of (Or.inr (drained_of_records h₂.records rfl))
    · exact Prog.onStatus_mono (fun _ h => Or.inr (drained_of_records h.records rfl)) hw
  refine Prog.wp_mono (Prog.wp_and hlog hopen) ?_ (fun _ _ h => h.2)
  rintro _ w' ⟨hw', hgeneration, hunsealed⟩
  exact ⟨⟨hw', hunsealed⟩, hgeneration⟩

end Reset

/-! ### The checkpoint -/

section Checkpoint

variable {env : Env} {w w₀ : World} {generation : ℕ}

/-- A store that accepts records, in a generation. -/
def AcceptingIn (generation : ℕ) (w : World) : Prop := Accepting w ∧ w.records.generation = generation

/-- `AddSnapshotRecord`. -/
theorem ends_addSnapshotRecord (h : AcceptingIn generation w) (key value : ByteView) :
    Prog.ends (addSnapshotRecord key value) (AcceptingIn generation) w := by
  have hhands := addSnapshotRecord_hands h.1.log key value
  obtain ⟨w', hlog, _, hrun⟩ := hhands
  rw [Prog.ends_iff]
  have hfinal : Prog.final (addSnapshotRecord key value) w = w' := by
    rcases hrun with ⟨pos, hrun, _⟩ | ⟨status, hrun⟩
    · exact Prog.final_ok hrun
    · exact Prog.final_error hrun
  rw [← hfinal] at hlog
  have hsegments : Prog.ends (addSnapshotRecord key value) (fun w' =>
      w'.records.generation = w.records.generation ∧
        w'.records.activeFileNo = w.records.activeFileNo ∧
        w'.records.segments = w.records.segments) w := by
    rw [addSnapshotRecord, Prog.ends, Prog.wp_bind, Prog.wp_get]
    simp only
    split
    · exact ⟨rfl, rfl, rfl⟩
    · exact ⟨rfl, rfl, rfl⟩
  obtain ⟨hgeneration, hactive, hsame⟩ := Prog.ends_iff.mp hsegments
  refine ⟨⟨hlog, ?_⟩, hgeneration.trans h.2⟩
  rw [hactive, hsame]
  exact h.1.unsealed

/-- `LoadSnapshotRecords`, by induction on the items. -/
theorem ends_loadSnapshotRecords (entries : List Item) (index : Index)
    (h : AcceptingIn generation w) :
    Prog.ends (loadSnapshotRecords entries index) (AcceptingIn generation) w := by
  induction entries generalizing w index with
  | nil => exact h
  | cons item entries ih =>
    refine Prog.ends_seq (ends_addSnapshotRecord h item.key item.value) (fun pos w₁ h₁ => ?_)
    refine Prog.ends_seq ?_ (fun index' w₂ h₂ => ih index' h₂)
    rw [Prog.ends_iff, Prog.final, putInto]
    cases Minpatricia.put w₁.key item.key pos index with
    | ok result index' => exact h₁
    | error fault index' => exact Prog.ends_iff.mp (Prog.ends_ofOutcome h₁)

/-- `RebuildIndexFromSnapshotLocked`. -/
theorem ends_rebuildIndex (entries : List Item) (h : AcceptingIn generation w) :
    Prog.ends (rebuildIndex entries) (AcceptingIn generation) w := by
  have hnew : Prog.ends newIndex (AcceptingIn generation) w :=
    Prog.ends_ofOutcome (o := fromMinpatricia (Minpatricia.newWithNodes w.key .new)) h
  refine Prog.ends_seq hnew (fun index w₁ h₁ => ?_)
  refine Prog.ends_seq (ends_loadSnapshotRecords entries index h₁) (fun index' w₂ h₂ => ?_)
  exact ⟨h₂.1.congr rfl (fun _ => rfl), h₂.2⟩

/-- The cleanup. -/
theorem ends_removeOld_accepting (h : AcceptingIn generation w) :
    Prog.ends (removeOld env generation) (AcceptingIn generation) w := by
  refine Prog.ends_mono (ends_removeOld generation w) (fun w' h' => ?_)
  have hwal := h'.disk.wal_eq
  refine ⟨h.1.congr h'.records (fun n => ?_), (congrArg _ h'.records).trans h.2⟩
  rw [Disk.walFile?, Disk.walFile?, Disk.dir, Disk.dir, h.2, hwal]

/-- **`CheckpointLocked`**: what the reset leaves decides what the checkpoint leaves. -/
theorem leaves_checkpointLocked {I : World → Prop} (h : Accepting w) (hI : ∀ w', Accepting w' → I w')
    (hreset : ∀ content w', OnlyDisk (Published (nextGeneration w.records.generation) content w.disk)
      w w' → Prog.wp (resetToSnapshot env (nextGeneration w.records.generation))
        (fun _ w' => AcceptingIn (nextGeneration w.records.generation) w') (Prog.onStatus I) w') :
    Prog.leaves (checkpointLocked env) I w := by
  rw [checkpointLocked, Prog.leaves, Prog.wp_bind, Prog.wp_get]
  refine Prog.leaves_bind (Q := fun _ w' => w = w') (Prog.wp_ofOutcome.mpr ⟨fun _ _ => rfl,
    fun _ _ => Prog.onStatus_of (hI w h)⟩) ?_
  rintro entries _ rfl
  refine Prog.leaves_bind (Prog.wp_mono wp_publishCheckpoint (fun _ _ h => h) ?_) ?_
  · intro fault w₁ h₁
    refine Prog.onStatus_of (hI w₁ (h.congr h₁.records (fun n => ?_)))
    exact h₁.disk.walFile? _ n
  · intro _ w₁ h₁
    refine Prog.leaves_bind (hreset _ w₁ h₁) (fun _ w₂ h₂ => ?_)
    have hrest : Prog.ends (rebuildIndex entries >>= fun _ =>
        removeOld env (nextGeneration w.records.generation))
        (AcceptingIn (nextGeneration w.records.generation)) w₂ :=
      Prog.ends_seq (ends_rebuildIndex entries h₂) (fun _ w₃ h₃ => ends_removeOld_accepting h₃)
    exact Prog.leaves_mono hrest.leaves (fun w' h' => hI w' h'.1)

end Checkpoint

/-! ### Writes -/

section Writes

variable {α β : Type} {env : Env} {w : World} {I : World → Prop}

/-- A store that is closed or fatal is left as it is. -/
theorem leaves_checkOpen {f : Unit → StoreM α} (h : I w)
    (hf : w.isOpen = true → w.fatal = none → Prog.leaves (f ()) I w) :
    Prog.leaves (checkOpen >>= f) I w := by
  rw [checkOpen, bind_assoc, Prog.leaves, Prog.wp_bind, Prog.wp_get]
  split
  · exact h
  · rename_i hopen
    cases hfatal : w.fatal with
    | some status => exact h
    | none => exact hf (Bool.not_eq_false _ ▸ hopen) hfatal

theorem leaves_markFatal (cause : Status) (h : ∀ fatal, I { w with fatal := fatal }) :
    Prog.leaves (markFatal cause : StoreM α) I w := by
  have hself : I w := h w.fatal
  rw [markFatal, Prog.leaves, Prog.wp_bind, Prog.wp_get]
  cases w.fatal with
  | some status => exact hself
  | none =>
    simp only
    split
    · exact hself
    · exact h _

/-- A call on the index changes the index only. -/
theorem wp_onIndex (m : (Position → Minpatricia.Result ByteView) → Minpatricia.IndexM β) :
    Prog.wp (onIndex m) (fun _ w' => ∃ ix, w' = w.withIndex ix) (Prog.onStatus I) w := by
  rw [Prog.wp, onIndex]
  cases m w.key w.index with
  | ok a ix => exact ⟨ix, rfl⟩
  | error e ix =>
    cases e with
    | status code => exact ⟨ix, rfl⟩
    | undefined => trivial
    | diverges => trivial
    | killed => trivial

/-- **What a write may do** to a store that accepts records, for an invariant `I`: the index, the log
and the fatal status change, and a checkpoint may follow. -/
structure WriteRule (env : Env) (I : World → Prop) (w : World) : Prop where
  accepting : Accepting w
  wrote : ∀ ix w', Wrote (w.withIndex ix) w' → ∀ ix' fatal,
    I { w' with index := ix', fatal := fatal }
  checkpoint : ∀ ix w', Wrote (w.withIndex ix) w' →
    w'.records.segments.size ≤ w.records.segments.size + 1 →
    w'.records.segments.size > kCheckpointWalSegmentThreshold → ∀ ix',
      Prog.leaves (checkpointLocked env) I (w'.withIndex ix')

theorem WriteRule.self (h : WriteRule env I w) : I w :=
  h.wrote w.index w (Wrote.refl h.accepting) w.index w.fatal

/-- The checkpoint behind a write. -/
theorem WriteRule.leaves_checkpointIfNeeded (h : WriteRule env I w) {ix : Index} {w' : World}
    (hw' : Wrote (w.withIndex ix) w')
    (hgrown : w'.records.segments.size ≤ w.records.segments.size + 1) (ix' : Index) :
    Prog.leaves (checkpointIfNeeded env) I (w'.withIndex ix') := by
  rw [checkpointIfNeeded, Prog.leaves, Prog.wp_bind, Prog.wp_get]
  split
  · exact h.wrote ix w' hw' ix' w'.fatal
  · rename_i hsize
    exact h.checkpoint ix w' hw' hgrown (Nat.not_le.mp hsize) ix'

/-- **`Put`**. -/
theorem leaves_put (henv : env.Survives) (h : WriteRule env I w) (key value : ByteView) :
    Prog.leaves (put env key value) I w := by
  refine leaves_checkOpen h.self (fun _ _ => ?_)
  split
  · exact h.self
  rename_i hkey
  refine Prog.leaves_bind (Prog.wp_mono (wp_appendOrRollover henv h.accepting (Nat.not_lt.mp hkey)
    (Or.inl rfl)) (fun _ _ h' => h') (fun _ w' h' => Prog.onStatus_of
      (h.wrote w.index w' h'.1 w'.index w'.fatal))) ?_
  rintro pos w₁ ⟨h₁, _, hgrown⟩
  refine Prog.leaves_bind (wp_onIndex _) ?_
  rintro result _ ⟨ix, rfl⟩
  cases result with
  | error code => exact leaves_markFatal _ (fun fatal => h.wrote w.index w₁ h₁ ix fatal)
  | ok _ =>
    have hw₁ : Wrote (w.withIndex w.index) w₁ := h₁
    exact h.leaves_checkpointIfNeeded hw₁ hgrown ix

/-- The tombstone. -/
theorem leaves_writeTombstone (henv : env.Survives) (h : WriteRule env I w) (ix : Index)
    {key : ByteView} (hkey : key.length ≤ kMaxKeySize) (pos : Position) :
    Prog.leaves (writeTombstone env key pos) I (w.withIndex ix) := by
  have haccepting : Accepting (w.withIndex ix) := h.accepting.congr rfl (fun _ => rfl)
  have hdelete : Prog.wp (Prog.attempt (deleteRecord env key)) (fun tombstone w' =>
      Wrote (w.withIndex ix) w' ∧ (tombstone.isOk = true →
        w'.records.segments.size ≤ w.records.segments.size + 1)) (Prog.onStatus I)
      (w.withIndex ix) := by
    rw [Prog.wp_attempt]
    refine Prog.wp_mono (wp_appendOrRollover henv haccepting hkey (Or.inr ⟨rfl, rfl⟩))
      (fun _ _ h' => ⟨h'.1, fun _ => h'.2.2⟩) ?_
    rintro _ w' ⟨h', status, rfl⟩
    exact ⟨h', fun hok => absurd hok Bool.false_ne_true⟩
  refine Prog.leaves_bind hdelete ?_
  rintro tombstone w₁ ⟨h₁, hgrown⟩
  cases tombstone with
  | error status =>
    refine Prog.leaves_bind (wp_onIndex _) ?_
    rintro restore _ ⟨ix', rfl⟩
    cases restore with
    | error code => exact leaves_markFatal _ (fun fatal => h.wrote ix w₁ h₁ ix' fatal)
    | ok _ => exact h.wrote ix w₁ h₁ ix' w₁.fatal
  | ok _ =>
    exact Prog.leaves_seq (h.leaves_checkpointIfNeeded h₁ (hgrown rfl) w₁.index) (fun _ _ h => h)

/-- **`Delete`**. -/
theorem leaves_delete (henv : env.Survives) (h : WriteRule env I w) (key : ByteView) :
    Prog.leaves (delete env key) I w := by
  have hindex : ∀ ix fatal, I { w.withIndex ix with fatal := fatal } := fun ix fatal =>
    h.wrote ix (w.withIndex ix) (Wrote.refl (h.accepting.congr rfl (fun _ => rfl))) ix fatal
  refine leaves_checkOpen h.self (fun _ _ => ?_)
  rw [Prog.leaves, Prog.wp_bind, Prog.wp_get]
  refine Prog.leaves_bind (Q := fun _ w' => w = w') (Prog.wp_ofOutcome.mpr ⟨fun _ _ => rfl,
    fun _ _ => Prog.onStatus_of h.self⟩) ?_
  rintro pos _ rfl
  split
  · exact h.self
  split
  · exact h.self
  rename_i hkey
  refine Prog.leaves_bind (wp_onIndex _) ?_
  rintro result _ ⟨ix, rfl⟩
  cases result with
  | error code => exact leaves_markFatal _ (hindex ix)
  | ok deleted =>
    simp only
    split
    · exact leaves_markFatal _ (hindex ix)
    · exact leaves_writeTombstone henv h ix (Nat.not_lt.mp hkey) _

end Writes

/-! ### Runs -/

section Runs

variable {α : Type} {env : Env} {w : World}

/-- A caught status is not returned. -/
theorem leaves_attempt_trivial {x : StoreM α} {I : World → Prop} :
    Prog.wp (Prog.attempt x) (fun _ _ => True) (Prog.onStatus I) w := by
  refine Prog.leaves_attempt (I := fun _ => True) ?_
  rw [Prog.leaves, Prog.wp]
  cases x w with
  | ok a w' => trivial
  | error fault w' => exact Prog.onStatus_of trivial

/-- **`Close`** leaves a store that is closed. -/
theorem leaves_close : Prog.leaves (close env) (fun w' => w'.isOpen = false) w := by
  rw [close, Prog.leaves, Prog.wp_bind, Prog.wp_get]
  split
  · rename_i hclosed
    exact hclosed
  refine Prog.leaves_bind leaves_attempt_trivial (fun checkpointStatus w₁ _ => ?_)
  rw [Prog.leaves, Prog.wp_bind, Prog.wp_modify]
  refine Prog.leaves_bind (Prog.leaves_attempt (leaves_closeRecords (P := fun _ => True) _ trivial))
    (fun closeStatus w₂ h₂ => ?_)
  obtain ⟨d, t, rfl, _⟩ := h₂
  cases checkpointStatus with
  | error status => exact Prog.wp_fail.mpr rfl
  | ok _ =>
    cases closeStatus with
    | error status => exact Prog.wp_fail.mpr rfl
    | ok _ => exact Prog.wp_pure.mpr rfl

/-- **An invariant of open stores**: `Open` establishes it, and writes keep it. -/
theorem Reach.openInvariant {cond : CallCondition} {J : World → Prop} (h : Reach cond w)
    (hopen : ∀ env options w, env.Survives → returns (openStore env options) (fun _ => J) w)
    (hput : ∀ env key value w, env.Survives → cond env (.put key value) w → J w →
      Prog.leaves (put env key value) J w)
    (hdelete : ∀ env key w, env.Survives → cond env (.delete key) w → J w →
      Prog.leaves (delete env key) J w) (hw : w.isOpen = true) : J w := by
  -- a closed store refuses a write
  have hclosed : ∀ {α : Type} {f : Unit → StoreM α} {w : World}, w.isOpen = false →
      Prog.leaves (checkOpen >>= f) (fun w' => w'.isOpen = true → J w') w := fun hw =>
    leaves_checkOpen (fun hopen => absurd (hw.symm.trans hopen) Bool.false_ne_true)
      (fun hopen => absurd (hw.symm.trans hopen) Bool.false_ne_true)
  refine h.invariant (I := fun w => w.isOpen = true → J w)
    (fun disk hboot => absurd hboot Bool.false_ne_true) ?_ hw
  rintro w w' hI ⟨env, call, henv, hcond, hreturns⟩
  cases call with
  | read call =>
    rw [Returned.of_onlyReads hreturns (onlyReads_run call)]
    exact hI
  | openStore options =>
    rcases hreturns with ⟨_, ⟨_, hrun⟩ | ⟨status, w₁, _, rfl⟩⟩
    · exact fun _ => Prog.wp_run_ok (hopen env options w henv) hrun
    · exact fun hopen => absurd hopen Bool.false_ne_true
  | put key value =>
    refine Returned.of_leaves (I := fun w' => w'.isOpen = true → J w') hreturns ?_
    cases hw : w.isOpen with
    | true => exact Prog.leaves_mono (hput env key value w henv hcond (hI hw)) (fun _ h _ => h)
    | false => exact hclosed hw
  | delete key =>
    refine Returned.of_leaves (I := fun w' => w'.isOpen = true → J w') hreturns ?_
    cases hw : w.isOpen with
    | true => exact Prog.leaves_mono (hdelete env key w henv hcond (hI hw)) (fun _ h _ => h)
    | false => exact hclosed hw
  | close =>
    have hleft : w'.isOpen = false := Returned.of_leaves hreturns leaves_close
    exact fun hopen => absurd (hleft.symm.trans hopen) Bool.false_ne_true

end Runs

end MinweightStore.Store
