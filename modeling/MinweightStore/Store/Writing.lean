import MinweightStore.Store.Positions

/-!
# Writing to the log

What `Append` and `DeleteRecord` leave of a store, whichever of their calls fail.

* `WalOnly`, `ends_append`, `ends_rollover` — only the WAL of the generation and the segments change;
* `Accepting` — a record store with an unsealed active segment;
* `Wrote`, `wp_appendOrRollover` — **a record is written, or refused, and the log is kept**.
-/

namespace MinweightStore.Store

open Minpatricia (ByteView Position kMaxKeySize)

/-! ### What can change -/

/-- **Only the WAL of the generation, the segments and their numbers may differ.** -/
structure WalOnly (w w' : World) : Prop where
  rest : w' = { w with
    disk := w'.disk
    clock := w'.clock
    records := { w.records with
      activeFileNo := w'.records.activeFileNo
      nextFileNo := w'.records.nextFileNo
      segments := w'.records.segments } }
  manifest_eq : w'.disk.manifest = w.disk.manifest
  snapshots_eq : w'.disk.snapshots = w.disk.snapshots
  dir_eq : ∀ g, g ≠ w.records.generation → w'.disk.dir g = w.disk.dir g

section WalOnly

variable {env : Env} {site : Site} {w w' w'' w₀ : World}

theorem WalOnly.refl (w : World) : WalOnly w w := ⟨rfl, rfl, rfl, fun _ _ => rfl⟩

theorem WalOnly.generation (h : WalOnly w w') : w'.records.generation = w.records.generation := by
  rw [h.rest]

theorem WalOnly.walSize (h : WalOnly w w') : w'.records.walSize = w.records.walSize := by
  rw [h.rest]

theorem WalOnly.trans (h : WalOnly w w') (h' : WalOnly w' w'') : WalOnly w w'' := by
  refine ⟨?_, h'.manifest_eq.trans h.manifest_eq, h'.snapshots_eq.trans h.snapshots_eq,
    fun g hg => ?_⟩
  · have hrest := h'.rest
    rw [h.rest] at hrest
    exact hrest
  · rw [h'.dir_eq g (h.generation ▸ hg), h.dir_eq g hg]

/-- Another disk, with the same files outside the WAL of the generation. -/
theorem WalOnly.onDisk (h : WalOnly w₀ w) {d : Disk} (t : ℕ) (hm : d.manifest = w.disk.manifest)
    (hs : d.snapshots = w.disk.snapshots)
    (hd : ∀ g, g ≠ w₀.records.generation → d.dir g = w.disk.dir g) : WalOnly w₀ (w.onDisk d t) := by
  refine ⟨?_, hm.trans h.manifest_eq, hs.trans h.snapshots_eq,
    fun g hg => (hd g hg).trans (h.dir_eq g hg)⟩
  have hrest := h.rest
  exact congrArg (fun w : World => w.onDisk d t) hrest

theorem WalOnly.setWalFile (h : WalOnly w₀ w) (fileNo : ℕ) (f : WalFile) (t : ℕ) :
    WalOnly w₀ (w.onDisk (w.disk.setWalFile w₀.records.generation fileNo f) t) :=
  h.onDisk t rfl rfl (fun g hg => by rw [Disk.dir_setWalFile, if_neg hg])

/-- A change of the segments. -/
theorem WalOnly.withSegments (h : WalOnly w₀ w) (active next : ℕ)
    (segments : SortedMap ℕ WalSegment) : WalOnly w₀ { w with records := { w.records with
      activeFileNo := active
      nextFileNo := next
      segments := segments } } := by
  have hrest := h.rest
  exact ⟨congrArg (fun w : World => { w with records := { w.records with
    activeFileNo := active
    nextFileNo := next
    segments := segments } }) hrest, h.manifest_eq, h.snapshots_eq, h.dir_eq⟩

theorem WalOnly.setSegment (h : WalOnly w₀ w) (seg : WalSegment) : WalOnly w₀ (w.setSegment seg) :=
  h.withSegments _ _ _

/-! ### Calls -/

-- the header check runs over 4096 bytes and is never to be evaluated here
attribute [local irreducible] isZeroBytes

theorem ends_walSyscall {op : String} {effect : Disk → Disk} (h : WalOnly w₀ w)
    (heffect : WalOnly w₀ (w.onDisk (effect w.disk) (w.clock + 1))) :
    Prog.ends (syscall env site op effect) (WalOnly w₀) w := by
  rw [Prog.ends, Prog.wp, syscall]
  cases env site w.clock with
  | succeeds => exact heffect
  | fails n => exact h.onDisk _ rfl rfl (fun _ _ => rfl)
  | killed n => exact h

theorem ends_walCheck {op : String} (h : WalOnly w₀ w) :
    Prog.ends (check env site op) (WalOnly w₀) w :=
  ends_walSyscall h (h.onDisk _ rfl rfl (fun _ _ => rfl))

theorem ends_storeBytes (h : WalOnly w₀ w) (fileNo offset : ℕ) (data : List UInt8) :
    Prog.ends (storeBytes env w₀.records.generation fileNo offset data) (WalOnly w₀) w := by
  have hstored : ∀ data t, WalOnly w₀ (w.onDisk
      (w.disk.storeBytes w₀.records.generation fileNo offset data) t) := by
    intro data t
    rw [Disk.storeBytes]
    cases w.disk.walFile? w₀.records.generation fileNo with
    | none => exact h.onDisk t rfl rfl (fun _ _ => rfl)
    | some f => exact h.setWalFile fileNo _ t
  rw [Prog.ends, Prog.wp, storeBytes]
  cases env (storeSite offset) w.clock with
  | succeeds => exact hstored data _
  | fails n => exact hstored data _
  | killed n => exact hstored (data.take n) _

theorem ends_store (h : WalOnly w₀ w) (fileNo offset : ℕ) (data : List UInt8) :
    Prog.ends (WalSegment.store env fileNo offset data) (WalOnly w₀) w := by
  have hstore : Prog.ends (storeBytes env w₀.records.generation fileNo offset data) (WalOnly w₀) w :=
    ends_storeBytes h fileNo offset data
  rw [← h.generation] at hstore
  exact hstore

theorem ends_deref (h : WalOnly w₀ w) (fileNo : ℕ) :
    Prog.ends (WalSegment.deref fileNo) (WalOnly w₀) w := by
  rw [Prog.ends, Prog.wp, WalSegment.deref]
  cases w.records.segments.get? fileNo with
  | none => exact h
  | some seg => exact h

/-- `Append` of a segment. -/
theorem ends_append (h : WalOnly w₀ w) (fileNo : ℕ) (op : UInt8) (key value : ByteView) :
    Prog.ends (WalSegment.append env fileNo op key value) (WalOnly w₀) w := by
  refine Prog.ends_seq (ends_deref h fileNo) (fun seg _ h => ?_)
  refine Prog.ends_seq (Prog.ends_ofOutcome h) (fun start _ h => ?_)
  refine Prog.ends_seq ?_ (fun _ _ h => ?_)
  · refine Prog.ends_seq (ends_store h _ _ _) (fun _ _ h => ?_)
    refine Prog.ends_seq (ends_store h _ _ _) (fun _ _ h => ?_)
    refine Prog.ends_seq (ends_store h _ _ _) (fun _ _ h => ?_)
    refine Prog.ends_seq (ends_store h _ _ _) (fun _ _ h => ?_)
    refine Prog.ends_seq (ends_store h _ _ _) (fun _ _ h => ?_)
    exact Prog.ends_get (ends_store h _ _ _)
  · refine Prog.ends_seq ?_ (fun _ _ h => Prog.ends_ofOutcome h)
    refine Prog.ends_seq (ends_deref h fileNo) (fun seg _ h => ?_)
    exact Prog.ends_modify (ends_store (h.setSegment _) _ _ _)

/-- `WalSegment::Open` of a segment of the generation. -/
theorem ends_open (h : WalOnly w₀ w) (size fileNo : ℕ) :
    Prog.ends (WalSegment.open' env site w₀.records.generation size fileNo) (WalOnly w₀) w := by
  have hcreate : Prog.ends (WalSegment.createFile env site w₀.records.generation fileNo)
      (WalOnly w₀) w := by
    apply Prog.ends_get
    cases w.disk.wal.get? w₀.records.generation with
    | none => exact h
    | some files =>
      apply ends_walSyscall h
      split
      · exact h.onDisk _ rfl rfl (fun _ _ => rfl)
      · exact h.setWalFile fileNo .empty _
  have hsize : ∀ w', WalOnly w₀ w' →
      Prog.ends (WalSegment.sizeFile env site w₀.records.generation fileNo size) (WalOnly w₀) w' := by
    intro w' h'
    refine Prog.ends_seq (ends_walCheck h') (fun _ w₁ h₁ => ?_)
    apply Prog.ends_get
    simp only
    split
    · exact Prog.ends_seq (ends_walSyscall h₁ (h₁.setWalFile fileNo _ _)) (fun _ _ h => h)
    · split <;> exact h₁
  have hheader : ∀ metadataDirty w', WalOnly w₀ w' → Prog.ends (WalSegment.mapHeader env
      w₀.records.generation fileNo size metadataDirty) (WalOnly w₀) w' := by
    intro metadataDirty w' h'
    apply Prog.ends_get
    simp only
    split
    · refine Prog.ends_seq ?_ (fun _ _ h => h)
      refine Prog.ends_seq (ends_storeBytes h' _ _ _) (fun _ _ h => ?_)
      exact Prog.ends_seq (ends_storeBytes h _ _ _) (fun _ _ h => ends_storeBytes h _ _ _)
    · exact Prog.ends_seq (Prog.ends_ofOutcome h') (fun _ _ h => h)
  rw [WalSegment.open']
  split
  · exact h
  · cases makeRecordPosition fileNo kWalHeaderSize with
    | error fault => exact h
    | ok pos =>
      refine Prog.ends_seq hcreate (fun _ w₁ h₁ => ?_)
      refine Prog.ends_seq (hsize w₁ h₁) (fun metadataDirty w₂ h₂ => ?_)
      exact Prog.ends_seq (ends_walCheck h₂) (fun _ w₃ h₃ => hheader metadataDirty w₃ h₃)

theorem ends_openSegment (h : WalOnly w₀ w) (fileNo : ℕ) (isSealed : Bool) :
    Prog.ends (openSegment env site fileNo isSealed) (WalOnly w₀) w := by
  apply Prog.ends_get
  rw [h.generation]
  exact Prog.ends_seq (ends_open h _ fileNo) (fun _ _ h => h.setSegment _)

theorem ends_setSealed (h : WalOnly w₀ w) (fileNo : ℕ) (isSealed : Bool) :
    Prog.ends (setSealed fileNo isSealed) (WalOnly w₀) w :=
  Prog.ends_seq (ends_deref h fileNo) (fun _ _ h => h.setSegment _)

theorem ends_rollover (h : WalOnly w₀ w) : Prog.ends (rollover env) (WalOnly w₀) w := by
  apply Prog.ends_get
  simp only
  split
  · exact h
  · refine Prog.ends_seq (ends_setSealed h _ _) (fun _ _ h => ?_)
    apply Prog.ends_modify
    refine Prog.ends_seq (Prog.ends_attempt (ends_openSegment (h.withSegments _ _ _) _ _))
      (fun result _ h => ?_)
    cases result with
    | error status =>
      refine Prog.ends_seq (ends_setSealed h _ _) (fun _ _ h => ?_)
      exact Prog.ends_modify (h.withSegments _ _ _)
    | ok _ => exact h.withSegments _ _ _

end WalOnly

/-! ### A store that accepts records -/

/-- **A record store with an unsealed active segment.** -/
structure Accepting (w : World) : Prop where
  log : LogOk w
  unsealed : ∃ seg, w.records.segments.get? w.records.activeFileNo = some seg ∧ seg.isSealed = false

/-- **What `Append` and `DeleteRecord` leave**, whatever they return. -/
structure Wrote (w w' : World) : Prop where
  accepting : Accepting w'
  keeps : Keeps w w'
  walOnly : WalOnly w w'

/-- The status of a segment without room. -/
def NoRoom (w : World) (fault : Fault Status) (w' : World) : Prop :=
  (∃ message, fault = .status ⟨.walFull, message⟩) ∧ w' = w

section Accepting

variable {env : Env} {w w' w'' : World} {op : UInt8} {key value : ByteView}

/-- It depends on the record store, and on the files of the generation. -/
theorem Accepting.congr (h : Accepting w) (hrecords : w'.records = w.records)
    (hfiles : ∀ n, w'.disk.walFile? w.records.generation n =
      w.disk.walFile? w.records.generation n) : Accepting w' := by
  obtain ⟨hlog, hunsealed⟩ := h
  refine ⟨⟨?_, ?_, fun id seg hs => ?_, ?_, ?_, ?_, ?_, ?_⟩, ?_⟩
  · exact hrecords ▸ hlog.size_lo
  · exact hrecords ▸ hlog.size_hi
  · rw [hrecords] at hs ⊢
    rw [hfiles]
    exact hlog.segment id seg hs
  · exact hrecords ▸ hlog.active
  · exact hrecords ▸ hlog.top
  · exact hrecords ▸ hlog.next
  · exact hrecords ▸ hlog.snapshots_lo
  · exact hrecords ▸ hlog.snapshots_hi
  · exact hrecords ▸ hunsealed

theorem Wrote.refl (h : Accepting w) : Wrote w w := ⟨h, Keeps.refl w, WalOnly.refl w⟩

theorem Wrote.trans (h : Wrote w w') (h' : Wrote w' w'') : Wrote w w'' :=
  ⟨h'.accepting, h.keeps.trans h'.keeps, h.walOnly.trans h'.walOnly⟩

/-- `Active()->Append`: the record is written, or the segment is full and nothing has changed. -/
theorem wp_appendActive (henv : env.Survives) (h : Accepting w) (hkey : key.length ≤ kMaxKeySize)
    (hop : op = kWalOpPut ∨ op = kWalOpDelete ∧ value = []) :
    Prog.wp (appendActive env op key value)
      (fun pos w' => Wrote w w' ∧ AtEnd w op key value pos w' ∧
        w'.records.segments.size = w.records.segments.size) (NoRoom w) w := by
  obtain ⟨seg, hs, hunsealed⟩ := h.unsealed
  obtain ⟨hok, _, f, hf, _⟩ := h.log.segment _ _ hs
  have hends : Prog.ends (WalSegment.append env w.records.activeFileNo op key value) (WalOnly w) w :=
    ends_append (WalOnly.refl w) w.records.activeFileNo op key value
  rw [appendActive, Prog.wp_bind, Prog.wp_get]
  rcases append_survives henv hs hf op key value with ⟨message, hfail, _⟩ | ⟨hroom, t, hrun⟩
  · rw [Prog.wp_of_error hfail]
    exact ⟨⟨message, rfl⟩, rfl⟩
  · obtain ⟨_, hlimit, _⟩ := room_bounds hroom
    have hpos := recordSize_pos key value
    rw [makeRecordPosition_eq hok.fileNo_lt (show seg.used < 2 ^ 30 by omega) hok.pos] at hrun
    obtain ⟨hlog, hkeeps, hlogged, hend, hnew⟩ := h.log.appended (t := t) hs hf hroom hkey hop
    have hget : (appendedWorld w w.records.activeFileNo seg f op key value t).records.segments.get?
        w.records.activeFileNo = some (seg.cut (seg.used + recordSize key value)) := by
      rw [appendedWorld_segments, SortedMap.get?_insert, hok.fileNo_eq, if_pos rfl]
    rw [Prog.ofOutcome] at hrun
    rw [Prog.ends, Prog.wp_of_ok hrun] at hends
    rw [Prog.wp_of_ok hrun]
    refine ⟨⟨⟨hlog, _, hget, hunsealed⟩, hkeeps, hends⟩, ⟨hlogged, by omega, by omega⟩, ?_⟩
    rw [appendedWorld_segments, hok.fileNo_eq, SortedMap.size_insert_of_some _ hs]

/-- `Rollover`: a new segment, or the status of the call that failed. -/
theorem wp_rollover (henv : env.Survives) (h : Accepting w) : Prog.wp (rollover env)
    (fun _ w' => Wrote w w' ∧ w'.records.nextFileNo = w.records.nextFileNo + 1 ∧
      w'.records.segments.size ≤ w.records.segments.size + 1)
    (fun fault w' => Wrote w w' ∧ (∃ status : Status, fault = .status status ∧
      status.code ≠ .walFull) ∧ w'.records.segments.size ≤ w.records.segments.size + 1) w := by
  obtain ⟨old, hs, hunsealed⟩ := h.unsealed
  have hno := (h.log.segment _ _ hs).1.fileNo_eq
  have hends : Prog.ends (rollover env) (WalOnly w) w := ends_rollover (WalOnly.refl w)
  rcases rollover_cases henv h.log hs with ⟨new, d, t, hroll, hnew, hfile, hd⟩ |
    ⟨status, d, t, hcode, hroll, hd⟩
  · obtain ⟨hlog, hkeeps⟩ := h.log.rolledOver (t := t) hs hd hnew hfile
    rw [Prog.ends, Prog.wp_of_ok hroll] at hends
    rw [Prog.wp_of_ok hroll]
    refine ⟨⟨⟨hlog, new, ?_, hnew.unsealed⟩, hkeeps, hends⟩, rfl, ?_⟩
    · show (SortedMap.insert _ _ _).get? w.records.nextFileNo = some new
      rw [SortedMap.get?_insert, if_pos rfl]
    · refine le_trans (SortedMap.size_insert_le _ _ _) (le_of_eq ?_)
      rw [hno, SortedMap.size_insert_of_some _ hs]
  · obtain ⟨hlog, hkeeps⟩ := h.log.notRolledOver (t := t) hs hd
    rw [Prog.ends, Prog.wp_of_error hroll] at hends
    rw [Prog.wp_of_error hroll]
    refine ⟨⟨⟨hlog, { old with isSealed := false }, ?_, rfl⟩, hkeeps, hends⟩, ⟨status, rfl, hcode⟩, ?_⟩
    · show (SortedMap.insert _ _ _).get? w.records.activeFileNo = some { old with isSealed := false }
      rw [SortedMap.get?_insert, hno, if_pos rfl]
    · show (SortedMap.insert _ _ _).size ≤ _
      rw [hno, SortedMap.size_insert_of_some _ hs]
      exact Nat.le_succ _

/-- **`Append` and `DeleteRecord`**: the record is written, or it is refused; the log is kept. -/
theorem wp_appendOrRollover (henv : env.Survives) (h : Accepting w) (hkey : key.length ≤ kMaxKeySize)
    (hop : op = kWalOpPut ∨ op = kWalOpDelete ∧ value = []) :
    Prog.wp (appendOrRollover env op key value)
      (fun pos w' => Wrote w w' ∧ AtEnd w op key value pos w' ∧
        w'.records.segments.size ≤ w.records.segments.size + 1)
      (fun fault w' => Wrote w w' ∧ ∃ status, fault = .status status) w := by
  rw [appendOrRollover, Prog.wp_bind, Prog.wp_attempt]
  refine Prog.wp_mono (wp_appendActive henv h hkey hop)
    (fun _ _ h => ⟨h.1, h.2.1, le_trans (le_of_eq h.2.2) (Nat.le_succ _)⟩) ?_
  rintro _ _ ⟨⟨message, rfl⟩, rfl⟩
  show Prog.wp _ _ _ _
  simp only [ne_eq, not_true_eq_false, if_false]
  refine Prog.wp_seq (wp_rollover henv h) ?_ (fun _ _ h => ⟨h.1, h.2.1.imp fun _ hs => hs.1⟩)
  rintro _ w₁ ⟨h₁, _, hsize⟩
  refine Prog.wp_mono (wp_appendActive henv h₁.accepting hkey hop) ?_ ?_
  · rintro pos w₂ ⟨h₂, ⟨hlogged, hlo, hhi⟩, hsame⟩
    exact ⟨h₁.trans h₂, ⟨hlogged, le_trans h₁.keeps.endOfLog hlo, hhi⟩, hsame ▸ hsize⟩
  · rintro _ _ ⟨⟨message, rfl⟩, rfl⟩
    exact ⟨h₁, _, rfl⟩

end Accepting

end MinweightStore.Store
