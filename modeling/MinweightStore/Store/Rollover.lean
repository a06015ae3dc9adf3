import MinweightStore.Store.Appending
import MinweightStore.Store.Files

/-!
# Opening one more segment

`WalSegment::Open` and `Rollover` when calls may fail: what a new segment is like, and that neither
changes any other file, whatever becomes of its calls.

* `Beside` — only one segment file may have changed;
* `wp_open` — the segment that is opened, or the status of the call that failed;
* `LogOk`, `Keeps` — what a record store keeps about its segments, and what stays of it;
* `rollover_cases` — the next segment is the active one, or everything is as before.
-/

namespace MinweightStore.Store

open Minpatricia (ByteView Position kMaxKeySize)

/-! ### Worlds that differ in one file -/

/-- **Only one segment file, and the clock, may differ.** -/
def Beside (generation fileNo : ℕ) (w w' : World) : Prop :=
  ∃ d t, w' = w.onDisk d t ∧
    ∀ g n, ¬(g = generation ∧ n = fileNo) → d.walFile? g n = w.disk.walFile? g n

section Beside

variable {generation fileNo : ℕ} {w w' w'' : World}

theorem Beside.refl (w : World) : Beside generation fileNo w w :=
  ⟨w.disk, w.clock, rfl, fun _ _ _ => rfl⟩

theorem Beside.trans (h : Beside generation fileNo w w') (h' : Beside generation fileNo w' w'') :
    Beside generation fileNo w w'' := by
  obtain ⟨d, t, rfl, hd⟩ := h
  obtain ⟨d', t', rfl, hd'⟩ := h'
  exact ⟨d', t', rfl, fun g n hne => (hd' g n hne).trans (hd g n hne)⟩

theorem Beside.records (h : Beside generation fileNo w w') : w'.records = w.records := by
  obtain ⟨d, t, rfl, _⟩ := h
  rfl

theorem Beside.walFile? (h : Beside generation fileNo w w') {g n : ℕ}
    (hne : ¬(g = generation ∧ n = fileNo)) : w'.disk.walFile? g n = w.disk.walFile? g n := by
  obtain ⟨d, t, rfl, hd⟩ := h
  exact hd g n hne

theorem beside_onDisk {d : Disk} (t : ℕ)
    (h : ∀ g n, ¬(g = generation ∧ n = fileNo) → d.walFile? g n = w.disk.walFile? g n) :
    Beside generation fileNo w (w.onDisk d t) := ⟨d, t, rfl, h⟩

theorem beside_setWalFile (f : WalFile) (t : ℕ) :
    Beside generation fileNo w (w.onDisk (w.disk.setWalFile generation fileNo f) t) :=
  beside_onDisk t (fun g n hne => by rw [Disk.walFile?_setWalFile, if_neg hne])

end Beside

/-! ### Calls that may fail -/

/-- The status of a failed call of `WalSegment::Open`; it never says that a segment is full. -/
def OpenFails (generation fileNo : ℕ) (w : World) (fault : Fault Status) (w' : World) : Prop :=
  (∃ status : Status, fault = .status status ∧ status.code ≠ .walFull) ∧ Beside generation fileNo w w'

-- the header check runs over 4096 bytes and is never to be evaluated here
attribute [local irreducible] isZeroBytes

section Open

variable {env : Env} {site : Site} {generation size fileNo : ℕ} {w w₀ : World}

/-- A header that is refused. -/
theorem loadHeader_error {m : Mapping} {size : ℕ} {fault : Fault Status}
    (h : WalSegment.loadHeader m size = .error fault) :
    ∃ message, fault = .status (corruptWal message) := by
  rw [WalSegment.loadHeader] at h
  split at h
  · exact ⟨_, (Except.error.inj h).symm⟩
  split at h
  · exact ⟨_, (Except.error.inj h).symm⟩
  simp only at h
  split at h
  · exact ⟨_, (Except.error.inj h).symm⟩
  · exact absurd h (by simp)

/-- The file numbers and offsets that have a position. -/
theorem bounds_of_makeRecordPosition {fileNo offset : ℕ} {pos : Position}
    (h : makeRecordPosition fileNo offset = .ok pos) : 0 < fileNo ∧ fileNo < 2 ^ 33 := by
  have hfile : kRecordFileNoLimit = 2 ^ 33 := rfl
  rw [makeRecordPosition] at h
  split at h
  · exact absurd h (by simp [err])
  · omega

theorem wp_syscall (henv : env.Survives) {op : String} {effect : Disk → Disk}
    {Q : Unit → World → Prop} {E : Fault Status → World → Prop}
    (hok : Q () (w.onDisk (effect w.disk) (w.clock + 1)))
    (hfail : E (.status (ioError op)) (w.onDisk w.disk (w.clock + 1))) :
    Prog.wp (syscall env site op effect) Q E w := by
  rw [Prog.wp, syscall]
  cases hd : env site w.clock with
  | succeeds => exact hok
  | fails n => exact hfail
  | killed n => exact absurd hd (henv _ _ n)

theorem wp_check (henv : env.Survives) {op : String} {Q : Unit → World → Prop}
    {E : Fault Status → World → Prop} (hok : Q () (w.onDisk w.disk (w.clock + 1)))
    (hfail : E (.status (ioError op)) (w.onDisk w.disk (w.clock + 1))) :
    Prog.wp (check env site op) Q E w := wp_syscall henv hok hfail

theorem openFails_io (op : String) (h : Beside generation fileNo w w₀) :
    OpenFails generation fileNo w (.status (ioError op)) w₀ :=
  ⟨⟨ioError op, rfl, fun h => absurd h (by simp [ioError])⟩, h⟩

theorem openFails_corrupt (message : String) (h : Beside generation fileNo w w₀) :
    OpenFails generation fileNo w (.status (corruptWal message)) w₀ :=
  ⟨⟨corruptWal message, rfl, fun h => absurd h (by simp [corruptWal])⟩, h⟩

/-- `open(O_RDWR | O_CREAT)`. -/
theorem wp_createFile (henv : env.Survives) (h₀ : Beside generation fileNo w₀ w) :
    Prog.wp (WalSegment.createFile env site generation fileNo)
      (fun _ w' => Beside generation fileNo w₀ w' ∧
        ∃ f, w'.disk.walFile? generation fileNo = some f)
      (OpenFails generation fileNo w₀) w := by
  rw [WalSegment.createFile, Prog.wp_bind, Prog.wp_get]
  cases hdir : w.disk.wal.get? generation with
  | none => exact openFails_io "open" h₀
  | some dir =>
    refine wp_syscall henv ?_ (openFails_io "open" (h₀.trans ⟨_, _, rfl, fun _ _ _ => rfl⟩))
    cases hf : w.disk.walFile? generation fileNo with
    | some f => exact ⟨h₀.trans ⟨_, _, rfl, fun _ _ _ => rfl⟩, f, hf⟩
    | none =>
      refine ⟨h₀.trans (beside_setWalFile .empty _), .empty, ?_⟩
      show (w.disk.setWalFile generation fileNo .empty).walFile? generation fileNo = _
      rw [Disk.walFile?_setWalFile, if_pos ⟨rfl, rfl⟩]

/-- `fstat` and `ftruncate`. -/
theorem wp_sizeFile (henv : env.Survives) (h₀ : Beside generation fileNo w₀ w)
    (hf : ∃ f, w.disk.walFile? generation fileNo = some f) :
    Prog.wp (WalSegment.sizeFile env site generation fileNo size)
      (fun _ w' => Beside generation fileNo w₀ w' ∧
        ∃ f, w'.disk.walFile? generation fileNo = some f ∧ f.size = size)
      (OpenFails generation fileNo w₀) w := by
  obtain ⟨f, hf⟩ := hf
  rw [WalSegment.sizeFile, Prog.wp_bind]
  have h₁ : Beside generation fileNo w₀ (w.onDisk w.disk (w.clock + 1)) :=
    h₀.trans ⟨_, _, rfl, fun _ _ _ => rfl⟩
  refine wp_check henv ?_ (openFails_io "fstat" h₁)
  have hfile : ((w.onDisk w.disk (w.clock + 1)).disk.walFile? generation fileNo).getD .empty =
      f := by
    show (w.disk.walFile? generation fileNo).getD .empty = f
    rw [hf]
    rfl
  rw [Prog.wp_bind, Prog.wp_get]
  simp only [hfile]
  by_cases hzero : f.size = 0
  · rw [if_pos hzero, Prog.wp_bind]
    refine wp_syscall henv ?_ (openFails_io "ftruncate" (h₁.trans ⟨_, _, rfl, fun _ _ _ => rfl⟩))
    refine ⟨h₁.trans (beside_setWalFile _ _), f.resize size, ?_, rfl⟩
    show (w.disk.setWalFile generation fileNo (f.resize size)).walFile? generation fileNo = _
    rw [Disk.walFile?_setWalFile, if_pos ⟨rfl, rfl⟩]
  · rw [if_neg hzero]
    by_cases hsize : f.size = size
    · rw [if_neg (not_not.mpr hsize)]
      exact ⟨h₁, f, hf, hsize⟩
    · rw [if_pos hsize]
      exact openFails_corrupt _ h₁

/-- A segment that `WalSegment::Open` returns. -/
structure NewSegment (fileNo size : ℕ) (seg : WalSegment) : Prop where
  ok : SegmentOk fileNo seg
  size_eq : seg.size = size
  unsealed : seg.isSealed = false

/-- The header of the mapped file. -/
theorem wp_mapHeader (henv : env.Survives) (h₀ : Beside generation fileNo w₀ w)
    {f : WalFile} (hf : w.disk.walFile? generation fileNo = some f) (hsize : f.size = size)
    (hlo : kWalHeaderSize ≤ size) (hhi : size ≤ 2 ^ 30) (hpos : 0 < fileNo)
    (hno : fileNo < 2 ^ 33) (metadataDirty : Bool) :
    Prog.wp (WalSegment.mapHeader env generation fileNo size metadataDirty)
      (fun seg w' => Beside generation fileNo w₀ w' ∧ NewSegment fileNo size seg ∧
        ∃ f, w'.disk.walFile? generation fileNo = some f ∧ f.size = size)
      (OpenFails generation fileNo w₀) w := by
  cases hz : isZeroBytes (w.disk.mapping generation fileNo) kWalHeaderSize with
  | true =>
    -- a fresh file: three stores into the mapping
    have hinit := initHeader_ok henv.stores hf
    rw [WalSegment.mapHeader, Prog.wp_bind, Prog.wp_get, if_pos hz, Prog.wp_bind,
      Prog.wp_of_ok hinit]
    refine ⟨h₀.trans (beside_setWalFile _ _), ⟨⟨rfl, hpos, hno, le_refl _, hlo, hhi⟩, rfl, rfl⟩,
      ⟨f.size, initBytes f.bytes⟩, ?_, hsize⟩
    show (w.disk.setWalFile generation fileNo _).walFile? generation fileNo = _
    rw [Disk.walFile?_setWalFile, if_pos ⟨rfl, rfl⟩]
  | false =>
    rw [WalSegment.mapHeader, Prog.wp_bind, Prog.wp_get, if_neg (by rw [hz]; decide), Prog.wp_bind,
      Prog.wp_ofOutcome]
    refine ⟨fun used hused => ?_, fun fault hfault => ?_⟩
    · obtain ⟨hheader, rfl⟩ := loadHeader_ok_iff.mp hused
      exact ⟨h₀, ⟨⟨rfl, hpos, hno, hheader.used_lo, hheader.used_hi, hhi⟩, rfl, rfl⟩, f, hf, hsize⟩
    · obtain ⟨message, rfl⟩ := loadHeader_error hfault
      exact openFails_corrupt message h₀

/-- **`WalSegment::Open`**: the segment, or the status of the call that failed. -/
theorem wp_open (henv : env.Survives)
    (hlo : kWalHeaderSize + kWalRecordHeaderSize ≤ size) (hhi : size ≤ kRecordOffsetLimit) :
    Prog.wp (WalSegment.open' env site generation size fileNo)
      (fun seg w' => Beside generation fileNo w w' ∧ NewSegment fileNo size seg ∧
        ∃ f, w'.disk.walFile? generation fileNo = some f ∧ f.size = size)
      (OpenFails generation fileNo w) w := by
  rw [WalSegment.open', if_neg (by omega)]
  cases hpos : makeRecordPosition fileNo kWalHeaderSize with
  | error fault => exact openFails_corrupt _ (Beside.refl w)
  | ok pos =>
    obtain ⟨h0, hno⟩ := bounds_of_makeRecordPosition hpos
    have hlimit : kRecordOffsetLimit = 2 ^ 30 := rfl
    have hhi' : size ≤ 2 ^ 30 := by omega
    simp only
    rw [Prog.wp_bind]
    refine Prog.wp_mono (wp_createFile henv (Beside.refl w)) (fun _ w₁ h₁ => ?_) (fun _ _ h => h)
    rw [Prog.wp_bind]
    refine Prog.wp_mono (wp_sizeFile henv h₁.1 h₁.2) (fun metadataDirty w₂ h₂ => ?_) (fun _ _ h => h)
    have h₃ : Beside generation fileNo w (w₂.onDisk w₂.disk (w₂.clock + 1)) :=
      h₂.1.trans ⟨_, _, rfl, fun _ _ _ => rfl⟩
    rw [Prog.wp_bind]
    obtain ⟨f, hf, hsize⟩ := h₂.2
    apply wp_check henv
    · exact wp_mapHeader henv h₃ hf hsize (by omega) hhi' h0 hno metadataDirty
    · exact openFails_io "mmap" h₃

end Open

/-! ### The segments of a record store -/

/-- **What a record store keeps about its segments.** -/
structure LogOk (w : World) : Prop where
  size_lo : kWalHeaderSize + kWalRecordHeaderSize ≤ w.records.walSize
  size_hi : w.records.walSize ≤ kRecordOffsetLimit
  segment : ∀ id seg, w.records.segments.get? id = some seg → SegmentOk id seg ∧
    seg.size = w.records.walSize ∧
    ∃ f, w.disk.walFile? w.records.generation id = some f ∧ f.size = w.records.walSize
  active : ∃ seg, w.records.segments.get? w.records.activeFileNo = some seg
  top : ∀ id seg, w.records.segments.get? id = some seg → id ≤ w.records.activeFileNo
  next : w.records.nextFileNo = w.records.activeFileNo + 1
  snapshots_lo : 1 ≤ w.records.snapshotRecords.length
  snapshots_hi : w.records.snapshotRecords.length ≤ kRecordOffsetLimit

/-- The end of the log: where the next record goes, if it fits. -/
def World.endOfLog (w : World) : ℕ :=
  w.records.activeFileNo * 2 ^ 30 + w.usedOf w.records.activeFileNo

/-- **Nothing that was there is lost**: neither snapshot records nor the used part of a segment. -/
structure Keeps (w w' : World) : Prop where
  snapshots : ∃ more, w'.records.snapshotRecords = w.records.snapshotRecords ++ more
  segment : ∀ id seg, w.records.segments.get? id = some seg →
    ∃ seg', w'.records.segments.get? id = some seg' ∧ seg.used ≤ seg'.used ∧
      AgreeBelow (w.mapping id) (w'.mapping id) seg.used
  endOfLog : w.endOfLog ≤ w'.endOfLog

section LogOk

variable {w w' w'' : World}

theorem usedOf_eq {id : ℕ} {seg : WalSegment} (hs : w.records.segments.get? id = some seg) :
    w.usedOf id = seg.used := by
  rw [World.usedOf, hs]
  rfl

theorem Keeps.refl (w : World) : Keeps w w :=
  ⟨⟨[], (List.append_nil _).symm⟩, fun _ seg hs => ⟨seg, hs, le_refl _, fun _ _ _ => rfl⟩, le_refl _⟩

theorem Keeps.trans (h : Keeps w w') (h' : Keeps w' w'') : Keeps w w'' := by
  obtain ⟨more, hmore⟩ := h.snapshots
  obtain ⟨more', hmore'⟩ := h'.snapshots
  refine ⟨⟨more ++ more', by rw [hmore', hmore, List.append_assoc]⟩, fun id seg hs => ?_,
    le_trans h.endOfLog h'.endOfLog⟩
  obtain ⟨seg', hs', hle, hagree⟩ := h.segment id seg hs
  obtain ⟨seg'', hs'', hle', hagree'⟩ := h'.segment id seg' hs'
  exact ⟨seg'', hs'', le_trans hle hle', fun i hlo hhi =>
    (hagree i hlo hhi).trans (hagree' i hlo (by omega))⟩

/-- The end of the log lies in the active segment. -/
theorem LogOk.endOfLog_bounds (h : LogOk w) {seg : WalSegment}
    (hs : w.records.segments.get? w.records.activeFileNo = some seg) :
    w.endOfLog = w.records.activeFileNo * 2 ^ 30 + seg.used ∧ kWalHeaderSize ≤ seg.used ∧
      seg.used ≤ 2 ^ 30 ∧ 0 < w.records.activeFileNo ∧ w.records.activeFileNo < 2 ^ 33 := by
  obtain ⟨hok, _, _⟩ := h.segment _ _ hs
  exact ⟨by rw [World.endOfLog, usedOf_eq hs], hok.header, le_trans hok.used_le hok.size_le, hok.pos,
    hok.fileNo_lt⟩

end LogOk

/-! ### Rollover -/

section Rollover

variable {env : Env} {w : World}

/-- The world in which `Rollover` opens the next segment. -/
def rolling (w : World) (old : WalSegment) : World :=
  { w with records := { w.records with
    nextFileNo := w.records.nextFileNo + 1
    segments := w.records.segments.insert old.fileNo { old with isSealed := true } } }

/-- The world after a rollover. -/
def rolledOver (w : World) (old new : WalSegment) (d : Disk) (t : ℕ) : World :=
  { w with
    disk := d
    clock := t
    records := { w.records with
      activeFileNo := w.records.nextFileNo
      nextFileNo := w.records.nextFileNo + 1
      segments := (w.records.segments.insert old.fileNo { old with isSealed := true }).insert
        w.records.nextFileNo new } }

/-- The world after a rollover that failed. -/
def notRolledOver (w : World) (old : WalSegment) (d : Disk) (t : ℕ) : World :=
  { w with
    disk := d
    clock := t
    records := { w.records with
      segments := w.records.segments.insert old.fileNo { old with isSealed := false } } }

/-- **`Rollover`**: the next segment is the active one, or a call failed and only the file of the
next segment may have changed. -/
theorem rollover_cases (henv : env.Survives) (h : LogOk w) {old : WalSegment}
    (hs : w.records.segments.get? w.records.activeFileNo = some old) :
    (∃ new d t, rollover env w = .ok () (rolledOver w old new d t) ∧
      NewSegment w.records.nextFileNo w.records.walSize new ∧
      (∃ f, d.walFile? w.records.generation w.records.nextFileNo = some f ∧
        f.size = w.records.walSize) ∧
      ∀ g n, ¬(g = w.records.generation ∧ n = w.records.nextFileNo) →
        d.walFile? g n = w.disk.walFile? g n) ∨
    ∃ (status : Status) (d : Disk) (t : ℕ), status.code ≠ .walFull ∧
      rollover env w = .error (.status status) (notRolledOver w old d t) ∧
      ∀ g n, ¬(g = w.records.generation ∧ n = w.records.nextFileNo) →
        d.walFile? g n = w.disk.walFile? g n := by
  have hno : old.fileNo = w.records.activeFileNo := (h.segment _ _ hs).1.fileNo_eq
  have hderef : WalSegment.deref w.records.activeFileNo w = .ok old w := by
    rw [WalSegment.deref, hs]
  have hseal : setSealed w.records.activeFileNo true w =
      .ok () (w.setSegment { old with isSealed := true }) := by
    rw [setSealed, Prog.bind_ok hderef]
    rfl
  have hopen : Prog.wp (WalSegment.open' env .append w.records.generation w.records.walSize
      w.records.nextFileNo) _ (OpenFails w.records.generation w.records.nextFileNo (rolling w old))
      (rolling w old) := wp_open henv h.size_lo h.size_hi
  rw [rollover, Prog.get_bind]
  simp only [hs, Option.isNone_some, Bool.false_eq_true, if_false]
  rw [Prog.bind_ok hseal, Prog.modify_bind]
  show (∃ new d t, (Prog.attempt (openSegment env .append w.records.nextFileNo false) >>= _)
    (rolling w old) = _ ∧ _) ∨ ∃ status d t, _ ∧ (Prog.attempt (openSegment env .append
      w.records.nextFileNo false) >>= _) (rolling w old) = _ ∧ _
  cases hrun : WalSegment.open' env .append w.records.generation w.records.walSize
      w.records.nextFileNo (rolling w old) with
  | ok new w' =>
    obtain ⟨⟨d, t, rfl, hd⟩, hnew, hfile⟩ := Prog.wp_run_ok hopen hrun
    have hseg : openSegment env .append w.records.nextFileNo false (rolling w old) =
        .ok () (((rolling w old).onDisk d t).setSegment { new with isSealed := false }) := by
      rw [openSegment, Prog.get_bind]
      exact Prog.bind_ok hrun
    refine Or.inl ⟨new, d, t, ?_, hnew, hfile, hd⟩
    rw [Prog.bind_ok (Prog.attempt_ok hseg)]
    have hflag : ({ new with isSealed := false } : WalSegment) = new := by
      rw [← hnew.unsealed]
    rw [hflag, World.setSegment, hnew.ok.fileNo_eq, rolledOver]
    rfl
  | error fault w' =>
    obtain ⟨⟨status, rfl, hcode⟩, d, t, rfl, hd⟩ := Prog.wp_run_error hopen hrun
    have hseg : openSegment env .append w.records.nextFileNo false (rolling w old) =
        .error (.status status) ((rolling w old).onDisk d t) := by
      rw [openSegment, Prog.get_bind]
      exact Prog.bind_error hrun
    have hderef' : WalSegment.deref w.records.activeFileNo ((rolling w old).onDisk d t) =
        .ok { old with isSealed := true } ((rolling w old).onDisk d t) := by
      have hget : (rolling w old).records.segments.get? w.records.activeFileNo =
          some { old with isSealed := true } := by
        show (SortedMap.insert _ _ _).get? _ = _
        rw [SortedMap.get?_insert, if_pos hno.symm]
      rw [WalSegment.deref, World.onDisk_records, hget]
    refine Or.inr ⟨status, d, t, hcode, ?_, hd⟩
    rw [Prog.bind_ok (Prog.attempt_status hseg)]
    simp only
    rw [setSealed, bind_assoc, Prog.bind_ok hderef', Prog.modify_bind, Prog.modify_bind,
      Prog.fail_run, notRolledOver, ← SortedMap.insert_insert _ old.fileNo
        ({ old with isSealed := true } : WalSegment)]
    rfl

section Kept

variable {w' : World} {old new : WalSegment} {d : Disk} {t : ℕ}

/-- **A change of the active segment** keeps the log, if no record is lost. -/
theorem LogOk.replaceActive (h : LogOk w)
    (hs : w.records.segments.get? w.records.activeFileNo = some old)
    (hrecords : w'.records = { w.records with
      segments := w.records.segments.insert old.fileNo new })
    (hok : SegmentOk w.records.activeFileNo new) (hsize : new.size = old.size)
    (hused : old.used ≤ new.used)
    (hfile : ∀ id seg, w.records.segments.get? id = some seg →
      (∃ f, w'.disk.walFile? w.records.generation id = some f ∧ f.size = w.records.walSize) ∧
      AgreeBelow (w.mapping id) (w'.mapping id) seg.used) : LogOk w' ∧ Keeps w w' := by
  have hold := h.segment _ _ hs
  have hno := hold.1.fileNo_eq
  have hget : ∀ id, w'.records.segments.get? id =
      if id = w.records.activeFileNo then some new else w.records.segments.get? id := fun id => by
    rw [hrecords, SortedMap.get?_insert, hno]
  have hactive : w'.records.activeFileNo = w.records.activeFileNo := by rw [hrecords]
  have hwal : w'.records.walSize = w.records.walSize := by rw [hrecords]
  have hgeneration : w'.records.generation = w.records.generation := by rw [hrecords]
  have hsnapshots : w'.records.snapshotRecords = w.records.snapshotRecords := by rw [hrecords]
  have hnewGet : w'.records.segments.get? w'.records.activeFileNo = some new := by
    rw [hactive, hget, if_pos rfl]
  refine ⟨⟨hwal ▸ h.size_lo, hwal ▸ h.size_hi, fun id seg hseg => ?_, ⟨new, hnewGet⟩,
    fun id seg hseg => ?_, ?_, hsnapshots ▸ h.snapshots_lo, hsnapshots ▸ h.snapshots_hi⟩,
    ⟨⟨[], by rw [hsnapshots, List.append_nil]⟩, fun id seg hseg => ?_, ?_⟩⟩
  · rw [hwal, hgeneration]
    rw [hget] at hseg
    split at hseg
    · rename_i hid
      subst hid
      obtain rfl := Option.some.inj hseg
      exact ⟨hok, hsize.trans hold.2.1, (hfile _ _ hs).1⟩
    · exact ⟨(h.segment id seg hseg).1, (h.segment id seg hseg).2.1, (hfile id seg hseg).1⟩
  · rw [hactive]
    rw [hget] at hseg
    split at hseg
    · omega
    · exact h.top id seg hseg
  · rw [hactive, ← h.next, hrecords]
  · rw [hget]
    by_cases hid : id = w.records.activeFileNo
    · subst hid
      obtain rfl := Option.some.inj (hs.symm.trans hseg)
      exact ⟨new, if_pos rfl, hused, (hfile _ _ hs).2⟩
    · exact ⟨seg, by rw [if_neg hid, hseg], le_refl _, (hfile id seg hseg).2⟩
  · rw [World.endOfLog, World.endOfLog, usedOf_eq hs, usedOf_eq hnewGet, hactive]
    omega

/-- **One more segment** keeps the log, and the end of the log moves on. -/
theorem LogOk.addSegment (h : LogOk w)
    (hrecords : w'.records = { w.records with
      activeFileNo := w.records.nextFileNo
      nextFileNo := w.records.nextFileNo + 1
      segments := w.records.segments.insert w.records.nextFileNo new })
    (hdisk : w'.disk = w.disk) (hnew : NewSegment w.records.nextFileNo w.records.walSize new)
    (hfile : ∃ f, w.disk.walFile? w.records.generation w.records.nextFileNo = some f ∧
      f.size = w.records.walSize) : LogOk w' ∧ Keeps w w' := by
  have hnext := h.next
  have hget : ∀ id, w'.records.segments.get? id =
      if id = w.records.nextFileNo then some new else w.records.segments.get? id := fun id => by
    rw [hrecords, SortedMap.get?_insert]
  have hactive : w'.records.activeFileNo = w.records.nextFileNo := by rw [hrecords]
  have hwal : w'.records.walSize = w.records.walSize := by rw [hrecords]
  have hgeneration : w'.records.generation = w.records.generation := by rw [hrecords]
  have hsnapshots : w'.records.snapshotRecords = w.records.snapshotRecords := by rw [hrecords]
  have hnewGet : w'.records.segments.get? w'.records.activeFileNo = some new := by
    rw [hactive, hget, if_pos rfl]
  have hmapping : ∀ id, w'.mapping id = w.mapping id := fun id => by
    rw [World.mapping, World.mapping, hdisk, hgeneration]
  refine ⟨⟨hwal ▸ h.size_lo, hwal ▸ h.size_hi, fun id seg hseg => ?_, ⟨new, hnewGet⟩,
    fun id seg hseg => ?_, ?_, hsnapshots ▸ h.snapshots_lo, hsnapshots ▸ h.snapshots_hi⟩,
    ⟨⟨[], by rw [hsnapshots, List.append_nil]⟩, fun id seg hseg => ?_, ?_⟩⟩
  · rw [hwal, hgeneration, hdisk]
    rw [hget] at hseg
    split at hseg
    · rename_i hid
      subst hid
      obtain rfl := Option.some.inj hseg
      exact ⟨hnew.ok, hnew.size_eq, hfile⟩
    · exact h.segment id seg hseg
  · rw [hactive]
    rw [hget] at hseg
    split at hseg
    · omega
    · have := h.top id seg hseg
      omega
  · rw [hactive, hrecords]
  · have htop := h.top id seg hseg
    rw [hget, if_neg (by omega), hmapping]
    exact ⟨seg, hseg, le_refl _, fun _ _ _ => rfl⟩
  · obtain ⟨active, hs⟩ := h.active
    obtain ⟨hend, _, hle, _, _⟩ := h.endOfLog_bounds hs
    rw [hend, World.endOfLog, usedOf_eq hnewGet, hactive]
    omega

variable (h : LogOk w) (hs : w.records.segments.get? w.records.activeFileNo = some old)
  (hd : ∀ g n, ¬(g = w.records.generation ∧ n = w.records.nextFileNo) →
    d.walFile? g n = w.disk.walFile? g n)

include h hs hd

/-- **The sealed flag** of the active segment, while only the next file changes. -/
theorem LogOk.setSealed (isSealed : Bool) (hdisk : w'.disk = d)
    (hrecords : w'.records = { w.records with
      segments := w.records.segments.insert old.fileNo { old with isSealed := isSealed } }) :
    LogOk w' ∧ Keeps w w' := by
  have hsame : ∀ id seg, w.records.segments.get? id = some seg →
      d.walFile? w.records.generation id = w.disk.walFile? w.records.generation id :=
    fun id seg hseg => by
      have htop := h.top id seg hseg
      have hnext := h.next
      exact hd _ _ (fun hne => by omega)
  obtain ⟨h1, h2, h3, h4, h5, h6⟩ := (h.segment _ _ hs).1
  refine h.replaceActive hs hrecords ⟨h1, h2, h3, h4, h5, h6⟩ rfl (le_refl _)
    (fun id seg hseg => ⟨?_, ?_⟩)
  · rw [hdisk, hsame id seg hseg]
    exact (h.segment id seg hseg).2.2
  · have hmapping : w'.mapping id = w.mapping id := by
      rw [World.mapping, World.mapping, Disk.mapping, Disk.mapping, hdisk, hrecords]
      show ((d.walFile? w.records.generation id).getD .empty).bytes = _
      rw [hsame id seg hseg]
    rw [hmapping]
    exact fun _ _ _ => rfl

/-- **A rollover that succeeds** keeps the log. -/
theorem LogOk.rolledOver (hnew : NewSegment w.records.nextFileNo w.records.walSize new)
    (hfile : ∃ f, d.walFile? w.records.generation w.records.nextFileNo = some f ∧
      f.size = w.records.walSize) :
    LogOk (rolledOver w old new d t) ∧ Keeps w (rolledOver w old new d t) := by
  let sealed : World := { w with
    disk := d
    records := { w.records with
      segments := w.records.segments.insert old.fileNo { old with isSealed := true } } }
  obtain ⟨h₁, hk₁⟩ : LogOk sealed ∧ Keeps w sealed := h.setSealed hs hd true rfl rfl
  obtain ⟨h₂, hk₂⟩ : LogOk (Store.rolledOver w old new d t) ∧
      Keeps sealed (Store.rolledOver w old new d t) := h₁.addSegment rfl rfl hnew hfile
  exact ⟨h₂, hk₁.trans hk₂⟩

/-- **A rollover that fails** keeps the log. -/
theorem LogOk.notRolledOver :
    LogOk (notRolledOver w old d t) ∧ Keeps w (notRolledOver w old d t) :=
  h.setSealed hs hd false rfl rfl

end Kept

end Rollover

end MinweightStore.Store
