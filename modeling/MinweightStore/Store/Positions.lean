import MinweightStore.Store.Rollover

/-!
# Record positions

The positions that a record store hands out in one generation, over any sequence of appends,
deletes and snapshot records with the rollovers they cause.

* `LoggedAt`, `SnapshotAt` — where the record of a position is, and that it stays there;
* `appendOrRollover_hands` — one WAL record: its position lies between the old and the new end of the
  log;
* `RecordOp`, `runOps` — a sequence of operations and their results;
* `runOps_ok` — every record stays at its position, and every position was free before.
-/

namespace MinweightStore.Store

open Minpatricia (ByteView Position kMaxKeySize)

/-! ### Where a record is -/

/-- **A WAL record and its position.** -/
def LoggedAt (w : World) (pos : Position) (op : UInt8) (key value : ByteView) : Prop :=
  ∃ id offset seg, w.records.segments.get? id = some seg ∧ pos = recordPosition id offset ∧
    AcceptedAt (w.mapping id) seg.used offset false ∧
    recordOf (w.mapping id) offset = ⟨op, key, value, offset + recordSize key value⟩

/-- **A snapshot record and its position.** -/
def SnapshotAt (w : World) (pos : Position) (key value : ByteView) : Prop :=
  0 < pos.toNat ∧ w.records.snapshotRecords[pos.toNat]? = some ⟨key, value, true⟩

/-- **The file number and the offset of a position**, where `RecordAtOffset` has the record. -/
def DecodesTo (w : World) (pos : Position) (op : UInt8) (key value : ByteView) : Prop :=
  ∃ fileNo offset seg, w.records.segments.get? fileNo = some seg ∧
    makeRecordPosition fileNo offset = .ok pos ∧ recordPositionFileNo pos = fileNo ∧
    recordPositionOffset pos = offset ∧
    recordAtOffset (w.mapping fileNo) seg.used offset false =
      .ok ⟨op, key, value, offset + recordSize key value⟩

section Where

variable {w w' : World} {pos : Position} {op : UInt8} {key value : ByteView}

theorem LoggedAt.keep (h : LoggedAt w pos op key value) (hk : Keeps w w') :
    LoggedAt w' pos op key value := by
  obtain ⟨id, offset, seg, hs, hpos, haccepted, hrecord⟩ := h
  obtain ⟨seg', hs', hle, hagree⟩ := hk.segment id seg hs
  obtain ⟨haccepted', hsame⟩ := haccepted.congr hagree
  exact ⟨id, offset, seg', hs', hpos, haccepted'.weaken hle, hsame ▸ hrecord⟩

theorem SnapshotAt.keep (h : SnapshotAt w pos key value) (hk : Keeps w w') :
    SnapshotAt w' pos key value := by
  obtain ⟨hpos, hget⟩ := h
  obtain ⟨more, hmore⟩ := hk.snapshots
  refine ⟨hpos, ?_⟩
  rw [hmore, List.getElem?_append_left (List.getElem?_eq_some_iff.mp hget).1]
  exact hget

/-- **A put record is found at its position.** -/
theorem LoggedAt.resolves (hw : LogOk w) (h : LoggedAt w pos kWalOpPut key value) :
    w.key pos = .ok key ∧ w.valueView pos = .ok value := by
  obtain ⟨id, offset, seg, hs, rfl, haccepted, hrecord⟩ := h
  have hok := (hw.segment id seg hs).1
  exact key_of_accepted hs hok haccepted hrecord.symm rfl

/-- **A snapshot record is found at its position.** -/
theorem SnapshotAt.resolves (hw : LogOk w) (h : SnapshotAt w pos key value) :
    w.key pos = .ok key ∧ w.valueView pos = .ok value := by
  obtain ⟨hpos, hget⟩ := h
  have hlt := (List.getElem?_eq_some_iff.mp hget).1
  have hhi := hw.snapshots_hi
  have hsnap : isSnapshotPosition pos = true := by
    rw [isSnapshotPosition, Bool.and_eq_true]
    exact ⟨decide_eq_true hpos, decide_eq_true (by omega)⟩
  have hrecord : w.records.snapshotRecord pos = some ⟨key, value, true⟩ := by
    rw [SegmentedRecordStore.snapshotRecord, if_neg (by omega), hget]
    rfl
  refine ⟨?_, ?_⟩
  · rw [World.key, if_pos hsnap, hrecord]
  · rw [World.valueView, if_pos hsnap, hrecord]

/-- **The position of a WAL record** has the file number and the offset of the record. -/
theorem LoggedAt.decodes (hw : LogOk w) (h : LoggedAt w pos op key value) :
    DecodesTo w pos op key value := by
  obtain ⟨id, offset, seg, hs, rfl, haccepted, hrecord⟩ := h
  have hok := (hw.segment id seg hs).1
  have ho : offset < 2 ^ 30 := hok.position_lt haccepted
  exact ⟨id, offset, seg, hs, makeRecordPosition_eq hok.fileNo_lt ho hok.pos,
    recordPositionFileNo_eq hok.fileNo_lt ho, recordPositionOffset_eq hok.fileNo_lt ho,
    recordAtOffset_ok_iff.mpr ⟨haccepted, hrecord.symm⟩⟩

theorem LoggedAt.range (hw : LogOk w) (h : LoggedAt w pos op key value) :
    2 ^ 30 ≤ pos.toNat ∧ pos.toNat < 2 ^ 63 := by
  obtain ⟨id, offset, seg, hs, rfl, haccepted, _⟩ := h
  have hok := (hw.segment id seg hs).1
  have ho : offset < 2 ^ 30 := hok.position_lt haccepted
  have hnat := recordPosition_toNat hok.fileNo_lt ho
  have hpos := hok.pos
  exact ⟨by omega, recordPosition_lt hok.fileNo_lt ho⟩

end Where

/-! ### One WAL record -/

section Append

variable {env : Env} {w : World} {seg : WalSegment} {f : WalFile} {op : UInt8}
  {key value : ByteView} {t : ℕ}

/-- **An appended record** lies at the old end of the log, and the log ends behind it. -/
theorem LogOk.appended (h : LogOk w)
    (hs : w.records.segments.get? w.records.activeFileNo = some seg)
    (hf : w.disk.walFile? w.records.generation w.records.activeFileNo = some f)
    (hroom : seg.room key value = .ok seg.used) (hkey : key.length ≤ kMaxKeySize)
    (hop : op = kWalOpPut ∨ op = kWalOpDelete ∧ value = []) :
    LogOk (appendedWorld w w.records.activeFileNo seg f op key value t) ∧
      Keeps w (appendedWorld w w.records.activeFileNo seg f op key value t) ∧
      LoggedAt (appendedWorld w w.records.activeFileNo seg f op key value t)
        (recordPosition w.records.activeFileNo seg.used) op key value ∧
      w.endOfLog = (recordPosition w.records.activeFileNo seg.used).toNat ∧
      w.endOfLog < (appendedWorld w w.records.activeFileNo seg f op key value t).endOfLog := by
  obtain ⟨hok, hsize, f', hf', hfsize⟩ := h.segment _ _ hs
  obtain rfl := Option.some.inj (hf.symm.trans hf')
  obtain ⟨hfits, hlimit, hvalue⟩ := room_bounds hroom
  have hpos := recordSize_pos key value
  have hlo := hok.header
  have hle := hok.used_le
  have hk : kWalHeaderSize = 4096 := rfl
  have hu : kWalHeaderUsedOffset = 16 := rfl
  have hactive : w.mapping w.records.activeFileNo = f.bytes := by
    rw [World.mapping, Disk.mapping, hf]
    rfl
  have hmapping := appendedWorld_mapping w w.records.activeFileNo seg f op key value t
  have hbelow : AgreeBelow f.bytes ((appendedWorld w w.records.activeFileNo seg f op key value
      t).mapping w.records.activeFileNo) seg.used := fun i hi hlt => by
    rw [hmapping, writeBytes_of_le (by rw [length_store64]; omega), writeBytes_of_lt hlt]
  have hfiles : ∀ g n, (appendedWorld w w.records.activeFileNo seg f op key value t).disk.walFile? g n =
      if g = w.records.generation ∧ n = w.records.activeFileNo then
        some ⟨f.size, writeBytes (writeBytes f.bytes seg.used (encodeRecord op key value))
          kWalHeaderUsedOffset (store64 (UInt64.ofNat (seg.used + recordSize key value)))⟩
      else w.disk.walFile? g n := fun g n => Disk.walFile?_setWalFile _
  have hnew : SegmentOk w.records.activeFileNo (seg.cut (seg.used + recordSize key value)) :=
    ⟨hok.fileNo_eq, hok.pos, hok.fileNo_lt, by show _ ≤ seg.used + _; omega,
      by show seg.used + _ ≤ seg.size; omega, hok.size_le⟩
  have hfile : ∀ id seg', w.records.segments.get? id = some seg' →
      (∃ f', (appendedWorld w w.records.activeFileNo seg f op key value t).disk.walFile?
        w.records.generation id = some f' ∧ f'.size = w.records.walSize) ∧
      AgreeBelow (w.mapping id) ((appendedWorld w w.records.activeFileNo seg f op key value
        t).mapping id) seg'.used := fun id seg' hs' => by
    obtain ⟨_, _, f', hf', hfsize'⟩ := h.segment _ _ hs'
    by_cases hid : id = w.records.activeFileNo
    · subst hid
      obtain rfl := Option.some.inj (hs.symm.trans hs')
      rw [hactive]
      exact ⟨⟨_, (hfiles _ _).trans (if_pos ⟨rfl, rfl⟩), hfsize⟩, hbelow⟩
    · have hsame := (hfiles w.records.generation id).trans (if_neg (fun hne => hid hne.2))
      have hother : (appendedWorld w w.records.activeFileNo seg f op key value t).mapping id =
          w.mapping id := by
        rw [World.mapping, World.mapping, Disk.mapping, Disk.mapping]
        show (((appendedWorld w w.records.activeFileNo seg f op key value t).disk.walFile?
          w.records.generation id).getD .empty).bytes = _
        rw [hsame]
      rw [hother]
      exact ⟨⟨f', hsame.trans hf', hfsize'⟩, fun _ _ _ => rfl⟩
  obtain ⟨hlog, hkeeps⟩ : LogOk (appendedWorld w w.records.activeFileNo seg f op key value t) ∧
      Keeps w (appendedWorld w w.records.activeFileNo seg f op key value t) :=
    h.replaceActive hs rfl hnew rfl (Nat.le_add_right _ _) hfile
  have hget : (appendedWorld w w.records.activeFileNo seg f op key value t).records.segments.get?
      w.records.activeFileNo = some (seg.cut (seg.used + recordSize key value)) := by
    rw [appendedWorld_segments, SortedMap.get?_insert, hok.fileNo_eq, if_pos rfl]
  have hbytes : readBytes ((appendedWorld w w.records.activeFileNo seg f op key value t).mapping
      w.records.activeFileNo) seg.used (recordSize key value) = encodeRecord op key value := by
    rw [hmapping, readBytes_writeBytes_of_disjoint (Or.inr (by rw [length_store64]; omega)),
      ← length_encodeRecord op key value]
    exact readBytes_writeBytes _ _ _
  obtain ⟨haccepted, hrecord⟩ := accepted_of_encode hbytes hkey hvalue hop hlo (le_refl _) false
  have hend := (h.endOfLog_bounds hs).1
  have hend' := (hlog.endOfLog_bounds hget).1
  have hnat := recordPosition_toNat hok.fileNo_lt (show seg.used < 2 ^ 30 by omega)
  refine ⟨hlog, hkeeps, ⟨_, _, _, hget, rfl, haccepted, hrecord⟩, by omega, ?_⟩
  rw [hend, hend']
  show w.records.activeFileNo * 2 ^ 30 + seg.used <
    w.records.activeFileNo * 2 ^ 30 + (seg.used + recordSize key value)
  omega

/-- What an operation does: a position of which `Found` holds, or a status; the log is kept. -/
def Hands (x : StoreM Position) (w : World) (Found : Position → World → Prop) : Prop :=
  ∃ w', LogOk w' ∧ Keeps w w' ∧
    ((∃ pos, x w = .ok pos w' ∧ Found pos w') ∨ ∃ status, x w = .error (.status status) w')

/-- The position of a WAL record lies between the old and the new end of the log. -/
def AtEnd (w : World) (op : UInt8) (key value : ByteView) (pos : Position) (w' : World) : Prop :=
  LoggedAt w' pos op key value ∧ w.endOfLog ≤ pos.toNat ∧ pos.toNat < w'.endOfLog

variable (hkey : key.length ≤ kMaxKeySize)
  (hop : op = kWalOpPut ∨ op = kWalOpDelete ∧ value = [])

include hkey hop

/-- `Active()->Append`: a full segment leaves everything as it is. -/
theorem appendActive_hands (henv : env.Survives) (h : LogOk w) :
    Hands (appendActive env op key value) w (AtEnd w op key value) := by
  obtain ⟨seg, hs⟩ := h.active
  obtain ⟨hok, _, f, hf, _⟩ := h.segment _ _ hs
  rw [Hands, appendActive, Prog.get_bind]
  rcases append_survives henv hs hf op key value with ⟨message, hfail, _⟩ | ⟨hroom, t, hrun⟩
  · exact ⟨w, h, Keeps.refl w, Or.inr ⟨_, hfail⟩⟩
  · obtain ⟨_, hlimit, _⟩ := room_bounds hroom
    have hpos := recordSize_pos key value
    have hsegment := hok.pos
    rw [makeRecordPosition_eq hok.fileNo_lt (show seg.used < 2 ^ 30 by omega) hsegment] at hrun
    obtain ⟨hlog, hkeeps, hlogged, hend, hnew⟩ := h.appended (t := t) hs hf hroom hkey hop
    exact ⟨_, hlog, hkeeps, Or.inl ⟨_, hrun, hlogged, by omega, by omega⟩⟩

/-- **`Append` and `DeleteRecord`**: one attempt, a rollover, one retry. -/
theorem appendOrRollover_hands (henv : env.Survives) (h : LogOk w) :
    Hands (appendOrRollover env op key value) w (AtEnd w op key value) := by
  obtain ⟨w₁, h₁, hk₁, ⟨pos, hrun, hfound⟩ | ⟨status, hrun⟩⟩ :=
    appendActive_hands hkey hop henv h
  · exact ⟨w₁, h₁, hk₁, Or.inl ⟨pos, by
      rw [appendOrRollover, Prog.bind_ok (Prog.attempt_ok hrun)]; rfl, hfound⟩⟩
  by_cases hfull : status.code ≠ .walFull
  · refine ⟨w₁, h₁, hk₁, Or.inr ⟨status, ?_⟩⟩
    rw [appendOrRollover, Prog.bind_ok (Prog.attempt_status hrun)]
    simp only [if_pos hfull, Prog.fail_run]
  obtain ⟨old, hs⟩ := h₁.active
  have hthen : appendOrRollover env op key value w =
      (rollover env >>= fun _ => appendActive env op key value) w₁ := by
    rw [appendOrRollover, Prog.bind_ok (Prog.attempt_status hrun)]
    simp only [if_neg hfull]
  rw [Hands, hthen]
  rcases rollover_cases henv h₁ hs with ⟨new, d, t, hroll, hnew, hfile, hd⟩ |
    ⟨status', d, t, _, hroll, hd⟩
  · -- the second attempt is made in the next segment
    obtain ⟨h₂, hk₂⟩ := h₁.rolledOver (t := t) hs hd hnew hfile
    rw [Prog.bind_ok hroll]
    obtain ⟨w₃, h₃, hk₃, hcases⟩ := appendActive_hands hkey hop henv h₂
    refine ⟨w₃, h₃, hk₁.trans (hk₂.trans hk₃), hcases.imp_left ?_⟩
    rintro ⟨pos, hrun', hlogged, hlo, hhi⟩
    exact ⟨pos, hrun', hlogged, le_trans (hk₁.trans hk₂).endOfLog hlo, hhi⟩
  · obtain ⟨h₂, hk₂⟩ := h₁.notRolledOver (t := t) hs hd
    rw [Prog.bind_error hroll]
    exact ⟨_, h₂, hk₁.trans hk₂, Or.inr ⟨status', rfl⟩⟩

end Append

/-! ### Sequences of operations -/

/-- **An operation of the record store** that returns a position. -/
inductive RecordOp where
  | append (key value : ByteView)
  | delete (key : ByteView)
  | addSnapshot (key value : ByteView)
  deriving DecidableEq, Repr

namespace RecordOp

/-- The key of an operation. -/
def key : RecordOp → ByteView
  | append key _ => key
  | delete key => key
  | addSnapshot key _ => key

/-- Run one operation. -/
def run (env : Env) : RecordOp → StoreM Position
  | append key value => appendRecord env key value
  | delete key => deleteRecord env key
  | addSnapshot key value => addSnapshotRecord key value

/-- Whether it writes to the WAL. -/
def isWal : RecordOp → Bool
  | append _ _ => true
  | delete _ => true
  | addSnapshot _ _ => false

/-- **The record of an operation is at its position.** -/
def Found (w : World) (pos : Position) : RecordOp → Prop
  | append key value => LoggedAt w pos kWalOpPut key value
  | delete key => LoggedAt w pos kWalOpDelete key []
  | addSnapshot key value => SnapshotAt w pos key value

/-- **What a caller gets for the position**: the key and the value of a put. -/
def Resolves (w : World) (pos : Position) : RecordOp → Prop
  | append key value => w.key pos = .ok key ∧ w.valueView pos = .ok value
  | delete _ => True
  | addSnapshot key value => w.key pos = .ok key ∧ w.valueView pos = .ok value

/-- The first position that is free for an operation. -/
def free (w : World) (op : RecordOp) : ℕ :=
  if op.isWal then w.endOfLog else w.records.snapshotRecords.length

/-- **The range of the positions of an operation.** -/
def InRange (pos : Position) (op : RecordOp) : Prop :=
  if op.isWal then 2 ^ 30 ≤ pos.toNat ∧ pos.toNat < 2 ^ 63 else 1 ≤ pos.toNat ∧ pos.toNat < 2 ^ 30

/-- **What a WAL position decodes to.** -/
def Decodes (w : World) (pos : Position) : RecordOp → Prop
  | append key value => DecodesTo w pos kWalOpPut key value
  | delete key => DecodesTo w pos kWalOpDelete key []
  | addSnapshot _ _ => True

end RecordOp

/-- **A sequence of operations**, each with its result. -/
def runOps (env : Env) : List RecordOp → StoreM (List (RecordOp × Except Status Position))
  | [] => pure []
  | op :: ops => do
    let result ← Prog.attempt (op.run env)
    let results ← runOps env ops
    pure ((op, result) :: results)

section Ops

variable {env : Env} {w w' : World} {op : RecordOp} {pos : Position}

theorem RecordOp.Found.keep (h : op.Found w pos) (hk : Keeps w w') : op.Found w' pos := by
  cases op with
  | append key value => exact LoggedAt.keep h hk
  | delete key => exact LoggedAt.keep h hk
  | addSnapshot key value => exact SnapshotAt.keep h hk

theorem RecordOp.Found.resolves (hw : LogOk w) (h : op.Found w pos) : op.Resolves w pos := by
  cases op with
  | append key value => exact LoggedAt.resolves hw h
  | delete key => trivial
  | addSnapshot key value => exact SnapshotAt.resolves hw h

theorem RecordOp.Found.inRange (hw : LogOk w) (h : op.Found w pos) : op.InRange pos := by
  cases op with
  | append key value => exact LoggedAt.range hw h
  | delete key => exact LoggedAt.range hw h
  | addSnapshot key value =>
    have hlt := (List.getElem?_eq_some_iff.mp h.2).1
    have hhi : w.records.snapshotRecords.length ≤ 2 ^ 30 := hw.snapshots_hi
    exact ⟨h.1, by omega⟩

theorem RecordOp.Found.decodes (hw : LogOk w) (h : op.Found w pos) : op.Decodes w pos := by
  cases op with
  | append key value => exact LoggedAt.decodes hw h
  | delete key => exact LoggedAt.decodes hw h
  | addSnapshot key value => trivial

theorem RecordOp.free_mono (hk : Keeps w w') (op : RecordOp) : op.free w ≤ op.free w' := by
  obtain ⟨more, hmore⟩ := hk.snapshots
  rw [free, free]
  split
  · exact hk.endOfLog
  · rw [hmore, List.length_append]
    omega

/-- `AddSnapshotRecord`. -/
theorem addSnapshotRecord_hands (h : LogOk w) (key value : ByteView) :
    Hands (addSnapshotRecord key value) w (fun pos w' => SnapshotAt w' pos key value ∧
      w.records.snapshotRecords.length ≤ pos.toNat ∧
      pos.toNat < w'.records.snapshotRecords.length) := by
  have hlimit : kRecordOffsetLimit = 2 ^ 30 := rfl
  have hlo := h.snapshots_lo
  have hhi := h.snapshots_hi
  rw [Hands, addSnapshotRecord, Prog.get_bind]
  by_cases hfull : w.records.snapshotRecords.length ≥ kRecordOffsetLimit
  · exact ⟨w, h, Keeps.refl w, Or.inr ⟨_, by simp only [if_pos hfull, Prog.fail_run]; rfl⟩⟩
  · let w' : World := { w with records := { w.records with
      snapshotRecords := w.records.snapshotRecords ++ [⟨key, value, true⟩] } }
    have hlength : w'.records.snapshotRecords.length = w.records.snapshotRecords.length + 1 :=
      List.length_append
    have hnat : (UInt64.ofNat w.records.snapshotRecords.length).toNat =
        w.records.snapshotRecords.length := by
      rw [UInt64.toNat_ofNat', Nat.mod_eq_of_lt (by omega)]
    refine ⟨w', ⟨h.size_lo, h.size_hi, h.segment, h.active, h.top, h.next, by omega, by omega⟩,
      ⟨⟨_, rfl⟩, fun _ seg hs => ⟨seg, hs, le_refl _, fun _ _ _ => rfl⟩, le_refl _⟩, Or.inl
      ⟨UInt64.ofNat w.records.snapshotRecords.length, ?_, ⟨by omega, ?_⟩, by omega, by omega⟩⟩
    · simp only [if_neg hfull]
      rfl
    · rw [hnat, List.getElem?_append_right (le_refl _), Nat.sub_self]
      rfl

/-- **One operation**: its record is at its position, which was free and is not any more. -/
theorem RecordOp.run_hands (henv : env.Survives) (h : LogOk w)
    (hkey : op.key.length ≤ kMaxKeySize) : Hands (op.run env) w (fun pos w' =>
      op.Found w' pos ∧ op.free w ≤ pos.toNat ∧ pos.toNat < op.free w') := by
  cases op with
  | append key value => exact appendOrRollover_hands hkey (Or.inl rfl) henv h
  | delete key => exact appendOrRollover_hands hkey (Or.inr ⟨rfl, rfl⟩) henv h
  | addSnapshot key value => exact addSnapshotRecord_hands h key value

/-- Two results in this order: the positions differ, and WAL positions increase. -/
def Ordered (a b : RecordOp × Except Status Position) : Prop :=
  ∀ p q, a.2 = .ok p → b.2 = .ok q →
    p ≠ q ∧ (a.1.isWal = true → b.1.isWal = true → p.toNat < q.toNat)

theorem ordered_of_free {a b : RecordOp × Except Status Position}
    (ha : ∀ p, a.2 = .ok p → a.1.InRange p ∧ p.toNat < a.1.free w)
    (hb : ∀ q, b.2 = .ok q → b.1.InRange q ∧ b.1.free w ≤ q.toNat) : Ordered a b := by
  intro p q hp hq
  obtain ⟨hrange, hlt⟩ := ha p hp
  obtain ⟨hrange', hle⟩ := hb q hq
  have hlt' : a.1.isWal = b.1.isWal → p.toNat < q.toNat := fun hsame => by
    rw [RecordOp.free, hsame, ← RecordOp.free] at hlt
    omega
  refine ⟨fun heq => ?_, fun h h' => hlt' (h.trans h'.symm)⟩
  subst heq
  -- positions of one kind increase, and the two kinds have different ranges
  cases ha' : a.1.isWal with
  | true =>
    cases hb' : b.1.isWal with
    | true => exact absurd (hlt' (ha'.trans hb'.symm)) (lt_irrefl _)
    | false =>
      rw [RecordOp.InRange, ha'] at hrange
      rw [RecordOp.InRange, hb'] at hrange'
      have h1 : 2 ^ 30 ≤ p.toNat := hrange.1
      have h2 : p.toNat < 2 ^ 30 := hrange'.2
      omega
  | false =>
    cases hb' : b.1.isWal with
    | true =>
      rw [RecordOp.InRange, ha'] at hrange
      rw [RecordOp.InRange, hb'] at hrange'
      have h1 : p.toNat < 2 ^ 30 := hrange.2
      have h2 : 2 ^ 30 ≤ p.toNat := hrange'.1
      omega
    | false => exact absurd (hlt' (ha'.trans hb'.symm)) (lt_irrefl _)

/-- **A sequence of operations**, by induction on it: every record stays at its position, and every
position was free when the operation began. -/
theorem runOps_ok (henv : env.Survives) (ops : List RecordOp)
    (hkeys : ∀ op ∈ ops, op.key.length ≤ kMaxKeySize) (h : LogOk w) :
    ∃ results w', runOps env ops w = .ok results w' ∧ LogOk w' ∧ Keeps w w' ∧
      results.map Prod.fst = ops ∧ results.Pairwise Ordered ∧
      ∀ r ∈ results, ∀ pos, r.2 = .ok pos → r.1.Found w' pos ∧ r.1.free w ≤ pos.toNat := by
  induction ops generalizing w with
  | nil =>
    exact ⟨[], w, rfl, h, Keeps.refl w, rfl, List.Pairwise.nil,
      fun _ hr => absurd hr List.not_mem_nil⟩
  | cons op ops ih =>
    obtain ⟨hkey, hkeys'⟩ := List.forall_mem_cons.mp hkeys
    obtain ⟨w₁, h₁, hk₁, hcases⟩ := op.run_hands henv h hkey
    obtain ⟨results, w', hrun, hlog, hkeeps, hops, hpairs, hall⟩ := ih hkeys' h₁
    have hthen : ∀ result, Prog.attempt (op.run env) w = .ok result w₁ →
        runOps env (op :: ops) w = .ok ((op, result) :: results) w' := fun result hresult => by
      rw [runOps, Prog.bind_ok hresult, Prog.bind_ok hrun]
      rfl
    have hlater : ∀ r ∈ results, ∀ pos, r.2 = .ok pos →
        r.1.Found w' pos ∧ r.1.free w ≤ pos.toNat := fun r hr pos hpos =>
      ⟨(hall r hr pos hpos).1, le_trans (r.1.free_mono hk₁) (hall r hr pos hpos).2⟩
    rcases hcases with ⟨pos, hone, hfound, hlo, hhi⟩ | ⟨status, hone⟩
    · refine ⟨_, w', hthen _ (Prog.attempt_ok hone), hlog, hk₁.trans hkeeps,
        congrArg (op :: ·) hops, List.pairwise_cons.mpr ⟨fun r hr => ?_, hpairs⟩,
        List.forall_mem_cons.mpr ⟨fun p hp => ?_, hlater⟩⟩
      · refine ordered_of_free (fun p hp => ?_) (fun q hq => ?_) (w := w₁)
        · obtain rfl := Except.ok.inj hp
          exact ⟨hfound.inRange h₁, hhi⟩
        · exact ⟨(hall r hr q hq).1.inRange hlog, (hall r hr q hq).2⟩
      · obtain rfl := Except.ok.inj hp
        exact ⟨hfound.keep hkeeps, hlo⟩
    · exact ⟨_, w', hthen _ (Prog.attempt_status hone), hlog, hk₁.trans hkeeps,
        congrArg (op :: ·) hops, List.pairwise_cons.mpr ⟨fun r _ p _ hp => absurd hp (by simp),
          hpairs⟩, List.forall_mem_cons.mpr ⟨fun p hp => absurd hp (by simp), hlater⟩⟩

end Ops

end MinweightStore.Store
