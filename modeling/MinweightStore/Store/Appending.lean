import MinweightStore.Store.Rearrange

/-!
# Appending a record

What `WalSegment::Append` makes of a segment file: the bytes of the record behind the used part,
and then the used offset.

* `WalFile.withRecord`, `WalFile.appended` — the file before and after the used offset is written;
* `filePiece_appended` — the new record is the last one of the file;
* `Untouched` — a file in which only bytes behind the used part have changed.
-/

namespace MinweightStore.Store

open Minpatricia (ByteView Position kMaxKeySize)
open ValidPrefix

/-! ### Files -/

/-- The bytes of a record behind the used part of a file. -/
def WalFile.withRecord (f : WalFile) (op : UInt8) (key value : ByteView) : WalFile :=
  ⟨f.size, writeBytes f.bytes (headerUsed f.bytes) (encodeRecord op key value)⟩

/-- A file after `Append`. -/
def WalFile.appended (f : WalFile) (op : UInt8) (key value : ByteView) : WalFile :=
  (f.withRecord op key value).setUsed (headerUsed f.bytes + recordSize key value)

/-- **Only bytes behind the used part have changed.** -/
structure Untouched (f f' : WalFile) : Prop where
  size_eq : f'.size = f.size
  below : ∀ i, i < headerUsed f.bytes → f'.bytes i = f.bytes i

section Untouched

variable {f f' f'' : WalFile} {size id : ℕ}

theorem Untouched.refl (f : WalFile) : Untouched f f := ⟨rfl, fun _ _ => rfl⟩

theorem Untouched.read (h : Untouched f f') {offset n : ℕ} (hn : offset + n ≤ headerUsed f.bytes) :
    readBytes f'.bytes offset n = readBytes f.bytes offset n :=
  readBytes_congr (fun i _ hi => h.below i (by omega))

theorem Untouched.used (h : Untouched f f') (hlo : kWalHeaderSize ≤ headerUsed f.bytes) :
    headerUsed f'.bytes = headerUsed f.bytes := by
  have hk : kWalHeaderSize = 4096 := rfl
  have hu : kWalHeaderUsedOffset = 16 := rfl
  rw [headerUsed, h.read (by omega)]
  rfl

theorem Untouched.trans (h : Untouched f f') (h' : Untouched f' f'')
    (hlo : kWalHeaderSize ≤ headerUsed f.bytes) : Untouched f f'' :=
  ⟨h'.size_eq.trans h.size_eq, fun i hi =>
    (h'.below i (by rw [h.used hlo]; exact hi)).trans (h.below i hi)⟩

theorem Untouched.fileOk (h : Untouched f f') (hf : FileOk f size) : FileOk f' size := by
  have hlo := hf.header.used_lo
  have hused := h.used hlo
  have hk : kWalHeaderSize = 4096 := rfl
  have hv : kWalHeaderVersionOffset = 8 := rfl
  refine ⟨h.size_eq.trans hf.size_eq, ⟨?_, ?_, hused ▸ hlo, hused ▸ hf.header.used_hi⟩⟩
  · rw [h.read (by omega)]
    exact hf.header.magic
  · rw [h.read (by omega)]
    exact hf.header.version

/-- **It holds the same records.** -/
theorem Untouched.filePiece (h : Untouched f f') (hf : FileOk f size) :
    filePiece id f' = filePiece id f := by
  have hagree : AgreeBelow f.bytes f'.bytes (headerUsed f.bytes) := fun i _ hi => (h.below i hi).symm
  rw [Store.filePiece, Store.filePiece, h.used hf.header.used_lo, segmentPiece, segmentPiece,
    scanSegment_congr hagree]

/-- A store behind the used part. -/
theorem untouched_writeBytes (f : WalFile) {offset : ℕ} (data : List UInt8)
    (h : headerUsed f.bytes ≤ offset) :
    Untouched f ⟨f.size, writeBytes f.bytes offset data⟩ :=
  ⟨rfl, fun _ hi => writeBytes_of_lt (by omega)⟩

theorem untouched_withRecord (f : WalFile) (op : UInt8) (key value : ByteView) :
    Untouched f (f.withRecord op key value) := untouched_writeBytes f _ (le_refl _)

end Untouched

/-! ### The appended record -/

section Appended

variable {f : WalFile} {size id : ℕ} {op : UInt8} {key value : ByteView}

/-- What `Append` relies on. -/
structure Appendable (f : WalFile) (size : ℕ) (op : UInt8) (key value : ByteView) : Prop where
  file : FileOk f size
  size_le : size ≤ 2 ^ 30
  op_ok : op = kWalOpPut ∨ op = kWalOpDelete ∧ value = []
  key_le : key.length ≤ kMaxKeySize
  fits : headerUsed f.bytes + recordSize key value ≤ size

theorem Appendable.fileOk (h : Appendable f size op key value) :
    FileOk (f.appended op key value) size ∧
      headerUsed (f.appended op key value).bytes = headerUsed f.bytes + recordSize key value := by
  have hlo := h.file.header.used_lo
  have hfits := h.fits
  have hsize := h.size_le
  exact ⟨((untouched_withRecord f op key value).fileOk h.file).setUsed (by omega) hfits hsize,
    headerUsed_setUsed (by omega)⟩

/-- **The appended record** is the last one of the file. -/
theorem filePiece_appended (h : Appendable f size op key value)
    (hcomplete : (filePiece id f).complete = true) :
    filePiece id (f.appended op key value) = ⟨id, (filePiece id f).records ++
      [(headerUsed f.bytes, ⟨op, key, value, headerUsed f.bytes + recordSize key value⟩)], true⟩ := by
  have hlo := h.file.header.used_lo
  have hfits := h.fits
  have hsize := h.size_le
  have hr := recordSize_pos key value
  have hk : kWalHeaderSize = 4096 := rfl
  have hu : kWalHeaderUsedOffset = 16 := rfl
  have hagree : AgreeBelow f.bytes (f.appended op key value).bytes (headerUsed f.bytes) :=
    fun i hi hlt => ((untouched_withRecord f op key value).below i hlt).symm.trans
      (agreeBelow_setUsed _ _ _ i hi hlt)
  have hbytes : readBytes (f.appended op key value).bytes (headerUsed f.bytes)
      (recordSize key value) = encodeRecord op key value := by
    rw [WalFile.appended, WalFile.setUsed, readBytes_writeBytes_of_disjoint
      (Or.inr (by rw [length_store64]; omega)), ← length_encodeRecord op key value]
    exact readBytes_writeBytes _ _ _
  have hvalue : value.length < 2 ^ 32 := by
    rw [recordSize] at hfits
    omega
  obtain ⟨haccepted, hrecord⟩ := accepted_of_encode hbytes h.key_le hvalue h.op_ok hlo
    (le_refl _) true
  have hscan := scanSegment_append hlo hagree haccepted hrecord rfl (of_decide_eq_true hcomplete)
  rw [filePiece, h.fileOk.2, segmentPiece, hscan, decide_eq_true rfl]
  rfl

end Appended

/-! ### The stores of a record -/

/-- The checksum is taken when everything but its own field is there. -/
theorem walRecordCRC_written (m : Mapping) (start : ℕ) (op : UInt8) (key value : ByteView) :
    walRecordCRC (readBytes (writeBytes (writeBytes m start (recordHead op key value)) (start + 13)
      (key ++ value)) start (recordSize key value)) = recordCRC op key value := by
  have hsize : recordSize key value = 9 + (4 + (key ++ value).length) := by
    rw [recordSize, kWalRecordHeaderSize, List.length_append]
    omega
  have hhead : readBytes (writeBytes (writeBytes m start (recordHead op key value)) (start + 13)
      (key ++ value)) start 9 = recordHead op key value := by
    rw [readBytes_writeBytes_of_disjoint (Or.inl (by omega))]
    exact readBytes_writeBytes m start (recordHead op key value)
  rw [walRecordCRC, recordCRC, hsize]
  have htake := take_readBytes (writeBytes (writeBytes m start (recordHead op key value)) (start + 13)
    (key ++ value)) start 9 (4 + (key ++ value).length)
  have hdrop := drop_readBytes (writeBytes (writeBytes m start (recordHead op key value)) (start + 13)
    (key ++ value)) start 13 (key ++ value).length
  rw [← Nat.add_assoc, Nat.add_right_comm] at htake ⊢
  show crc32Update (crc32Update 0 ((readBytes _ start (9 + (key ++ value).length + 4)).take 9))
    ((readBytes _ start (9 + (key ++ value).length + 4)).drop 13) = _
  rw [htake, hhead, show 9 + (key ++ value).length + 4 = 13 + (key ++ value).length by omega, hdrop,
    readBytes_writeBytes]

/-- **The stores of a record are one store** of its encoding. -/
theorem writeBytes_record (m : Mapping) (start : ℕ) (op : UInt8) (key value : ByteView) :
    writeBytes (writeBytes (writeBytes m start (recordHead op key value)) (start + 13)
      (key ++ value)) (start + 9) (store32 (recordCRC op key value)) =
      writeBytes m start (encodeRecord op key value) := by
  have hcrc := writeBytes_append m start (recordHead op key value)
    (store32 (recordCRC op key value))
  have hall := writeBytes_append m start (recordHead op key value ++
    store32 (recordCRC op key value)) (key ++ value)
  rw [length_recordHead] at hcrc
  rw [List.length_append, length_recordHead, length_store32] at hall
  rw [writeBytes_comm _ (by rw [length_store32]), hcrc, hall, encodeRecord]
  simp only [List.append_assoc]

/-- The checks of `Append`. -/
theorem room_cases (seg : WalSegment) (key value : ByteView) :
    (∃ message, seg.room key value = err ⟨.walFull, message⟩) ∨
      seg.room key value = .ok seg.used := by
  rw [WalSegment.room]
  split
  · exact Or.inl ⟨_, rfl⟩
  split
  · exact Or.inl ⟨_, rfl⟩
  split
  · exact Or.inl ⟨_, rfl⟩
  · exact Or.inr rfl

/-- What a record needs to be appended. -/
theorem room_bounds {seg : WalSegment} {key value : ByteView} {start : ℕ}
    (h : seg.room key value = .ok start) : recordSize key value ≤ seg.size - seg.used ∧
      seg.used + recordSize key value ≤ 2 ^ 30 ∧ value.length < 2 ^ 32 := by
  have hlimit : kRecordOffsetLimit = 2 ^ 30 := rfl
  rw [WalSegment.room] at h
  split at h
  · exact absurd h (by simp [err])
  split at h
  · exact absurd h (by simp [err])
  split at h
  · exact absurd h (by simp [err])
  · omega

/-- An unsealed segment with enough bytes behind its used offset has room. -/
theorem room_ok {seg : WalSegment} {key value : ByteView} (hunsealed : seg.isSealed = false)
    (hkey : key.length ≤ kMaxKeySize) (hfit : seg.used + recordSize key value ≤ seg.size)
    (hsize : seg.size ≤ kRecordOffsetLimit) : seg.room key value = .ok seg.used := by
  have hmax : kMaxKeySize < 2 ^ 32 := by decide
  have hlimit : kRecordOffsetLimit = 2 ^ 30 := rfl
  have hrecord : recordSize key value = 13 + key.length + value.length := rfl
  rw [WalSegment.room, hunsealed, if_neg Bool.false_ne_true, if_neg (by omega), if_neg (by omega)]

section Append

variable {env : Env} {w : World} {fileNo : ℕ} {f : WalFile}

/-- The world with the bytes of an open segment replaced. -/
def World.withBytes (w : World) (fileNo : ℕ) (f : WalFile) (m : Mapping) (t : ℕ) : World :=
  w.onDisk (w.disk.setWalFile w.records.generation fileNo ⟨f.size, m⟩) t

@[simp] theorem World.withBytes_records (w : World) (fileNo : ℕ) (f : WalFile) (m : Mapping) (t : ℕ) :
    (w.withBytes fileNo f m t).records = w.records := rfl

/-- A store into the bytes that were replaced. -/
theorem World.withBytes_storeBytes (w : World) (fileNo : ℕ) (f : WalFile) (m : Mapping)
    (t offset : ℕ) (data : List UInt8) :
    (w.withBytes fileNo f m t).disk.storeBytes w.records.generation fileNo offset data =
      w.disk.setWalFile w.records.generation fileNo ⟨f.size, writeBytes m offset data⟩ :=
  Disk.storeBytes_setWalFile _

theorem World.withBytes_walFile? (w : World) (fileNo : ℕ) (f : WalFile) (m : Mapping) (t : ℕ) :
    (w.withBytes fileNo f m t).disk.walFile? w.records.generation fileNo = some ⟨f.size, m⟩ := by
  rw [withBytes, onDisk_disk, Disk.walFile?_setWalFile, if_pos ⟨rfl, rfl⟩]

theorem World.withBytes_mapping (w : World) (fileNo : ℕ) (f : WalFile) (m : Mapping) (t : ℕ) :
    (w.withBytes fileNo f m t).mapping fileNo = m := by
  rw [mapping, Disk.mapping]
  show ((w.withBytes fileNo f m t).disk.walFile? w.records.generation fileNo |>.getD .empty).bytes = m
  rw [withBytes_walFile?]
  rfl

/-- One store into an open segment. -/
theorem store_survives (henv : env.Survives)
    (hf : w.disk.walFile? w.records.generation fileNo = some f) (offset : ℕ) (data : List UInt8) :
    WalSegment.store env fileNo offset data w =
      .ok () (w.withBytes fileNo f (writeBytes f.bytes offset data) (w.clock + 1)) := by
  rw [WalSegment.store, storeBytes_ok henv.stores, Disk.storeBytes_eq hf]
  rfl

/-- One store after others. -/
theorem store_withBytes (henv : env.Survives) (f : WalFile) (m : Mapping) (t offset : ℕ)
    (data : List UInt8) : WalSegment.store env fileNo offset data (w.withBytes fileNo f m t) =
      .ok () (w.withBytes fileNo f (writeBytes m offset data) (t + 1)) := by
  rw [WalSegment.store, storeBytes_ok henv.stores, World.withBytes_records,
    World.withBytes_storeBytes]
  rfl

/-- **The record is stored** behind the used part. -/
theorem writeRecord_survives (henv : env.Survives)
    (hf : w.disk.walFile? w.records.generation fileNo = some f) (start : ℕ) (op : UInt8)
    (key value : ByteView) : ∃ t, WalSegment.writeRecord env fileNo start op key value w =
      .ok () (w.withBytes fileNo f (writeBytes f.bytes start (encodeRecord op key value)) t) := by
  have hhead : writeBytes (writeBytes (writeBytes f.bytes (start + kWalRecordOpOffset) [op])
      (start + kWalRecordKeyOffset) (store32 (UInt32.ofNat key.length)))
      (start + kWalRecordValueOffset) (store32 (UInt32.ofNat value.length)) =
      writeBytes f.bytes start (recordHead op key value) := by
    have h1 := writeBytes_append f.bytes start [op] (store32 (UInt32.ofNat key.length))
    have h2 := writeBytes_append f.bytes start ([op] ++ store32 (UInt32.ofNat key.length))
      (store32 (UInt32.ofNat value.length))
    rw [List.length_append, length_store32, ← h1] at h2
    exact h2
  have hpayload : ∀ m, writeBytes (writeBytes m (start + kWalRecordHeaderSize) key)
      (start + kWalRecordHeaderSize + key.length) value = writeBytes m (start + 13) (key ++ value) :=
    fun m => writeBytes_append m (start + 13) key value
  refine ⟨w.clock + 1 + 1 + 1 + 1 + 1 + 1, ?_⟩
  rw [WalSegment.writeRecord, Prog.bind_ok (store_survives henv hf _ _),
    Prog.bind_ok (store_withBytes henv _ _ _ _ _), Prog.bind_ok (store_withBytes henv _ _ _ _ _),
    Prog.bind_ok (store_withBytes henv _ _ _ _ _), Prog.bind_ok (store_withBytes henv _ _ _ _ _),
    Prog.get_bind, store_withBytes henv, World.withBytes_mapping, hhead, hpayload,
    walRecordCRC_written, kWalRecordCRCOffset, writeBytes_record]

variable {seg : WalSegment} {op : UInt8} {key value : ByteView}

/-- The world after `Append` to a segment. -/
def appendedWorld (w : World) (fileNo : ℕ) (seg : WalSegment) (f : WalFile) (op : UInt8)
    (key value : ByteView) (t : ℕ) : World :=
  (w.withBytes fileNo f (writeBytes (writeBytes f.bytes seg.used (encodeRecord op key value))
    kWalHeaderUsedOffset (store64 (UInt64.ofNat (seg.used + recordSize key value)))) t).setSegment
    (seg.cut (seg.used + recordSize key value))

theorem appendedWorld_segments (w : World) (fileNo : ℕ) (seg : WalSegment) (f : WalFile) (op : UInt8)
    (key value : ByteView) (t : ℕ) : (appendedWorld w fileNo seg f op key value t).records.segments =
      w.records.segments.insert seg.fileNo (seg.cut (seg.used + recordSize key value)) := rfl

theorem appendedWorld_mapping (w : World) (fileNo : ℕ) (seg : WalSegment) (f : WalFile) (op : UInt8)
    (key value : ByteView) (t : ℕ) : (appendedWorld w fileNo seg f op key value t).mapping fileNo =
      writeBytes (writeBytes f.bytes seg.used (encodeRecord op key value)) kWalHeaderUsedOffset
        (store64 (UInt64.ofNat (seg.used + recordSize key value))) :=
  w.withBytes_mapping fileNo f _ t

/-- **`Append`**: no room, or the record is stored and the used offset moved behind it. -/
theorem append_survives (henv : env.Survives) (hs : w.records.segments.get? fileNo = some seg)
    (hf : w.disk.walFile? w.records.generation fileNo = some f) (op : UInt8) (key value : ByteView) :
    (∃ message, WalSegment.append env fileNo op key value w =
      .error (.status ⟨.walFull, message⟩) w ∧
      seg.room key value = err ⟨.walFull, message⟩) ∨
    (seg.room key value = .ok seg.used ∧ ∃ t, WalSegment.append env fileNo op key value w =
      Prog.ofOutcome (makeRecordPosition fileNo seg.used)
        (appendedWorld w fileNo seg f op key value t)) := by
  have hderef : WalSegment.deref fileNo w = .ok seg w := by rw [WalSegment.deref, hs]
  rcases room_cases seg key value with ⟨message, hroom⟩ | hroom
  · refine Or.inl ⟨message, ?_, hroom⟩
    rw [WalSegment.append, Prog.bind_ok hderef, hroom]
    rfl
  · right
    obtain ⟨t, hwrite⟩ := writeRecord_survives henv hf seg.used op key value
    refine ⟨hroom, t + 1, ?_⟩
    have hs' : (w.withBytes fileNo f (writeBytes f.bytes seg.used (encodeRecord op key value))
      t).records.segments.get? fileNo = some seg := hs
    have hused := writeUsed_stored henv.stores.sparesHeaders hs' (seg.used + recordSize key value)
    rw [WalSegment.append, Prog.bind_ok hderef, hroom, Prog.ofOutcome, Prog.pure_bind_run,
      Prog.bind_ok hwrite, Prog.bind_ok hused]
    rw [World.withBytes_records, World.withBytes_storeBytes]
    rfl

end Append

end MinweightStore.Store
