import MinweightStore.Store.Format

/-!
# Records in a mapped segment

A mapped file is a function from offsets to bytes.  `RecordAtOffset` of `store.cc` decodes the
record at an offset of it; `encodeRecord` is what `Append` leaves there.

* `readBytes_writeBytes`, `readBytes_writeBytes_of_le` — what a store into the mapping changes;
* `recordAtOffset_congr` — a record is read from the bytes before the used offset only;
* `recordAtOffset_encode` — an encoded record is decoded as it was.
-/

namespace MinweightStore.Store

open Minpatricia (ByteView Position kMaxKeySize)

/-! ### Bytes of a mapping -/

/-- The bytes of a mapped file. -/
abbrev Mapping := ℕ → UInt8

/-- The `size` bytes from `offset` on. -/
def readBytes (m : Mapping) (offset size : ℕ) : List UInt8 :=
  (List.range size).map fun i => m (offset + i)

/-- `std::memcpy` into the mapping. -/
def writeBytes (m : Mapping) (offset : ℕ) (data : List UInt8) : Mapping := fun i =>
  if offset ≤ i then data.getD (i - offset) (m i) else m i

@[simp] theorem length_readBytes (m : Mapping) (offset size : ℕ) :
    (readBytes m offset size).length = size := by
  rw [readBytes, List.length_map, List.length_range]

theorem readBytes_congr {m m' : Mapping} {offset size : ℕ}
    (h : ∀ i, offset ≤ i → i < offset + size → m i = m' i) :
    readBytes m offset size = readBytes m' offset size := by
  refine List.map_congr_left (fun i hi => ?_)
  have hi := List.mem_range.mp hi
  exact h (offset + i) (by omega) (by omega)

theorem readBytes_add (m : Mapping) (offset n k : ℕ) :
    readBytes m offset (n + k) = readBytes m offset n ++ readBytes m (offset + n) k := by
  rw [readBytes, List.range_add, List.map_append, List.map_map]
  refine congrArg (readBytes m offset n ++ ·) (List.map_congr_left (fun i _ => ?_))
  show m (offset + (n + i)) = m (offset + n + i)
  rw [Nat.add_assoc]

theorem take_readBytes (m : Mapping) (offset n k : ℕ) :
    (readBytes m offset (n + k)).take n = readBytes m offset n := by
  rw [readBytes_add, List.take_left' (length_readBytes m offset n)]

theorem drop_readBytes (m : Mapping) (offset n k : ℕ) :
    (readBytes m offset (n + k)).drop n = readBytes m (offset + n) k := by
  rw [readBytes_add, List.drop_left' (length_readBytes m offset n)]

theorem writeBytes_of_lt {m : Mapping} {offset : ℕ} {data : List UInt8} {i : ℕ} (h : i < offset) :
    writeBytes m offset data i = m i := by
  rw [writeBytes, if_neg (by omega)]

theorem writeBytes_of_le {m : Mapping} {offset : ℕ} {data : List UInt8} {i : ℕ}
    (h : offset + data.length ≤ i) : writeBytes m offset data i = m i := by
  rw [writeBytes, if_pos (by omega), List.getD_eq_default _ _ (by omega)]

theorem writeBytes_self {m : Mapping} {offset : ℕ} {data : List UInt8} {i : ℕ}
    (h : i < data.length) : writeBytes m offset data (offset + i) = data[i] := by
  rw [writeBytes, if_pos (by omega), Nat.add_sub_cancel_left, List.getD_eq_getElem _ _ h]

/-- What was written is read. -/
theorem readBytes_writeBytes (m : Mapping) (offset : ℕ) (data : List UInt8) :
    readBytes (writeBytes m offset data) offset data.length = data := by
  refine List.ext_getElem (length_readBytes _ _ _) (fun i h₁ h₂ => ?_)
  simp only [readBytes, List.getElem_map, List.getElem_range]
  exact writeBytes_self h₂

/-- What lies beside is as before. -/
theorem readBytes_writeBytes_of_disjoint {m : Mapping} {offset size at' : ℕ} {data : List UInt8}
    (h : offset + size ≤ at' ∨ at' + data.length ≤ offset) :
    readBytes (writeBytes m at' data) offset size = readBytes m offset size := by
  refine readBytes_congr (fun i hlo hhi => ?_)
  rcases h with h | h
  · exact writeBytes_of_lt (by omega)
  · exact writeBytes_of_le (by omega)

theorem writeBytes_nil (m : Mapping) (offset : ℕ) : writeBytes m offset [] = m := by
  funext i
  rw [writeBytes]
  split
  · rfl
  · rfl

/-- Stores behind one another are one store. -/
theorem writeBytes_append (m : Mapping) (offset : ℕ) (data data' : List UInt8) :
    writeBytes (writeBytes m offset data) (offset + data.length) data' =
      writeBytes m offset (data ++ data') := by
  funext i
  by_cases hlt : i < offset
  · rw [writeBytes_of_lt (by omega), writeBytes_of_lt hlt, writeBytes_of_lt hlt]
  · obtain ⟨k, rfl⟩ := Nat.exists_eq_add_of_le (Nat.not_lt.mp hlt)
    by_cases hk : k < data.length
    · rw [writeBytes_of_lt (by omega), writeBytes_self hk,
        writeBytes_self (by rw [List.length_append]; omega), List.getElem_append_left hk]
    · obtain ⟨j, rfl⟩ := Nat.exists_eq_add_of_le (Nat.not_lt.mp hk)
      by_cases hj : j < data'.length
      · rw [← Nat.add_assoc, writeBytes_self hj, Nat.add_assoc,
          writeBytes_self (by rw [List.length_append]; omega),
          List.getElem_append_right (Nat.le_add_right _ _)]
        simp only [Nat.add_sub_cancel_left]
      · rw [writeBytes_of_le (by omega), writeBytes_of_le (by omega),
          writeBytes_of_le (by rw [List.length_append]; omega)]

/-- Stores beside one another may change places. -/
theorem writeBytes_comm (m : Mapping) {offset offset' : ℕ} {data data' : List UInt8}
    (h : offset + data.length ≤ offset') :
    writeBytes (writeBytes m offset' data') offset data =
      writeBytes (writeBytes m offset data) offset' data' := by
  funext i
  by_cases hlt : i < offset'
  · have hold : writeBytes m offset' data' i = m i := writeBytes_of_lt hlt
    rw [writeBytes, hold, writeBytes_of_lt hlt, writeBytes]
  · obtain ⟨k, rfl⟩ := Nat.exists_eq_add_of_le (Nat.not_lt.mp hlt)
    rw [writeBytes_of_le (by omega)]
    by_cases hk : k < data'.length
    · rw [writeBytes_self hk, writeBytes_self hk]
    · rw [writeBytes_of_le (by omega), writeBytes_of_le (by omega), writeBytes_of_le (by omega)]

/-! ### Records -/

/-- `WalRecord`. -/
structure WalRecord where
  op : UInt8
  key : ByteView
  value : ByteView
  endOffset : ℕ
  deriving DecidableEq, Repr

/-- `key_len`. -/
def keyLenAt (m : Mapping) (offset : ℕ) : ℕ :=
  (load32 (readBytes m (offset + kWalRecordKeyOffset) 4)).toNat

/-- `value_len`. -/
def valueLenAt (m : Mapping) (offset : ℕ) : ℕ :=
  (load32 (readBytes m (offset + kWalRecordValueOffset) 4)).toNat

/-- `RecordAtOffset`. -/
def recordAtOffset (m : Mapping) (used offset : ℕ) (verifyCRC : Bool) : Result WalRecord :=
  if offset < kWalHeaderSize ∨ offset + kWalRecordHeaderSize > used then
    err (corruptWal "WAL record offset out of range")
  else
    let op := m (offset + kWalRecordOpOffset)
    if op ≠ kWalOpPut ∧ op ≠ kWalOpDelete then err (corruptWal "invalid WAL op")
    else if op = kWalOpDelete ∧ valueLenAt m offset ≠ 0 then
      err (corruptWal "delete WAL record has a value")
    else if keyLenAt m offset > kMaxKeySize then err (corruptWal "WAL key is too large")
    else
      let stop := offset + kWalRecordHeaderSize + keyLenAt m offset + valueLenAt m offset
      if stop < offset ∨ stop > used then err (corruptWal "WAL record extends past used offset")
      else if verifyCRC = true ∧ walRecordCRC (readBytes m offset (stop - offset)) ≠
          load32 (readBytes m (offset + kWalRecordCRCOffset) 4) then
        err (corruptWal "WAL CRC mismatch")
      else .ok ⟨op, readBytes m (offset + kWalRecordHeaderSize) (keyLenAt m offset),
        readBytes m (offset + kWalRecordHeaderSize + keyLenAt m offset) (valueLenAt m offset), stop⟩

/-- The bytes of a record before its CRC. -/
def recordHead (op : UInt8) (key value : ByteView) : List UInt8 :=
  [op] ++ store32 (UInt32.ofNat key.length) ++ store32 (UInt32.ofNat value.length)

/-- The CRC of a record. -/
def recordCRC (op : UInt8) (key value : ByteView) : UInt32 :=
  crc32Update (crc32Update 0 (recordHead op key value)) (key ++ value)

/-- A record as `Append` leaves it in the mapping. -/
def encodeRecord (op : UInt8) (key value : ByteView) : List UInt8 :=
  recordHead op key value ++ store32 (recordCRC op key value) ++ key ++ value

/-- The size of a record. -/
def recordSize (key value : ByteView) : ℕ := kWalRecordHeaderSize + key.length + value.length

@[simp] theorem length_recordHead (op : UInt8) (key value : ByteView) :
    (recordHead op key value).length = 9 := rfl

@[simp] theorem length_encodeRecord (op : UInt8) (key value : ByteView) :
    (encodeRecord op key value).length = recordSize key value := by
  simp only [encodeRecord, List.length_append, length_recordHead, length_store32, recordSize,
    kWalRecordHeaderSize]

theorem recordSize_pos (key value : ByteView) : 13 ≤ recordSize key value := by
  rw [recordSize, kWalRecordHeaderSize]
  omega

/-! ### Decoding -/

/-- The size of the record at an offset. -/
def sizeAt (m : Mapping) (offset : ℕ) : ℕ :=
  kWalRecordHeaderSize + keyLenAt m offset + valueLenAt m offset

/-- The record at an offset, if there is a valid one. -/
def recordOf (m : Mapping) (offset : ℕ) : WalRecord :=
  ⟨m (offset + kWalRecordOpOffset), readBytes m (offset + kWalRecordHeaderSize) (keyLenAt m offset),
    readBytes m (offset + kWalRecordHeaderSize + keyLenAt m offset) (valueLenAt m offset),
    offset + sizeAt m offset⟩

/-- What a record must satisfy to be accepted. -/
structure AcceptedAt (m : Mapping) (used offset : ℕ) (verifyCRC : Bool) : Prop where
  header : kWalHeaderSize ≤ offset
  op : m (offset + kWalRecordOpOffset) = kWalOpPut ∨ m (offset + kWalRecordOpOffset) = kWalOpDelete
  noValue : m (offset + kWalRecordOpOffset) = kWalOpDelete → valueLenAt m offset = 0
  keySize : keyLenAt m offset ≤ kMaxKeySize
  inside : offset + sizeAt m offset ≤ used
  crc : verifyCRC = true → walRecordCRC (readBytes m offset (sizeAt m offset)) =
    load32 (readBytes m (offset + kWalRecordCRCOffset) 4)

/-- **`RecordAtOffset` returns the record exactly when it is accepted.** -/
theorem recordAtOffset_ok_iff {m : Mapping} {used offset : ℕ} {verifyCRC : Bool} {r : WalRecord} :
    recordAtOffset m used offset verifyCRC = .ok r ↔
      AcceptedAt m used offset verifyCRC ∧ r = recordOf m offset := by
  have hstop : offset + kWalRecordHeaderSize + keyLenAt m offset + valueLenAt m offset =
      offset + sizeAt m offset := by
    rw [sizeAt]
    omega
  have hsub : offset + sizeAt m offset - offset = sizeAt m offset := Nat.add_sub_cancel_left _ _
  rw [recordAtOffset]
  simp only [hstop, hsub]
  split
  · rename_i h
    refine ⟨fun h' => absurd h' (by simp [err]), fun ⟨ha, _⟩ => ?_⟩
    have h1 := ha.header
    have h2 := ha.inside
    rw [sizeAt] at h2
    omega
  split
  · rename_i h
    refine ⟨fun h' => absurd h' (by simp [err]), fun ⟨ha, _⟩ => ?_⟩
    exact absurd ha.op (by tauto)
  split
  · rename_i h
    exact ⟨fun h' => absurd h' (by simp [err]), fun ⟨ha, _⟩ => absurd (ha.noValue h.1) h.2⟩
  split
  · rename_i h
    refine ⟨fun h' => absurd h' (by simp [err]), fun ⟨ha, _⟩ => ?_⟩
    exact absurd ha.keySize (Nat.not_le.mpr h)
  split
  · rename_i h
    refine ⟨fun h' => absurd h' (by simp [err]), fun ⟨ha, _⟩ => ?_⟩
    have := ha.inside
    omega
  split
  · rename_i h
    exact ⟨fun h' => absurd h' (by simp [err]), fun ⟨ha, _⟩ => absurd (ha.crc h.1) h.2⟩
  · rename_i h1 h2 h3 h4 h5 h6
    refine ⟨fun h => ⟨⟨by omega, by tauto, fun ho => ?_, by omega, by omega, fun hv => ?_⟩, ?_⟩,
      fun ⟨_, h⟩ => by rw [h]; rfl⟩
    · by_contra hne
      exact h3 ⟨ho, hne⟩
    · by_contra hne
      exact h6 ⟨hv, hne⟩
    · exact (Except.ok.inj h).symm

/-- A record is rejected with a `kCorruptWal` status. -/
theorem recordAtOffset_cases (m : Mapping) (used offset : ℕ) (verifyCRC : Bool) :
    (AcceptedAt m used offset verifyCRC ∧
      recordAtOffset m used offset verifyCRC = .ok (recordOf m offset)) ∨
    (¬AcceptedAt m used offset verifyCRC ∧ ∃ message,
      recordAtOffset m used offset verifyCRC = err (corruptWal message)) := by
  by_cases h : AcceptedAt m used offset verifyCRC
  · exact Or.inl ⟨h, recordAtOffset_ok_iff.mpr ⟨h, rfl⟩⟩
  · refine Or.inr ⟨h, ?_⟩
    have hne : ∀ r, recordAtOffset m used offset verifyCRC ≠ .ok r :=
      fun r hr => h (recordAtOffset_ok_iff.mp hr).1
    revert hne
    rw [recordAtOffset]
    simp only
    split_ifs
    all_goals first
      | exact fun _ => ⟨_, rfl⟩
      | exact fun hne => absurd rfl (hne _)

section Congr

variable {m m' : Mapping} {used offset : ℕ} {verifyCRC : Bool}

/-- Mappings that agree before the used offset. -/
def AgreeBelow (m m' : Mapping) (used : ℕ) : Prop :=
  ∀ i, kWalHeaderSize ≤ i → i < used → m i = m' i

variable (offset) in
theorem AgreeBelow.readBytes (h : AgreeBelow m m' used) (size : ℕ) (hlo : kWalHeaderSize ≤ offset)
    (hhi : offset + size ≤ used) :
    Store.readBytes m offset size = Store.readBytes m' offset size :=
  readBytes_congr (fun i _ _ => h i (by omega) (by omega))

theorem AgreeBelow.lengths (h : AgreeBelow m m' used) (hlo : kWalHeaderSize ≤ offset)
    (hhi : offset + kWalRecordHeaderSize ≤ used) :
    keyLenAt m offset = keyLenAt m' offset ∧ valueLenAt m offset = valueLenAt m' offset := by
  have hk : kWalRecordHeaderSize = 13 := rfl
  refine ⟨?_, ?_⟩
  · have : kWalRecordKeyOffset = 1 := rfl
    rw [keyLenAt, keyLenAt, h.readBytes _ _ (by omega) (by omega)]
  · have : kWalRecordValueOffset = 5 := rfl
    rw [valueLenAt, valueLenAt, h.readBytes _ _ (by omega) (by omega)]

theorem AcceptedAt.congr (h : AgreeBelow m m' used) (ha : AcceptedAt m used offset verifyCRC) :
    AcceptedAt m' used offset verifyCRC ∧ recordOf m offset = recordOf m' offset := by
  have hin := ha.inside
  have hlo := ha.header
  have hhead : offset + kWalRecordHeaderSize ≤ used := by
    rw [sizeAt] at hin
    omega
  obtain ⟨hk, hv⟩ := h.lengths hlo hhead
  have hsize : sizeAt m offset = sizeAt m' offset := by
    rw [sizeAt, sizeAt, hk, hv]
  have hop : m (offset + kWalRecordOpOffset) = m' (offset + kWalRecordOpOffset) := by
    have : kWalRecordOpOffset = 0 := rfl
    have : kWalRecordHeaderSize = 13 := rfl
    exact h _ (by omega) (by omega)
  refine ⟨⟨hlo, hop ▸ ha.op, fun ho => ?_, hk ▸ ha.keySize, hsize ▸ hin, fun hc => ?_⟩, ?_⟩
  · rw [← hv]
    exact ha.noValue (hop.trans ho)
  · have h13 : kWalRecordHeaderSize = 13 := rfl
    have h9 : kWalRecordCRCOffset = 9 := rfl
    rw [← hsize, ← h.readBytes _ _ hlo hin, ← h.readBytes _ _ (by omega) (by omega)]
    exact ha.crc hc
  · rw [sizeAt] at hin
    rw [recordOf, recordOf, ← hop, ← hsize, ← hk, ← hv, h.readBytes _ _ (by omega) (by omega),
      h.readBytes _ _ (by omega) (by omega)]

/-- **A record is read from the bytes before the used offset only.** -/
theorem recordAtOffset_congr (h : AgreeBelow m m' used) :
    recordAtOffset m used offset verifyCRC = recordAtOffset m' used offset verifyCRC := by
  by_cases hlo : offset < kWalHeaderSize ∨ offset + kWalRecordHeaderSize > used
  · rw [recordAtOffset, recordAtOffset, if_pos hlo, if_pos hlo]
  · have hlo' : kWalHeaderSize ≤ offset := by omega
    obtain ⟨hk, hv⟩ := h.lengths hlo' (by omega)
    have h13 : kWalRecordHeaderSize = 13 := rfl
    have h9 : kWalRecordCRCOffset = 9 := rfl
    have hop : m (offset + kWalRecordOpOffset) = m' (offset + kWalRecordOpOffset) := by
      have : kWalRecordOpOffset = 0 := rfl
      exact h _ (by omega) (by omega)
    have hcrc : Store.readBytes m (offset + kWalRecordCRCOffset) 4 =
        Store.readBytes m' (offset + kWalRecordCRCOffset) 4 := h.readBytes _ _ (by omega) (by omega)
    rw [recordAtOffset, recordAtOffset, if_neg hlo, if_neg hlo]
    simp only [hk, hv, hop, hcrc]
    -- the bytes behind the header are read only when the record ends before the used offset
    by_cases hin : offset + kWalRecordHeaderSize + keyLenAt m' offset + valueLenAt m' offset < offset ∨
        offset + kWalRecordHeaderSize + keyLenAt m' offset + valueLenAt m' offset > used
    · simp only [if_pos hin]
    · rw [h.readBytes offset (offset + kWalRecordHeaderSize + keyLenAt m' offset +
          valueLenAt m' offset - offset) hlo' (by omega),
        h.readBytes (offset + kWalRecordHeaderSize) (keyLenAt m' offset) (by omega) (by omega),
        h.readBytes (offset + kWalRecordHeaderSize + keyLenAt m' offset) (valueLenAt m' offset)
          (by omega) (by omega)]

/-- A record accepted with its CRC is accepted without, and with more bytes in use. -/
theorem AcceptedAt.weaken (h : AcceptedAt m used offset verifyCRC) {used' : ℕ} (hle : used ≤ used') :
    AcceptedAt m used' offset false :=
  ⟨h.header, h.op, h.noValue, h.keySize, le_trans h.inside hle, fun hf => absurd hf (by simp)⟩

end Congr

/-! ### Encoding -/

section Encode

variable {m : Mapping} {op : UInt8} {key value : ByteView} {offset : ℕ}
  (h : readBytes m offset (recordSize key value) = encodeRecord op key value)

include h

/-- The parts of an encoded record. -/
theorem parts_of_encode : readBytes m offset 9 = recordHead op key value ∧
    readBytes m (offset + 9) 4 = store32 (recordCRC op key value) ∧
    readBytes m (offset + 13) key.length = key ∧
    readBytes m (offset + 13 + key.length) value.length = value := by
  have hsize : recordSize key value = 9 + 4 + key.length + value.length := rfl
  rw [hsize, readBytes_add, readBytes_add, readBytes_add, encodeRecord] at h
  obtain ⟨h, hvalue⟩ := List.append_inj h (by simp)
  obtain ⟨h, hkey⟩ := List.append_inj h (by simp)
  obtain ⟨hhead, hcrc⟩ := List.append_inj h (by simp)
  have hat : offset + (9 + 4 + key.length) = offset + 13 + key.length := by omega
  rw [hat] at hvalue
  exact ⟨hhead, hcrc, hkey, hvalue⟩

theorem head_of_encode : m offset = op ∧
    readBytes m (offset + 1) 4 = store32 (UInt32.ofNat key.length) ∧
    readBytes m (offset + 5) 4 = store32 (UInt32.ofNat value.length) := by
  have hhead := (parts_of_encode h).1
  rw [show 9 = 1 + 4 + 4 from rfl, readBytes_add, readBytes_add, recordHead] at hhead
  obtain ⟨hhead, hvalue⟩ := List.append_inj hhead (by simp)
  obtain ⟨hop, hkey⟩ := List.append_inj hhead (by simp)
  exact ⟨by simpa [readBytes] using hop, hkey, hvalue⟩

variable (hkey : key.length ≤ kMaxKeySize) (hvalue : value.length < 2 ^ 32)

include hkey hvalue

theorem lengths_of_encode : keyLenAt m offset = key.length ∧ valueLenAt m offset = value.length := by
  obtain ⟨_, hk, hv⟩ := head_of_encode h
  have hmax : kMaxKeySize = 7281 := rfl
  refine ⟨?_, ?_⟩
  · rw [keyLenAt, kWalRecordKeyOffset, hk, load32_store32, UInt32.toNat_ofNat']
    omega
  · rw [valueLenAt, kWalRecordValueOffset, hv, load32_store32, UInt32.toNat_ofNat']
    omega

variable {used : ℕ} (hop : op = kWalOpPut ∨ op = kWalOpDelete ∧ value = [])
  (hlo : kWalHeaderSize ≤ offset) (hhi : offset + recordSize key value ≤ used)

include hop hlo hhi

/-- **An encoded record is decoded as it was.** -/
theorem accepted_of_encode (verifyCRC : Bool) : AcceptedAt m used offset verifyCRC ∧
    recordOf m offset = ⟨op, key, value, offset + recordSize key value⟩ := by
  obtain ⟨hhead, hcrc, hk, hv⟩ := parts_of_encode h
  obtain ⟨hop', _, _⟩ := head_of_encode h
  obtain ⟨hkl, hvl⟩ := lengths_of_encode h hkey hvalue
  have hsize : sizeAt m offset = recordSize key value := by
    rw [sizeAt, recordSize, hkl, hvl]
  have hopAt : m (offset + kWalRecordOpOffset) = op := hop'
  refine ⟨⟨hlo, ?_, ?_, hkl ▸ hkey, hsize ▸ hhi, fun _ => ?_⟩, ?_⟩
  · rw [hopAt]
    exact hop.imp_right And.left
  · intro hd
    rw [hopAt] at hd
    rcases hop with hp | ⟨_, hnil⟩
    · exact absurd (hp.symm.trans hd) (by decide)
    · rw [hvl, hnil]
      rfl
  · rw [hsize, walRecordCRC, kWalRecordCRCOffset, hcrc, load32_store32, h, recordCRC]
    rfl
  · rw [recordOf, hopAt, hkl, hvl, hsize, kWalRecordHeaderSize, hk, hv]

end Encode

end MinweightStore.Store
