import MinweightStore.Store.Appending
import MinweightStore.Store.Files

/-!
# Damage to a record

A segment that was filled by `Append` and of which a few bytes of one record have changed since.

* `Filled`, `filled_append` — what a segment holds after a list of records was appended to it;
* `RecordDamage`, `RecordDamage.rejected` — short damage to a record is seen by its checksum;
* `replayLoop_deliver` — `Replay` hands on the records in front of it, by induction on them;
* `damaged_record_caught` — **and stops exactly there**, under either policy.
-/

namespace MinweightStore.Store

open Minpatricia (ByteView Position kMaxKeySize)

/-! ### A filled segment -/

/-- A record to append. -/
structure LogEntry where
  op : UInt8
  key : ByteView
  value : ByteView
  deriving DecidableEq, Repr

namespace LogEntry

/-- The records a record store appends. -/
structure Valid (e : LogEntry) : Prop where
  op_ok : e.op = kWalOpPut ∨ e.op = kWalOpDelete ∧ e.value = []
  key_le : e.key.length ≤ kMaxKeySize

/-- The size of the record. -/
def size (e : LogEntry) : ℕ := recordSize e.key e.value

/-- The bytes of the record. -/
def encode (e : LogEntry) : List UInt8 := encodeRecord e.op e.key e.value

@[simp] theorem length_encode (e : LogEntry) : e.encode.length = e.size :=
  length_encodeRecord e.op e.key e.value

theorem size_pos (e : LogEntry) : 13 ≤ e.size := recordSize_pos e.key e.value

end LogEntry

/-- The size of a list of records. -/
def totalSize (l : List LogEntry) : ℕ := (l.map LogEntry.size).sum

/-- The bytes of a list of records. -/
def encodeEntries (l : List LogEntry) : List UInt8 := (l.map LogEntry.encode).flatten

/-- Where a record of a list starts. -/
def startOf (l : List LogEntry) (i : ℕ) : ℕ := kWalHeaderSize + totalSize (l.take i)

@[simp] theorem totalSize_cons (e : LogEntry) (l : List LogEntry) :
    totalSize (e :: l) = e.size + totalSize l := by
  rw [totalSize, List.map_cons, List.sum_cons]
  rfl

@[simp] theorem totalSize_append (l l' : List LogEntry) :
    totalSize (l ++ l') = totalSize l + totalSize l' := by
  rw [totalSize, List.map_append, List.sum_append]
  rfl

@[simp] theorem encodeEntries_append (l l' : List LogEntry) :
    encodeEntries (l ++ l') = encodeEntries l ++ encodeEntries l' := by
  rw [encodeEntries, List.map_append, List.flatten_append]
  rfl

theorem encodeEntries_cons (e : LogEntry) (l : List LogEntry) :
    encodeEntries (e :: l) = e.encode ++ encodeEntries l := by
  rw [encodeEntries, List.map_cons, List.flatten_cons]
  rfl

theorem length_encodeEntries (l : List LogEntry) : (encodeEntries l).length = totalSize l := by
  induction l with
  | nil => rfl
  | cons e l ih => rw [encodeEntries_cons, List.length_append, ih, totalSize_cons, LogEntry.length_encode]

/-- **A segment that holds a list of records**, and nothing else. -/
structure Filled (w : World) (fileNo : ℕ) (l : List LogEntry) : Prop where
  segment : ∃ seg, w.records.segments.get? fileNo = some seg ∧ SegmentOk fileNo seg ∧
    seg.used = kWalHeaderSize + totalSize l
  file : ∃ f, w.disk.walFile? w.records.generation fileNo = some f
  bytes : readBytes (w.mapping fileNo) kWalHeaderSize (totalSize l) = encodeEntries l

/-- `Append` for one record after the other. -/
def appendAll (env : Env) (fileNo : ℕ) : List LogEntry → StoreM Unit
  | [] => pure ()
  | e :: l => do
    let _ ← WalSegment.append env fileNo e.op e.key e.value
    appendAll env fileNo l

section Fill

variable {env : Env} {w w' : World} {fileNo : ℕ}

/-- **One more record.** -/
theorem filled_append (henv : env.Survives) {l : List LogEntry} (h : Filled w fileNo l)
    {e : LogEntry} {pos : Position}
    (hrun : WalSegment.append env fileNo e.op e.key e.value w = .ok pos w') :
    Filled w' fileNo (l ++ [e]) ∧ e.value.length < 2 ^ 32 := by
  obtain ⟨⟨seg, hs, hok, hused⟩, ⟨f, hf⟩, hbytes⟩ := h
  have hk : kWalHeaderSize = 4096 := rfl
  have hu : kWalHeaderUsedOffset = 16 := rfl
  have hmapping : w.mapping fileNo = f.bytes := by
    rw [World.mapping, Disk.mapping, hf]
    rfl
  rw [hmapping] at hbytes
  rcases append_survives henv hs hf e.op e.key e.value with ⟨message, hfail, _⟩ | ⟨hroom, t, hok'⟩
  · rw [hfail] at hrun
    exact absurd hrun (by simp)
  obtain ⟨h1, h2, h3⟩ := room_bounds hroom
  have hle := hok.used_le
  have hsize := e.size_pos
  have hesize : e.size = recordSize e.key e.value := rfl
  have hw' : w' = appendedWorld w fileNo seg f e.op e.key e.value t := by
    rw [hok'] at hrun
    cases hpos : makeRecordPosition fileNo seg.used with
    | ok p =>
      rw [hpos] at hrun
      exact (EStateM.Result.ok.inj hrun).2.symm
    | error fault =>
      rw [hpos] at hrun
      exact absurd hrun (by simp)
  subst hw'
  refine ⟨⟨⟨seg.cut (seg.used + recordSize e.key e.value), ?_, ?_, ?_⟩,
    ⟨_, w.withBytes_walFile? fileNo f _ t⟩, ?_⟩, h3⟩
  · rw [appendedWorld_segments, SortedMap.get?_insert, hok.fileNo_eq, if_pos rfl]
  · have h4 := hok.header
    exact ⟨hok.fileNo_eq, hok.pos, hok.fileNo_lt, by show _ ≤ seg.used + _; omega,
      by show seg.used + _ ≤ seg.size; omega, hok.size_le⟩
  · show seg.used + _ = _
    rw [hused, totalSize_append, totalSize_cons, hesize]
    show _ = kWalHeaderSize + (totalSize l + (recordSize e.key e.value + 0))
    omega
  · have htotal : totalSize [e] = (encodeRecord e.op e.key e.value).length := by
      rw [length_encodeRecord, totalSize_cons]
      rfl
    rw [appendedWorld_mapping, totalSize_append, readBytes_writeBytes_of_disjoint
      (Or.inr (by rw [length_store64]; omega)), readBytes_add, ← hused, htotal, readBytes_writeBytes,
      readBytes_writeBytes_of_disjoint (Or.inl (by omega)), hbytes, encodeEntries_append,
      encodeEntries_cons]
    show _ = encodeEntries l ++ (encodeRecord e.op e.key e.value ++ [])
    rw [List.append_nil]

/-- **A list of records appended one after the other**, by induction on the list. -/
theorem filled_appendAll (henv : env.Survives) (l : List LogEntry) {before : List LogEntry}
    (h : Filled w fileNo before) (hrun : appendAll env fileNo l w = .ok () w') :
    Filled w' fileNo (before ++ l) ∧ ∀ e ∈ l, e.value.length < 2 ^ 32 := by
  induction l generalizing before w with
  | nil =>
    obtain rfl := (EStateM.Result.ok.inj hrun).2
    rw [List.append_nil]
    exact ⟨h, fun _ he => absurd he List.not_mem_nil⟩
  | cons e l ih =>
    rw [appendAll] at hrun
    cases hone : WalSegment.append env fileNo e.op e.key e.value w with
    | error fault w₁ =>
      rw [Prog.bind_error hone] at hrun
      exact absurd hrun (by simp)
    | ok pos w₁ =>
      rw [Prog.bind_ok hone] at hrun
      obtain ⟨hfilled, hvalue⟩ := filled_append henv h hone
      obtain ⟨hrest, hvalues⟩ := ih hfilled hrun
      rw [List.append_assoc] at hrest
      exact ⟨hrest, List.forall_mem_cons.mpr ⟨hvalue, hvalues⟩⟩

/-- **Records that fit are appended**, by induction on the list. -/
theorem exists_appendAll (henv : env.Survives) (l : List LogEntry)
    (hkeys : ∀ e ∈ l, e.key.length ≤ kMaxKeySize) {w : World} {seg : WalSegment} {f : WalFile}
    (hs : w.records.segments.get? fileNo = some seg) (hok : SegmentOk fileNo seg)
    (hunsealed : seg.isSealed = false) (hf : w.disk.walFile? w.records.generation fileNo = some f)
    (hfit : seg.used + totalSize l ≤ seg.size) : ∃ w', appendAll env fileNo l w = .ok () w' := by
  induction l generalizing w seg f with
  | nil => exact ⟨w, rfl⟩
  | cons e l ih =>
    obtain ⟨hkey, hrest⟩ := List.forall_mem_cons.mp hkeys
    have hlimit : kRecordOffsetLimit = 2 ^ 30 := rfl
    have hesize : e.size = recordSize e.key e.value := rfl
    have hpos := e.size_pos
    have hheader := hok.header
    have hsize := hok.size_le
    rw [totalSize_cons, hesize] at hfit
    have hroom : seg.room e.key e.value = .ok seg.used :=
      room_ok hunsealed hkey (by omega) hok.size_le
    rcases append_survives henv hs hf e.op e.key e.value with ⟨_, _, hfull⟩ | ⟨_, t, hrun⟩
    · rw [hroom] at hfull
      exact absurd hfull (by simp [err])
    rw [makeRecordPosition_eq hok.fileNo_lt (by omega) hok.pos] at hrun
    have hs' : (appendedWorld w fileNo seg f e.op e.key e.value t).records.segments.get? fileNo =
        some (seg.cut (seg.used + recordSize e.key e.value)) := by
      rw [appendedWorld_segments, SortedMap.get?_insert, hok.fileNo_eq, if_pos rfl]
    have hok' : SegmentOk fileNo (seg.cut (seg.used + recordSize e.key e.value)) :=
      ⟨hok.fileNo_eq, hok.pos, hok.fileNo_lt, by show _ ≤ seg.used + _; omega,
        by show seg.used + _ ≤ seg.size; omega, hok.size_le⟩
    obtain ⟨w', hrun'⟩ := ih hrest hs' hok' hunsealed (w.withBytes_walFile? fileNo f _ t) (by
      show seg.used + _ + totalSize l ≤ seg.size
      omega)
    exact ⟨w', (Prog.bind_ok hrun).trans hrun'⟩

end Fill

/-! ### Damage -/

/-- **Short damage to a record**: at least one byte has changed, and all changes lie within four
consecutive bytes of its payload, within its checksum, or in its op byte. -/
structure RecordDamage (m m' : Mapping) (start : ℕ) (e : LogEntry) : Prop where
  changed : ∃ o, m o ≠ m' o
  within : (∃ a, start + 13 ≤ a ∧ ∀ o, m o ≠ m' o → a ≤ o ∧ o < a + 4 ∧ o < start + e.size) ∨
    (∀ o, m o ≠ m' o → start + 9 ≤ o ∧ o < start + 13) ∨ ∀ o, m o ≠ m' o → o = start

/-- The bytes the checksum of a record covers. -/
def coveredBytes (m : Mapping) (start n : ℕ) : List UInt8 :=
  readBytes m start 9 ++ readBytes m (start + 13) n

section Damage

variable {m m' : Mapping} {start : ℕ} {e : LogEntry}

@[simp] theorem length_coveredBytes (m : Mapping) (start n : ℕ) :
    (coveredBytes m start n).length = 9 + n := by
  rw [coveredBytes, List.length_append, length_readBytes, length_readBytes]

theorem walRecordCRC_eq (m : Mapping) (start n : ℕ) :
    walRecordCRC (readBytes m start (13 + n)) = crc32Update 0 (coveredBytes m start n) := by
  have htake := take_readBytes m start 9 (4 + n)
  have hdrop := drop_readBytes m start 13 n
  rw [← Nat.add_assoc] at htake
  have hcut : cutCRC (readBytes m start (13 + n)) = coveredBytes m start n := by
    show (readBytes m start (13 + n)).take 9 ++ (readBytes m start (13 + n)).drop 13 = _
    rw [htake, hdrop, coveredBytes]
  rw [walRecordCRC_eq_cut, hcut]

theorem getD_readBytes (m : Mapping) (offset size i : ℕ) :
    (readBytes m offset size).getD i 0 = if i < size then m (offset + i) else 0 := by
  by_cases hi : i < size
  · rw [if_pos hi, List.getD_eq_getElem _ _ (by simpa using hi)]
    simp [readBytes]
  · rw [if_neg hi, List.getD_eq_default _ _ (by simpa using hi)]

/-- A byte that is covered. -/
theorem getD_coveredBytes (m : Mapping) (start n i : ℕ) : (coveredBytes m start n).getD i 0 =
    if i < 9 then m (start + i) else if i < 9 + n then m (start + i + 4) else 0 := by
  rw [coveredBytes]
  by_cases hi : i < 9
  · rw [List.getD_append _ _ _ _ (by simpa using hi), getD_readBytes]
    simp only [if_pos hi]
  · rw [List.getD_append_right _ _ _ _ (by simpa using hi), length_readBytes, getD_readBytes,
      if_neg hi]
    by_cases hn : i < 9 + n
    · rw [if_pos (by omega), if_pos hn]
      congr 1
      omega
    · rw [if_neg (by omega), if_neg hn]

/-- Changes within four covered bytes are a burst. -/
theorem burst_covered {n first : ℕ} (hchanged : ∃ i, i < 9 + n ∧
      (coveredBytes m start n).getD i 0 ≠ (coveredBytes m' start n).getD i 0)
    (hwithin : ∀ i, (coveredBytes m start n).getD i 0 ≠ (coveredBytes m' start n).getD i 0 →
      first ≤ i ∧ i < first + 4) :
    Burst (coveredBytes m start n) (coveredBytes m' start n) first := by
  obtain ⟨i, _, hi⟩ := hchanged
  exact ⟨by simp, fun heq => hi (by rw [heq]), hwithin⟩

/-- The three kinds of damage: what the checksum covers, or the checksum, has changed; never both. -/
theorem RecordDamage.cases (h : RecordDamage m m' start e) :
    (readBytes m' (start + 9) 4 = readBytes m (start + 9) 4 ∧ ∃ first,
      Burst (coveredBytes m start (e.size - 13)) (coveredBytes m' start (e.size - 13)) first) ∨
    (coveredBytes m' start (e.size - 13) = coveredBytes m start (e.size - 13) ∧
      readBytes m' (start + 9) 4 ≠ readBytes m (start + 9) 4) := by
  obtain ⟨o, ho⟩ := h.changed
  have hsize := e.size_pos
  have hfield : (∀ o, m o ≠ m' o → o < start + 9 ∨ start + 13 ≤ o) →
      readBytes m' (start + 9) 4 = readBytes m (start + 9) 4 := fun hout =>
    readBytes_congr (fun i hlo hhi => by
      by_contra hne
      have := hout i (Ne.symm hne)
      omega)
  rcases h.within with ⟨a, ha, hall⟩ | hall | hall
  · obtain ⟨h1, h2, h3⟩ := hall o ho
    refine Or.inl ⟨hfield (fun o ho => by have := hall o ho; omega), a - start - 4,
      burst_covered ⟨o - start - 4, by omega, ?_⟩ (fun i hi => ?_)⟩
    · have h9 : ¬o - start - 4 < 9 := by omega
      have hn : o - start - 4 < 9 + (e.size - 13) := by omega
      rw [getD_coveredBytes, getD_coveredBytes]
      simp only [if_neg h9, if_pos hn, show start + (o - start - 4) + 4 = o by omega]
      exact ho
    · rw [getD_coveredBytes, getD_coveredBytes] at hi
      by_cases h9 : i < 9
      · simp only [if_pos h9] at hi
        have := hall _ hi
        omega
      · by_cases hn : i < 9 + (e.size - 13)
        · simp only [if_neg h9, if_pos hn] at hi
          have := hall _ hi
          omega
        · simp only [if_neg h9, if_neg hn] at hi
          exact absurd rfl hi
  · right
    obtain ⟨h1, h2⟩ := hall o ho
    refine ⟨?_, fun heq => ho ?_⟩
    · have hout : ∀ i, i < start + 9 ∨ start + 13 ≤ i → m' i = m i := fun i hi => by
        by_contra hne
        have := hall i (Ne.symm hne)
        omega
      rw [coveredBytes, coveredBytes, readBytes_congr (fun i _ hi => hout i (Or.inl hi)),
        readBytes_congr (fun i hi _ => hout i (Or.inr hi))]
    · have hbyte := congrArg (fun l : List UInt8 => l.getD (o - start - 9) 0) heq
      simp only [getD_readBytes, if_pos (show o - start - 9 < 4 by omega),
        show start + 9 + (o - start - 9) = o by omega] at hbyte
      exact hbyte.symm
  · have hstart := hall o ho
    subst hstart
    refine Or.inl ⟨hfield (fun i hi => Or.inl (by have := hall i hi; omega)), 0,
      burst_covered ⟨0, by omega, ?_⟩ (fun i hi => ?_)⟩
    · rw [getD_coveredBytes, getD_coveredBytes]
      exact ho
    · rw [getD_coveredBytes, getD_coveredBytes] at hi
      by_cases h9 : i < 9
      · simp only [if_pos h9] at hi
        have := hall _ hi
        omega
      · by_cases hn : i < 9 + (e.size - 13)
        · simp only [if_neg h9, if_pos hn] at hi
          have := hall _ hi
          omega
        · simp only [if_neg h9, if_neg hn] at hi
          exact absurd rfl hi

/-- Everything outside the record is as it was. -/
theorem RecordDamage.outside (h : RecordDamage m m' start e) {i : ℕ}
    (hi : i < start ∨ start + e.size ≤ i) : m i = m' i := by
  have hsize := e.size_pos
  by_contra hne
  rcases h.within with ⟨a, ha, hall⟩ | hall | hall
  · have := hall i hne
    omega
  · have := hall i hne
    omega
  · have := hall i hne
    omega

/-- The lengths of the record are as they were. -/
theorem RecordDamage.lengths (h : RecordDamage m m' start e) {i : ℕ} (hlo : start < i)
    (hhi : i < start + 9) : m' i = m i := by
  by_contra hne
  rcases h.within with ⟨a, ha, hall⟩ | hall | hall
  · have := hall i (Ne.symm hne)
    omega
  · have := hall i (Ne.symm hne)
    omega
  · have := hall i (Ne.symm hne)
    omega

/-- **The damaged record is rejected.** -/
theorem RecordDamage.rejected (h : RecordDamage m m' start e) (hvalid : e.Valid)
    (hvalue : e.value.length < 2 ^ 32) (hencoded : readBytes m start e.size = e.encode) (used : ℕ) :
    ¬AcceptedAt m' used start true := by
  intro haccepted
  obtain ⟨hkeyLen, hvalueLen⟩ := lengths_of_encode hencoded hvalid.key_le hvalue
  obtain ⟨_, hfield, _, _⟩ := parts_of_encode hencoded
  have hkey' : keyLenAt m' start = e.key.length := by
    rw [← hkeyLen, keyLenAt, keyLenAt, readBytes_congr (fun i hlo hhi =>
      h.lengths (by rw [kWalRecordKeyOffset] at hlo; omega) (by rw [kWalRecordKeyOffset] at hhi; omega))]
  have hvalue' : valueLenAt m' start = e.value.length := by
    rw [← hvalueLen, valueLenAt, valueLenAt, readBytes_congr (fun i hlo hhi =>
      h.lengths (by rw [kWalRecordValueOffset] at hlo; omega)
        (by rw [kWalRecordValueOffset] at hhi; omega))]
  have hsizeAt : sizeAt m' start = 13 + (e.size - 13) := by
    have hsize : e.size = kWalRecordHeaderSize + e.key.length + e.value.length := rfl
    rw [sizeAt, hkey', hvalue', hsize, kWalRecordHeaderSize]
    omega
  -- before the damage the checksum was right
  have hbefore : crc32Update 0 (coveredBytes m start (e.size - 13)) =
      load32 (readBytes m (start + 9) 4) := by
    have hsize := e.size_pos
    rw [← walRecordCRC_eq, show 13 + (e.size - 13) = e.size by omega, hencoded, hfield,
      load32_store32]
    rfl
  have hafter := haccepted.crc rfl
  rw [hsizeAt, walRecordCRC_eq, kWalRecordCRCOffset] at hafter
  rcases h.cases with ⟨hsame, first, hburst⟩ | ⟨hsame, hdiffer⟩
  · rw [hsame, ← hbefore] at hafter
    exact hburst.crc32Update_ne 0 hafter.symm
  · rw [hsame, hbefore] at hafter
    apply hdiffer
    rw [← store32_load32 (length_readBytes m' (start + 9) 4), ← hafter,
      store32_load32 (length_readBytes m (start + 9) 4)]

end Damage

/-! ### Replay -/

/-- What `Replay` hands to its callback for a list of records. -/
def deliveries (fileNo : ℕ) : ℕ → List LogEntry → List (WalRecord × Position)
  | _, [] => []
  | offset, e :: l => (⟨e.op, e.key, e.value, offset + e.size⟩, recordPosition fileNo offset) ::
      deliveries fileNo (offset + e.size) l

/-- The callback, called for one record after the other. -/
def deliver (fn : WalRecord → Position → StoreM Unit) : List (WalRecord × Position) → StoreM Unit
  | [] => pure ()
  | x :: l => do
    fn x.1 x.2
    deliver fn l

/-- A callback that leaves the record store and the files alone. -/
def Quiet (fn : WalRecord → Position → StoreM Unit) : Prop :=
  ∀ r pos w, returns (fn r pos) (fun _ w' => w'.records = w.records ∧ w'.disk = w.disk) w

section Replay

variable {fn : WalRecord → Position → StoreM Unit} {fileNo : ℕ} {seg : WalSegment} {m : Mapping}

/-- Records that are delivered leave the record store and the files alone. -/
theorem returns_deliver (hquiet : Quiet fn) (l : List (WalRecord × Position)) (w : World) :
    returns (deliver fn l) (fun _ w' => w'.records = w.records ∧ w'.disk = w.disk) w := by
  induction l generalizing w with
  | nil => exact ⟨rfl, rfl⟩
  | cons x l ih =>
    refine returns_bind (hquiet x.1 x.2 w) (fun _ w₁ h₁ => ?_)
    exact returns_mono (ih w₁) (fun _ w₂ h₂ => ⟨h₂.1.trans h₁.1, h₂.2.trans h₁.2⟩)

/-- **`Replay` hands on the records that are there**, by induction on them. -/
theorem replayLoop_deliver (hquiet : Quiet fn) (hpos : 0 < fileNo) (hno : fileNo < 2 ^ 33)
    (hused : seg.used ≤ 2 ^ 30) (env : Env) (policy : WALReplayPolicy) (l : List LogEntry)
    (hvalid : ∀ e ∈ l, e.Valid ∧ e.value.length < 2 ^ 32) (fuel offset : ℕ) (w : World)
    (hs : w.records.segments.get? fileNo = some seg) (hm : w.mapping fileNo = m)
    (hlo : kWalHeaderSize ≤ offset) (hhi : offset + totalSize l ≤ seg.used)
    (hbytes : readBytes m offset (totalSize l) = encodeEntries l) :
    WalSegment.replayLoop env policy fileNo fn (fuel + l.length) offset w =
      (deliver fn (deliveries fileNo offset l) >>= fun _ =>
        WalSegment.replayLoop env policy fileNo fn fuel (offset + totalSize l)) w := by
  induction l generalizing offset w with
  | nil => rfl
  | cons e l ih =>
    obtain ⟨hone, hrest⟩ := List.forall_mem_cons.mp hvalid
    have hsize := e.size_pos
    rw [totalSize_cons] at hhi hbytes ⊢
    rw [readBytes_add, encodeEntries_cons] at hbytes
    obtain ⟨hentry, hbytes'⟩ := List.append_inj hbytes (by simp)
    obtain ⟨haccepted, hrecord⟩ := accepted_of_encode hentry hone.1.key_le hone.2 hone.1.op_ok hlo
      (show offset + recordSize e.key e.value ≤ seg.used from by
        have : e.size = recordSize e.key e.value := rfl
        omega) true
    have hderef : WalSegment.deref fileNo w = .ok seg w := by rw [WalSegment.deref, hs]
    have hread : recordAtOffset m seg.used offset true =
        .ok ⟨e.op, e.key, e.value, offset + e.size⟩ :=
      recordAtOffset_ok_iff.mpr ⟨haccepted, hrecord.symm⟩
    rw [List.length_cons, ← Nat.add_assoc, WalSegment.replayLoop, Prog.bind_ok hderef, Prog.get_bind,
      if_pos (by omega), hm, hread]
    simp only
    rw [makeRecordPosition_eq hno (by omega) hpos, Prog.ofOutcome, Prog.pure_bind_run, deliveries,
      deliver, bind_assoc]
    cases hfn : fn ⟨e.op, e.key, e.value, offset + e.size⟩ (recordPosition fileNo offset) w with
    | error fault w₁ => rw [Prog.bind_error hfn, Prog.bind_error hfn]
    | ok a w₁ =>
      obtain ⟨hrecords, hdisk⟩ := Prog.wp_run_ok (hquiet _ _ w) hfn
      have hm₁ : w₁.mapping fileNo = m := by rw [World.mapping, hrecords, hdisk]; exact hm
      rw [Prog.bind_ok hfn, Prog.bind_ok hfn, ih hrest (offset + e.size) w₁ (hrecords ▸ hs) hm₁
        (by omega) (by omega) hbytes', Nat.add_assoc]

end Replay

/-- The callback of `ReplayAll` leaves the record store and the files alone. -/
theorem quiet_applyRecord : Quiet applyRecord := by
  have hindex : ∀ {α : Type} (f : (Position → Minpatricia.Result ByteView) → Minpatricia.IndexM α)
      (w : World), returns (onIndex f) (fun _ w' => w'.records = w.records ∧ w'.disk = w.disk) w := by
    intro α f w
    rw [returns, Prog.wp, onIndex]
    cases f w.key w.index with
    | ok a ix => exact ⟨rfl, rfl⟩
    | error fault ix =>
      cases fault with
      | status code => exact ⟨rfl, rfl⟩
      | undefined => trivial
      | diverges => trivial
      | killed => trivial
  have hstatus : ∀ {α : Type} (r : Except Minpatricia.StatusCode α) (w : World),
      returns (fromIndex r) (fun _ w' => w' = w) w := by
    intro α r w
    cases r with
    | ok a => exact rfl
    | error code => trivial
  intro r pos w
  rw [applyRecord]
  split
  · refine returns_bind (hindex _ w) (fun result w₁ h₁ => ?_)
    exact returns_bind (hstatus result w₁) (fun _ w₂ h₂ => h₂ ▸ h₁)
  split
  · refine returns_bind (hindex _ w) (fun result w₁ h₁ => ?_)
    exact returns_bind (hstatus result w₁) (fun _ w₂ h₂ => h₂ ▸ h₁)
  · trivial

/-! ### Damage is caught -/

theorem length_le_totalSize (l : List LogEntry) : l.length ≤ totalSize l := by
  induction l with
  | nil => exact le_refl _
  | cons e l ih =>
    have hsize := e.size_pos
    rw [totalSize_cons, List.length_cons]
    omega

/-- The records around one of them. -/
theorem startOf_split {l : List LogEntry} {i : ℕ} (hi : i < l.length) :
    ∃ after, l = l.take i ++ l[i] :: after ∧
      totalSize l = totalSize (l.take i) + l[i].size + totalSize after := by
  refine ⟨l.drop (i + 1), ?_, ?_⟩
  · rw [List.getElem_cons_drop, List.take_append_drop]
  · conv_lhs => rw [← List.take_append_drop i l, ← List.getElem_cons_drop hi]
    rw [totalSize_append, totalSize_cons, Nat.add_assoc]

section Caught

variable {w w₁ : World} {fileNo : ℕ} {l : List LogEntry} {i : ℕ} {m' : Mapping} {seg : WalSegment}

/-- **A record of a filled segment is damaged**: `Replay` hands on the records in front of it, and
the record itself is rejected. -/
theorem replay_damaged (h : Filled w fileNo l)
    (hvalid : ∀ e ∈ l, e.Valid ∧ e.value.length < 2 ^ 32) (hi : i < l.length)
    (hdamage : RecordDamage (w.mapping fileNo) m' (startOf l i) l[i])
    (hs : w₁.records.segments.get? fileNo = some seg) (hused : seg.used = w.usedOf fileNo)
    (hm : w₁.mapping fileNo = m') {fn : WalRecord → Position → StoreM Unit} (hquiet : Quiet fn) :
    ∃ message, ∀ env policy, WalSegment.replay env policy fileNo fn w₁ =
      (deliver fn (deliveries fileNo kWalHeaderSize (l.take i)) >>= fun _ =>
        WalSegment.stopReplay env policy fileNo (startOf l i) (corruptWal message)) w₁ := by
  obtain ⟨⟨seg₀, hs₀, hok, hused₀⟩, _, hbytes⟩ := h
  have husedOf : w.usedOf fileNo = seg₀.used := by
    rw [World.usedOf, hs₀]
    rfl
  rw [husedOf] at hused
  obtain ⟨after, hsplit, htotal⟩ := startOf_split hi
  have hstart : startOf l i = kWalHeaderSize + totalSize (l.take i) := rfl
  have hle := hok.used_le
  have hsize := hok.size_le
  have hentrySize := l[i].size_pos
  -- the bytes in front of the record are as they were, the record itself was encoded
  have hparts := hbytes
  rw [htotal, Nat.add_assoc, readBytes_add, ← hstart] at hparts
  conv at hparts => rhs; rw [hsplit]
  rw [encodeEntries_append, encodeEntries_cons, readBytes_add] at hparts
  obtain ⟨hbefore, hbehind⟩ := List.append_inj hparts
    (by rw [length_readBytes, length_encodeEntries])
  obtain ⟨hentry, _⟩ := List.append_inj hbehind (by rw [length_readBytes, LogEntry.length_encode])
  have hbefore' : readBytes m' kWalHeaderSize (totalSize (l.take i)) =
      encodeEntries (l.take i) := by
    rw [← hbefore]
    exact readBytes_congr (fun j _ hj => (hdamage.outside (Or.inl (hstart ▸ hj))).symm)
  obtain ⟨hentryValid, hentryValue⟩ := hvalid l[i] (List.getElem_mem hi)
  have hrejected := hdamage.rejected hentryValid hentryValue hentry seg.used
  obtain ⟨message, hread⟩ : ∃ message,
      recordAtOffset m' seg.used (startOf l i) true = err (corruptWal message) := by
    rcases recordAtOffset_cases m' seg.used (startOf l i) true with ⟨ha, _⟩ | ⟨_, message, hread⟩
    · exact absurd ha hrejected
    · exact ⟨message, hread⟩
  have hlength := length_le_totalSize (l.take i)
  refine ⟨message, fun env policy => ?_⟩
  have hderef : WalSegment.deref fileNo w₁ = .ok seg w₁ := by rw [WalSegment.deref, hs]
  rw [WalSegment.replay, Prog.bind_ok hderef,
    show seg.used + 1 = (seg.used - (l.take i).length + 1) + (l.take i).length by omega,
    replayLoop_deliver hquiet hok.pos hok.fileNo_lt (by omega) env policy (l.take i)
      (fun e he => hvalid e (List.mem_of_mem_take he)) _ kWalHeaderSize w₁ hs hm (le_refl _)
      (by omega) hbefore', ← hstart]
  cases hdeliver : deliver fn (deliveries fileNo kWalHeaderSize (l.take i)) w₁ with
  | error fault w₂ => rw [Prog.bind_error hdeliver, Prog.bind_error hdeliver]
  | ok a w₂ =>
    obtain ⟨hrecords, hdisk⟩ := Prog.wp_run_ok (returns_deliver hquiet _ w₁) hdeliver
    have hderef₂ : WalSegment.deref fileNo w₂ = .ok seg w₂ := by
      rw [WalSegment.deref, hrecords, hs]
    have hm₂ : w₂.mapping fileNo = m' := by rw [World.mapping, hrecords, hdisk]; exact hm
    rw [Prog.bind_ok hdeliver, Prog.bind_ok hdeliver, WalSegment.replayLoop, Prog.bind_ok hderef₂,
      Prog.get_bind, if_pos (by omega), hm₂, hread]
    rfl

end Caught

/-- **Short damage to a record is always caught, and exactly there.**  A segment has been filled by
`Append`, and then a few bytes of one record have changed.  Under point-in-time recovery `Replay`
hands on the records in front of it as they were appended, and moves the used offset to its start;
under strict recovery it hands on the same records and fails. -/
theorem damaged_record_caught {env : Env} (henv : env.Survives) {w w' : World} {fileNo : ℕ}
    (hfresh : Filled w fileNo []) {l : List LogEntry} (hvalid : ∀ e ∈ l, e.Valid)
    (hfill : appendAll env fileNo l w = .ok () w') {i : ℕ} (hi : i < l.length) {f : WalFile}
    (hdamage : RecordDamage (w'.mapping fileNo) f.bytes (startOf l i) l[i]) {w₁ : World}
    {seg : WalSegment} (hs : w₁.records.segments.get? fileNo = some seg) (hno : seg.fileNo = fileNo)
    (hused : seg.used = w'.usedOf fileNo)
    (hf : w₁.disk.walFile? w₁.records.generation fileNo = some f) (env' : Env)
    {fn : WalRecord → Position → StoreM Unit} (hquiet : Quiet fn) :
    (WalSegment.replay env' .pointInTime fileNo fn w₁ = (do
      deliver fn (deliveries fileNo kWalHeaderSize (l.take i))
      WalSegment.writeUsed env' fileNo (startOf l i)
      pure true) w₁) ∧
    (∃ message, WalSegment.replay env' .strict fileNo fn w₁ = (do
      deliver fn (deliveries fileNo kWalHeaderSize (l.take i))
      Prog.fail (corruptWal message)) w₁) ∧
    ∀ w₂, deliver fn (deliveries fileNo kWalHeaderSize (l.take i)) w₁ = .ok () w₂ →
      env'.Survives → ∃ w₃, WalSegment.replay env' .pointInTime fileNo fn w₁ = .ok true w₃ ∧
        w₃.usedOf fileNo = startOf l i ∧ headerUsed (w₃.mapping fileNo) = startOf l i := by
  obtain ⟨hfilled, hvalues⟩ := filled_appendAll henv l hfresh hfill
  rw [List.nil_append] at hfilled
  have hm : w₁.mapping fileNo = f.bytes := by
    rw [World.mapping, Disk.mapping, hf]
    rfl
  obtain ⟨message, hreplay⟩ := replay_damaged hfilled (fun e he => ⟨hvalid e he, hvalues e he⟩) hi
    hdamage hs hused hm hquiet
  refine ⟨hreplay env' .pointInTime, ⟨message, hreplay env' .strict⟩, fun w₂ hdeliver henv' => ?_⟩
  obtain ⟨hrecords, hdisk⟩ := Prog.wp_run_ok (returns_deliver hquiet _ w₁) hdeliver
  have hs₂ : w₂.records.segments.get? fileNo = some seg := hrecords ▸ hs
  have hf₂ : w₂.disk.walFile? w₂.records.generation fileNo = some f := by
    rw [hrecords, hdisk]
    exact hf
  have hwrite := writeUsed_stored henv'.stores.sparesHeaders hs₂ (startOf l i)
  have hbound : startOf l i < 2 ^ 64 := by
    obtain ⟨⟨seg₀, hs₀, hok, hused₀⟩, _, _⟩ := hfilled
    obtain ⟨after, _, htotal⟩ := startOf_split hi
    have h1 := hok.used_le
    have h2 := hok.size_le
    have hstart : startOf l i = kWalHeaderSize + totalSize (l.take i) := rfl
    omega
  have hrun := hreplay env' .pointInTime
  rw [Prog.bind_ok hdeliver, WalSegment.stopReplay, Prog.bind_ok hwrite, Prog.pure_run] at hrun
  refine ⟨_, hrun, ?_, ?_⟩
  · rw [World.usedOf]
    show (Option.map _ ((w₂.records.segments.insert seg.fileNo
      (seg.cut (startOf l i))).get? fileNo)).getD 0 = _
    rw [SortedMap.get?_insert, hno, if_pos rfl]
    rfl
  · rw [Disk.storeBytes_eq hf₂]
    have hmapping := w₂.withBytes_mapping fileNo f (writeBytes f.bytes kWalHeaderUsedOffset
      (store64 (UInt64.ofNat (startOf l i)))) (w₂.clock + 1)
    show headerUsed ((w₂.withBytes fileNo f _ (w₂.clock + 1)).mapping fileNo) = _
    rw [hmapping]
    exact headerUsed_setUsed hbound

section Fresh

variable {env : Env} {site : Site} {w : World} {fileNo : ℕ}

/-- **A segment opened over a new file** holds no records. -/
theorem filled_openSegment (hsite : env.ReliableAt site) (hmap : env.Stores)
    (hlo : kWalHeaderSize + kWalRecordHeaderSize ≤ w.records.walSize)
    (hhi : w.records.walSize ≤ kRecordOffsetLimit) (hpos : 0 < fileNo) (hno : fileNo < 2 ^ 33)
    {files : WalDir} (hdir : w.disk.wal.get? w.records.generation = some files)
    (hnew : files.get? fileNo = none) : ∃ w', openSegment env site fileNo false w = .ok () w' ∧
      Filled w' fileNo [] ∧ w'.records.segments.get? fileNo =
        some ⟨fileNo, w.records.walSize, kWalHeaderSize, false, true, true⟩ := by
  obtain ⟨t, hrun⟩ := openSegment_ok hsite hmap hlo hhi hpos hno hdir (f := .empty)
    (by rw [hnew]; rfl) (Or.inl rfl) false
  rw [openedSegment_fresh (by omega)] at hrun
  refine ⟨_, hrun, ⟨⟨⟨fileNo, w.records.walSize, kWalHeaderSize, false, true, true⟩, ?_,
    ⟨rfl, hpos, hno, le_refl _, ?_, hhi⟩, rfl⟩, ⟨openedFile .empty w.records.walSize, ?_⟩, rfl⟩, ?_⟩
  · show (SortedMap.insert _ _ _).get? fileNo = _
    rw [SortedMap.get?_insert, if_pos rfl]
  · show kWalHeaderSize ≤ w.records.walSize
    omega
  · show (Disk.setDir _ _ _).walFile? w.records.generation fileNo = _
    rw [Disk.walFile?, Disk.dir_setDir, if_pos rfl, SortedMap.get?_insert, if_pos rfl]
  · show (SortedMap.insert _ _ _).get? fileNo = _
    rw [SortedMap.get?_insert, if_pos rfl]

end Fresh

/-- A process on a directory with one empty generation. -/
def emptyGeneration : World :=
  { World.boot ⟨none, none, .empty, .empty, SortedMap.insert .empty 1 .empty⟩ with
    records := ⟨8192, 1, 0, 0, [.dummy], .empty⟩ }

/-- Three records: two keys are put, and the first is deleted. -/
def threeEntries : List LogEntry :=
  [⟨kWalOpPut, [1], [7]⟩, ⟨kWalOpPut, [2], [8]⟩, ⟨kWalOpDelete, [1], []⟩]

theorem valid_threeEntries : ∀ e ∈ threeEntries, e.Valid := by
  intro e he
  rcases he with _ | ⟨_, _ | ⟨_, _ | ⟨_, he⟩⟩⟩
  · exact ⟨Or.inl rfl, show 1 ≤ kMaxKeySize by decide⟩
  · exact ⟨Or.inl rfl, show 1 ≤ kMaxKeySize by decide⟩
  · exact ⟨Or.inr ⟨rfl, rfl⟩, show 1 ≤ kMaxKeySize by decide⟩
  · cases he

/-- Bytes that differ behind the first record only. -/
theorem readBytes_first {m m' : Mapping}
    (h : readBytes m kWalHeaderSize (totalSize threeEntries) = encodeEntries threeEntries)
    (hsame : ∀ o < 4111, m' o = m o) :
    readBytes m' kWalHeaderSize (recordSize [1] [7]) = encodeRecord kWalOpPut [1] [7] := by
  have hsize : totalSize threeEntries = recordSize [1] [7] + totalSize threeEntries.tail := rfl
  rw [hsize, readBytes_add, threeEntries, encodeEntries_cons] at h
  refine Eq.trans (readBytes_congr (fun o _ ho => ?_)) (List.append_inj h (by simp [LogEntry.encode])).1
  have hlt : o < 4096 + 15 := ho
  exact hsame o hlt

/-- The second of three records, of which a byte of the checksum has changed: the first one is
applied to a new index, and the used offset is moved back behind it. -/
theorem damaged_record_caught_checksum : ∃ (w w' w₁ w₂ : World) (f : WalFile),
    openSegment .reliable .openStore 1 false emptyGeneration = .ok () w ∧
    appendAll .reliable 1 threeEntries w = .ok () w' ∧
    RecordDamage (w'.mapping 1) f.bytes (startOf threeEntries 1) ⟨kWalOpPut, [2], [8]⟩ ∧
    w₁.mapping 1 = f.bytes ∧
    WalSegment.replay .reliable .pointInTime 1 applyRecord w₁ = .ok true w₂ ∧
    w₂.usedOf 1 = startOf threeEntries 1 := by
  obtain ⟨w, hopen, hfresh, hs⟩ := filled_openSegment (w := emptyGeneration)
    (reliableAt_reliable .openStore) Env.reliable_survives.stores (by decide) (by decide)
    (show 0 < 1 by decide) (by decide)
    (show emptyGeneration.disk.wal.get? emptyGeneration.records.generation = some .empty from rfl)
    rfl
  have hstart : startOf threeEntries 1 = 4111 := rfl
  obtain ⟨f, hf⟩ := hfresh.file
  obtain ⟨w', hfill⟩ := exists_appendAll Env.reliable_survives threeEntries
    (fun e he => (valid_threeEntries e he).key_le) hs
    ⟨rfl, Nat.one_pos, by decide, le_refl _, by decide, by decide⟩ rfl hf (by decide)
  obtain ⟨⟨⟨seg, hs', hok, hused⟩, ⟨f', hf'⟩, hbytes⟩, _⟩ :=
    filled_appendAll Env.reliable_survives _ hfresh hfill
  obtain ⟨m', hm'⟩ : ∃ m' : Mapping, ∀ o, m' o =
    if o = 4111 + 9 then w'.mapping 1 o + 1 else w'.mapping 1 o := ⟨_, fun _ => rfl⟩
  have hdamage : RecordDamage (w'.mapping 1) (WalFile.mk f'.size m').bytes (startOf threeEntries 1)
      ⟨kWalOpPut, [2], [8]⟩ := by
    refine ⟨⟨4111 + 9, ?_⟩, Or.inr (Or.inl (fun o ho => ?_))⟩
    · show _ ≠ m' _
      rw [hm', if_pos rfl]
      simp
    · by_cases heq : o = 4111 + 9
      · omega
      · refine absurd ?_ ho
        show _ = m' o
        rw [hm', if_neg heq]
  -- the process that reads the file has an index of its own
  obtain ⟨ix, _, hix⟩ := indexFor_new (w'.withBytes 1 f' m' 0).key
  have hs₁ : (w'.withBytes 1 f' m' 0).records.segments.get? 1 = some seg := hs'
  have hmapping := w'.withBytes_mapping 1 f' m' 0
  have hfirst : readBytes ((w'.withBytes 1 f' m' 0).mapping 1) kWalHeaderSize (recordSize [1] [7]) =
      encodeRecord kWalOpPut [1] [7] := by
    rw [hmapping]
    refine readBytes_first hbytes (fun o ho => ?_)
    show m' o = _
    rw [hm', if_neg (by omega)]
  obtain ⟨haccepted, hrecord⟩ := accepted_of_encode hfirst (by decide) (by decide) (Or.inl rfl)
    (le_refl _) (show kWalHeaderSize + recordSize [1] [7] ≤ seg.used from by
      rw [hused]
      decide) true
  have hknows := knowsRecord_of_accepted hs₁ hok haccepted
  rw [hrecord] at hknows
  obtain ⟨ix', hrun, _⟩ := applyRecord_spec ⟨hix, fun e he => absurd he List.not_mem_nil⟩ hknows
    (by decide)
  obtain ⟨_, _, hcaught⟩ := damaged_record_caught Env.reliable_survives hfresh valid_threeEntries hfill
    (show 1 < 3 by decide) hdamage
    (show ((w'.withBytes 1 f' m' 0).withIndex ix).records.segments.get? 1 = some seg from hs₁)
    hok.fileNo_eq (by rw [World.usedOf, hs']; rfl) (w'.withBytes_walFile? 1 f' m' 0) .reliable
    quiet_applyRecord
  obtain ⟨w₂, hreplay, hend, _⟩ := hcaught _ (Prog.bind_ok hrun) Env.reliable_survives
  exact ⟨w, w', (w'.withBytes 1 f' m' 0).withIndex ix, w₂, _, hopen, hfill, hdamage, hmapping, hreplay,
    hend⟩

end MinweightStore.Store
