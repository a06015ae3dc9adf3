import MinweightStore.Base.ValidPrefix
import MinweightStore.Store.IndexMap

/-!
# The records of the segments

What recovery reads: the records of a segment up to its used offset or the first invalid one, and
those of all segments in the order of their file numbers.

* `scanSegment`, `segmentPiece` — one segment image as a piece of a log;
* `scanSegment_congr`, `scanSegment_truncate`, `scanSegment_append` — images with the same scan,
  after a truncation, and after an append;
* `World.pieces`, `World.recovered` — the segments of a record store and their valid prefix;
* `key_of_accepted` — the record store answers for every put record of a segment.
-/

namespace MinweightStore.Store

open Minpatricia (ByteView Position kMaxKeySize)
open ValidPrefix

/-! ### One image -/

/-- The decoder of a segment image. -/
def readAt (m : Mapping) (used offset : ℕ) : Option (WalRecord × ℕ) :=
  match recordAtOffset m used offset true with
  | .ok r => some (r, r.endOffset)
  | .error _ => none

/-- The records of an image with their offsets, and where the scan stopped. -/
def scanSegment (m : Mapping) (used : ℕ) : List (ℕ × WalRecord) × ℕ :=
  scanFrom (readAt m used) used (used + 1) kWalHeaderSize

section Image

variable {m m' : Mapping} {used offset : ℕ}

theorem readAt_eq_some {r : WalRecord} {next : ℕ} : readAt m used offset = some (r, next) ↔
    AcceptedAt m used offset true ∧ r = recordOf m offset ∧ next = offset + sizeAt m offset := by
  rcases recordAtOffset_cases m used offset true with ⟨ha, hr⟩ | ⟨hna, message, hr⟩
  · rw [readAt, hr]
    simp only [Option.some.injEq, Prod.mk.injEq]
    constructor
    · rintro ⟨rfl, rfl⟩
      exact ⟨ha, rfl, rfl⟩
    · rintro ⟨_, rfl, rfl⟩
      exact ⟨rfl, rfl⟩
  · rw [readAt, hr]
    exact ⟨fun h => absurd h (by simp [err]), fun h => absurd h.1 hna⟩

theorem readAt_eq_none : readAt m used offset = none ↔ ¬AcceptedAt m used offset true := by
  rcases recordAtOffset_cases m used offset true with ⟨ha, hr⟩ | ⟨hna, message, hr⟩
  · rw [readAt, hr]
    exact ⟨fun h => absurd h (by simp), fun h => absurd ha h⟩
  · rw [readAt, hr]
    exact ⟨fun _ => hna, fun _ => rfl⟩

/-- Every record takes at least its header, and ends within the used part. -/
theorem readAt_advances (m : Mapping) (used : ℕ) : Advances (readAt m used) used 13 := by
  intro offset r next h
  obtain ⟨ha, _, rfl⟩ := readAt_eq_some.mp h
  refine ⟨?_, ha.inside⟩
  rw [sizeAt, kWalRecordHeaderSize]
  omega

theorem scanSegment_stop (h : kWalHeaderSize ≤ used) :
    kWalHeaderSize ≤ (scanSegment m used).2 ∧ (scanSegment m used).2 ≤ used :=
  scanFrom_stop (readAt_advances m used) _ _ h

theorem scanSegment_length (h : kWalHeaderSize ≤ used) :
    (scanSegment m used).1.length * 13 ≤ used := by
  have h1 := scanFrom_length (readAt_advances m used) (used + 1) kWalHeaderSize h
  have h2 := (scanSegment_stop (m := m) h).2
  rw [scanSegment] at h2 ⊢
  omega

/-- What a scan finds is accepted. -/
theorem scan_accepted : ∀ (fuel offset : ℕ), ∀ x ∈ (scanFrom (readAt m used) used fuel offset).1,
    AcceptedAt m used x.1 true ∧ x.2 = recordOf m x.1
  | 0, _, _, hx => absurd hx List.not_mem_nil
  | fuel + 1, offset, x, hx => by
    by_cases hlt : offset < used
    · cases hr : readAt m used offset with
      | none =>
        rw [scanFrom_none hr] at hx
        exact absurd hx List.not_mem_nil
      | some y =>
        obtain ⟨r, next⟩ := y
        obtain ⟨ha, hrec, _⟩ := readAt_eq_some.mp hr
        rw [scanFrom_some hlt hr] at hx
        rcases List.mem_cons.mp hx with rfl | hx
        · exact ⟨ha, hrec⟩
        · exact scan_accepted fuel next x hx
    · rw [scanFrom_end (Nat.not_lt.mp hlt)] at hx
      exact absurd hx List.not_mem_nil

/-- **A scan reads only the bytes between the header and the used offset.** -/
theorem scanSegment_congr (h : AgreeBelow m m' used) : scanSegment m used = scanSegment m' used := by
  refine scanFrom_congr (fun offset _ => ?_) _ _
  rw [readAt, readAt, recordAtOffset_congr h]

/-- **A segment truncated where its scan stopped** has the same records, and is complete. -/
theorem scanSegment_truncate (hused : kWalHeaderSize ≤ used)
    (h : AgreeBelow m m' (scanSegment m used).2) :
    scanSegment m' (scanSegment m used).2 = scanSegment m used := by
  obtain ⟨hlo, hhi⟩ := scanSegment_stop (m := m) hused
  have hread : ∀ o r next, readAt m used o = some (r, next) → next ≤ (scanSegment m used).2 →
      readAt m' (scanSegment m used).2 o = some (r, next) := by
    intro o r next ho hle
    obtain ⟨ha, rfl, rfl⟩ := readAt_eq_some.mp ho
    have ha' : AcceptedAt m (scanSegment m used).2 o true :=
      ⟨ha.header, ha.op, ha.noValue, ha.keySize, hle, ha.crc⟩
    obtain ⟨hacc, hrec⟩ := ha'.congr h
    have hend := congrArg WalRecord.endOffset hrec
    exact readAt_eq_some.mpr ⟨hacc, hrec, hend⟩
  have hsame := scanFrom_truncate (readAt_advances m used) (by omega) (used + 1) kWalHeaderSize hused hread
  have hfuel := scanFrom_fuel (readAt_advances m' (scanSegment m used).2) (by omega)
    ((scanSegment m used).2 + 1) (used + 1) kWalHeaderSize (by omega) (by omega)
  exact hfuel.trans hsame

/-- **A segment with a record appended**: the bytes before it are as they were, the new ones decode
to it. -/
theorem scanSegment_append {used' : ℕ} {r : WalRecord} (hused : kWalHeaderSize ≤ used)
    (h : AgreeBelow m m' used) (hnew : AcceptedAt m' used' used true) (hr : recordOf m' used = r)
    (hend : used' = r.endOffset) (hcomplete : (scanSegment m used).2 = used) :
    scanSegment m' used' = ((scanSegment m used).1 ++ [(used, r)], used') := by
  have hsize : used' = used + sizeAt m' used := by rw [hend, ← hr]; rfl
  have hlt : used + 13 ≤ used' := by
    rw [hsize, sizeAt, kWalRecordHeaderSize]
    omega
  have hold : ∀ o x, readAt m used o = some x → readAt m' used' o = some x := by
    rintro o ⟨r', next⟩ ho
    obtain ⟨ha, rfl, rfl⟩ := readAt_eq_some.mp ho
    obtain ⟨hacc, hrec⟩ := ha.congr h
    refine readAt_eq_some.mpr ⟨⟨hacc.header, hacc.op, hacc.noValue, hacc.keySize,
      le_trans hacc.inside (by omega), hacc.crc⟩, hrec, congrArg WalRecord.endOffset hrec⟩
  have hfuel : scanFrom (readAt m used) used used' kWalHeaderSize = scanSegment m used :=
    scanFrom_fuel (readAt_advances m used) (by omega) _ _ _ (by omega) (by omega)
  have happ := scanFrom_append (readAt_advances m used) (by omega) (by omega : used < used')
    (readAt_eq_some.mpr ⟨hnew, hr.symm, hsize⟩) hold used' kWalHeaderSize hused (by omega)
    (by rw [hfuel, hcomplete])
  rwa [hfuel] at happ

/-- An image without records. -/
theorem scanSegment_empty : scanSegment m kWalHeaderSize = ([], kWalHeaderSize) :=
  scanFrom_end (le_refl _)

end Image

/-! ### All segments -/

/-- A segment image as a piece of a log. -/
def segmentPiece (fileNo : ℕ) (m : Mapping) (used : ℕ) : Piece ℕ (ℕ × WalRecord) :=
  ⟨fileNo, (scanSegment m used).1, (scanSegment m used).2 = used⟩

/-- A logged record: its file number, its offset and itself. -/
abbrev Logged := ℕ × ℕ × WalRecord

/-- The position of a logged record. -/
def Logged.pos (x : Logged) : Position := recordPosition x.1 x.2.1

/-- The map of positions after a logged record. -/
def applyPosition (m : SortedMap ByteView Position) (x : Logged) : SortedMap ByteView Position :=
  applyOp x.2.2.op x.2.2.key x.pos m

/-- The map of values after a logged record. -/
def applyValue (m : SortedMap ByteView ByteView) (x : Logged) : SortedMap ByteView ByteView :=
  applyOp x.2.2.op x.2.2.key x.2.2.value m

namespace World

/-- The used offset of a segment. -/
def usedOf (w : World) (fileNo : ℕ) : ℕ :=
  ((w.records.segments.get? fileNo).map WalSegment.used).getD 0

/-- A segment as a piece. -/
def piece (w : World) (fileNo : ℕ) : Piece ℕ (ℕ × WalRecord) :=
  segmentPiece fileNo (w.mapping fileNo) (w.usedOf fileNo)

/-- The segments of the record store as pieces, by ascending file number. -/
def pieces (w : World) : List (Piece ℕ (ℕ × WalRecord)) := w.segmentIDs.map w.piece

/-- The records a recovery replays. -/
def recovered (w : World) : List Logged := recover w.pieces

theorem piece_eq {w : World} {fileNo : ℕ} {seg : WalSegment}
    (hs : w.records.segments.get? fileNo = some seg) :
    w.piece fileNo = segmentPiece fileNo (w.mapping fileNo) seg.used := by
  rw [piece, usedOf, hs]
  rfl

theorem mem_segmentIDs {w : World} {fileNo : ℕ} :
    fileNo ∈ w.segmentIDs ↔ ∃ seg, w.records.segments.get? fileNo = some seg := by
  rw [segmentIDs, List.mem_map]
  constructor
  · rintro ⟨e, he, rfl⟩
    exact ⟨e.2, (SortedMap.mem_entries_iff _ _ _).mp he⟩
  · rintro ⟨seg, hs⟩
    exact ⟨(fileNo, seg), (SortedMap.mem_entries_iff _ _ _).mpr hs, rfl⟩

end World

/-- Segments as `WalSegment::Open` leaves them. -/
structure SegmentOk (fileNo : ℕ) (seg : WalSegment) : Prop where
  fileNo_eq : seg.fileNo = fileNo
  pos : 0 < fileNo
  fileNo_lt : fileNo < 2 ^ 33
  header : kWalHeaderSize ≤ seg.used
  used_le : seg.used ≤ seg.size
  size_le : seg.size ≤ 2 ^ 30

/-- All segments of a world are as `WalSegment::Open` leaves them. -/
def SegmentsOk (w : World) : Prop :=
  ∀ fileNo seg, w.records.segments.get? fileNo = some seg → SegmentOk fileNo seg

section Key

variable {w : World} {fileNo offset : ℕ} {seg : WalSegment}

theorem SegmentOk.position_lt (h : SegmentOk fileNo seg) {verifyCRC : Bool}
    (ha : AcceptedAt (w.mapping fileNo) seg.used offset verifyCRC) : offset < 2 ^ 30 := by
  have h1 := ha.inside
  have h2 := h.used_le
  have h3 := h.size_le
  rw [sizeAt, kWalRecordHeaderSize] at h1
  omega

theorem not_isSnapshotPosition {fileNo offset : ℕ} (hpos : 0 < fileNo) (hf : fileNo < 2 ^ 33)
    (ho : offset < 2 ^ 30) : isSnapshotPosition (recordPosition fileNo offset) = false := by
  have hk : kRecordOffsetLimit = 2 ^ 30 := rfl
  rw [isSnapshotPosition, recordPosition_toNat hf ho, hk, Bool.and_eq_false_iff]
  right
  simp only [decide_eq_false_iff_not, Nat.not_lt]
  omega

/-- The record store at the position of an accepted record. -/
theorem recordAt_of_accepted (h : SegmentOk fileNo seg) {m : Mapping} {verifyCRC : Bool}
    (ho : offset < 2 ^ 30) (ha : AcceptedAt m seg.used offset verifyCRC) :
    seg.recordAt m (recordPosition fileNo offset) false = .ok (recordOf m offset) := by
  rw [WalSegment.recordAt, recordPositionFileNo_eq h.fileNo_lt ho, h.fileNo_eq,
    recordPositionOffset_eq h.fileNo_lt ho, if_neg (not_not.mpr rfl)]
  exact recordAtOffset_ok_iff.mpr ⟨ha.weaken (le_refl _), rfl⟩

/-- The record store at the position of a put record of a segment. -/
theorem key_of_recordAt {pos : Position} {r : WalRecord} (hsnap : isSnapshotPosition pos = false)
    (hs : w.records.segments.get? (recordPositionFileNo pos) = some seg)
    (hrec : seg.recordAt (w.mapping seg.fileNo) pos false = .ok r) (hop : r.op = kWalOpPut) :
    w.key pos = .ok r.key ∧ w.valueView pos = .ok r.value := by
  have hop' : ¬ r.op ≠ kWalOpPut := not_not.mpr hop
  refine ⟨?_, ?_⟩
  · rw [World.key, hsnap, hs]
    simp only [Bool.false_eq_true, if_false, hrec, if_neg hop']
  · rw [World.valueView, hsnap, hs]
    simp only [Bool.false_eq_true, if_false, hrec, bind, Except.bind, if_neg hop']

/-- **The record store answers for every accepted put record.** -/
theorem key_of_accepted (hs : w.records.segments.get? fileNo = some seg) (h : SegmentOk fileNo seg)
    {verifyCRC : Bool} (ha : AcceptedAt (w.mapping fileNo) seg.used offset verifyCRC)
    {r : WalRecord} (hr : r = recordOf (w.mapping fileNo) offset) (hop : r.op = kWalOpPut) :
    w.key (recordPosition fileNo offset) = .ok r.key ∧
      w.valueView (recordPosition fileNo offset) = .ok r.value := by
  have ho := h.position_lt ha
  have hno := recordPositionFileNo_eq h.fileNo_lt ho
  refine key_of_recordAt (not_isSnapshotPosition h.pos h.fileNo_lt ho) (hno.symm ▸ hs) ?_ hop
  rw [h.fileNo_eq, hr]
  exact recordAt_of_accepted h ho ha

end Key

end MinweightStore.Store
