import MinweightStore.Minpatricia.Key

/-!
# The record format of the store

Status codes, the layout constants, little-endian numbers, CRC-32 and record positions of
`store.cc`.

* `load32_store32`, `load64_store64` — a stored number is loaded back;
* `store32_load32`, `store64_load64` — bytes are the number they load as;
* `makeRecordPosition_eq` — a position is its file number and its offset, and gives them back.
-/

namespace MinweightStore.Store

open Minpatricia (ByteView Position kMaxKeySize)

/-! ### Statuses -/

/-- `minweight_store::StatusCode` without `kOk`, which is the value case of a result. -/
inductive StatusCode where
  | invalidArgument
  | closed
  | walFull
  | corruptWal
  | corruptManifest
  | corruptSnapshot
  | corruptIndex
  | ioError
  | runtimeError
  | fatal
  deriving DecidableEq, Repr

/-- `Status`.  Messages of file-system errors carry the call only, not its path and `strerror`. -/
structure Status where
  code : StatusCode
  message : String
  deriving DecidableEq, Repr

/-- `Result<T>`: a value, an error status, or no return at all. -/
abbrev Result (α : Type) := Outcome Status α

/-- A returned error status. -/
def err {α : Type} (status : Status) : Result α := .error (.status status)

/-- `IoError`. -/
def ioError (op : String) : Status := ⟨.ioError, op⟩

def corruptWal (message : String) : Status := ⟨.corruptWal, message⟩

def corruptManifest (message : String) : Status := ⟨.corruptManifest, message⟩

def corruptSnapshot (message : String) : Status := ⟨.corruptSnapshot, message⟩

/-- `FromMinpatriciaStatus` on an error. -/
def fromMinpatriciaStatus : Minpatricia.StatusCode → Status
  | .keyTooLarge => ⟨.invalidArgument, "key too large"⟩
  | .positionTag => ⟨.corruptWal, "invalid position tag"⟩
  | _ => ⟨.corruptIndex, "minpatricia index error"⟩

/-! ### Constants -/

def kRecordOffsetBits : ℕ := 30

def kRecordOffsetLimit : ℕ := 1 <<< kRecordOffsetBits

def kRecordFileNoLimit : ℕ := 1 <<< (63 - kRecordOffsetBits)

def kWalHeaderSize : ℕ := 4096

def kWalVersion : UInt32 := 1

def kFirstWalSegmentNo : ℕ := 1

def kFirstWalGeneration : ℕ := 1

def kCheckpointWalSegmentThreshold : ℕ := 4

def kWalHeaderVersionOffset : ℕ := 8

def kWalHeaderUsedOffset : ℕ := 16

def kWalRecordHeaderSize : ℕ := 13

def kWalRecordOpOffset : ℕ := 0

def kWalRecordKeyOffset : ℕ := 1

def kWalRecordValueOffset : ℕ := 5

def kWalRecordCRCOffset : ℕ := 9

def kWalOpPut : UInt8 := 1

def kWalOpDelete : UInt8 := 2

/-- `"MWWAL01\0"`. -/
def kWalHeaderMagic : List UInt8 := [77, 87, 87, 65, 76, 48, 49, 0]

/-- `"MWMAN01\0"`. -/
def kManifestMagic : List UInt8 := [77, 87, 77, 65, 78, 48, 49, 0]

/-- `"MWSNAP1\0"`. -/
def kSnapshotMagic : List UInt8 := [77, 87, 83, 78, 65, 80, 49, 0]

def kManifestVersion : UInt32 := 1

def kSnapshotVersion : UInt32 := 1

/-! ### Little-endian numbers -/

/-- `Load32`. -/
def load32 (p : List UInt8) : UInt32 :=
  (p.getD 0 0).toUInt32 ||| ((p.getD 1 0).toUInt32 <<< 8) ||| ((p.getD 2 0).toUInt32 <<< 16) |||
    ((p.getD 3 0).toUInt32 <<< 24)

/-- `Load64`. -/
def load64 (p : List UInt8) : UInt64 :=
  [7, 6, 5, 4, 3, 2, 1, 0].foldl (fun value i => (value <<< 8) ||| (p.getD i 0).toUInt64) 0

/-- `Store32`: the four bytes written. -/
def store32 (value : UInt32) : List UInt8 :=
  [value.toUInt8, (value >>> 8).toUInt8, (value >>> 16).toUInt8, (value >>> 24).toUInt8]

/-- `Store64`: the eight bytes written. -/
def store64 (value : UInt64) : List UInt8 :=
  ([0, 1, 2, 3, 4, 5, 6, 7] : List UInt64).map fun i => (value >>> (i * 8)).toUInt8

@[simp] theorem length_store32 (value : UInt32) : (store32 value).length = 4 := rfl

@[simp] theorem length_store64 (value : UInt64) : (store64 value).length = 8 := rfl

theorem shift_or_toNat {v : UInt64} {b : UInt8} (h : v.toNat < 2 ^ 56) :
    ((v <<< 8) ||| b.toUInt64).toNat = v.toNat * 256 + b.toNat := by
  have hb : b.toNat < 2 ^ 8 := b.toNat_lt
  have hs : (v <<< 8).toNat = v.toNat <<< 8 := by
    rw [UInt64.toNat_shiftLeft, Nat.shiftLeft_eq, Nat.shiftLeft_eq]
    show v.toNat * 2 ^ 8 % 2 ^ 64 = v.toNat * 2 ^ 8
    omega
  rw [UInt64.toNat_or, hs, UInt8.toNat_toUInt64, ← Nat.shiftLeft_add_eq_or_of_lt hb,
    Nat.shiftLeft_eq]

theorem or_shift_toNat {a : UInt32} {b : UInt8} {k : UInt32} (hk : k.toNat ≤ 24) (ha : a.toNat < 2 ^ k.toNat) :
    (a ||| (b.toUInt32 <<< k)).toNat = a.toNat + b.toNat * 2 ^ k.toNat := by
  have hb : b.toNat < 2 ^ 8 := b.toNat_lt
  have hpow : b.toNat * 2 ^ k.toNat < 2 ^ 32 := by
    calc b.toNat * 2 ^ k.toNat < 2 ^ 8 * 2 ^ k.toNat := Nat.mul_lt_mul_of_pos_right hb (by positivity)
      _ = 2 ^ (8 + k.toNat) := (pow_add 2 8 k.toNat).symm
      _ ≤ 2 ^ 32 := Nat.pow_le_pow_right (by norm_num) (by omega)
  have hs : (b.toUInt32 <<< k).toNat = b.toNat <<< k.toNat := by
    rw [UInt32.toNat_shiftLeft, UInt8.toNat_toUInt32, Nat.mod_eq_of_lt (show k.toNat < 32 by omega),
      Nat.shiftLeft_eq, Nat.mod_eq_of_lt hpow]
  rw [UInt32.toNat_or, hs, Nat.or_comm, ← Nat.shiftLeft_add_eq_or_of_lt ha, Nat.shiftLeft_eq,
    Nat.add_comm]

theorem load32_toNat (p : List UInt8) : (load32 p).toNat = (p.getD 0 0).toNat +
    (p.getD 1 0).toNat * 2 ^ 8 + (p.getD 2 0).toNat * 2 ^ 16 + (p.getD 3 0).toNat * 2 ^ 24 := by
  have h0 := (p.getD 0 0).toNat_lt
  have h1 := (p.getD 1 0).toNat_lt
  have h2 := (p.getD 2 0).toNat_lt
  have e0 : (p.getD 0 0).toUInt32.toNat = (p.getD 0 0).toNat := UInt8.toNat_toUInt32 _
  have e8 : (8 : UInt32).toNat = 8 := rfl
  have e16 : (16 : UInt32).toNat = 16 := rfl
  have e24 : (24 : UInt32).toNat = 24 := rfl
  have e1 : ((p.getD 0 0).toUInt32 ||| ((p.getD 1 0).toUInt32 <<< 8)).toNat = _ :=
    or_shift_toNat (by decide) (by rw [e0, e8]; omega)
  rw [e0, e8] at e1
  have e2 : ((p.getD 0 0).toUInt32 ||| ((p.getD 1 0).toUInt32 <<< 8) |||
      ((p.getD 2 0).toUInt32 <<< 16)).toNat = _ :=
    or_shift_toNat (by decide) (by rw [e1, e16]; omega)
  rw [e1, e16] at e2
  rw [load32, or_shift_toNat (by decide) (by rw [e2, e24]; omega), e2, e24]

theorem load32_store32 (value : UInt32) : load32 (store32 value) = value := by
  have hv := value.toNat_lt
  apply UInt32.toNat_inj.mp
  rw [load32_toNat]
  simp only [store32, List.getD_cons_zero, List.getD_cons_succ, UInt32.toNat_toUInt8,
    UInt32.toNat_shiftRight]
  simp only [UInt32.reduceToNat, Nat.reduceMod, Nat.shiftRight_eq_div_pow]
  omega

/-- Shifting bytes in from the right, as long as nothing falls off. -/
theorem foldl_shift_toNat (p : List UInt8) : ∀ (l : List ℕ) (v : UInt64) (k : ℕ),
    v.toNat < 256 ^ k → k + l.length ≤ 8 →
    (l.foldl (fun (value : UInt64) i => (value <<< 8) ||| (p.getD i 0).toUInt64) v).toNat =
      l.foldl (fun value i => value * 256 + (p.getD i 0).toNat) v.toNat
  | [], _, _, _, _ => rfl
  | i :: l, v, k, hv, hk => by
    have hlen : k + 1 + l.length ≤ 8 := by
      rw [List.length_cons] at hk
      omega
    have hle : (256 : ℕ) ^ k ≤ 256 ^ 7 := Nat.pow_le_pow_right (by norm_num) (by omega)
    have hstep := shift_or_toNat (v := v) (b := p.getD i 0) (by omega)
    have hb := (p.getD i 0).toNat_lt
    rw [List.foldl_cons, List.foldl_cons, ← hstep]
    refine foldl_shift_toNat p l _ (k + 1) ?_ hlen
    rw [hstep, pow_succ]
    omega

theorem load64_store64 (value : UInt64) : load64 (store64 value) = value := by
  have hv := value.toNat_lt
  apply UInt64.toNat_inj.mp
  rw [load64, foldl_shift_toNat _ _ 0 0 (by decide) (by decide)]
  simp only [store64, List.foldl, List.map, List.getD_cons_zero, List.getD_cons_succ,
    UInt64.toNat_toUInt8, UInt64.toNat_shiftRight]
  simp only [UInt64.reduceMul, UInt64.reduceToNat, Nat.reduceMod, Nat.shiftRight_eq_div_pow]
  omega

theorem load32_store32_append (value : UInt32) (l : List UInt8) :
    load32 (store32 value ++ l) = value := load32_store32 value

theorem load64_store64_append (value : UInt64) (l : List UInt8) :
    load64 (store64 value ++ l) = value := load64_store64 value

theorem load32_take (p : List UInt8) : load32 (p.take 4) = load32 p := by
  rw [load32, load32]
  simp only [List.getD_eq_getElem?_getD, List.getElem?_take, Nat.ofNat_pos, reduceIte,
    Nat.one_lt_ofNat, Nat.reduceLT]

theorem load64_take (p : List UInt8) : load64 (p.take 8) = load64 p := by
  rw [load64, load64]
  simp only [List.foldl_cons, List.foldl_nil, List.getD_eq_getElem?_getD, List.getElem?_take,
    Nat.ofNat_pos, reduceIte, Nat.one_lt_ofNat, Nat.reduceLT]

/-- Four bytes are their number. -/
theorem store32_load32 {p : List UInt8} (h : p.length = 4) : store32 (load32 p) = p := by
  obtain ⟨a, b, c, d, rfl⟩ : ∃ a b c d, p = [a, b, c, d] := by
    match p, h with
    | [a, b, c, d], _ => exact ⟨a, b, c, d, rfl⟩
  have hv := load32_toNat [a, b, c, d]
  simp only [List.getD_cons_zero, List.getD_cons_succ] at hv
  have ha := a.toNat_lt
  have hb := b.toNat_lt
  have hc := c.toNat_lt
  have hd := d.toNat_lt
  rw [store32]
  congr 1
  · apply UInt8.toNat_inj.mp
    rw [UInt32.toNat_toUInt8]
    omega
  congr 1
  · apply UInt8.toNat_inj.mp
    rw [UInt32.toNat_toUInt8, UInt32.toNat_shiftRight]
    simp only [UInt32.reduceToNat, Nat.reduceMod, Nat.shiftRight_eq_div_pow]
    omega
  congr 1
  · apply UInt8.toNat_inj.mp
    rw [UInt32.toNat_toUInt8, UInt32.toNat_shiftRight]
    simp only [UInt32.reduceToNat, Nat.reduceMod, Nat.shiftRight_eq_div_pow]
    omega
  congr 1
  · apply UInt8.toNat_inj.mp
    rw [UInt32.toNat_toUInt8, UInt32.toNat_shiftRight]
    simp only [UInt32.reduceToNat, Nat.reduceMod, Nat.shiftRight_eq_div_pow]
    omega

/-- Eight bytes are their number. -/
theorem store64_load64 {p : List UInt8} (h : p.length = 8) : store64 (load64 p) = p := by
  have hv := foldl_shift_toNat p [7, 6, 5, 4, 3, 2, 1, 0] 0 0 (by decide) (by decide)
  rw [← load64] at hv
  refine List.ext_getElem (by simp [h]) (fun i hi hi' => ?_)
  have hb : ∀ j, (p.getD j 0).toNat < 256 := fun j => (p.getD j 0).toNat_lt
  have h0 := hb 0
  have h1 := hb 1
  have h2 := hb 2
  have h3 := hb 3
  have h4 := hb 4
  have h5 := hb 5
  have h6 := hb 6
  have h7 := hb 7
  simp only [List.foldl_cons, List.foldl_nil, UInt64.toNat_zero] at hv
  rw [← List.getD_eq_getElem _ 0 hi']
  rw [h] at hi'
  apply UInt8.toNat_inj.mp
  interval_cases i <;>
    simp only [store64, List.getElem_map, List.getElem_cons_zero, List.getElem_cons_succ,
      UInt64.toNat_toUInt8, UInt64.toNat_shiftRight] <;>
    simp only [UInt64.reduceMul, UInt64.reduceToNat, Nat.reduceMod, Nat.shiftRight_eq_div_pow] <;>
    omega

/-! ### CRC-32 -/

/-- An entry of `MakeCRC32Table`. -/
def crc32Entry (i : UInt32) : UInt32 :=
  (List.range 8).foldl
    (fun crc _ => if crc &&& 1 ≠ 0 then (crc >>> 1) ^^^ 0xedb88320 else crc >>> 1) i

/-- `CRC32Update`. -/
def crc32Update (crc : UInt32) (data : List UInt8) : UInt32 :=
  ~~~ data.foldl (fun crc p => crc32Entry ((crc ^^^ p.toUInt32) &&& 0xff) ^^^ (crc >>> 8)) (~~~ crc)

/-- `WalRecordCRC`: everything but the CRC field. -/
def walRecordCRC (record : List UInt8) : UInt32 :=
  crc32Update
    (crc32Update 0 ((record.drop kWalRecordOpOffset).take (kWalRecordCRCOffset - kWalRecordOpOffset)))
    (record.drop kWalRecordHeaderSize)

/-- `BytesCRC`. -/
def bytesCRC (value : List UInt8) : UInt32 := crc32Update 0 value

/-! ### Record positions -/

/-- `MakeRecordPosition`. -/
def makeRecordPosition (fileNo offset : ℕ) : Result Position :=
  if fileNo = 0 ∨ kRecordFileNoLimit ≤ fileNo ∨ kRecordOffsetLimit ≤ offset then
    err (corruptWal "record position out of range")
  else
    let pos := UInt64.ofNat ((fileNo <<< kRecordOffsetBits) ||| offset)
    if pos &&& Minpatricia.kChildTag ≠ 0 then
      err (corruptWal "record position overlaps child tag")
    else .ok pos

/-- `RecordPositionFileNo`. -/
def recordPositionFileNo (pos : Position) : ℕ := pos.toNat >>> kRecordOffsetBits

/-- `RecordPositionOffset`. -/
def recordPositionOffset (pos : Position) : ℕ := pos.toNat &&& (kRecordOffsetLimit - 1)

/-- The position of a record, as a number. -/
def recordPosition (fileNo offset : ℕ) : Position := UInt64.ofNat (fileNo * 2 ^ 30 + offset)

section Position

variable {fileNo offset : ℕ} (hf : fileNo < 2 ^ 33) (ho : offset < 2 ^ 30)

include hf ho

theorem recordPosition_toNat : (recordPosition fileNo offset).toNat = fileNo * 2 ^ 30 + offset := by
  rw [recordPosition, UInt64.toNat_ofNat']
  omega

theorem recordPosition_lt : (recordPosition fileNo offset).toNat < 2 ^ 63 := by
  rw [recordPosition_toNat hf ho]
  omega

theorem recordPositionFileNo_eq : recordPositionFileNo (recordPosition fileNo offset) = fileNo := by
  rw [recordPositionFileNo, recordPosition_toNat hf ho, kRecordOffsetBits, Nat.shiftRight_eq_div_pow]
  omega

theorem recordPositionOffset_eq :
    recordPositionOffset (recordPosition fileNo offset) = offset := by
  rw [recordPositionOffset, recordPosition_toNat hf ho, kRecordOffsetLimit, kRecordOffsetBits,
    Nat.one_shiftLeft, Nat.and_two_pow_sub_one_eq_mod]
  omega

/-- **A position is its file number and its offset.** -/
theorem makeRecordPosition_eq (hpos : 0 < fileNo) :
    makeRecordPosition fileNo offset = .ok (recordPosition fileNo offset) := by
  have hnat : (fileNo <<< kRecordOffsetBits) ||| offset = fileNo * 2 ^ 30 + offset := by
    rw [kRecordOffsetBits, ← Nat.shiftLeft_add_eq_or_of_lt ho, Nat.shiftLeft_eq]
  have htag : recordPosition fileNo offset &&& Minpatricia.kChildTag = 0 := by
    apply UInt64.toNat_inj.mp
    have hk : Minpatricia.kChildTag.toNat = 2 ^ 63 := rfl
    rw [UInt64.toNat_and, hk, Nat.and_two_pow]
    rw [Nat.testBit_lt_two_pow (recordPosition_lt hf ho)]
    rfl
  have hfile : ¬kRecordFileNoLimit ≤ fileNo := by
    have : kRecordFileNoLimit = 2 ^ 33 := rfl
    omega
  have hoff : ¬kRecordOffsetLimit ≤ offset := by
    have : kRecordOffsetLimit = 2 ^ 30 := rfl
    omega
  rw [makeRecordPosition, if_neg (by omega), hnat]
  show (if recordPosition fileNo offset &&& Minpatricia.kChildTag ≠ 0 then _ else _) = _
  rw [if_neg (not_not.mpr htag)]
  rfl

end Position

end MinweightStore.Store
