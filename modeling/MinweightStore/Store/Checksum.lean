import MinweightStore.Base.ShiftRegister
import MinweightStore.Store.Record

/-!
# What the checksum sees

`CRC32Update` runs a feedback shift register of 32 bits from a table.  Two byte strings that differ
in at most four consecutive bytes never have the same checksum, whatever surrounds them.

* `crc32Update_toBitVec` — the table-driven loop is the register;
* `crc32Update_eq_serial` — and the register is the bit-serial CRC-32;
* `crc32_standard` — **the standard checksum**, from any start and in any parts;
* `crc32Update_ne` — **a burst of at most four bytes changes it**.
-/

namespace MinweightStore.Store

open Minpatricia (ByteView)
open ShiftRegister

/-! ### The register -/

/-- The feedback word. -/
def crc32Poly : BitVec 32 := 0xedb88320#32

theorem msb_crc32Poly : crc32Poly.msb = true := by decide

/-- A byte as a symbol of the register. -/
def symbol (p : UInt8) : BitVec 32 := p.toBitVec.setWidth 32

theorem isSymbol_symbol (p : UInt8) : IsSymbol 8 (symbol p) := by
  rw [IsSymbol, symbol, BitVec.toNat_setWidth]
  exact lt_of_le_of_lt (Nat.mod_le _ _) p.toBitVec.isLt

theorem symbol_injective : Function.Injective symbol := by
  intro p q h
  apply UInt8.toBitVec_inj.mp
  have hback : ∀ x : UInt8, (symbol x).setWidth 8 = x.toBitVec := fun x => by
    rw [symbol, BitVec.setWidth_setWidth_of_le _ (by decide), BitVec.setWidth_eq]
  rw [← hback p, h, hback q]

theorem and_one_ne_zero (crc : UInt32) : crc &&& 1 ≠ 0 ↔ crc.toBitVec.getLsbD 0 = true := by
  have h : (crc &&& 1).toBitVec = (BitVec.ofBool (crc.toBitVec.getLsbD 0)).setWidth 32 := by
    rw [UInt32.toBitVec_and]
    exact BitVec.and_one_eq_setWidth_ofBool_getLsbD
  cases hb : crc.toBitVec.getLsbD 0 with
  | false =>
    rw [hb] at h
    have hz : crc &&& 1 = 0 := UInt32.toBitVec_inj.mp (by rw [h]; decide)
    simp [hz]
  | true =>
    rw [hb] at h
    refine ⟨fun _ => rfl, fun _ hz => ?_⟩
    rw [hz] at h
    exact absurd h (by decide)

/-- One turn of the inner loop of `MakeCRC32Table`. -/
theorem turn_toBitVec (crc : UInt32) :
    (if crc &&& 1 ≠ 0 then (crc >>> 1) ^^^ 0xedb88320 else crc >>> 1).toBitVec =
      shift crc32Poly crc.toBitVec := by
  by_cases h : crc &&& 1 ≠ 0
  · rw [if_pos h, shift, if_pos ((and_one_ne_zero crc).mp h)]
    rfl
  · rw [if_neg h, shift, if_neg (fun hb => h ((and_one_ne_zero crc).mpr hb))]
    rfl

theorem crc32Entry_toBitVec (i : UInt32) :
    (crc32Entry i).toBitVec = (shift crc32Poly)^[8] i.toBitVec := by
  have h : ∀ (n : ℕ) (i : UInt32), ((List.range n).foldl (fun (crc : UInt32) _ =>
      if crc &&& 1 ≠ 0 then (crc >>> 1) ^^^ 0xedb88320 else crc >>> 1) i).toBitVec =
      (shift crc32Poly)^[n] i.toBitVec := by
    intro n i
    induction n with
    | zero => rfl
    | succ n ih =>
      rw [List.range_succ, List.foldl_append, List.foldl_cons, List.foldl_nil, turn_toBitVec, ih,
        Function.iterate_succ_apply']
  exact h 8 i

/-- The low byte turns out through the table, the others move down. -/
theorem turns_eight (c : BitVec 32) :
    (shift crc32Poly)^[8] c = (shift crc32Poly)^[8] (c &&& 0xff#32) ^^^ (c >>> 8) := by
  have hmask : ∀ i : ℕ, (0xff#32).getLsbD i = decide (i < 8) := by
    intro i
    rw [BitVec.getLsbD_ofNat, show (255 : ℕ) = 2 ^ 8 - 1 from rfl, Nat.testBit_two_pow_sub_one]
    by_cases hi : i < 8
    · simp [hi]; omega
    · simp [hi]
  have hsplit : c = (c &&& 0xff#32) ^^^ (c &&& ~~~0xff#32) := by
    apply BitVec.eq_of_getLsbD_eq
    intro i hi
    simp only [BitVec.getLsbD_xor, BitVec.getLsbD_and, BitVec.getLsbD_not, hmask, hi]
    by_cases h8 : i < 8 <;> simp [h8]
  have hlow : ∀ i < 8, (c &&& ~~~0xff#32).getLsbD i = false := by
    intro i hi
    simp only [BitVec.getLsbD_and, BitVec.getLsbD_not, hmask]
    simp [hi]
  have hhigh : (c &&& ~~~0xff#32) >>> 8 = c >>> 8 := by
    apply BitVec.eq_of_getLsbD_eq
    intro i _
    simp only [BitVec.getLsbD_ushiftRight, BitVec.getLsbD_and, BitVec.getLsbD_not, hmask]
    by_cases h : 8 + i < 32
    · simp [h]
    · simp [BitVec.getLsbD_of_ge c (8 + i) (by omega)]
  conv_lhs => rw [hsplit]
  rw [turns_xor, turns_eq_shiftRight crc32Poly 8 _ hlow, hhigh]

/-- One turn of the loop of `CRC32Update`. -/
theorem step_toBitVec (crc : UInt32) (p : UInt8) :
    (crc32Entry ((crc ^^^ p.toUInt32) &&& 0xff) ^^^ (crc >>> 8)).toBitVec =
      absorb crc32Poly 8 crc.toBitVec (symbol p) := by
  have hp : p.toUInt32.toBitVec = symbol p := rfl
  have hzero : symbol p >>> 8 = 0#32 := by
    apply BitVec.eq_of_getLsbD_eq
    intro i _
    rw [BitVec.getLsbD_ushiftRight, (isSymbol_symbol p).high (Nat.le_add_right 8 i),
      BitVec.getLsbD_zero]
  have hshift : (crc.toBitVec ^^^ symbol p) >>> 8 = crc.toBitVec >>> 8 := by
    rw [BitVec.ushiftRight_xor_distrib, hzero, BitVec.xor_zero]
  rw [UInt32.toBitVec_xor, crc32Entry_toBitVec, UInt32.toBitVec_and, UInt32.toBitVec_xor, hp, absorb,
    turns_eight (crc.toBitVec ^^^ symbol p), hshift]
  rfl

/-- **The table-driven loop is the register.** -/
theorem crc32Update_toBitVec (crc : UInt32) (data : List UInt8) :
    (crc32Update crc data).toBitVec =
      ~~~ (data.map symbol).foldl (absorb crc32Poly 8) (~~~ crc.toBitVec) := by
  have h : ∀ (data : List UInt8) (crc : UInt32), (data.foldl (fun (crc : UInt32) p =>
      crc32Entry ((crc ^^^ p.toUInt32) &&& 0xff) ^^^ (crc >>> 8)) crc).toBitVec =
      (data.map symbol).foldl (absorb crc32Poly 8) crc.toBitVec := by
    intro data
    induction data with
    | nil => exact fun _ => rfl
    | cons p data ih =>
      intro crc
      rw [List.foldl_cons, ih, step_toBitVec, List.map_cons, List.foldl_cons]
  rw [crc32Update, UInt32.toBitVec_not, h, UInt32.toBitVec_not]

/-! ### The table -/

/-- `MakeCRC32Table`. -/
def makeCRC32Table : Vector UInt32 256 := Vector.ofFn fun i => crc32Entry (UInt32.ofNat i.val)

/-- `CRC32Update`, with the reads of its table. -/
def crc32UpdateByTable (crc : UInt32) (data : List UInt8) : UInt32 :=
  ~~~ data.foldl (fun crc p =>
    makeCRC32Table[((crc ^^^ p.toUInt32) &&& 0xff).toNat]?.getD 0 ^^^ (crc >>> 8)) (~~~ crc)

theorem makeCRC32Table_get (c : UInt32) :
    makeCRC32Table[(c &&& 0xff).toNat]?.getD 0 = crc32Entry (c &&& 0xff) := by
  have hlt : (c &&& 0xff).toNat < 256 := by
    rw [UInt32.toNat_and]
    exact Nat.lt_succ_of_le Nat.and_le_right
  rw [Vector.getElem?_eq_getElem hlt, Option.getD_some, makeCRC32Table, Vector.getElem_ofFn,
    UInt32.ofNat_toNat]

/-- **The entries of the table** are the ones the loop uses. -/
theorem crc32UpdateByTable_eq : crc32UpdateByTable = crc32Update := by
  funext crc data
  simp only [crc32UpdateByTable, crc32Update, makeCRC32Table_get]

/-! ### Bit by bit -/

/-- The bits of a byte string, the lowest bit of a byte first. -/
def serialBits (data : List UInt8) : List Bool :=
  data.flatMap fun p => (List.range 8).map fun i => p.toBitVec.getLsbD i

/-- **One bit of the reflected IEEE CRC-32**: the bit is added to the low end of the register, which
then moves down. -/
def serialStep (crc : BitVec 32) (b : Bool) : BitVec 32 :=
  if (crc.getLsbD 0 ^^ b) then (crc >>> 1) ^^^ 0xedb88320#32 else crc >>> 1

/-- **The bit-serial checksum** of a byte string behind one with checksum `crc`, inverted before and
after. -/
def serialCRC32 (crc : BitVec 32) (data : List UInt8) : BitVec 32 :=
  ~~~ (serialBits data).foldl serialStep (~~~ crc)

/-- A bit at the low end goes with the first turn. -/
theorem serialStep_eq (crc : BitVec 32) (b : Bool) :
    serialStep crc b = absorb crc32Poly 1 crc (ofBit b) := by
  have hdown : (ofBit b : BitVec 32) >>> 1 = 0#32 := by
    cases b <;> decide
  have hlow : (crc ^^^ ofBit b).getLsbD 0 = (crc.getLsbD 0 ^^ b) := by
    rw [BitVec.getLsbD_xor, getLsbD_ofBit]
    simp
  rw [absorb, Function.iterate_one, shift, hlow, BitVec.ushiftRight_xor_distrib, hdown,
    BitVec.xor_zero, serialStep, crc32Poly]

/-- **Eight bits are one byte.** -/
theorem foldl_serialStep_byte (crc : BitVec 32) (p : UInt8) :
    ((List.range 8).map fun i => p.toBitVec.getLsbD i).foldl serialStep crc =
      absorb crc32Poly 8 crc (symbol p) := by
  have hbits : ((List.range 8).map fun i => p.toBitVec.getLsbD i) = bitsOf 8 (symbol p) := by
    apply List.map_congr_left
    intro i hi
    have hlt := List.mem_range.mp hi
    rw [symbol, BitVec.getLsbD_setWidth, decide_eq_true (by omega), Bool.true_and]
  have hstep : serialStep = fun crc b => absorb crc32Poly 1 crc (ofBit b) := by
    funext crc b
    exact serialStep_eq crc b
  rw [hbits, ← foldl_absorb_bitsOf crc32Poly (isSymbol_symbol p) (by decide) crc, List.foldl_map,
    hstep]

/-- **The register runs through the bits.** -/
theorem foldl_serialStep (data : List UInt8) (crc : BitVec 32) :
    (serialBits data).foldl serialStep crc = (data.map symbol).foldl (absorb crc32Poly 8) crc := by
  induction data generalizing crc with
  | nil => rfl
  | cons p data ih =>
    have hcons : serialBits (p :: data) =
        ((List.range 8).map fun i => p.toBitVec.getLsbD i) ++ serialBits data := rfl
    rw [hcons, List.foldl_append, foldl_serialStep_byte, ih, List.map_cons, List.foldl_cons]

/-- **The table-driven checksum is the bit-serial one.** -/
theorem crc32Update_eq_serial (crc : UInt32) (data : List UInt8) :
    (crc32Update crc data).toBitVec = serialCRC32 crc.toBitVec data := by
  rw [crc32Update_toBitVec, serialCRC32, foldl_serialStep]

/-! ### Checksums -/

/-- A checksum taken in parts. -/
theorem crc32Update_append (crc : UInt32) (a b : List UInt8) :
    crc32Update (crc32Update crc a) b = crc32Update crc (a ++ b) := by
  apply UInt32.toBitVec_inj.mp
  rw [crc32Update_toBitVec, crc32Update_toBitVec, crc32Update_toBitVec, BitVec.not_not,
    List.map_append, List.foldl_append]

/-- A checksum taken in any number of parts. -/
theorem crc32Update_flatten (crc : UInt32) (pieces : List (List UInt8)) :
    pieces.foldl crc32Update crc = crc32Update crc pieces.flatten := by
  induction pieces generalizing crc with
  | nil =>
    have hnil : crc32Update crc [] = crc := by
      apply UInt32.toBitVec_inj.mp
      rw [crc32Update_toBitVec, List.map_nil, List.foldl_nil, BitVec.not_not]
    rw [List.foldl_nil, List.flatten_nil, hnil]
  | cons a pieces ih => rw [List.foldl_cons, ih, List.flatten_cons, crc32Update_append]

/-- A record with its CRC field cut out. -/
def cutCRC (record : List UInt8) : List UInt8 :=
  record.take kWalRecordCRCOffset ++ record.drop kWalRecordHeaderSize

theorem walRecordCRC_eq_cut (record : List UInt8) :
    walRecordCRC record = crc32Update 0 (cutCRC record) := by
  rw [walRecordCRC, crc32Update_append]
  rfl

/-- **The table-driven checksum is the standard CRC-32**: it is the bit-serial one from any start, it
may be taken in any parts, and the checksum of a record is that of the record without its field. -/
theorem crc32_standard :
    (∀ crc data, (crc32Update crc data).toBitVec = serialCRC32 crc.toBitVec data) ∧
      crc32UpdateByTable = crc32Update ∧
      (∀ crc (pieces : List (List UInt8)), pieces.foldl crc32Update crc =
        crc32Update crc pieces.flatten) ∧
      ∀ record, (walRecordCRC record).toBitVec = serialCRC32 0#32 (cutCRC record) := by
  refine ⟨crc32Update_eq_serial, crc32UpdateByTable_eq, crc32Update_flatten, fun record => ?_⟩
  rw [walRecordCRC_eq_cut, crc32Update_eq_serial]
  rfl

/-- The check value of CRC-32: the digits from one to nine. -/
example : serialCRC32 0#32 [49, 50, 51, 52, 53, 54, 55, 56, 57] = 0xcbf43926#32 := by
  decide +kernel

/-- **A burst of at most four bytes changes the checksum**, whatever surrounds it. -/
theorem crc32Update_ne {a b : List UInt8} (hlen : a.length = b.length) (h4 : a.length ≤ 4)
    (hne : a ≠ b) (crc : UInt32) (before after : List UInt8) :
    crc32Update crc (before ++ a ++ after) ≠ crc32Update crc (before ++ b ++ after) := by
  intro h
  have hsym : ∀ l : List UInt8, ∀ s ∈ l.map symbol, IsSymbol 8 s := by
    intro l s hs
    obtain ⟨p, _, rfl⟩ := List.mem_map.mp hs
    exact isSymbol_symbol p
  have hbits := congrArg UInt32.toBitVec h
  rw [crc32Update_toBitVec, crc32Update_toBitVec, BitVec.not_inj] at hbits
  simp only [List.map_append] at hbits
  refine foldl_absorb_ne msb_crc32Poly (hsym a) (hsym b) (by simp [hlen]) ?_ ?_ _ _ _ hbits
  · rw [List.length_map]
    omega
  · exact fun hmap => hne (List.map_injective_iff.mpr symbol_injective hmap)

/-- **Byte strings that differ**, and only within four consecutive bytes from `start` on. -/
structure Burst (a b : List UInt8) (start : ℕ) : Prop where
  length_eq : a.length = b.length
  differ : a ≠ b
  within : ∀ i, a.getD i 0 ≠ b.getD i 0 → start ≤ i ∧ i < start + 4

section Burst

variable {a b : List UInt8} {start : ℕ}

theorem Burst.getElem_eq (h : Burst a b start) {i : ℕ} (ha : i < a.length) (hb : i < b.length)
    (hi : ¬(start ≤ i ∧ i < start + 4)) : a[i] = b[i] := by
  have hsame : a.getD i 0 = b.getD i 0 := not_not.mp (mt (h.within i) hi)
  rwa [List.getD_eq_getElem _ _ ha, List.getD_eq_getElem _ _ hb] at hsame

/-- Before the burst nothing has changed. -/
theorem Burst.take_eq (h : Burst a b start) {n : ℕ} (hn : n ≤ start) : a.take n = b.take n := by
  have hlen := h.length_eq
  refine List.ext_getElem (by simp [hlen]) (fun i hi hi' => ?_)
  rw [List.length_take] at hi hi'
  rw [List.getElem_take, List.getElem_take]
  exact h.getElem_eq (by omega) (by omega) (by omega)

/-- Behind the burst nothing has changed. -/
theorem Burst.drop_eq (h : Burst a b start) {n : ℕ} (hn : start + 4 ≤ n) : a.drop n = b.drop n := by
  have hlen := h.length_eq
  refine List.ext_getElem (by simp [hlen]) (fun i hi hi' => ?_)
  rw [List.length_drop] at hi hi'
  rw [List.getElem_drop, List.getElem_drop]
  exact h.getElem_eq (by omega) (by omega) (by omega)

/-- **No burst keeps the checksum.** -/
theorem Burst.crc32Update_ne (h : Burst a b start) (crc : UInt32) :
    crc32Update crc a ≠ crc32Update crc b := by
  have hsplit : ∀ l : List UInt8, l = l.take start ++ (l.drop start).take 4 ++ l.drop (start + 4) := by
    intro l
    rw [← List.drop_drop, List.append_assoc, List.take_append_drop, List.take_append_drop]
  have hlen := h.length_eq
  have htake := h.take_eq (le_refl start)
  have hdrop := h.drop_eq (le_refl (start + 4))
  have hwindow : (a.drop start).take 4 ≠ (b.drop start).take 4 := by
    intro hw
    apply h.differ
    rw [hsplit a, hsplit b, htake, hw, hdrop]
  have hne := Store.crc32Update_ne (a := (a.drop start).take 4) (b := (b.drop start).take 4)
    (by simp [hlen]) (by rw [List.length_take]; omega) hwindow crc (a.take start)
    (a.drop (start + 4))
  rw [← hsplit a, htake, hdrop, ← hsplit b] at hne
  exact hne

theorem Burst.append_right (h : Burst a b start) (c : List UInt8) :
    Burst (a ++ c) (b ++ c) start := by
  have hlen := h.length_eq
  refine ⟨by simp [hlen], fun hc => h.differ (List.append_cancel_right hc), fun i hi => ?_⟩
  by_cases ha : i < a.length
  · apply h.within i
    rwa [List.getD_append _ _ _ _ ha, List.getD_append _ _ _ _ (by omega)] at hi
  · rw [List.getD_append_right _ _ _ _ (by omega), List.getD_append_right _ _ _ _ (by omega),
      hlen] at hi
    exact absurd rfl hi

end Burst

end MinweightStore.Store
