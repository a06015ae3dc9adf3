import Mathlib.Order.Lattice
import Mathlib.Data.List.Lex
import Mathlib.Data.Nat.Bitwise
import MinweightStore.Base.BitOrder
import MinweightStore.Base.Prog

/-!
# Keys, diffs and status codes

The byte-string keys of the index (`byte_view.h`, `position.h`, `diff.h`, `status.h`): their order,
the first differing slot of two keys in the expansion with nine slots per byte (one slot that says
the byte is there, then its bits from the top), and the slot test.

* `instBitKey` — the byte order is the lexicographic order of the slots;
* `compareKeys_eq` — `CompareKeys` is the sign of that order;
* `compareAndDiffBit_eq` — `CompareAndDiffBit` finds the first differing slot.
-/

namespace MinweightStore.Minpatricia

open BitKey

/-- `minpatricia::StatusCode` without `kOk`, which is the value case of a result. -/
inductive StatusCode where
  | equalKeys
  | keyTooLarge
  | unsortedKeys
  | missingKey
  | positionTag
  | positionMismatch
  | duplicateKey
  | corruptLayout
  | nilRecordStore
  | nilNodeStore
  deriving DecidableEq, Repr

/-- `Result<T>`: a value, an error status, or no return at all. -/
abbrev Result (α : Type) := Outcome StatusCode α

/-- A returned error status. -/
def err {α : Type} (code : StatusCode) : Result α := .error (.status code)

abbrev ByteView := List UInt8

abbrev Position := UInt64

def kMaxNodeReps : ℕ := 339

def kChildTag : UInt64 := 0x8000000000000000

def kMaxDiff : ℕ := 65535

def kMaxKeySize : ℕ := kMaxDiff / 9

/-- `CheckKeySize`. -/
def checkKeySize (key : ByteView) : Result Unit :=
  if key.length > kMaxKeySize then err .keyTooLarge else .ok ()

/-- `std::memcmp` on two byte strings of one length, as a sign. -/
def memcmp : List UInt8 → List UInt8 → Int
  | x :: xs, y :: ys => if x < y then -1 else if y < x then 1 else memcmp xs ys
  | _, _ => 0

/-- `CompareKeys`.  Its shortcut for views of one address gives the same answer. -/
def compareKeys (a b : ByteView) : Int :=
  let n := if a.length < b.length then a.length else b.length
  let cmp := memcmp (a.take n) (b.take n)
  if cmp < 0 then -1
  else if cmp > 0 then 1
  else if a.length < b.length then -1
  else if a.length > b.length then 1
  else 0

/-- `CountLeadingZeroBits8`, the number of masks from `0x80` down that miss the value. -/
def countLeadingZeroBits8 (value : ℕ) : ℕ :=
  ([7, 6, 5, 4, 3, 2, 1, 0].takeWhile (fun i => !value.testBit i)).length

/-- The scan `while (i < n && a[i] == b[i]) ++i` of `CompareAndDiffBit`. -/
def commonPrefix : ByteView → ByteView → ℕ
  | x :: xs, y :: ys => if x = y then commonPrefix xs ys + 1 else 0
  | _, _ => 0

structure CompareDiff where
  compare : Int
  diff : ℕ
  deriving DecidableEq, Repr

/-- `CompareAndDiffBit`, with the conversions to 16 bits written out. -/
def compareAndDiffBit (a b : ByteView) : Result CompareDiff := do
  checkKeySize a
  checkKeySize b
  let n := if a.length < b.length then a.length else b.length
  let i := commonPrefix a b
  if i = n then
    if a.length = b.length then err .equalKeys
    else
      let diff := (i * 9) % 2 ^ 16
      if a.length < b.length then .ok ⟨-1, diff⟩ else .ok ⟨1, diff⟩
  else
    let ax := a.getD i 0
    let bx := b.getD i 0
    let leading := countLeadingZeroBits8 (ax ^^^ bx).toNat
    let diff := (i * 9 + leading + 1) % 2 ^ 16
    if ax < bx then .ok ⟨-1, diff⟩ else .ok ⟨1, diff⟩

/-- `FindDiffBit`. -/
def findDiffBit (a b : ByteView) : Result ℕ := do
  let diff ← compareAndDiffBit a b
  .ok diff.diff

/-- `GetDiffBit`: the slot of a key at a position. -/
def getDiffBit (key : ByteView) (diff : ℕ) : ℕ :=
  let byteIdx := diff / 9
  let bitIdx := diff % 9
  if bitIdx = 0 then (if byteIdx < key.length then 1 else 0)
  else if byteIdx ≥ key.length then 0
  else ((key.getD byteIdx 0).toNat >>> (8 - bitIdx)) &&& 1

/-! ### The slots as a bit sequence -/

/-- The slot expansion of a key. -/
def slotBit : ByteView → ℕ → Bool
  | [], _ => false
  | x :: xs, i => if i = 0 then true else if i < 9 then x.toNat.testBit (8 - i)
    else slotBit xs (i - 9)

theorem slotBit_cons_byte (x : UInt8) (xs : ByteView) {i : ℕ} (h0 : i ≠ 0) (h9 : i < 9) :
    slotBit (x :: xs) i = x.toNat.testBit (8 - i) := by
  rw [slotBit, if_neg h0, if_pos h9]

theorem slotBit_cons_tail (x : UInt8) (xs : ByteView) (i : ℕ) :
    slotBit (x :: xs) (i + 9) = slotBit xs i := by
  rw [slotBit, if_neg (by omega), if_neg (by omega), Nat.add_sub_cancel]

theorem getDiffBit_eq (key : ByteView) (i : ℕ) :
    getDiffBit key i = if slotBit key i then 1 else 0 := by
  induction key generalizing i with
  | nil => simp [getDiffBit, slotBit]
  | cons x xs ih =>
    rcases Nat.lt_or_ge i 9 with h9 | h9
    · have hdiv : i / 9 = 0 := Nat.div_eq_of_lt h9
      have hmod : i % 9 = i := Nat.mod_eq_of_lt h9
      rcases Nat.eq_zero_or_pos i with rfl | hpos
      · simp [getDiffBit, slotBit]
      · rw [slotBit_cons_byte x xs (by omega) h9, Nat.testBit_eq_decide_div_mod_eq]
        simp only [getDiffBit, hdiv, hmod]
        rw [if_neg (by omega), if_neg (by simp), List.getD_cons_zero, Nat.and_one_is_mod,
          Nat.shiftRight_eq_div_pow]
        have := Nat.mod_two_eq_zero_or_one (x.toNat / 2 ^ (8 - i))
        rcases this with h | h <;> simp [h]
    · obtain ⟨j, rfl⟩ : ∃ j, i = j + 9 := ⟨i - 9, by omega⟩
      have hd : (j + 9) / 9 = j / 9 + 1 := by omega
      have hm : (j + 9) % 9 = j % 9 := by omega
      rw [slotBit_cons_tail, ← ih j]
      simp only [getDiffBit, hd, hm, List.length_cons, List.getD_cons_succ,
        Nat.add_lt_add_iff_right, ge_iff_le, Nat.add_le_add_iff_right]

/-- `CountLeadingZeroBits8` of a non-zero byte stops at its highest one bit. -/
theorem countLeadingZeroBits8_spec : ∀ n < 256, n ≠ 0 →
    countLeadingZeroBits8 n < 8 ∧ n.testBit (7 - countLeadingZeroBits8 n) = true ∧
      ∀ j < countLeadingZeroBits8 n, n.testBit (7 - j) = false := by
  decide +kernel

/-- The first slot at which two keys differ. -/
def firstDiff : ByteView → ByteView → ℕ
  | x :: xs, y :: ys =>
    if x = y then firstDiff xs ys + 9 else countLeadingZeroBits8 (x ^^^ y).toNat + 1
  | _, _ => 0

instance instLinearOrderUInt8 : LinearOrder UInt8 where
  le_refl _ := UInt8.le_refl _
  le_trans _ _ _ := UInt8.le_trans
  le_antisymm _ _ := UInt8.le_antisymm
  le_total _ _ := UInt8.le_total _ _
  lt_iff_le_not_ge a b := by
    rw [UInt8.lt_iff_toNat_lt, UInt8.le_iff_toNat_le, UInt8.le_iff_toNat_le]
    omega
  toDecidableLE := inferInstance
  toDecidableLT := inferInstance
  toDecidableEq := inferInstance

/-- The first differing bit of two different bytes, counted from the top. -/
theorem byte_firstDiff {x y : UInt8} (h : x < y) :
    let c := countLeadingZeroBits8 (x ^^^ y).toNat
    c < 8 ∧ (∀ j < c, x.toNat.testBit (7 - j) = y.toNat.testBit (7 - j)) ∧
      x.toNat.testBit (7 - c) = false ∧ y.toNat.testBit (7 - c) = true := by
  intro c
  have hlt : x.toNat < y.toNat := UInt8.lt_iff_toNat_lt.mp h
  have hx := x.toNat_lt
  have hy := y.toNat_lt
  have hxor : (x ^^^ y).toNat = x.toNat ^^^ y.toNat := UInt8.toNat_xor x y
  have hne : (x ^^^ y).toNat ≠ 0 := by
    rw [hxor]
    intro h0
    have := Nat.xor_eq_zero_iff.mp h0
    omega
  obtain ⟨h8, htop, habove⟩ := countLeadingZeroBits8_spec _ (x ^^^ y).toNat_lt hne
  have heq : ∀ j < c, x.toNat.testBit (7 - j) = y.toNat.testBit (7 - j) := by
    intro j hj
    have := habove j hj
    rw [hxor, Nat.testBit_xor] at this
    simpa using this
  have hdiff : (x.toNat.testBit (7 - c) ^^ y.toNat.testBit (7 - c)) = true := by
    rw [← Nat.testBit_xor, ← hxor]
    exact htop
  refine ⟨h8, heq, ?_⟩
  cases hbx : x.toNat.testBit (7 - c) with
  | false =>
    rw [hbx] at hdiff
    exact ⟨rfl, by simpa using hdiff⟩
  | true =>
    -- then `y` has the zero bit there and would be the smaller byte
    rw [hbx] at hdiff
    have hby : y.toNat.testBit (7 - c) = false := by simpa using hdiff
    have hyx : y.toNat < x.toNat := by
      refine Nat.lt_of_testBit (7 - c) hby hbx (fun j hj => ?_)
      rcases Nat.lt_or_ge j 8 with hj8 | hj8
      · have := heq (7 - j) (by omega)
        rw [show 7 - (7 - j) = j by omega] at this
        exact this.symm
      · rw [Nat.testBit_lt_two_pow (lt_of_lt_of_le hx (Nat.pow_le_pow_right (by decide) hj8)),
          Nat.testBit_lt_two_pow (lt_of_lt_of_le hy (Nat.pow_le_pow_right (by decide) hj8))]
    omega

/-- The first differing slot of two keys in order. -/
theorem firstDiff_spec : ∀ {a b : ByteView}, a < b →
    (∀ i < firstDiff a b, slotBit a i = slotBit b i) ∧
      slotBit a (firstDiff a b) = false ∧ slotBit b (firstDiff a b) = true
  | [], [], h => absurd h (lt_irrefl _)
  | [], y :: ys, _ => ⟨fun i hi => absurd hi (Nat.not_lt_zero i), rfl, rfl⟩
  | x :: xs, [], h => absurd h (List.not_lt_nil _)
  | x :: xs, y :: ys, h => by
    rcases List.cons_lt_cons_iff.mp h with hxy | ⟨rfl, htl⟩
    · obtain ⟨h8, heq, hfx, hfy⟩ := byte_firstDiff hxy
      have hne : x ≠ y := ne_of_lt hxy
      have hfd : firstDiff (x :: xs) (y :: ys) = countLeadingZeroBits8 (x ^^^ y).toNat + 1 := by
        rw [firstDiff, if_neg hne]
      rw [hfd]
      refine ⟨fun i hi => ?_, ?_, ?_⟩
      · rcases Nat.eq_zero_or_pos i with rfl | hpos
        · rfl
        · rw [slotBit_cons_byte _ _ (by omega) (by omega),
            slotBit_cons_byte _ _ (by omega) (by omega)]
          have := heq (i - 1) (by omega)
          rwa [show 7 - (i - 1) = 8 - i by omega] at this
      · rw [slotBit_cons_byte _ _ (by omega) (by omega)]
        rwa [show 8 - (countLeadingZeroBits8 (x ^^^ y).toNat + 1)
          = 7 - countLeadingZeroBits8 (x ^^^ y).toNat by omega]
      · rw [slotBit_cons_byte _ _ (by omega) (by omega)]
        rwa [show 8 - (countLeadingZeroBits8 (x ^^^ y).toNat + 1)
          = 7 - countLeadingZeroBits8 (x ^^^ y).toNat by omega]
    · obtain ⟨ih1, ih2, ih3⟩ := firstDiff_spec htl
      have hfd : firstDiff (x :: xs) (x :: ys) = firstDiff xs ys + 9 := by
        rw [firstDiff, if_pos rfl]
      rw [hfd, slotBit_cons_tail, slotBit_cons_tail]
      refine ⟨fun i hi => ?_, ih2, ih3⟩
      rcases Nat.lt_or_ge i 9 with h9 | h9
      · rcases Nat.eq_zero_or_pos i with rfl | hpos
        · rfl
        · rw [slotBit_cons_byte _ _ (by omega) h9, slotBit_cons_byte _ _ (by omega) h9]
      · obtain ⟨j, rfl⟩ : ∃ j, i = j + 9 := ⟨i - 9, by omega⟩
        rw [slotBit_cons_tail, slotBit_cons_tail]
        exact ih1 j (by omega)

theorem firstDiff_comm : ∀ a b : ByteView, firstDiff a b = firstDiff b a
  | [], [] => rfl
  | [], _ :: _ => rfl
  | _ :: _, [] => rfl
  | x :: xs, y :: ys => by
    simp only [firstDiff, firstDiff_comm xs ys, UInt8.xor_comm x y, eq_comm]

/-- **The byte order is the lexicographic order of the slots.** -/
instance instBitKey : BitKey ByteView where
  bit := slotBit
  lt_iff a b := by
    constructor
    · intro h
      exact ⟨firstDiff a b, firstDiff_spec h⟩
    · rintro ⟨d, h1, h2, h3⟩
      rcases lt_trichotomy a b with h | rfl | h
      · exact h
      · rw [h2] at h3
        exact absurd h3 (by decide)
      · obtain ⟨g1, g2, g3⟩ := firstDiff_spec h
        rcases Nat.lt_trichotomy d (firstDiff b a) with hd | hd | hd
        · rw [← g1 d hd, h3] at h2
          exact absurd h2 (by decide)
        · rw [hd] at h2
          rw [h2] at g3
          exact absurd g3 (by decide)
        · rw [h1 _ hd, g2] at g3
          exact absurd g3 (by decide)

theorem bit_eq (key : ByteView) (i : ℕ) : bit key i = slotBit key i := rfl

theorem getDiffBit_eq_zero {key : ByteView} {i : ℕ} :
    getDiffBit key i = 0 ↔ bit key i = false := by
  rw [getDiffBit_eq, bit_eq]
  cases slotBit key i <;> simp

theorem diffAt_firstDiff {a b : ByteView} (h : a < b) : DiffAt (firstDiff a b) a b :=
  firstDiff_spec h

/-! ### Comparison -/

/-- **`CompareKeys` is the sign of the lexicographic order.** -/
theorem compareKeys_eq (a b : ByteView) :
    compareKeys a b = if a < b then -1 else if a = b then 0 else 1 := by
  induction a generalizing b with
  | nil => cases b <;> simp [compareKeys, memcmp]
  | cons x xs ih =>
    cases b with
    | nil => simp [compareKeys, memcmp]
    | cons y ys =>
      have hn : (if (x :: xs).length < (y :: ys).length then (x :: xs).length
          else (y :: ys).length)
          = (if xs.length < ys.length then xs.length else ys.length) + 1 := by
        simp only [List.length_cons, Nat.add_lt_add_iff_right]
        split <;> rfl
      have hrec := ih ys
      simp only [compareKeys] at hrec ⊢
      rw [hn]
      simp only [List.take_succ_cons, memcmp, List.length_cons, Nat.add_lt_add_iff_right,
        gt_iff_lt, List.cons_lt_cons_iff, List.cons.injEq]
      rcases lt_trichotomy x y with hxy | rfl | hxy
      · simp [hxy]
      · simpa using hrec
      · simp [hxy, not_lt_of_gt hxy, ne_of_gt hxy]

theorem compareKeys_eq_zero {a b : ByteView} : compareKeys a b = 0 ↔ a = b := by
  rw [compareKeys_eq]
  split
  · rename_i h
    simp [ne_of_lt h]
  · split <;> simp_all

theorem compareKeys_neg {a b : ByteView} : compareKeys a b < 0 ↔ a < b := by
  rw [compareKeys_eq]
  split
  · simp_all
  · split <;> simp_all

theorem compareKeys_pos {a b : ByteView} : compareKeys a b > 0 ↔ b < a := by
  rw [compareKeys_eq]
  rcases lt_trichotomy a b with h | rfl | h
  · simp [h, not_lt_of_gt h]
  · simp
  · simp [h, not_lt_of_gt h, ne_of_gt h]

/-! ### `CompareAndDiffBit` -/

theorem commonPrefix_le (a b : ByteView) :
    commonPrefix a b ≤ if a.length < b.length then a.length else b.length := by
  induction a generalizing b with
  | nil => simp [commonPrefix]
  | cons x xs ih =>
    cases b with
    | nil => simp [commonPrefix]
    | cons y ys =>
      have := ih ys
      simp only [commonPrefix, List.length_cons, Nat.add_lt_add_iff_right]
      split <;> split <;> split at this <;> omega

/-- The scan and the byte it stops at give the first differing slot. -/
theorem firstDiff_eq (a b : ByteView) :
    firstDiff a b = if commonPrefix a b = (if a.length < b.length then a.length else b.length)
      then commonPrefix a b * 9
      else commonPrefix a b * 9
        + countLeadingZeroBits8 (a.getD (commonPrefix a b) 0 ^^^ b.getD (commonPrefix a b) 0).toNat
        + 1 := by
  induction a generalizing b with
  | nil => cases b <;> simp [firstDiff, commonPrefix]
  | cons x xs ih =>
    cases b with
    | nil => simp [firstDiff, commonPrefix]
    | cons y ys =>
      have hrec := ih ys
      simp only [firstDiff, commonPrefix, List.length_cons, Nat.add_lt_add_iff_right]
      by_cases hxy : x = y
      · subst hxy
        rw [if_pos rfl, if_pos rfl, hrec]
        simp only [List.getD_cons_succ]
        split <;> split <;> split <;> omega
      · rw [if_neg hxy, if_neg hxy]
        rw [if_neg (by split <;> omega)]
        simp

theorem commonPrefix_comm : ∀ a b : ByteView, commonPrefix a b = commonPrefix b a
  | [], [] => rfl
  | [], _ :: _ => rfl
  | _ :: _, [] => rfl
  | x :: xs, y :: ys => by simp only [commonPrefix, commonPrefix_comm xs ys, eq_comm]

theorem commonPrefix_self : ∀ a : ByteView, commonPrefix a a = a.length
  | [] => rfl
  | x :: xs => by simp [commonPrefix, commonPrefix_self xs]

/-- The scan decides the order: by length at its end, else by the byte it stops at. -/
theorem lt_iff_scan {a b : ByteView} (hne : a ≠ b) :
    a < b ↔ if commonPrefix a b = (if a.length < b.length then a.length else b.length)
      then a.length < b.length
      else a.getD (commonPrefix a b) 0 < b.getD (commonPrefix a b) 0 := by
  induction a generalizing b with
  | nil =>
    cases b with
    | nil => exact absurd rfl hne
    | cons y ys => simp [commonPrefix]
  | cons x xs ih =>
    cases b with
    | nil => simp [commonPrefix]
    | cons y ys =>
      simp only [commonPrefix, List.length_cons, Nat.add_lt_add_iff_right,
        List.cons_lt_cons_iff]
      by_cases hxy : x = y
      · subst hxy
        have hne' : xs ≠ ys := fun h => hne (by rw [h])
        have hn : (if xs.length < ys.length then xs.length + 1 else ys.length + 1)
            = (if xs.length < ys.length then xs.length else ys.length) + 1 := by
          split <;> rfl
        rw [if_pos rfl, hn]
        simpa using ih hne'
      · rw [if_neg hxy, if_neg (by split <;> omega)]
        simp [hxy]

theorem countLeadingZeroBits8_le (n : ℕ) : countLeadingZeroBits8 n ≤ 8 :=
  (List.takeWhile_sublist _).length_le

theorem firstDiff_lt_of_ne : ∀ {a b : ByteView}, a ≠ b →
    firstDiff a b < 9 * max a.length b.length
  | [], [], h => absurd rfl h
  | [], y :: ys, _ => by simp only [firstDiff, List.length_cons]; omega
  | x :: xs, [], _ => by simp only [firstDiff, List.length_cons]; omega
  | x :: xs, y :: ys, h => by
    simp only [firstDiff, List.length_cons]
    split
    · rename_i hxy
      have := firstDiff_lt_of_ne (a := xs) (b := ys) (fun h' => h (by rw [hxy, h']))
      omega
    · rename_i hxy
      have h8 := countLeadingZeroBits8_le (x ^^^ y).toNat
      by_cases h9 : countLeadingZeroBits8 (x ^^^ y).toNat + 1 = 9
      · -- nine zero bits would make the bytes equal
        have hlt := (countLeadingZeroBits8_spec _ (x ^^^ y).toNat_lt (by
          rw [UInt8.toNat_xor]
          intro h0
          exact hxy (UInt8.toNat_inj.mp (Nat.xor_eq_zero_iff.mp h0)))).1
        omega
      · omega

/-- Keys of admitted size differ within 16 bits. -/
theorem firstDiff_lt {a b : ByteView} (ha : a.length ≤ kMaxKeySize)
    (hb : b.length ≤ kMaxKeySize) (hne : a ≠ b) : firstDiff a b < 2 ^ 16 := by
  have hmax : kMaxKeySize = 7281 := by decide
  have := firstDiff_lt_of_ne hne
  omega

theorem checkKeySize_ok {key : ByteView} (h : key.length ≤ kMaxKeySize) :
    checkKeySize key = .ok () := by
  rw [checkKeySize, if_neg (by omega)]

theorem checkKeySize_err {key : ByteView} (h : ¬ key.length ≤ kMaxKeySize) :
    checkKeySize key = err .keyTooLarge := by
  rw [checkKeySize, if_pos (by omega)]

/-- **`CompareAndDiffBit` on keys of admitted size.** -/
theorem compareAndDiffBit_eq {a b : ByteView} (ha : a.length ≤ kMaxKeySize)
    (hb : b.length ≤ kMaxKeySize) : compareAndDiffBit a b =
      if a = b then err .equalKeys
      else .ok ⟨if a < b then -1 else 1, firstDiff a b⟩ := by
  have hle := commonPrefix_le a b
  unfold compareAndDiffBit
  rw [checkKeySize_ok ha, checkKeySize_ok hb]
  by_cases hab : a = b
  · subst hab
    simp [commonPrefix_self, bind, Except.bind]
  · have hlt := lt_iff_scan hab
    have hfd := firstDiff_eq a b
    have h16 := firstDiff_lt ha hb hab
    rw [if_neg hab]
    simp only [bind, Except.bind]
    by_cases hi : commonPrefix a b = if a.length < b.length then a.length else b.length
    · rw [if_pos hi] at hlt hfd
      have hlen : a.length ≠ b.length := by
        intro hl
        rw [hl, if_neg (lt_irrefl _)] at hi
        have hgt : b < a ↔ b.length < a.length := by
          have := lt_iff_scan (Ne.symm hab)
          rw [commonPrefix_comm b a, hl, if_neg (lt_irrefl _), hi, if_pos rfl] at this
          rwa [hl]
        rcases lt_or_gt_of_ne hab with h | h
        · have := hlt.mp h
          omega
        · have := hgt.mp h
          omega
      rw [if_pos hi, if_neg hlen, Nat.mod_eq_of_lt (hfd ▸ h16), ← hfd]
      by_cases hl : a.length < b.length
      · rw [if_pos hl, if_pos (hlt.mpr hl)]
      · rw [if_neg hl, if_neg (fun h => hl (hlt.mp h))]
    · rw [if_neg hi] at hlt hfd
      rw [if_neg hi, Nat.mod_eq_of_lt (hfd ▸ h16), ← hfd]
      by_cases hx : a.getD (commonPrefix a b) 0 < b.getD (commonPrefix a b) 0
      · rw [if_pos hx, if_pos (hlt.mpr hx)]
      · rw [if_neg hx, if_neg (fun h => hx (hlt.mp h))]

theorem findDiffBit_eq {a b : ByteView} (ha : a.length ≤ kMaxKeySize)
    (hb : b.length ≤ kMaxKeySize) (hne : a ≠ b) : findDiffBit a b = .ok (firstDiff a b) := by
  rw [findDiffBit, compareAndDiffBit_eq ha hb, if_neg hne]
  rfl

theorem near_firstDiff {key k : ByteView} (h : key ≠ k) :
    AgreeBelow (firstDiff key k) key k ∧ bit key (firstDiff key k) ≠ bit k (firstDiff key k) := by
  rcases lt_or_gt_of_ne h with hlt | hgt
  · obtain ⟨h1, h2, h3⟩ := diffAt_firstDiff hlt
    exact ⟨h1, by rw [h2, h3]; decide⟩
  · obtain ⟨h1, h2, h3⟩ := diffAt_firstDiff hgt
    rw [firstDiff_comm key k]
    exact ⟨h1.symm, by rw [h2, h3]; decide⟩

theorem compareKeys_neg_bit {key k : ByteView} (h : key ≠ k) :
    compareKeys key k < 0 ↔ bit key (firstDiff key k) = false := by
  rw [compareKeys_neg]
  rcases lt_or_gt_of_ne h with hlt | hgt
  · exact ⟨fun _ => (diffAt_firstDiff hlt).2.1, fun _ => hlt⟩
  · rw [firstDiff_comm key k, (diffAt_firstDiff hgt).2.2]
    exact ⟨fun hlt => absurd hlt (lt_asymm hgt), fun hb => absurd hb (by decide)⟩

/-! ### The laws of diffs -/

theorem getDiffBit_congr {a b : ByteView} {i : ℕ} (h : bit a i = bit b i) :
    getDiffBit a i = getDiffBit b i := by
  rw [getDiffBit_eq, getDiffBit_eq, ← bit_eq, ← bit_eq, h]

theorem getDiffBit_one {key : ByteView} {i : ℕ} (h : bit key i = true) : getDiffBit key i = 1 := by
  rw [getDiffBit_eq, ← bit_eq, h]
  rfl

/-- The first differing slot, seen from the smaller key. -/
theorem getDiffBit_firstDiff {a b : ByteView} (h : a < b) :
    (∀ i < firstDiff a b, getDiffBit a i = getDiffBit b i) ∧
      getDiffBit a (firstDiff a b) = 0 ∧ getDiffBit b (firstDiff a b) = 1 := by
  obtain ⟨hagree, hzero, hone⟩ := diffAt_firstDiff h
  exact ⟨fun i hi => getDiffBit_congr (hagree i hi), getDiffBit_eq_zero.mpr hzero,
    getDiffBit_one hone⟩

/-- **The ultrametric law of first differences.** -/
theorem firstDiff_trans {a b c : ByteView} (hab : a < b) (hbc : b < c) :
    firstDiff a b ≠ firstDiff b c ∧ firstDiff a c = min (firstDiff a b) (firstDiff b c) := by
  obtain ⟨hne, hac⟩ := (diffAt_firstDiff hab).trans (diffAt_firstDiff hbc)
  exact ⟨hne, (diffAt_firstDiff (lt_trans hab hbc)).unique hac⟩

/-- **Diffs describe the order, and form an ultrametric.**  On keys of admitted size
`CompareAndDiffBit` tells equal keys, the order of different ones and the first slot they differ in;
of three keys in order the inner diffs differ, and the outer one is the smaller of the two. -/
theorem diffs_describe_order {a b : ByteView} (ha : a.length ≤ kMaxKeySize)
    (hb : b.length ≤ kMaxKeySize) :
    (compareAndDiffBit a b = err .equalKeys ↔ a = b) ∧
    (a ≠ b → ∃ diff, compareAndDiffBit a b = .ok ⟨compareKeys a b, diff⟩ ∧
      findDiffBit a b = .ok diff ∧ diff < 2 ^ 16 ∧
      (∀ i < diff, getDiffBit a i = getDiffBit b i) ∧
      getDiffBit (min a b) diff = 0 ∧ getDiffBit (max a b) diff = 1) ∧
    (compareKeys a b < 0 ↔ a < b) ∧ (compareKeys a b > 0 ↔ b < a) ∧
    ∀ c : ByteView, c.length ≤ kMaxKeySize → a < b → b < c → ∃ d e,
      findDiffBit a b = .ok d ∧ findDiffBit b c = .ok e ∧ d ≠ e ∧
      findDiffBit a c = .ok (min d e) := by
  have hrun := compareAndDiffBit_eq ha hb
  refine ⟨⟨fun h => ?_, fun h => ?_⟩, fun hne => ⟨firstDiff a b, ?_, findDiffBit_eq ha hb hne,
    firstDiff_lt ha hb hne, ?_⟩, compareKeys_neg, compareKeys_pos, fun c hc hab hbc => ?_⟩
  · by_contra hne
    rw [hrun, if_neg hne] at h
    exact absurd h (by simp [err])
  · rw [hrun, if_pos h]
  · rw [hrun, if_neg hne, compareKeys_eq, if_neg hne]
  · rcases lt_or_gt_of_ne hne with hlt | hgt
    · rw [min_eq_left hlt.le, max_eq_right hlt.le]
      exact getDiffBit_firstDiff hlt
    · obtain ⟨hagree, hzero, hone⟩ := getDiffBit_firstDiff hgt
      rw [min_eq_right hgt.le, max_eq_left hgt.le, firstDiff_comm a b]
      exact ⟨fun i hi => (hagree i hi).symm, hzero, hone⟩
  · obtain ⟨hne, hmin⟩ := firstDiff_trans hab hbc
    refine ⟨_, _, findDiffBit_eq ha hb (ne_of_lt hab), findDiffBit_eq hb hc (ne_of_lt hbc), hne, ?_⟩
    rw [findDiffBit_eq ha hc (ne_of_lt (lt_trans hab hbc)), hmin]

/-- A key and one that extends it by a zero byte. -/
theorem diffs_describe_order_extended :
    compareAndDiffBit [1] [1, 0] = .ok ⟨compareKeys [1] [1, 0], 9⟩ := by
  obtain ⟨diff, hrun, hfind, _⟩ := (diffs_describe_order (a := [1]) (b := [1, 0]) (by decide)
    (by decide)).2.1 (by decide)
  have h9 : findDiffBit [1] [1, 0] = .ok 9 := by decide
  obtain rfl := Except.ok.inj (hfind.symm.trans h9)
  exact hrun

/-! ### Numbered keys -/

/-- The key of two bytes that stands for a number. -/
def numberedKey (i : ℕ) : ByteView := [UInt8.ofNat (i / 256), UInt8.ofNat (i % 256)]

/-- Every position holds the key of its number. -/
def numberedRecords (pos : Position) : Result ByteView := .ok (numberedKey pos.toNat)

theorem numberedRecords_ofNat {i : ℕ} (hi : i < 2 ^ 64) :
    numberedRecords (UInt64.ofNat i) = .ok (numberedKey i) := by
  rw [numberedRecords, UInt64.toNat_ofNat_of_lt' hi]

/-- Two bytes are enough for their order. -/
theorem numberedKey_lt {i j : ℕ} (hlt : i < j) (hj : j < 2 ^ 16) : numberedKey i < numberedKey j := by
  have hbyte : ∀ {x y : ℕ}, y < 256 → x < y → UInt8.ofNat x < UInt8.ofNat y := fun hy hxy => by
    rw [UInt8.lt_iff_toNat_lt, UInt8.toNat_ofNat_of_lt' (lt_trans hxy hy),
      UInt8.toNat_ofNat_of_lt' hy]
    exact hxy
  rw [numberedKey, numberedKey, List.cons_lt_cons_iff]
  by_cases hhigh : i / 256 < j / 256
  · exact Or.inl (hbyte (by omega) hhigh)
  · have heq : i / 256 = j / 256 := by omega
    refine Or.inr ⟨by rw [heq], ?_⟩
    rw [List.cons_lt_cons_iff]
    exact Or.inl (hbyte (by omega) (by omega))

end MinweightStore.Minpatricia
