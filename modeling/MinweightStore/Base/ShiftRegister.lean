import Mathlib.Data.List.GetD
import Mathlib.Tactic

/-!
# Feedback shift registers

A register of `w` bits moves down by one bit at a turn; the bit that falls out at the low end decides
whether a feedback word is added.  Data is absorbed symbol by symbol: a symbol of `k` bits is added
to the register, which then makes `k` turns.  Checksums such as the reflected CRCs are registers of
this kind.

* `shift_xor`, `shift_injective` — a turn is linear, and loses nothing when the feedback word has its
  top bit;
* `turns_eq_shiftRight` — a register with low zeros only moves down;
* `foldl_absorb_eq` — a few symbols absorbed one by one are one word added at once;
* `foldl_absorb_bitsOf` — a symbol is its bits, absorbed one by one;
* `foldl_absorb_ne` — **bursts are seen**: data that differs in at most `w` consecutive bits leaves
  different registers.
-/

namespace MinweightStore.ShiftRegister

variable {w : ℕ}

/-! ### One turn -/

/-- A turn of the register. -/
def shift (poly c : BitVec w) : BitVec w := if c.getLsbD 0 then (c >>> 1) ^^^ poly else c >>> 1

/-- Absorb a symbol of `k` bits. -/
def absorb (poly : BitVec w) (k : ℕ) (c s : BitVec w) : BitVec w := (shift poly)^[k] (c ^^^ s)

/-- A word of at most `k` bits. -/
def IsSymbol (k : ℕ) (s : BitVec w) : Prop := s.toNat < 2 ^ k

theorem IsSymbol.mono {k n : ℕ} {s : BitVec w} (h : IsSymbol k s) (hkn : k ≤ n) : IsSymbol n s :=
  lt_of_lt_of_le h (Nat.pow_le_pow_right (by norm_num) hkn)

theorem IsSymbol.high {k i : ℕ} {s : BitVec w} (h : IsSymbol k s) (hi : k ≤ i) :
    s.getLsbD i = false :=
  Nat.testBit_lt_two_pow (h.mono hi)

section Turns

variable (poly : BitVec w)

theorem xor_xor_cancel (a b p : BitVec w) : (a ^^^ p) ^^^ (b ^^^ p) = a ^^^ b := by
  rw [BitVec.xor_comm b p, BitVec.xor_assoc, ← BitVec.xor_assoc p p b, BitVec.xor_self,
    BitVec.zero_xor]

/-- A turn is linear. -/
theorem shift_xor (a b : BitVec w) : shift poly (a ^^^ b) = shift poly a ^^^ shift poly b := by
  simp only [shift, BitVec.getLsbD_xor, BitVec.ushiftRight_xor_distrib]
  cases ha : a.getLsbD 0 <;> cases hb : b.getLsbD 0
  · rfl
  · exact BitVec.xor_assoc _ _ _
  · show (a >>> 1) ^^^ (b >>> 1) ^^^ poly = ((a >>> 1) ^^^ poly) ^^^ (b >>> 1)
    rw [BitVec.xor_assoc, BitVec.xor_comm (b >>> 1), ← BitVec.xor_assoc]
  · exact (xor_xor_cancel _ _ _).symm

theorem turns_xor (n : ℕ) (a b : BitVec w) :
    (shift poly)^[n] (a ^^^ b) = (shift poly)^[n] a ^^^ (shift poly)^[n] b := by
  induction n generalizing a b with
  | zero => rfl
  | succ n ih => rw [Function.iterate_succ_apply, shift_xor, ih]; rfl

/-- A register whose low bits are zero only moves down. -/
theorem turns_eq_shiftRight (n : ℕ) (c : BitVec w) (h : ∀ i < n, c.getLsbD i = false) :
    (shift poly)^[n] c = c >>> n := by
  induction n with
  | zero => exact (BitVec.ushiftRight_zero c).symm
  | succ n ih =>
    have hlow : (c >>> n).getLsbD 0 = false := by
      rw [BitVec.getLsbD_ushiftRight, Nat.add_zero]
      exact h n (Nat.lt_succ_self n)
    rw [Function.iterate_succ_apply', ih (fun i hi => h i (by omega)), shift, hlow,
      if_neg (by decide), BitVec.shiftRight_add]

/-- What was moved up comes down again. -/
theorem turns_shiftLeft {n : ℕ} {c : BitVec w} (h : IsSymbol (w - n) c) :
    (shift poly)^[n] (c <<< n) = c := by
  rw [turns_eq_shiftRight poly n _ (fun i hi => by rw [BitVec.getLsbD_shiftLeft]; simp [hi])]
  apply BitVec.eq_of_getLsbD_eq
  intro i hi
  rw [BitVec.getLsbD_ushiftRight, BitVec.getLsbD_shiftLeft, Nat.add_sub_cancel_left]
  by_cases hn : n + i < w
  · simp [hn]
  · have hge : c.getLsbD i = false := h.high (by omega)
    simp [hn, hge]

variable {poly} (hpoly : poly.msb = true)

include hpoly

/-- Only the zero register becomes zero. -/
theorem eq_zero_of_shift {c : BitVec w} (h : shift poly c = 0#w) : c = 0#w := by
  have hw : 0 < w := by
    apply Nat.pos_of_ne_zero
    rintro rfl
    exact absurd hpoly (by simp [BitVec.eq_nil poly])
  rw [shift] at h
  cases hc : c.getLsbD 0 with
  | true =>
    -- the feedback word sets the top bit, which the moved register has not
    rw [hc, if_pos rfl] at h
    have htop := congrArg BitVec.msb h
    rw [BitVec.msb_xor, hpoly, BitVec.msb_eq_getLsbD_last, BitVec.getLsbD_ushiftRight,
      BitVec.getLsbD_of_ge c _ (by omega), BitVec.msb_zero] at htop
    exact absurd htop (by decide)
  | false =>
    rw [hc, if_neg (by decide)] at h
    apply BitVec.eq_of_getLsbD_eq
    intro i hi
    rw [BitVec.getLsbD_zero]
    cases i with
    | zero => exact hc
    | succ i =>
      have hbit := congrArg (fun x : BitVec w => x.getLsbD i) h
      simp only [BitVec.getLsbD_ushiftRight, BitVec.getLsbD_zero] at hbit
      rwa [Nat.add_comm] at hbit

/-- A turn loses nothing. -/
theorem shift_injective : Function.Injective (shift poly) := by
  intro a b h
  have hzero : shift poly (a ^^^ b) = 0#w := by rw [shift_xor, h, BitVec.xor_self]
  exact BitVec.xor_eq_zero_iff.mp (eq_zero_of_shift hpoly hzero)

theorem turns_injective (n : ℕ) : Function.Injective (shift poly)^[n] :=
  (shift_injective hpoly).iterate n

/-- Different registers stay different under the same data. -/
theorem foldl_absorb_injective (k : ℕ) (l : List (BitVec w)) :
    Function.Injective fun c => l.foldl (absorb poly k) c := by
  induction l with
  | nil => exact fun _ _ h => h
  | cons s l ih =>
    intro a b h
    have hturns : absorb poly k a s = absorb poly k b s := ih h
    have hadd := turns_injective hpoly k hturns
    simpa using hadd

end Turns

/-! ### A few symbols -/

/-- Symbols of `k` bits side by side, the first one lowest. -/
def pack (k : ℕ) : List (BitVec w) → BitVec w
  | [] => 0#w
  | s :: l => s ^^^ (pack k l <<< k)

section Pack

variable {k : ℕ}

theorem isSymbol_pack (l : List (BitVec w)) (hl : ∀ s ∈ l, IsSymbol k s) :
    IsSymbol (k * l.length) (pack k l) := by
  induction l with
  | nil =>
    show (0#w).toNat < 2 ^ 0
    simp
  | cons s l ih =>
    have ih := ih (fun x hx => hl x (List.mem_cons_of_mem _ hx))
    rw [IsSymbol, pack, BitVec.toNat_xor, List.length_cons, Nat.mul_succ]
    apply Nat.xor_lt_two_pow
    · exact (hl s List.mem_cons_self).mono (Nat.le_add_left _ _)
    · rw [BitVec.toNat_shiftLeft, Nat.shiftLeft_eq]
      calc (pack k l).toNat * 2 ^ k % 2 ^ w ≤ (pack k l).toNat * 2 ^ k := Nat.mod_le _ _
        _ < 2 ^ (k * l.length) * 2 ^ k := Nat.mul_lt_mul_of_pos_right ih (by positivity)
        _ = 2 ^ (k * l.length + k) := (pow_add 2 _ _).symm

/-- **A few symbols absorbed one by one** are one word added at once. -/
theorem foldl_absorb_eq (poly : BitVec w) (l : List (BitVec w)) (c : BitVec w)
    (hl : ∀ s ∈ l, IsSymbol k s) (hw : k * l.length ≤ w) :
    l.foldl (absorb poly k) c = (shift poly)^[k * l.length] (c ^^^ pack k l) := by
  induction l generalizing c with
  | nil =>
    show c = c ^^^ 0#w
    rw [BitVec.xor_zero]
  | cons s l ih =>
    have hl' : ∀ x ∈ l, IsSymbol k x := fun x hx => hl x (List.mem_cons_of_mem _ hx)
    rw [List.length_cons, Nat.mul_succ] at hw ⊢
    have hback := turns_shiftLeft poly ((isSymbol_pack l hl').mono (show _ ≤ w - k by omega))
    rw [List.foldl_cons, ih _ hl' (by omega), absorb, Function.iterate_add_apply, pack,
      ← BitVec.xor_assoc, turns_xor poly k (c ^^^ s), hback]

/-- The word gives the symbols back. -/
theorem pack_injective {l l' : List (BitVec w)} (hl : ∀ s ∈ l, IsSymbol k s)
    (hl' : ∀ s ∈ l', IsSymbol k s) (hlen : l.length = l'.length) (hw : k * l.length ≤ w)
    (h : pack k l = pack k l') : l = l' := by
  induction l generalizing l' with
  | nil => exact (List.length_eq_zero_iff.mp hlen.symm).symm
  | cons s l ih =>
    obtain _ | ⟨s', l'⟩ := l'
    · exact absurd hlen (by simp)
    have hlt : ∀ x ∈ l, IsSymbol k x := fun x hx => hl x (List.mem_cons_of_mem _ hx)
    have hlt' : ∀ x ∈ l', IsSymbol k x := fun x hx => hl' x (List.mem_cons_of_mem _ hx)
    rw [List.length_cons, List.length_cons, Nat.add_right_cancel_iff] at hlen
    rw [List.length_cons, Nat.mul_succ] at hw
    rw [pack, pack] at h
    have hbit : ∀ i, i < w → (s.getLsbD i ^^ (pack k l <<< k).getLsbD i) =
        (s'.getLsbD i ^^ (pack k l' <<< k).getLsbD i) := fun i _ => by
      have := congrArg (fun x : BitVec w => x.getLsbD i) h
      simpa only [BitVec.getLsbD_xor] using this
    -- below `k` the word is the first symbol, from `k` on it is the others
    have hfirst : s = s' := by
      apply BitVec.eq_of_getLsbD_eq
      intro i hi
      by_cases hik : i < k
      · have := hbit i hi
        simpa [BitVec.getLsbD_shiftLeft, hik] using this
      · rw [(hl s List.mem_cons_self).high (by omega), (hl' s' List.mem_cons_self).high (by omega)]
    have hrest : pack k l = pack k l' := by
      have hbound : k * l'.length + k ≤ w := hlen ▸ hw
      apply BitVec.eq_of_getLsbD_eq
      intro i hi
      by_cases hik : k + i < w
      · have := hbit (k + i) hik
        rw [hfirst] at this
        simpa [BitVec.getLsbD_shiftLeft, hik, BitVec.getLsbD_eq_getElem hi] using this
      · rw [(isSymbol_pack l hlt).high (by omega), (isSymbol_pack l' hlt').high (by omega)]
    rw [hfirst, ih hlt hlt' hlen (by omega) hrest]

/-- **Bursts are seen**: data that differs in at most `w` consecutive bits leaves different
registers. -/
theorem foldl_absorb_ne {poly : BitVec w} (hpoly : poly.msb = true) {l l' : List (BitVec w)}
    (hl : ∀ s ∈ l, IsSymbol k s) (hl' : ∀ s ∈ l', IsSymbol k s) (hlen : l.length = l'.length)
    (hw : k * l.length ≤ w) (hne : l ≠ l') (before after : List (BitVec w)) (c : BitVec w) :
    (before ++ l ++ after).foldl (absorb poly k) c ≠
      (before ++ l' ++ after).foldl (absorb poly k) c := by
  intro h
  rw [List.foldl_append, List.foldl_append, List.foldl_append, List.foldl_append] at h
  have hwindow := foldl_absorb_injective hpoly k after h
  rw [foldl_absorb_eq poly l _ hl hw, foldl_absorb_eq poly l' _ hl' (hlen ▸ hw), ← hlen] at hwindow
  have hadd := turns_injective hpoly _ hwindow
  have hpack : pack k l = pack k l' := by simpa using hadd
  exact hne (pack_injective hl hl' hlen hw hpack)

end Pack

/-! ### Bits -/

/-- A bit as a symbol. -/
def ofBit (b : Bool) : BitVec w := (BitVec.ofBool b).setWidth w

/-- The bits of a word, the lowest one first. -/
def bitsOf (n : ℕ) (s : BitVec w) : List Bool := (List.range n).map fun i => s.getLsbD i

theorem getLsbD_ofBit (b : Bool) (i : ℕ) :
    (ofBit b : BitVec w).getLsbD i = (decide (i < w) && (decide (i = 0) && b)) := by
  rw [ofBit, BitVec.getLsbD_setWidth, BitVec.getLsbD_ofBool]

theorem isSymbol_ofBit (b : Bool) : IsSymbol 1 (ofBit b : BitVec w) := by
  rw [IsSymbol, ofBit, BitVec.toNat_setWidth]
  exact lt_of_le_of_lt (Nat.mod_le _ _) (BitVec.ofBool b).isLt

/-- Bits side by side are read back. -/
theorem getLsbD_pack_ofBit (l : List Bool) (i : ℕ) :
    (pack 1 (l.map ofBit) : BitVec w).getLsbD i = (decide (i < w) && l.getD i false) := by
  induction l generalizing i with
  | nil =>
    rw [List.map_nil, pack, BitVec.getLsbD_zero, List.getD_nil, Bool.and_false]
  | cons b l ih =>
    rw [List.map_cons, pack, BitVec.getLsbD_xor, BitVec.getLsbD_shiftLeft, getLsbD_ofBit]
    cases i with
    | zero => simp
    | succ i =>
      rw [Nat.add_sub_cancel, ih, List.getD_cons_succ]
      by_cases hi : i + 1 < w
      · simp [hi, Nat.lt_of_succ_lt hi]
      · simp [hi]

theorem pack_bitsOf {n : ℕ} {s : BitVec w} (hs : IsSymbol n s) :
    pack 1 ((bitsOf n s).map ofBit) = s := by
  apply BitVec.eq_of_getLsbD_eq
  intro i hi
  rw [getLsbD_pack_ofBit, decide_eq_true hi, Bool.true_and, bitsOf]
  by_cases hn : i < n
  · rw [List.getD_eq_getElem _ _ (by simpa using hn), List.getElem_map, List.getElem_range]
  · rw [List.getD_eq_default _ _ (by simpa using hn), hs.high (Nat.not_lt.mp hn)]

/-- **A symbol is its bits**, absorbed one by one. -/
theorem foldl_absorb_bitsOf (poly : BitVec w) {n : ℕ} {s : BitVec w} (hs : IsSymbol n s)
    (hn : n ≤ w) (c : BitVec w) :
    ((bitsOf n s).map ofBit).foldl (absorb poly 1) c = absorb poly n c s := by
  have hlen : ((bitsOf n s).map (ofBit (w := w))).length = n := by
    rw [List.length_map, bitsOf, List.length_map, List.length_range]
  have hbit : ∀ x ∈ (bitsOf n s).map (ofBit (w := w)), IsSymbol 1 x := by
    intro x hx
    obtain ⟨b, _, rfl⟩ := List.mem_map.mp hx
    exact isSymbol_ofBit b
  rw [foldl_absorb_eq poly _ c hbit (by rw [hlen]; omega), hlen, Nat.one_mul, pack_bitsOf hs, absorb]

end MinweightStore.ShiftRegister
