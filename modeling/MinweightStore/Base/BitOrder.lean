import Mathlib.Order.Basic
import Mathlib.Tactic

/-!
# Keys as bit sequences

A key type whose order is the lexicographic order of an infinite bit sequence: `a < b` exactly
when the two sequences agree up to some position and `a` has `0`, `b` has `1` there.

* `DiffAt d a b` — the first difference of `a < b` sits at position `d`;
* `DiffAt.trans` — **the ultrametric law**: for `a < b < c` the two adjacent differences are at
  different positions, and the difference of `a` and `c` is the smaller of the two.
-/

namespace MinweightStore

/-- A linear order that is the lexicographic order of bit sequences. -/
class BitKey (K : Type*) [LinearOrder K] where
  bit : K → ℕ → Bool
  lt_iff : ∀ a b : K, a < b ↔
    ∃ d, (∀ i < d, bit a i = bit b i) ∧ bit a d = false ∧ bit b d = true

namespace BitKey

variable {K : Type*} [LinearOrder K] [BitKey K]

/-- The two keys agree at every position below `d`. -/
def AgreeBelow (d : ℕ) (a b : K) : Prop := ∀ i < d, bit a i = bit b i

/-- `a` and `b` first differ at `d`, and `b` has the one bit there. -/
def DiffAt (d : ℕ) (a b : K) : Prop := AgreeBelow d a b ∧ bit a d = false ∧ bit b d = true

theorem AgreeBelow.symm {d : ℕ} {a b : K} (h : AgreeBelow d a b) : AgreeBelow d b a :=
  fun i hi => (h i hi).symm

theorem AgreeBelow.trans {d : ℕ} {a b c : K} (h₁ : AgreeBelow d a b) (h₂ : AgreeBelow d b c) :
    AgreeBelow d a c := fun i hi => (h₁ i hi).trans (h₂ i hi)

theorem AgreeBelow.mono {d e : ℕ} {a b : K} (h : AgreeBelow d a b) (he : e ≤ d) :
    AgreeBelow e a b := fun i hi => h i (lt_of_lt_of_le hi he)

theorem DiffAt.lt {d : ℕ} {a b : K} (h : DiffAt d a b) : a < b := (lt_iff a b).mpr ⟨d, h⟩

theorem exists_diffAt {a b : K} (h : a < b) : ∃ d, DiffAt d a b := (lt_iff a b).mp h

/-- The position of the first difference is unique. -/
theorem DiffAt.unique {d e : ℕ} {a b : K} (hd : DiffAt d a b) (he : DiffAt e a b) : d = e := by
  rcases Nat.lt_trichotomy d e with h | h | h
  · have := he.1 d h
    rw [hd.2.1, hd.2.2] at this
    exact absurd this (by decide)
  · exact h
  · have := hd.1 e h
    rw [he.2.1, he.2.2] at this
    exact absurd this (by decide)

/-- **The ultrametric law.**  Adjacent differences differ, and the outer one is their minimum. -/
theorem DiffAt.trans {d e : ℕ} {a b c : K} (hab : DiffAt d a b) (hbc : DiffAt e b c) :
    d ≠ e ∧ DiffAt (min d e) a c := by
  have hne : d ≠ e := by
    rintro rfl
    exact absurd (hab.2.2.symm.trans hbc.2.1) (by decide)
  refine ⟨hne, ?_, ?_, ?_⟩
  · exact (hab.1.mono (min_le_left d e)).trans (hbc.1.mono (min_le_right d e))
  · rcases lt_or_gt_of_ne hne with h | h
    · rw [min_eq_left h.le]
      exact hab.2.1
    · rw [min_eq_right h.le, hab.1 e h]
      exact hbc.2.1
  · rcases lt_or_gt_of_ne hne with h | h
    · rw [min_eq_left h.le, ← hbc.1 d h]
      exact hab.2.2
    · rw [min_eq_right h.le]
      exact hbc.2.2

/-- Below the first difference of `b` and `c`, and also at it when `b` is the smaller one, a key
that agrees with `b` past the difference behaves like `b`. -/
theorem DiffAt.congr_left {d e : ℕ} {a b c : K} (h : DiffAt d b c) (hab : AgreeBelow e a b)
    (hde : d < e) : DiffAt d a c :=
  ⟨(hab.mono hde.le).trans h.1, (hab d hde).trans h.2.1, h.2.2⟩

theorem DiffAt.congr_right {d e : ℕ} {a b c : K} (h : DiffAt d b c) (hac : AgreeBelow e a c)
    (hde : d < e) : DiffAt d b a :=
  ⟨h.1.trans (hac.mono hde.le).symm, h.2.1, (hac d hde).trans h.2.2⟩

/-- Two different keys have a first difference, in one direction or the other. -/
theorem exists_firstDiff {a b : K} (h : a ≠ b) :
    ∃ d, AgreeBelow d a b ∧ bit a d ≠ bit b d := by
  rcases lt_or_gt_of_ne h with hlt | hgt
  · obtain ⟨d, h1, h2, h3⟩ := exists_diffAt hlt
    exact ⟨d, h1, by rw [h2, h3]; decide⟩
  · obtain ⟨d, h1, h2, h3⟩ := exists_diffAt hgt
    exact ⟨d, h1.symm, by rw [h2, h3]; decide⟩

end BitKey

end MinweightStore
