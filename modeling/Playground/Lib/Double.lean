/-
  Playground.Lib.Double — whole numbers in double precision.

  A `Double` here is a whole number, an infinity or not a number. `ofInt` rounds a whole
  number to the nearest that 53 bits of significand hold, ties to even; the numbers up
  to `exact` stay as they are, and rounding never passes one of them.
-/

import Mathlib.Algebra.Ring.Nat
import Mathlib.Data.Nat.Log
import Playground.Lib.IntText

namespace Playground.Lib

inductive Double where
  | int (n : Int)
  | infinity (negative : Bool)
  | nan
  deriving DecidableEq, Repr

namespace Double

/-- The nearest number of at most 53 significant bits, of two the even one. -/
def roundNat (m : Nat) : Nat :=
  let k := m.log2 - 52
  let q := m / 2 ^ k
  let r := m % 2 ^ k
  (if 2 ^ k < 2 * r ∨ (2 ^ k = 2 * r ∧ q % 2 = 1) then q + 1 else q) * 2 ^ k

/-- From `2 ^ 1024` on a number is infinite. -/
def overflow : Nat := (2 ^ 256) ^ 4

def ofInt (n : Int) : Double :=
  if overflow ≤ roundNat n.natAbs then .infinity (n < 0) else .int (n.sign * roundNat n.natAbs)

def lt : Double → Double → Bool
  | .int a, .int b => a < b
  | .int _, .infinity negative => !negative
  | .infinity negative, .int _ => negative
  | .infinity a, .infinity b => a && !b
  | _, _ => false

def sub : Double → Double → Double
  | .int a, .int b => ofInt (a - b)
  | .int _, .infinity negative => .infinity !negative
  | .infinity negative, .int _ => .infinity negative
  | .infinity a, .infinity b => if a = b then .nan else .infinity a
  | _, _ => .nan

/-- Neither zero nor not a number. -/
def truthy : Double → Bool
  | .int n => n ≠ 0
  | .infinity _ => true
  | .nan => false

/-- All whole numbers up to here are doubles: `2 ^ 53`. -/
def exact : Nat := 9007199254740992

theorem roundNat_exact {m : Nat} (h : m ≤ exact) : roundNat m = m := by
  rcases Nat.lt_or_eq_of_le h with h | rfl
  · have hk : m.log2 - 52 = 0 := by
      by_cases h0 : m = 0
      · subst h0; rfl
      · have : m.log2 < 53 := (Nat.log2_lt h0).mpr (by simpa [exact] using h)
        omega
    simp [roundNat, hk, Nat.mod_one]
  · decide

/-- Rounding does not pass an exact number. -/
theorem le_roundNat {c m : Nat} (h : c ≤ m) (hc : c ≤ exact) : c ≤ roundNat m := by
  rcases Nat.lt_or_ge exact m with hm | hm
  · have h0 : m ≠ 0 := by omega
    have hlog : 53 ≤ m.log2 := (Nat.le_log2 h0).mpr (by simpa [exact] using hm.le)
    have hpow : 2 ^ 52 * 2 ^ (m.log2 - 52) = 2 ^ m.log2 := by rw [← Nat.pow_add]; congr 1; omega
    have hq : 2 ^ 52 ≤ m / 2 ^ (m.log2 - 52) := by
      rw [Nat.le_div_iff_mul_le (Nat.two_pow_pos _), hpow]
      exact Nat.log2_self_le h0
    calc c ≤ 2 ^ 53 := hc
      _ ≤ 2 ^ m.log2 := Nat.pow_le_pow_right (by decide) hlog
      _ = 2 ^ 52 * 2 ^ (m.log2 - 52) := hpow.symm
      _ ≤ roundNat m := by
        apply Nat.mul_le_mul_right
        split <;> omega
  · rwa [roundNat_exact hm]

theorem roundNat_le (m : Nat) : roundNat m ≤ 2 * m := by
  by_cases h0 : m = 0
  · subst h0; decide
  · have hpow : 2 ^ (m.log2 - 52) ≤ m := (Nat.pow_le_pow_right (by decide) (Nat.sub_le ..)).trans (Nat.log2_self_le h0)
    have hq : m / 2 ^ (m.log2 - 52) * 2 ^ (m.log2 - 52) ≤ m := Nat.div_mul_le_self ..
    calc roundNat m ≤ (m / 2 ^ (m.log2 - 52) + 1) * 2 ^ (m.log2 - 52) := by
          apply Nat.mul_le_mul_right
          split <;> omega
      _ ≤ 2 * m := by rw [Nat.add_mul, Nat.one_mul]; omega

/-- A number of 53 significant bits is not rounded. -/
theorem roundNat_significand {a k : Nat} (h1 : 2 ^ 52 ≤ a) (h2 : a < 2 ^ 53) : roundNat (a * 2 ^ k) = a * 2 ^ k := by
  have hpos : 0 < 2 ^ k := Nat.two_pow_pos k
  have hlog : (a * 2 ^ k).log2 = 52 + k := by
    have h0 : a * 2 ^ k ≠ 0 := (Nat.mul_pos (by omega) hpos).ne'
    rw [Nat.log2_eq_iff h0, Nat.pow_add, show 52 + k + 1 = 53 + k by omega, Nat.pow_add]
    exact ⟨Nat.mul_le_mul_right _ h1, Nat.mul_lt_mul_of_pos_right h2 hpos⟩
  have hk : (a * 2 ^ k).log2 - 52 = k := by omega
  have hup : ¬ (2 ^ k < 2 * 0 ∨ (2 ^ k = 2 * 0 ∧ a % 2 = 1)) := by omega
  simp only [roundNat, hk, Nat.mul_div_cancel a hpos, Nat.mul_mod_left, if_neg hup]

/-- What is rounded stays. -/
theorem roundNat_roundNat (m : Nat) : roundNat (roundNat m) = roundNat m := by
  rcases Nat.lt_or_ge exact m with hm | hm
  · have h0 : m ≠ 0 := by omega
    have hlog : 53 ≤ m.log2 := (Nat.le_log2 h0).mpr (by simpa [exact] using hm.le)
    have hsplit : ∀ e, 2 ^ (e + m.log2 - 52) = 2 ^ e * 2 ^ (m.log2 - 52) := by
      intro e
      rw [← Nat.pow_add]
      congr 1
      omega
    have hlow : 2 ^ 52 ≤ m / 2 ^ (m.log2 - 52) := by
      rw [Nat.le_div_iff_mul_le (Nat.two_pow_pos _), ← hsplit, Nat.add_sub_cancel_left]
      exact Nat.log2_self_le h0
    have hhigh : m / 2 ^ (m.log2 - 52) < 2 ^ 53 := by
      rw [Nat.div_lt_iff_lt_mul (Nat.two_pow_pos _), ← hsplit, show 53 + m.log2 - 52 = m.log2 + 1 by omega]
      exact Nat.lt_log2_self
    obtain ⟨a, ha, h1, h2⟩ : ∃ a, roundNat m = a * 2 ^ (m.log2 - 52) ∧ 2 ^ 52 ≤ a ∧ a ≤ 2 ^ 53 := by
      refine ⟨_, rfl, ?_, ?_⟩ <;> split <;> omega
    rw [ha]
    rcases Nat.lt_or_eq_of_le h2 with h2 | rfl
    · exact roundNat_significand h1 h2
    · -- the next power of two, with one bit less to cut off
      have hnext : 2 ^ 53 * 2 ^ (m.log2 - 52) = 2 ^ 52 * 2 ^ (m.log2 - 52 + 1) := by
        rw [← Nat.pow_add, ← Nat.pow_add]
        congr 1
        omega
      rw [hnext]
      exact roundNat_significand (Nat.le_refl _) (by decide)
  · rw [roundNat_exact hm, roundNat_exact hm]

/-! ## Integers as doubles -/

variable {n : Int}

theorem ofInt_of_le (h : n.natAbs ≤ 10 ^ 22) : ofInt n = .int (n.sign * roundNat n.natAbs) := by
  have hle : roundNat n.natAbs < overflow :=
    calc roundNat n.natAbs ≤ 2 * n.natAbs := roundNat_le _
      _ ≤ 2 * 10 ^ 22 := Nat.mul_le_mul_left 2 h
      _ < overflow := by decide
  rw [ofInt, if_neg (Nat.not_le.mpr hle)]

theorem ofInt_exact (h : n.natAbs ≤ exact) : ofInt n = .int n := by
  have hle : n.natAbs ≤ 10 ^ 22 := h.trans (by decide)
  rw [ofInt_of_le hle, roundNat_exact h, Int.sign_mul_natAbs]

/-- A double is its own double. -/
theorem ofInt_ofInt (h : n.natAbs ≤ 10 ^ 20) : ofInt (n.sign * roundNat n.natAbs) = ofInt n := by
  have hle : n.natAbs ≤ 10 ^ 22 := h.trans (by decide)
  by_cases h0 : n = 0
  · subst h0; rfl
  · have hpos : 1 ≤ roundNat n.natAbs := le_roundNat (by omega) (by decide)
    have habs : (n.sign * roundNat n.natAbs).natAbs = roundNat n.natAbs := by
      rw [Int.natAbs_mul, Int.natAbs_sign_of_ne_zero h0, Nat.one_mul, Int.natAbs_natCast]
    have hsign : (n.sign * roundNat n.natAbs).sign = n.sign := by
      have hpos' : (0 : Int) < roundNat n.natAbs := by omega
      rw [Int.sign_mul, Int.sign_eq_one_of_pos hpos', Int.mul_one, Int.sign_sign]
    have hbound : (n.sign * roundNat n.natAbs).natAbs ≤ 10 ^ 22 := by
      have := roundNat_le n.natAbs
      rw [habs]
      omega
    rw [ofInt_of_le hbound, ofInt_of_le hle, habs, hsign, roundNat_roundNat]

theorem truthy_ofInt (n : Int) : (ofInt n).truthy = decide (n ≠ 0) := by
  unfold ofInt
  split
  · have hn : n ≠ 0 := by
      rintro rfl
      exact absurd ‹_› (by decide)
    simp [truthy, hn]
  · by_cases h0 : n = 0
    · subst h0; rfl
    · have hpos : 1 ≤ roundNat n.natAbs := le_roundNat (by omega) (by decide)
      have hround : roundNat n.natAbs ≠ 0 := by omega
      simp [truthy, h0, hround]

/-- An exact number below a number is below its double. -/
theorem lt_ofInt {a : Int} (ha : 0 ≤ a) (hexact : a < exact) (h : a < n) : (Double.int a).lt (ofInt n) = true := by
  have hn : ¬ n < 0 := by omega
  unfold ofInt
  split
  · simp [lt, hn]
  · have hle : (a + 1).toNat ≤ roundNat n.natAbs := le_roundNat (by omega) (by omega)
    have hsign : n.sign = 1 := Int.sign_eq_one_of_pos (by omega)
    simp only [lt, hsign, Int.one_mul, decide_eq_true_eq]
    omega

end Double

/-! ## Doubles as text -/

/-- A writer and a reader of doubles, as JavaScript's `toString` and `parseInt`: far
    below the size at which the writer goes over to exponents they agree. What the
    reader makes of any other text is left open. -/
structure DoubleText where
  toString : Double → String
  parseInt : String → Double
  parseInt_toString : ∀ n : Int, n.natAbs ≤ 10 ^ 20 → parseInt (toString (.ofInt n)) = .ofInt n

namespace DoubleText

/-- Decimal digits with an optional minus sign. -/
def decimal : DoubleText where
  toString
    | .int n => n.repr
    | .infinity negative => if negative then "-Infinity" else "Infinity"
    | .nan => "NaN"
  parseInt s := match IntText.readDecimal s with
    | some n => .ofInt n
    | none => .nan
  parseInt_toString n hn := by
    rw [Double.ofInt_of_le (hn.trans (by decide))]
    simp only [IntText.readDecimal_repr]
    rw [Double.ofInt_ofInt hn, Double.ofInt_of_le (hn.trans (by decide))]

end DoubleText

end Playground.Lib
