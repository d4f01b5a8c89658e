/-
  Scriptlet.Proofs.Number.Range

  Which decimals are read as a finite number.

  The greatest finite number has 53 bits that are all ones. Half a step above it the
  rounding goes to the even neighbour, which is beyond the range. So from there on
  (`Double.beyond`) and not before, a ratio is rounded to the infinity
  (`roundBits_eq_infinity_iff`), and a decimal is read as the infinity
  (`isInfinite_ofDecimal_iff`).
-/
import Scriptlet.Proofs.Number.Decimal

namespace Scriptlet.Double

/-! ## Rounding a quotient -/

theorem roundDiv_le (num den : Nat) : roundDiv num den ≤ num / den + 1 := by
  unfold roundDiv
  simp only
  repeat' split
  all_goals omega

/-- A quotient is rounded up to an even number exactly from half a step below it on. -/
theorem succ_le_roundDiv_iff {n num half : Nat} (hodd : n % 2 = 1) (hhalf : 0 < half) :
    n + 1 ≤ roundDiv num (2 * half) ↔ (2 * n + 1) * half ≤ num := by
  have hnum := Nat.div_add_mod num (2 * half)
  have hrest := Nat.mod_lt num (show 0 < 2 * half by omega)
  have hbound : (2 * n + 1) * half = 2 * half * n + half := by ring
  rw [hbound]
  rcases Nat.lt_trichotomy (num / (2 * half)) n with hlt | heq | hgt
  · have hround := roundDiv_le num (2 * half)
    have hscaled : 2 * half * (num / (2 * half) + 1) ≤ 2 * half * n := Nat.mul_le_mul_left _ hlt
    rw [Nat.mul_succ] at hscaled
    omega
  · -- Only here the remainder decides, and a half goes up since `n` is odd.
    have hparity : (n % 2 == 0) = false := by rw [hodd]; rfl
    rw [roundDiv, heq]
    simp only [hparity, Bool.false_eq_true, if_false]
    rw [heq] at hnum
    split
    · omega
    · split <;> omega
  · have hround := div_le_roundDiv num (2 * half)
    have hscaled : 2 * half * (n + 1) ≤ 2 * half * (num / (2 * half)) := Nat.mul_le_mul_left _ hgt
    rw [Nat.mul_succ] at hscaled
    omega

/-! ## The end of the range -/

/-- Half a step above the greatest finite number. -/
def beyond : Nat := 2 ^ 1024 - 2 ^ 970

theorem beyond_eq : beyond = (2 * (2 ^ 53 - 1) + 1) * 2 ^ 970 := by
  have hpow : (2 : Nat) ^ 1024 = 2 ^ 54 * 2 ^ 970 := by rw [← pow_add]
  have hones : (2 : Nat) ^ 54 - 1 = 2 * (2 ^ 53 - 1) + 1 := by decide
  rw [beyond, hpow, ← Nat.sub_one_mul, hones]

theorem beyond_le : beyond ≤ 2 ^ 1024 := Nat.sub_le _ _

theorem le_beyond : 2 ^ 1023 ≤ beyond := by
  rw [beyond_eq, show (2 : Nat) ^ 1023 = 2 ^ 53 * 2 ^ 970 by rw [← pow_add]]
  exact Nat.mul_le_mul_right _ (by decide)

/-- The logarithm of a ratio on a grid. -/
theorem add_le_log_iff {num den : Nat} (hn : 0 < num) (hd : 0 < den) (e : Int) (k : Nat) :
    e + k ≤ Int.log 2 ((num : ℚ) / den) ↔
      2 ^ k * (den * 2 ^ e.toNat) ≤ num * 2 ^ (-e).toNat := by
  have hden : (0 : ℚ) < den := by exact_mod_cast hd
  have hcomm : (2 : ℚ) ^ e.toNat * 2 ^ k * den = 2 ^ k * (den * 2 ^ e.toNat) := by ring
  rw [← Int.zpow_le_iff_le_log (by norm_num) (ratio_pos hn hd), Nat.cast_ofNat,
    zpow_add₀ (by norm_num), zpow_natCast, two_zpow_eq, div_mul_eq_mul_div,
    div_le_div_iff₀ (by positivity) hden, hcomm]
  exact_mod_cast Iff.rfl

theorem natCast_le_log_iff {num den : Nat} (hn : 0 < num) (hd : 0 < den) (k : Nat) :
    (k : Int) ≤ Int.log 2 ((num : ℚ) / den) ↔ den * 2 ^ k ≤ num := by
  rw [le_log_iff hn hd, Int.toNat_natCast, show (-(k : Int)).toNat = 0 by omega, pow_zero,
    Nat.mul_one]

/-- A ratio is rounded to the infinity exactly from half a step above the greatest finite
    number on. -/
theorem roundBits_eq_infinity_iff {num den : Nat} (hn : 0 < num) (hd : 0 < den) :
    roundBits num den = infinityBits ↔ beyond * den ≤ num := by
  have hgrid := gridExponent_eq hn hd
  generalize hq : gridExponent num den = q at hgrid
  generalize hlog : Int.log 2 ((num : ℚ) / den) = log at hgrid
  rcases lt_trichotomy log 1023 with hlow | heq | hhigh
  · -- The ratio is at most 2 ^ 53 steps of a finer grid.
    have hfew := mt (add_le_log_iff hn hd q 53).mpr (by rw [hlog]; push_cast; omega)
    have hsteps : roundDiv (num * 2 ^ (-q).toNat) (den * 2 ^ q.toNat) ≤ 2 ^ 53 := by
      have hdiv := (Nat.div_lt_iff_lt_mul (Nat.mul_pos hd (Nat.pow_pos (by decide)))).mpr
        (Nat.not_le.mp hfew)
      have hround := roundDiv_le (num * 2 ^ (-q).toNat) (den * 2 ^ q.toNat)
      omega
    have hcoarse := Nat.mul_le_mul_right binade (show (q + 1074).toNat ≤ 2044 by omega)
    have hsmall := mt (natCast_le_log_iff hn hd 1023).mpr (by rw [hlog]; omega)
    have hbelow : num < beyond * den :=
      calc num < den * 2 ^ 1023 := Nat.not_le.mp hsmall
        _ ≤ den * beyond := Nat.mul_le_mul_left den le_beyond
        _ = beyond * den := Nat.mul_comm _ _
    refine iff_of_false (fun hinfinite => ?_) (Nat.not_le.mpr hbelow)
    rw [roundBits_of_grid hq, min_eq_left_iff, infinityBits] at hinfinite
    rw [binade] at hcoarse hinfinite
    omega
  · -- On the last grid the rounding up to 2 ^ 53 steps decides.
    obtain rfl : q = 971 := by omega
    have hstep : den * 2 ^ 971 = 2 * (den * 2 ^ 970) := by
      rw [pow_succ', Nat.mul_left_comm]
    have hbeyond : beyond * den = (2 * (2 ^ 53 - 1) + 1) * (den * 2 ^ 970) := by
      rw [beyond_eq, Nat.mul_assoc, Nat.mul_comm (2 ^ 970)]
    have hpos : 0 < den * 2 ^ 970 := by positivity
    rw [roundBits_of_grid hq, min_eq_left_iff, infinityBits,
      show (-971 : Int).toNat = 0 from rfl, show (971 : Int).toNat = 971 from rfl, pow_zero,
      Nat.mul_one, show ((971 : Int) + 1074).toNat = 2045 from rfl, binade, hstep, hbeyond,
      ← succ_le_roundDiv_iff (by decide) hpos]
    omega
  · have hle := (natCast_le_log_iff hn hd 1024).mp (by rw [hlog]; omega)
    refine iff_of_true (roundBits_eq_infinity hd hle) ?_
    rw [Nat.mul_comm]
    exact Nat.le_trans (Nat.mul_le_mul_left den beyond_le) hle

/-- Digits with a point in front of the last `k` of them are read as the infinity exactly
    from half a step above the greatest finite number on. -/
theorem isInfinite_ofDecimal_iff (m k : Nat) :
    (ofDecimal false m (-(k : Int))).isInfinite = true ↔ beyond * 10 ^ k ≤ m := by
  have hten : 0 < 10 ^ k := Nat.pow_pos (by decide)
  have hbeyond : 10 ^ k ≤ beyond * 10 ^ k :=
    Nat.le_mul_of_pos_left _ (Nat.lt_of_lt_of_le (Nat.pow_pos (by decide)) le_beyond)
  have hzero : (ofMagnitude false 0).isInfinite = false := by decide
  rcases Nat.eq_zero_or_pos m with rfl | hm
  · refine iff_of_false (by simp [ofDecimal, hzero]) (by omega)
  have hplaces : (-(-(k : Int))).toNat = k := by omega
  rw [ofDecimal_of_le hm (by omega), hplaces, show (-(k : Int)).toNat = 0 by omega, pow_zero,
    Nat.mul_one]
  split
  · -- So many digits behind the point leave a number below one.
    rename_i htiny
    have hsmall : m < 10 ^ k := by
      have hlog := ten_pow_gt (m := m) (k := k) (p := 0) (by omega)
      omega
    exact iff_of_false (by simp [hzero]) (by omega)
  · rw [ofRatio, if_neg (by simpa using Nat.pos_iff_ne_zero.mp hm), isInfinite,
      magnitude_ofMagnitude (Nat.lt_of_le_of_lt (roundBits_le_infinity _ _)
        infinityBits_lt_signBit), beq_iff_eq, roundBits_eq_infinity_iff hm hten]

/-- Digits alone are read as the infinity exactly from there on. -/
theorem isInfinite_ofNat_iff (m : Nat) :
    (ofDecimal false m 0).isInfinite = true ↔ beyond ≤ m := by
  have hone (n : Nat) : n * 10 ^ 0 = n := by simp
  have hrange := isInfinite_ofDecimal_iff m 0
  rwa [hone] at hrange

end Scriptlet.Double
