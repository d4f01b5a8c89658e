/-
  Scriptlet.Proofs.Number.Rounding

  Rounding a ratio of naturals to binary64. The result depends on the ratio
  alone (`roundBits_eq_of_cross`), is monotone enough to leave the range at both
  ends (`roundBits_eq_infinity`, `roundBits_eq_zero`), and gives back every
  finite number from its own ratio (`roundBits_ratio`).

  All of it rests on `gridExponent_eq`: the grid of a ratio lies 52 places below
  its binary logarithm.
-/
import Scriptlet.Number.Double
import Mathlib.Data.Int.Log
import Mathlib.Data.Rat.Floor
import Mathlib.Tactic.Positivity
import Mathlib.Tactic.FieldSimp
import Mathlib.Tactic.Ring

namespace Scriptlet.Double

/-! ## The grid -/

/-- A power of two with an integer exponent as a ratio of natural powers. -/
theorem two_zpow_eq (e : Int) : (2 : ℚ) ^ e = 2 ^ e.toNat / 2 ^ (-e).toNat := by
  have he : e = (e.toNat : Int) - ((-e).toNat : Int) := by omega
  conv_lhs => rw [he]
  rw [zpow_sub₀ (by norm_num), zpow_natCast, zpow_natCast]

theorem ratio_pos {num den : Nat} (hn : 0 < num) (hd : 0 < den) : (0 : ℚ) < (num : ℚ) / den := by
  have : (0 : ℚ) < num := by exact_mod_cast hn
  have : (0 : ℚ) < den := by exact_mod_cast hd
  positivity

theorem le_log_iff {num den : Nat} (hn : 0 < num) (hd : 0 < den) (e : Int) :
    e ≤ Int.log 2 ((num : ℚ) / den) ↔ den * 2 ^ e.toNat ≤ num * 2 ^ (-e).toNat := by
  have hden : (0 : ℚ) < den := by exact_mod_cast hd
  rw [← Int.zpow_le_iff_le_log (by norm_num) (ratio_pos hn hd), Nat.cast_ofNat, two_zpow_eq,
    div_le_div_iff₀ (by positivity) hden, mul_comm _ (den : ℚ)]
  exact_mod_cast Iff.rfl

/-- The binary logarithm of a ratio is the difference of the logarithms or one
    less. -/
theorem log_div_bounds {num den : Nat} (hn : 0 < num) (hd : 0 < den) :
    (num.log2 : Int) - den.log2 - 1 ≤ Int.log 2 ((num : ℚ) / den) ∧
      Int.log 2 ((num : ℚ) / den) ≤ (num.log2 : Int) - den.log2 := by
  have hden : (0 : ℚ) < den := by exact_mod_cast hd
  have hpos := ratio_pos hn hd
  have hn₁ : (2 : ℚ) ^ num.log2 ≤ num := by exact_mod_cast Nat.log2_self_le (by omega)
  have hn₂ : (num : ℚ) < 2 ^ (num.log2 + 1) := by exact_mod_cast Nat.lt_log2_self
  have hd₁ : (2 : ℚ) ^ den.log2 ≤ den := by exact_mod_cast Nat.log2_self_le (by omega)
  have hd₂ : (den : ℚ) < 2 ^ (den.log2 + 1) := by exact_mod_cast Nat.lt_log2_self
  -- Each bound compares powers of two: the numerator is bounded on one side
  -- and the denominator on the other.
  constructor
  · rw [← Int.zpow_le_iff_le_log (by norm_num) hpos, le_div_iff₀ hden]
    calc ((2 : Nat) : ℚ) ^ ((num.log2 : Int) - den.log2 - 1) * den
        ≤ (2 : ℚ) ^ ((num.log2 : Int) - den.log2 - 1) * 2 ^ ((den.log2 + 1 : Nat) : Int) := by
          rw [zpow_natCast, Nat.cast_ofNat]
          exact mul_le_mul_of_nonneg_left hd₂.le (zpow_nonneg (by norm_num) _)
      _ = 2 ^ num.log2 := by
          rw [← zpow_add₀ (by norm_num), ← zpow_natCast]
          congr 1
          push_cast
          ring
      _ ≤ num := hn₁
  · rw [← Int.lt_add_one_iff, ← Int.lt_zpow_iff_log_lt (by norm_num) hpos, div_lt_iff₀ hden]
    calc (num : ℚ) < 2 ^ ((num.log2 + 1 : Nat) : Int) := by rw [zpow_natCast]; exact hn₂
      _ = (2 : ℚ) ^ ((num.log2 : Int) - den.log2 + 1) * 2 ^ den.log2 := by
          rw [← zpow_natCast (2 : ℚ) den.log2, ← zpow_add₀ (by norm_num)]
          congr 1
          push_cast
          ring
      _ ≤ ((2 : Nat) : ℚ) ^ ((num.log2 : Int) - den.log2 + 1) * den := by
          rw [Nat.cast_ofNat]
          exact mul_le_mul_of_nonneg_left hd₁ (zpow_nonneg (by norm_num) _)

theorem gridExponent_eq {num den : Nat} (hn : 0 < num) (hd : 0 < den) :
    gridExponent num den = max (Int.log 2 ((num : ℚ) / den) - 52) (-1074) := by
  obtain ⟨hlow, hhigh⟩ := log_div_bounds hn hd
  have hguess := le_log_iff hn hd ((num.log2 : Int) - den.log2)
  -- The grid starts from the difference of the logarithms and tests it once.
  show max ((if num * 2 ^ (-((num.log2 : Int) - den.log2)).toNat <
      den * 2 ^ ((num.log2 : Int) - den.log2).toNat then _ else _) - 52) _ = _
  split
  · rename_i hlt
    -- The difference is one too large.
    have : ¬ (num.log2 : Int) - den.log2 ≤ Int.log 2 ((num : ℚ) / den) := by
      rw [hguess]
      omega
    congr 2
    omega
  · rename_i hge
    have := hguess.mpr (by omega)
    congr 2
    omega

/-- The bits on a grid that is known. -/
theorem roundBits_of_grid {num den : Nat} {q : Int} (h : gridExponent num den = q) :
    roundBits num den = min infinityBits ((q + 1074).toNat * binade +
      roundDiv (num * 2 ^ (-q).toNat) (den * 2 ^ q.toNat)) := by
  subst h
  rfl

/-! ## Only the ratio counts -/

theorem roundDiv_mul_left {k : Nat} (hk : 0 < k) (num den : Nat) :
    roundDiv (k * num) (k * den) = roundDiv num den := by
  unfold roundDiv
  have hdiv : k * num / (k * den) = num / den := Nat.mul_div_mul_left num den hk
  have hmod : 2 * (k * num % (k * den)) = k * (2 * (num % den)) := by
    rw [Nat.mul_mod_mul_left]
    ring
  simp only [hdiv, hmod, Nat.mul_lt_mul_left hk]

theorem roundBits_mul_left {k num den : Nat} (hk : 0 < k) (hn : 0 < num) (hd : 0 < den) :
    roundBits (k * num) (k * den) = roundBits num den := by
  have hratio : ((k * num : Nat) : ℚ) / (k * den : Nat) = (num : ℚ) / den := by
    have : (k : ℚ) ≠ 0 := by exact_mod_cast (Nat.pos_iff_ne_zero.mp hk)
    push_cast
    exact mul_div_mul_left _ _ this
  have hgrid : gridExponent (k * num) (k * den) = gridExponent num den := by
    rw [gridExponent_eq (Nat.mul_pos hk hn) (Nat.mul_pos hk hd), gridExponent_eq hn hd, hratio]
  unfold roundBits
  simp only [hgrid, Nat.mul_assoc, roundDiv_mul_left hk]

/-- Two ratios that are equal round to the same bits. -/
theorem roundBits_eq_of_cross {a b c d : Nat} (ha : 0 < a) (hb : 0 < b) (hd : 0 < d)
    (h : a * d = c * b) : roundBits a b = roundBits c d := by
  have hc : 0 < c := by
    rcases Nat.eq_zero_or_pos c with rfl | hc
    · have := Nat.mul_pos ha hd
      omega
    · exact hc
  rw [← roundBits_mul_left hd ha hb, ← roundBits_mul_left hb hc hd, Nat.mul_comm d a, h,
    Nat.mul_comm c b, Nat.mul_comm d b]

/-! ## The ends of the range -/

theorem roundBits_le_infinity (num den : Nat) : roundBits num den ≤ infinityBits :=
  Nat.min_le_left _ _

theorem div_le_roundDiv (num den : Nat) : num / den ≤ roundDiv num den := by
  unfold roundDiv
  simp only
  split
  · exact Nat.le_refl _
  split
  · exact Nat.le_succ _
  split
  · exact Nat.le_refl _
  · exact Nat.le_succ _

theorem roundDiv_eq_zero {num den : Nat} (h : 2 * num < den) : roundDiv num den = 0 := by
  have hlt : num < den := by omega
  rw [roundDiv, Nat.mod_eq_of_lt hlt, Nat.div_eq_of_lt hlt, if_pos h]

theorem roundDiv_mul_self {den : Nat} (hd : 0 < den) (n : Nat) : roundDiv (n * den) den = n := by
  rw [roundDiv, Nat.mul_mod_left, Nat.mul_div_cancel _ hd, if_pos (by omega)]

/-- From `2 ^ 1024` on every ratio is rounded to the infinity. -/
theorem roundBits_eq_infinity {num den : Nat} (hd : 0 < den) (h : den * 2 ^ 1024 ≤ num) :
    roundBits num den = infinityBits := by
  have hn : 0 < num := Nat.lt_of_lt_of_le (Nat.mul_pos hd (Nat.pow_pos (by decide))) h
  have hlog : (1024 : Int) ≤ Int.log 2 ((num : ℚ) / den) := by
    have hexp : (1024 : Int).toNat = 1024 := rfl
    have hnone : (-1024 : Int).toNat = 0 := rfl
    rw [le_log_iff hn hd]
    simpa only [hexp, hnone, pow_zero, Nat.mul_one] using h
  -- From here on only the grid `q` of the ratio is needed.
  have hgrid := gridExponent_eq hn hd
  generalize hq : gridExponent num den = q at hgrid
  -- The floor of the grid is far away, so the quotient fills all 53 bits.
  have hfull : binade ≤ num * 2 ^ (-q).toNat / (den * 2 ^ q.toNat) := by
    have hle := (le_log_iff hn hd (q + 52)).mp (by omega)
    rw [show (q + 52).toNat = q.toNat + 52 by omega, show (-(q + 52)).toNat = 0 by omega] at hle
    rw [Nat.le_div_iff_mul_le (by positivity), show (-q).toNat = 0 by omega]
    calc binade * (den * 2 ^ q.toNat) = den * 2 ^ (q.toNat + 52) := by
          rw [pow_add, binade]
          ring
      _ ≤ num * 2 ^ 0 := hle
  have hround := Nat.le_trans hfull (div_le_roundDiv _ _)
  have hexp : 2046 ≤ (q + 1074).toNat := by omega
  have hscaled := Nat.mul_le_mul_right binade hexp
  rw [roundBits_of_grid hq]
  refine Nat.min_eq_left ?_
  show 2047 * binade ≤ _
  omega

/-- Below half of the least subnormal every ratio is rounded to zero. -/
theorem roundBits_eq_zero {num den : Nat} (hn : 0 < num) (h : 2 * (num * 2 ^ 1074) < den) :
    roundBits num den = 0 := by
  have hd : 0 < den := Nat.lt_of_le_of_lt (Nat.zero_le _) h
  -- The ratio is below the least grid, so its grid is that one.
  have hlog : Int.log 2 ((num : ℚ) / den) < -1074 := by
    rw [← not_le, le_log_iff hn hd, show (-1074 : Int).toNat = 0 from rfl, pow_zero, Nat.mul_one,
      show (-(-1074) : Int).toNat = 1074 from rfl]
    omega
  have hq : gridExponent num den = -1074 := by
    rw [gridExponent_eq hn hd]
    omega
  have hround : roundDiv (num * 2 ^ 1074) (den * 2 ^ 0) = 0 := by
    apply roundDiv_eq_zero
    rw [pow_zero, Nat.mul_one]
    exact h
  rw [roundBits_of_grid hq, show ((-1074 : Int) + 1074).toNat = 0 from rfl,
    show (-(-1074 : Int)).toNat = 1074 from rfl, show (-1074 : Int).toNat = 0 from rfl, hround]
  rfl

/-! ## Finite numbers -/

/-- A number without its sign bit is its magnitude. -/
theorem ofMagnitude_magnitude {d : Double} (h : d.isNegative = false) :
    ofMagnitude false d.magnitude = d := by
  have hlt : d.bits.toNat < signBit := by simpa [isNegative] using h
  rw [ofMagnitude, magnitude, Nat.mod_eq_of_lt hlt, if_neg Bool.false_ne_true, Nat.add_zero,
    UInt64.ofNat_toNat]

theorem magnitude_ofMagnitude {n : Nat} (h : n < signBit) :
    (ofMagnitude false n).magnitude = n := by
  have hlt : n < 2 ^ 64 := Nat.lt_trans h (by decide)
  rw [magnitude, ofMagnitude, if_neg Bool.false_ne_true, Nat.add_zero,
    UInt64.toNat_ofNat_of_lt' hlt, Nat.mod_eq_of_lt h]

theorem isNegative_ofMagnitude {n : Nat} (h : n < signBit) :
    (ofMagnitude false n).isNegative = false := by
  have hlt : n < 2 ^ 64 := Nat.lt_trans h (by decide)
  rw [isNegative, ofMagnitude, if_neg Bool.false_ne_true, Nat.add_zero,
    UInt64.toNat_ofNat_of_lt' hlt]
  exact decide_eq_false (by omega)

theorem exponent_ge (d : Double) : -1074 ≤ d.exponent := by
  unfold exponent
  split
  · exact Int.le_refl _
  · rename_i h
    have : 1 ≤ d.magnitude / binade := (Nat.one_le_div_iff (by decide)).mpr (by omega)
    omega

/-- The magnitude bits from exponent and mantissa. -/
theorem exponent_mantissa (d : Double) :
    (d.exponent + 1074).toNat * binade + d.mantissa = d.magnitude := by
  unfold exponent mantissa
  split
  · rw [show ((-1074 : Int) + 1074).toNat = 0 from rfl, Nat.zero_mul, Nat.zero_add]
  · rename_i h
    -- The exponent field is one more than the grid counts, for the hidden bit.
    have hpos : 1 ≤ d.magnitude / binade := (Nat.one_le_div_iff (by decide)).mpr (by omega)
    have hdiv := Nat.div_add_mod d.magnitude binade
    have hexp : (((d.magnitude / binade : Nat) : Int) - 1075 + 1074).toNat =
        d.magnitude / binade - 1 := by omega
    rw [hexp]
    have hsplit : d.magnitude / binade * binade =
        (d.magnitude / binade - 1) * binade + binade := by
      rw [← Nat.succ_mul, Nat.succ_eq_add_one, Nat.sub_add_cancel hpos]
    rw [Nat.mul_comm] at hdiv
    omega

theorem ratio_snd_pos (d : Double) : 0 < d.ratio.2 := Nat.pow_pos (by decide)

theorem mantissa_pos {d : Double} (h : d.isZero = false) : 0 < d.mantissa := by
  have : d.magnitude ≠ 0 := by simpa [isZero] using h
  unfold mantissa
  split
  · omega
  · exact Nat.lt_of_lt_of_le (by decide) (Nat.le_add_left _ _)

theorem ratio_fst_pos {d : Double} (h : d.isZero = false) : 0 < d.ratio.1 :=
  Nat.mul_pos (mantissa_pos h) (Nat.pow_pos (by decide))

theorem mantissa_lt (d : Double) : d.mantissa < 2 ^ 53 := by
  have hdouble : 2 ^ 53 = binade + binade := by decide
  unfold mantissa
  split
  · omega
  · have := Nat.mod_lt d.magnitude (show 0 < binade by decide)
    omega

theorem normal_or_subnormal (d : Double) : 2 ^ 52 ≤ d.mantissa ∨ d.exponent = -1074 := by
  unfold mantissa exponent
  split
  · exact .inr rfl
  · exact .inl (Nat.le_add_left _ _)

theorem le_log_mul {m k : Nat} (h : 2 ^ k ≤ m) (e : Int) :
    k + e ≤ Int.log 2 ((m : ℚ) * 2 ^ e) := by
  have hm : (0 : ℚ) < m := by exact_mod_cast Nat.lt_of_lt_of_le (Nat.pow_pos (by decide)) h
  have hpos : (0 : ℚ) < m * 2 ^ e := mul_pos hm (zpow_pos (by norm_num) _)
  rw [← Int.zpow_le_iff_le_log (by norm_num) hpos, Nat.cast_ofNat, zpow_add₀ (by norm_num),
    zpow_natCast]
  refine mul_le_mul_of_nonneg_right ?_ (zpow_nonneg (by norm_num) _)
  exact_mod_cast h

theorem log_mul_lt {m k : Nat} (hm : 0 < m) (h : m < 2 ^ k) (e : Int) :
    Int.log 2 ((m : ℚ) * 2 ^ e) < k + e := by
  have hmq : (0 : ℚ) < m := by exact_mod_cast hm
  have hpos : (0 : ℚ) < m * 2 ^ e := mul_pos hmq (zpow_pos (by norm_num) _)
  rw [← Int.lt_zpow_iff_log_lt (by norm_num) hpos, Nat.cast_ofNat, zpow_add₀ (by norm_num),
    zpow_natCast]
  refine mul_lt_mul_of_pos_right ?_ (zpow_pos (by norm_num) _)
  exact_mod_cast h

/-- The ratio of a number is rounded on the grid of the number itself. -/
theorem gridExponent_ratio {d : Double} (h : d.isZero = false) :
    gridExponent d.ratio.1 d.ratio.2 = d.exponent := by
  have hvalue : (d.ratio.1 : ℚ) / d.ratio.2 = d.mantissa * 2 ^ d.exponent := by
    show ((d.mantissa * 2 ^ d.exponent.toNat : Nat) : ℚ) / (2 ^ (-d.exponent).toNat : Nat) = _
    rw [two_zpow_eq]
    push_cast
    ring
  have hhigh := log_mul_lt (mantissa_pos h) d.mantissa_lt d.exponent
  have hfloor := d.exponent_ge
  rw [gridExponent_eq (ratio_fst_pos h) (ratio_snd_pos d), hvalue]
  -- A normal number has its first bit 52 places above its grid; a subnormal
  -- one stands on the least grid, wherever its first bit is.
  rcases d.normal_or_subnormal with hnormal | hsub
  · have hlow := le_log_mul hnormal d.exponent
    omega
  · omega

/-- Every finite number is the number nearest to its own ratio. -/
theorem roundBits_ratio {d : Double} (hzero : d.isZero = false) (hfinite : d.isFinite = true) :
    roundBits d.ratio.1 d.ratio.2 = d.magnitude := by
  have hfin : d.magnitude < infinityBits := by simpa [isFinite] using hfinite
  rw [roundBits_of_grid (gridExponent_ratio hzero)]
  have hnum : d.ratio.1 * 2 ^ (-d.exponent).toNat =
      d.mantissa * (d.ratio.2 * 2 ^ d.exponent.toNat) := by
    show d.mantissa * 2 ^ d.exponent.toNat * 2 ^ (-d.exponent).toNat =
      d.mantissa * (2 ^ (-d.exponent).toNat * 2 ^ d.exponent.toNat)
    ring
  rw [hnum, roundDiv_mul_self (Nat.mul_pos (ratio_snd_pos d) (Nat.pow_pos (by decide))),
    exponent_mantissa]
  exact Nat.min_eq_right (Nat.le_of_lt hfin)

end Scriptlet.Double
