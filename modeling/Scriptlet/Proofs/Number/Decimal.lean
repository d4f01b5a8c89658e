/-
  Scriptlet.Proofs.Number.Decimal

  Decimal numerals and what they are read back as. A numeral has the value it
  was written for (`Bytes.value_ofNat`), moving zeros between the digits and the
  exponent of a decimal does not change the nearest number
  (`Double.ofDecimal_mul_pow`), and the digits chosen for a finite number are
  read back as this number (`Decimal.nearest_shortest`).
-/
import Scriptlet.Number.Decimal
import Scriptlet.Number.Numeral
import Scriptlet.Proofs.Number.Rounding
import Mathlib.Data.List.TakeWhile

namespace Scriptlet

/-! ## Numerals -/

namespace Bytes

theorem toNat_digit {d : Nat} (h : d < 10) : (digit d).toNat = 48 + d := by
  rw [digit, UInt8.toNat_ofNat']
  omega

theorem isDigit_iff {b : UInt8} : isDigit b = true ↔ 48 ≤ b.toNat ∧ b.toNat ≤ 57 := by
  simp [isDigit, UInt8.le_iff_toNat_le]

theorem isDigit_digit {d : Nat} (h : d < 10) : isDigit (digit d) = true := by
  rw [isDigit_iff, toNat_digit h]
  omega

theorem value_append (xs ys : Bytes) : value (xs ++ ys) = value xs * 10 ^ ys.length + value ys := by
  induction ys using List.reverseRecOn with
  | nil => simp [value]
  | append_singleton ys d ih =>
    have hsnoc : ∀ zs : Bytes, value (zs ++ [d]) = 10 * value zs + (d.toNat - 48) := by
      intro zs
      simp [value]
    rw [← List.append_assoc, hsnoc, hsnoc, ih, List.length_append, List.length_singleton, pow_succ]
    ring

theorem value_singleton {d : Nat} (h : d < 10) : value [digit d] = d := by
  show 10 * 0 + ((digit d).toNat - 48) = d
  rw [toNat_digit h]
  omega

theorem value_ofNat (n : Nat) : value (ofNat n) = n := by
  induction n using Nat.strong_induction_on with
  | _ n ih =>
    rw [ofNat]
    split
    · rename_i h
      exact value_singleton h
    · have hmod : n % 10 < 10 := Nat.mod_lt _ (by decide)
      rw [value_append, ih (n / 10) (by omega), value_singleton hmod, List.length_singleton]
      omega

theorem ofNat_ne_nil (n : Nat) : ofNat n ≠ [] := by
  rw [ofNat]
  split <;> simp

theorem length_ofNat_pos (n : Nat) : 0 < (ofNat n).length :=
  List.length_pos_iff.mpr (ofNat_ne_nil n)

theorem isDigit_of_mem_ofNat {n : Nat} {b : UInt8} (h : b ∈ ofNat n) : isDigit b = true := by
  induction n using Nat.strong_induction_on with
  | _ n ih =>
    rw [ofNat] at h
    split at h
    · rename_i hlt
      rw [List.mem_singleton.mp h]
      exact isDigit_digit hlt
    · rcases List.mem_append.mp h with h | h
      · exact ih (n / 10) (by omega) h
      · rw [List.mem_singleton.mp h]
        exact isDigit_digit (Nat.mod_lt _ (by decide))

theorem isDigit_of_mem_zeros {n : Nat} {b : UInt8} (h : b ∈ List.replicate n 48) :
    isDigit b = true := by
  rw [List.eq_of_mem_replicate h]
  rfl

theorem value_replicate_zero (n : Nat) : value (List.replicate n 48) = 0 := by
  induction n with
  | zero => rfl
  | succ n ih =>
    rw [List.replicate_succ', value_append, ih]
    rfl

end Bytes

/-! ## Zeros between digits and exponent -/

namespace Double

variable {negative : Bool} {m : Nat} {e : Int}

theorem ofRatio_eq_of_cross {a b c d : Nat} (ha : 0 < a) (hb : 0 < b) (hd : 0 < d)
    (h : a * d = c * b) : ofRatio negative a b = ofRatio negative c d := by
  have hc : c ≠ 0 := by
    rintro rfl
    have := Nat.mul_pos ha hd
    omega
  unfold ofRatio
  rw [if_neg (by simpa using Nat.pos_iff_ne_zero.mp ha), if_neg (by simpa using hc),
    roundBits_eq_of_cross ha hb hd h]

theorem ofDecimal_of_le (hm : 0 < m) (he : e ≤ 1100) :
    ofDecimal negative m e = if (m.log2 : Int) / 3 + e < -1100 then ofMagnitude negative 0
      else ofRatio negative (m * 10 ^ e.toNat) (10 ^ (-e).toNat) := by
  unfold ofDecimal
  rw [if_neg (by simpa using Nat.pos_iff_ne_zero.mp hm)]
  simp only
  rw [if_neg (Int.not_lt.mpr he)]
  rfl

theorem two_pow_le_ten_pow {k n : Nat} (h : k ≤ n) : 2 ^ k ≤ 10 ^ n :=
  Nat.le_trans (Nat.pow_le_pow_left (by decide) k) (Nat.pow_le_pow_right (by decide) h)

theorem ofDecimal_huge (hm : 0 < m) (he : 1100 ≤ e) :
    ofDecimal negative m e = ofMagnitude negative infinityBits := by
  -- At 1100 itself the ratio is formed, but it lies beyond the range.
  by_cases hlt : 1100 < e
  · unfold ofDecimal
    rw [if_neg (by simpa using Nat.pos_iff_ne_zero.mp hm)]
    simp only
    rw [if_pos hlt]
  · have hpos : 0 < m * 10 ^ e.toNat := Nat.mul_pos hm (Nat.pow_pos (by decide))
    have hexp : 1024 ≤ e.toNat := by omega
    have hpow : 1 * 2 ^ 1024 ≤ m * 10 ^ e.toNat :=
      Nat.mul_le_mul hm (two_pow_le_ten_pow hexp)
    rw [ofDecimal_of_le hm (Int.not_lt.mp hlt), if_neg (by omega), ofRatio,
      if_neg (by simpa using Nat.pos_iff_ne_zero.mp hpos), show (-e).toNat = 0 by omega, pow_zero,
      roundBits_eq_infinity Nat.one_pos hpow]

theorem ten_pow_gt {k p : Nat} (h : m.log2 / 3 + 1 + (p + 2) ≤ k) :
    2 * (m * 10 * 2 ^ p) < 10 ^ k := by
  -- A decimal digit holds at least three bits.
  have hlog : m.log2 + 1 ≤ 3 * (m.log2 / 3 + 1) := by omega
  have hlt : m < 10 ^ (m.log2 / 3 + 1) :=
    calc m < 2 ^ (m.log2 + 1) := Nat.lt_log2_self
      _ ≤ 2 ^ (3 * (m.log2 / 3 + 1)) := Nat.pow_le_pow_right (by decide) hlog
      _ = (2 ^ 3) ^ (m.log2 / 3 + 1) := pow_mul _ _ _
      _ ≤ 10 ^ (m.log2 / 3 + 1) := Nat.pow_le_pow_left (by decide) _
  calc 2 * (m * 10 * 2 ^ p) = m * (20 * 2 ^ p) := by ring
    _ ≤ m * (10 ^ p * 10 ^ 2) := by
        have := Nat.pow_le_pow_left (show 2 ≤ 10 by decide) p
        exact Nat.mul_le_mul_left m (by omega)
    _ = m * 10 ^ (p + 2) := by rw [pow_add]
    _ < 10 ^ (m.log2 / 3 + 1) * 10 ^ (p + 2) :=
        Nat.mul_lt_mul_of_pos_right hlt (Nat.pow_pos (by decide))
    _ = 10 ^ (m.log2 / 3 + 1 + (p + 2)) := (pow_add _ _ _).symm
    _ ≤ 10 ^ k := Nat.pow_le_pow_right (by decide) h

/-- Too many decimal places for the digits: the ratio is below all numbers. -/
theorem ofRatio_tiny (hm : 0 < m) {k : Nat} (h : m.log2 / 3 + 1077 ≤ k) :
    ofRatio negative (m * 10) (10 ^ k) = ofMagnitude negative 0 := by
  have hpos : 0 < m * 10 := Nat.mul_pos hm (by decide)
  rw [ofRatio, if_neg (by simpa using Nat.pos_iff_ne_zero.mp hpos),
    roundBits_eq_zero hpos (ten_pow_gt (by omega))]

theorem log2_mul_ten (hm : 0 < m) : m.log2 / 3 + 1 ≤ (m * 10).log2 / 3 := by
  have h : m.log2 + 3 ≤ (m * 10).log2 := by
    rw [Nat.le_log2 (by omega), pow_add]
    have := Nat.log2_self_le (n := m) (by omega)
    omega
  omega

/-- Moving a zero from the digits to the exponent. -/
theorem ofDecimal_mul_ten (m : Nat) (e : Int) :
    ofDecimal negative (m * 10) e = ofDecimal negative m (e + 1) := by
  rcases Nat.eq_zero_or_pos m with rfl | hm
  · simp [ofDecimal]
  have hm' : 0 < m * 10 := by omega
  by_cases hhuge : 1100 ≤ e
  · rw [ofDecimal_huge hm' hhuge, ofDecimal_huge hm (by omega)]
  -- The three tests of size, in the order of the definition.
  have hlog := log2_mul_ten hm
  rw [ofDecimal_of_le hm' (by omega), ofDecimal_of_le hm (by omega)]
  by_cases hsmall : ((m * 10).log2 : Int) / 3 + e < -1100
  · rw [if_pos hsmall, if_pos (by omega)]
  rw [if_neg hsmall]
  by_cases htiny : (m.log2 : Int) / 3 + (e + 1) < -1100
  · -- Only the digits with the zero pass the test of size, and round to zero.
    rw [if_pos htiny, show e.toNat = 0 by omega, pow_zero, Nat.mul_one]
    exact ofRatio_tiny hm (by omega)
  · rw [if_neg htiny]
    refine ofRatio_eq_of_cross (Nat.mul_pos hm' (Nat.pow_pos (by decide)))
      (Nat.pow_pos (by decide)) (Nat.pow_pos (by decide)) ?_
    -- The ten stands in the denominator of one side or in the numerator.
    rcases lt_or_ge e 0 with hneg | hpos
    · rw [show (-e).toNat = (-(e + 1)).toNat + 1 by omega, show e.toNat = 0 by omega,
        show (e + 1).toNat = 0 by omega, pow_succ]
      ring
    · rw [show (-(e + 1)).toNat = 0 by omega, show (-e).toNat = 0 by omega,
        show (e + 1).toNat = e.toNat + 1 by omega, pow_succ]
      ring

theorem ofDecimal_mul_pow (m k : Nat) (e : Int) :
    ofDecimal negative (m * 10 ^ k) e = ofDecimal negative m (e + k) := by
  induction k generalizing e with
  | zero => simp
  | succ k ih =>
    rw [pow_succ, ← Nat.mul_assoc, ofDecimal_mul_ten, ih]
    congr 1
    push_cast
    ring

/-! ## What reading gives -/

theorem ofDecimal_eq_ofMagnitude (m : Nat) (e : Int) :
    ∃ n, ofDecimal false m e = ofMagnitude false n ∧ n ≤ infinityBits := by
  unfold ofDecimal
  split
  · exact ⟨0, rfl, Nat.zero_le _⟩
  simp only
  split
  · exact ⟨infinityBits, rfl, Nat.le_refl _⟩
  split
  · exact ⟨0, rfl, Nat.zero_le _⟩
  unfold ofRatio
  split
  · exact ⟨0, rfl, Nat.zero_le _⟩
  · exact ⟨_, rfl, roundBits_le_infinity _ _⟩

theorem infinityBits_lt_signBit : infinityBits < signBit := by decide

/-- Digits are never read as a negative number. -/
theorem isNegative_ofDecimal (m : Nat) (e : Int) : (ofDecimal false m e).isNegative = false := by
  obtain ⟨n, h, hn⟩ := ofDecimal_eq_ofMagnitude m e
  rw [h]
  exact isNegative_ofMagnitude (Nat.lt_of_le_of_lt hn infinityBits_lt_signBit)

/-- Digits are always read as a number. -/
theorem isNaN_ofDecimal (m : Nat) (e : Int) : (ofDecimal false m e).isNaN = false := by
  obtain ⟨n, h, hn⟩ := ofDecimal_eq_ofMagnitude m e
  rw [h, isNaN, magnitude_ofMagnitude (Nat.lt_of_le_of_lt hn infinityBits_lt_signBit)]
  exact decide_eq_false (by omega)

end Double

/-! ## The digits of a number -/

namespace Decimal

variable {x : Double}

/-- The number nearest to a decimal. -/
def nearest (d : Decimal) : Double := Double.ofDecimal false d.digits d.exp

theorem nearest_of_readsBack (hx : x.isNegative = false) {d : Decimal}
    (h : readsBack x d = true) : d.nearest = x := by
  have hmag : d.nearest.magnitude = x.magnitude := eq_of_beq h
  have hd : d.nearest.isNegative = false := Double.isNegative_ofDecimal d.digits d.exp
  rw [← Double.ofMagnitude_magnitude hd, hmag, Double.ofMagnitude_magnitude hx]

theorem nearest_strip (n : Nat) (d : Decimal) : (strip n d).nearest = d.nearest := by
  induction n generalizing d with
  | zero => rfl
  | succ n ih =>
    rw [strip]
    split
    · rename_i h
      have hmod : d.digits % 10 = 0 := by
        simp only [Bool.and_eq_true, beq_iff_eq] at h
        exact h.2
      have hdigits : d.digits = d.digits / 10 * 10 := by omega
      rw [ih]
      show Double.ofDecimal false (d.digits / 10) (d.exp + 1) =
        Double.ofDecimal false d.digits d.exp
      conv_rhs => rw [hdigits]
      exact (Double.ofDecimal_mul_ten _ _).symm
    · rfl

theorem readsBack_of_onGrid {e : Int} {d : Decimal} (h : onGrid x e = some d) :
    readsBack x d = true := by
  unfold onGrid at h
  simp only at h
  split at h
  · rename_i hbelow habove
    cases h
    split <;> assumption
  · rename_i hbelow habove
    cases h
    exact hbelow
  · rename_i hbelow habove
    cases h
    exact habove
  · cases h

/-- The exact value of a finite number is read back without rounding. -/
theorem nearest_exact (hx : x.isNegative = false) (hzero : x.isZero = false)
    (hfinite : x.isFinite = true) : (exact x).nearest = x := by
  have hratio : Double.ofRatio false x.ratio.1 x.ratio.2 = x := by
    rw [Double.ofRatio,
      if_neg (by simpa using Nat.pos_iff_ne_zero.mp (Double.ratio_fst_pos hzero)),
      Double.roundBits_ratio hzero hfinite, Double.ofMagnitude_magnitude hx]
  have hm := Double.mantissa_pos hzero
  have hfloor := x.exponent_ge
  -- Both sides are ratios, so they are compared crosswise.
  conv_rhs => rw [← hratio]
  unfold exact
  split
  · rename_i hexp
    have hnum : 0 < x.mantissa * 2 ^ x.exponent.toNat := Nat.mul_pos hm (Nat.pow_pos (by decide))
    show Double.ofDecimal false (x.mantissa * 2 ^ x.exponent.toNat) 0 = _
    rw [Double.ofDecimal_of_le hnum (by decide), if_neg (by omega)]
    refine Double.ofRatio_eq_of_cross (Nat.mul_pos hnum Nat.one_pos) Nat.one_pos
      x.ratio_snd_pos ?_
    show x.mantissa * 2 ^ x.exponent.toNat * 1 * 2 ^ (-x.exponent).toNat =
      x.mantissa * 2 ^ x.exponent.toNat * 1
    rw [show (-x.exponent).toNat = 0 by omega, pow_zero]
    ring
  · rename_i hexp
    have hnum : 0 < x.mantissa * 5 ^ (-x.exponent).toNat :=
      Nat.mul_pos hm (Nat.pow_pos (by decide))
    show Double.ofDecimal false (x.mantissa * 5 ^ (-x.exponent).toNat) x.exponent = _
    rw [Double.ofDecimal_of_le hnum (by omega), if_neg (by omega)]
    refine Double.ofRatio_eq_of_cross (Nat.mul_pos hnum (Nat.pow_pos (by decide)))
      (Nat.pow_pos (by decide)) x.ratio_snd_pos ?_
    show x.mantissa * 5 ^ (-x.exponent).toNat * 10 ^ x.exponent.toNat * 2 ^ (-x.exponent).toNat =
      x.mantissa * 2 ^ x.exponent.toNat * 10 ^ (-x.exponent).toNat
    have hten : 10 ^ (-x.exponent).toNat = 5 ^ (-x.exponent).toNat * 2 ^ (-x.exponent).toNat :=
      mul_pow 5 2 _
    rw [show x.exponent.toNat = 0 by omega, hten]
    ring

/-- The digits chosen for a finite number are read back as this number. -/
theorem nearest_shortest (hx : x.isNegative = false) (hfinite : x.isFinite = true) :
    (shortest x).nearest = x := by
  unfold shortest
  split
  · rename_i hzero
    have hmag : x.magnitude = 0 := by simpa [Double.isZero] using hzero
    rw [← Double.ofMagnitude_magnitude hx, hmag]
    rfl
  · rename_i hzero
    have hzero' : x.isZero = false := by simpa using hzero
    simp only
    rw [nearest_strip]
    -- What no grid of at most 17 digits reads back is written exactly.
    cases hfound : (List.range 17).findSome? fun n =>
        onGrid x (scale x.ratio.1 x.ratio.2 - (n + 1 : Nat)) with
    | none => exact nearest_exact hx hzero' hfinite
    | some d =>
      obtain ⟨n, _, hn⟩ := List.exists_of_findSome?_eq_some hfound
      exact nearest_of_readsBack hx (readsBack_of_onGrid hn)

end Decimal

/-! ## Positional text -/

/-- A text that is read as a decimal fraction: digits on both sides of a
    point. -/
def Fraction (bs : Bytes) (x : Double) : Prop :=
  ∃ whole fraction, bs = whole ++ 46 :: fraction ∧ whole ≠ [] ∧ fraction ≠ [] ∧
    (∀ b ∈ whole, Bytes.isDigit b = true) ∧ (∀ b ∈ fraction, Bytes.isDigit b = true) ∧
    Double.ofDecimal false (Bytes.value (whole ++ fraction)) (-(fraction.length : Int)) = x

theorem Decimal.positional_eq {d : Decimal} {k : Nat} (h : d.exp = k) :
    d.positional = Bytes.ofNat d.digits ++ List.replicate k 48 := by
  rw [positional, if_pos (by omega), h]
  rfl

theorem Decimal.isDigit_of_mem_positional {d : Decimal} (h : 0 ≤ d.exp) {b : UInt8}
    (hb : b ∈ d.positional) : Bytes.isDigit b = true := by
  obtain ⟨k, hk⟩ := Int.eq_ofNat_of_zero_le h
  rw [positional_eq hk] at hb
  rcases List.mem_append.mp hb with hb | hb
  · exact Bytes.isDigit_of_mem_ofNat hb
  · exact Bytes.isDigit_of_mem_zeros hb

theorem Decimal.positional_of_nonneg {d : Decimal} (h : 0 ≤ d.exp) :
    Fraction (d.positional ++ text ".0") d.nearest ∧ d.positional.contains 46 = false := by
  obtain ⟨k, hk⟩ := Int.eq_ofNat_of_zero_le h
  refine ⟨⟨d.positional, [48], rfl, ?_, by simp, fun b => isDigit_of_mem_positional h, ?_, ?_⟩, ?_⟩
  · rw [positional_eq hk]
    simp [Bytes.ofNat_ne_nil]
  · intro b hb
    rw [List.mem_singleton.mp hb]
    rfl
  · have hvalue : Bytes.value (d.positional ++ [48]) = d.digits * 10 ^ (k + 1) := by
      rw [Bytes.value_append, positional_eq hk, Bytes.value_append, Bytes.value_ofNat,
        Bytes.value_replicate_zero, List.length_replicate, pow_succ]
      show (d.digits * 10 ^ k + 0) * 10 ^ 1 + 0 = _
      ring
    rw [hvalue, Double.ofDecimal_mul_pow]
    show Double.ofDecimal false d.digits _ = Double.ofDecimal false d.digits d.exp
    congr 1
    rw [hk]
    push_cast
    simp
  · by_contra hmem
    have := isDigit_of_mem_positional h (b := 46) (by simpa using hmem)
    exact absurd this (by decide)

theorem Decimal.positional_of_neg {d : Decimal} (h : d.exp < 0) :
    Fraction d.positional d.nearest := by
  obtain ⟨k, hk⟩ : ∃ k : Nat, d.exp = -(k : Int) := ⟨(-d.exp).toNat, by omega⟩
  have hplaces : (-d.exp).toNat = k := by omega
  have hread : Double.ofDecimal false d.digits (-(k : Int)) = d.nearest := by rw [← hk]; rfl
  have hlen := Bytes.length_ofNat_pos d.digits
  rw [positional, if_neg (by omega), hplaces]
  simp only
  split
  · -- All digits stand behind the point, after zeros.
    rename_i hle
    refine ⟨text "0", List.replicate (k - (Bytes.ofNat d.digits).length) 48 ++ Bytes.ofNat d.digits,
      by rw [List.append_assoc]; rfl, by decide, ?_, List.all_eq_true.mp (by decide), ?_, ?_⟩
    · simp [Bytes.ofNat_ne_nil]
    · intro b hb
      rcases List.mem_append.mp hb with hb | hb
      · exact Bytes.isDigit_of_mem_zeros hb
      · exact Bytes.isDigit_of_mem_ofNat hb
    · rw [Bytes.value_append, Bytes.value_append, Bytes.value_replicate_zero, Bytes.value_ofNat,
        show Bytes.value (text "0") = 0 by decide, Nat.zero_mul, Nat.zero_mul, Nat.zero_add,
        Nat.zero_add, List.length_append, List.length_replicate, Nat.sub_add_cancel hle]
      exact hread
  · rename_i hlt
    refine ⟨(Bytes.ofNat d.digits).take ((Bytes.ofNat d.digits).length - k),
      (Bytes.ofNat d.digits).drop ((Bytes.ofNat d.digits).length - k), rfl, ?_, ?_, ?_, ?_, ?_⟩
    · rw [← List.length_pos_iff, List.length_take]
      omega
    · rw [← List.length_pos_iff, List.length_drop]
      omega
    · intro b hb
      exact Bytes.isDigit_of_mem_ofNat (List.mem_of_mem_take hb)
    · intro b hb
      exact Bytes.isDigit_of_mem_ofNat (List.mem_of_mem_drop hb)
    -- The point only cuts the digits in two.
    · rw [List.take_append_drop, Bytes.value_ofNat, List.length_drop,
        show (Bytes.ofNat d.digits).length - ((Bytes.ofNat d.digits).length - k) = k by omega]
      exact hread

/-- A numeral that starts with a digit has no sign. -/
theorem Numeral.sign_of_digit {b : UInt8} {bs : Bytes} (hb : Bytes.isDigit b = true) :
    Numeral.sign (b :: bs) = (false, b :: bs) := by
  have hminus : b ≠ 45 := by rintro rfl; exact absurd hb (by decide)
  have hplus : b ≠ 43 := by rintro rfl; exact absurd hb (by decide)
  unfold Numeral.sign
  split
  · rename_i heq
    exact absurd (List.cons.inj heq).1 hminus
  · rename_i heq
    exact absurd (List.cons.inj heq).1 hplus
  · rfl

/-- An exponent that is there starts with its mark. -/
theorem Numeral.eq_nil_or_mark_of_readExponent {tail : Bytes} {e : Int}
    (h : readExponent tail = some e) :
    tail = [] ∨ ∃ rest, tail = 101 :: rest ∨ tail = 69 :: rest := by
  cases tail with
  | nil => exact .inl rfl
  | cons mark rest =>
    rw [readExponent] at h
    split at h
    · rename_i hmark
      rw [Bool.or_eq_true, beq_iff_eq, beq_iff_eq] at hmark
      rcases hmark with rfl | rfl
      · exact .inr ⟨rest, .inl rfl⟩
      · exact .inr ⟨rest, .inr rfl⟩
    · cases h

/-- Digits, a point with further digits if there are any, and an exponent are read as the
    number they stand for. -/
theorem Numeral.readDouble_of_parts {whole : Bytes} (fraction tail : Bytes) {e : Int}
    (hwhole : whole ≠ [])
    (dwhole : ∀ b ∈ whole, Bytes.isDigit b = true)
    (dfraction : ∀ b ∈ fraction, Bytes.isDigit b = true) (htail : readExponent tail = some e) :
    readDouble (whole ++ ((if fraction = [] then [] else 46 :: fraction) ++ tail)) =
      some (Double.ofDecimal false (Bytes.value (whole ++ fraction)) (e - fraction.length)) := by
  have hsign (rest : Bytes) : sign (whole ++ rest) = (false, whole ++ rest) := by
    obtain ⟨b, more, rfl⟩ := List.exists_cons_of_ne_nil hwhole
    exact sign_of_digit (dwhole b List.mem_cons_self)
  have hempty : whole.isEmpty = false := List.isEmpty_eq_false_iff.mpr hwhole
  have hbehind : tail.takeWhile Bytes.isDigit = [] ∧ tail.dropWhile Bytes.isDigit = tail := by
    obtain rfl | ⟨rest, rfl | rfl⟩ := eq_nil_or_mark_of_readExponent htail
    · exact ⟨rfl, rfl⟩
    all_goals exact ⟨List.takeWhile_cons_of_neg (by decide), List.dropWhile_cons_of_neg (by decide)⟩
  unfold readDouble readUnsigned
  rw [hsign]
  by_cases hfraction : fraction = []
  · subst hfraction
    have htake : (whole ++ tail).takeWhile Bytes.isDigit = whole := by
      rw [List.takeWhile_append_of_pos dwhole, hbehind.1, List.append_nil]
    -- What is behind the digits is no point, so the exponent is read there.
    simp only [if_true, List.nil_append, htake, List.drop_left, hempty, Bool.false_and,
      Bool.false_eq_true, if_false]
    obtain rfl | ⟨rest, rfl | rfl⟩ := eq_nil_or_mark_of_readExponent htail
    all_goals exact congrArg (fun e? : Option Int =>
      (e?.map fun e => (Bytes.value (whole ++ []), e - 0)).map fun d =>
        Double.ofDecimal false d.1 d.2) htail
  · have htake : (whole ++ 46 :: (fraction ++ tail)).takeWhile Bytes.isDigit = whole := by
      rw [List.takeWhile_append_of_pos dwhole, List.takeWhile_cons_of_neg (by decide),
        List.append_nil]
    have htake' : (fraction ++ tail).takeWhile Bytes.isDigit = fraction := by
      rw [List.takeWhile_append_of_pos dfraction, hbehind.1, List.append_nil]
    have hdrop' : (fraction ++ tail).dropWhile Bytes.isDigit = tail := by
      rw [List.dropWhile_append_of_pos dfraction, hbehind.2]
    simp only [if_neg hfraction, List.cons_append, htake, List.drop_left, htake', hdrop', hempty,
      Bool.false_and, Bool.false_eq_true, if_false, htail, Option.map_some]

/-- Digits around a point are read as the number they stand for. -/
theorem Fraction.readDouble {bs : Bytes} {x : Double} (h : Fraction bs x) :
    Numeral.readDouble bs = some x := by
  obtain ⟨whole, fraction, rfl, hwhole, hfraction, dwhole, dfraction, hx⟩ := h
  have hread := Numeral.readDouble_of_parts fraction [] hwhole dwhole dfraction rfl
  rwa [if_neg hfraction, List.append_nil, Int.zero_sub, hx] at hread

end Scriptlet
