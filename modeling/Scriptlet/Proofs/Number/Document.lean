/-
  Scriptlet.Proofs.Number.Document

  Numbers that are written are read back: integers as their numerals
  (`Numeral.readInt64_ofInt`), and finite numbers in any notation, positional or with an
  exponent (`Double.readDouble_write`). The exponents of finite numbers are small
  (`Decimal.natAbs_leadingExponent_shortest`), so that all of their digits count for the
  reader.
-/
import Scriptlet.Proofs.Number.Range

namespace Scriptlet

/-! ## Integers -/

theorem Numeral.sign_ofInt (n : Int) :
    sign (Bytes.ofInt n) = (decide (n < 0), Bytes.ofNat n.natAbs) := by
  unfold Bytes.ofInt
  split
  · rename_i hneg
    rw [sign, decide_eq_true hneg]
  · rename_i hneg
    -- A numeral starts with a digit, which is no sign.
    obtain ⟨b, ds, hds⟩ := List.exists_cons_of_ne_nil (Bytes.ofNat_ne_nil n.natAbs)
    have hb : Bytes.isDigit b = true := Bytes.isDigit_of_mem_ofNat (by rw [hds]; simp)
    rw [hds, sign_of_digit hb, decide_eq_false hneg]

/-- The numeral of an integer of 64 bits is read as this integer. -/
theorem Numeral.readInt64_ofInt (n : Int64) :
    readInt64 (Bytes.ofInt n.toInt) = .ok n.toInt := by
  have hleast := n.le_toInt
  have hgreatest := n.toInt_lt
  have hempty : (Bytes.ofNat n.toInt.natAbs).isEmpty = false :=
    List.isEmpty_eq_false_iff.mpr (Bytes.ofNat_ne_nil _)
  have hdigits : (Bytes.ofNat n.toInt.natAbs).all Bytes.isDigit = true :=
    List.all_eq_true.mpr fun b hb => Bytes.isDigit_of_mem_ofNat hb
  -- The sign puts the magnitude back on the side it came from.
  have hsigned : (if n.toInt < 0 then -(n.toInt.natAbs : Int) else n.toInt.natAbs) = n.toInt := by
    split <;> omega
  have hrange : Word.least ≤ n.toInt ∧ n.toInt ≤ Word.greatest := by
    rw [Word.least, Word.greatest]
    omega
  rw [readInt64, readInt, sign_ofInt]
  simp only [hempty, hdigits, Bool.not_true, Bool.or_self, Bool.false_eq_true, if_false,
    Bytes.value_ofNat, decide_eq_true_eq, hsigned, hrange, decide_true, Bool.and_self, if_true]

/-! ## Exponents -/

namespace Numeral

/-- Below a hundred thousand all digits of an exponent count. -/
theorem exponentSize_ofNat {n : Nat} (h : n < 100000) : exponentSize (Bytes.ofNat n) = n := by
  induction n using Nat.strong_induction_on with
  | _ n ih =>
    rw [Bytes.ofNat]
    split
    · rename_i hn
      show 10 * 0 + ((Bytes.digit n).toNat - 48) = n
      rw [Bytes.toNat_digit hn]
      omega
    · -- The digits so far are below the bound at which the reader stops counting.
      have hfront : exponentSize (Bytes.ofNat (n / 10)) = n / 10 :=
        ih (n / 10) (by omega) (by omega)
      rw [exponentSize] at hfront
      rw [exponentSize, List.foldl_append, hfront, List.foldl_cons, List.foldl_nil,
        if_pos (by omega), Bytes.toNat_digit (Nat.mod_lt n (by decide))]
      omega

/-- Zeros in front do not count. -/
theorem exponentSize_zeros (k : Nat) (ds : Bytes) :
    exponentSize (List.replicate k 48 ++ ds) = exponentSize ds := by
  induction k with
  | zero => rfl
  | succ k ih => exact ih

/-- A signed exponent with zeros in front of it is read. -/
theorem readExponent_signed {e : Int} (h : e.natAbs < 100000) (k : Nat) :
    readExponent (101 :: (if e < 0 then 45 else 43) ::
      (List.replicate k 48 ++ Bytes.ofNat e.natAbs)) = some e := by
  have hempty : (List.replicate k 48 ++ Bytes.ofNat e.natAbs).isEmpty = false := by
    simp [Bytes.ofNat_ne_nil]
  have hdigits : (List.replicate k 48 ++ Bytes.ofNat e.natAbs).all Bytes.isDigit = true := by
    refine List.all_eq_true.mpr fun b hb => ?_
    rcases List.mem_append.mp hb with hzero | hdigit
    · exact Bytes.isDigit_of_mem_zeros hzero
    · exact Bytes.isDigit_of_mem_ofNat hdigit
  have hsize := (exponentSize_zeros k _).trans (exponentSize_ofNat h)
  rw [readExponent, if_pos (by decide)]
  by_cases hneg : e < 0
  · simp only [if_pos hneg, sign, hempty, hdigits, hsize, Bool.not_true, Bool.or_self,
      Bool.false_eq_true, if_false, if_true, Option.some.injEq]
    omega
  · simp only [if_neg hneg, sign, hempty, hdigits, hsize, Bool.not_true, Bool.or_self,
      Bool.false_eq_true, if_false, Option.some.injEq]
    omega

end Numeral

/-! ## Finite numbers -/

namespace Bytes

theorem lt_pow_length_ofNat (n : Nat) : n < 10 ^ (ofNat n).length := by
  induction n using Nat.strong_induction_on with
  | _ n ih =>
    rw [ofNat]
    split
    · simpa using ‹n < 10›
    · have hfront := ih (n / 10) (by omega)
      rw [List.length_append, List.length_singleton, pow_succ]
      omega

theorem pow_length_ofNat_le {n : Nat} (h : 0 < n) : 10 ^ ((ofNat n).length - 1) ≤ n := by
  induction n using Nat.strong_induction_on with
  | _ n ih =>
    rw [ofNat]
    split
    · exact h
    · have hfront := ih (n / 10) (by omega) (by omega)
      have hlength := length_ofNat_pos (n / 10)
      have hpow : 10 ^ (ofNat (n / 10)).length = 10 * 10 ^ ((ofNat (n / 10)).length - 1) := by
        rw [← pow_succ', Nat.sub_add_cancel hlength]
      rw [List.length_append, List.length_singleton, Nat.add_sub_cancel, hpow]
      omega

/-- A number and some bits more, below a power of ten with as many digits. -/
theorem two_mul_lt_pow (n p : Nat) : 2 * (n * 2 ^ p) < 10 ^ ((ofNat n).length + (p + 1)) :=
  calc 2 * (n * 2 ^ p) = n * 2 ^ (p + 1) := by rw [Nat.mul_left_comm, ← pow_succ']
    _ ≤ n * 10 ^ (p + 1) := Nat.mul_le_mul_left _ (Double.two_pow_le_ten_pow (Nat.le_refl _))
    _ < 10 ^ (ofNat n).length * 10 ^ (p + 1) :=
        Nat.mul_lt_mul_of_pos_right (lt_pow_length_ofNat n) (Nat.pow_pos (by decide))
    _ = 10 ^ ((ofNat n).length + (p + 1)) := (pow_add _ _ _).symm

end Bytes

namespace Decimal

variable {d : Decimal}

/-- A decimal that is not beyond the range has a small leading exponent. -/
theorem leadingExponent_le (hdigits : 0 < d.digits) (h : d.nearest.isInfinite = false) :
    d.leadingExponent ≤ 1100 := by
  by_contra hlarge
  have hlow := Bytes.pow_length_ofNat_le hdigits
  have hlength := Bytes.length_ofNat_pos d.digits
  rw [leadingExponent] at hlarge
  have hbeyond {n : Nat} (hn : 1024 ≤ n) : Double.beyond ≤ 10 ^ n :=
    Nat.le_trans Double.beyond_le (Double.two_pow_le_ten_pow hn)
  -- As many digits as these make a number beyond the range, wherever the point stands.
  rcases lt_or_ge d.exp 0 with hneg | hnonneg
  · obtain ⟨k, hk⟩ : ∃ k : Nat, d.exp = -(k : Int) := ⟨(-d.exp).toNat, by omega⟩
    obtain ⟨n, hn⟩ : ∃ n, (Bytes.ofNat d.digits).length - 1 = n + k :=
      ⟨(Bytes.ofNat d.digits).length - 1 - k, by omega⟩
    rw [nearest, hk, ← Bool.not_eq_true, Double.isInfinite_ofDecimal_iff] at h
    refine h ?_
    calc Double.beyond * 10 ^ k ≤ 10 ^ n * 10 ^ k :=
          Nat.mul_le_mul_right _ (hbeyond (by omega))
      _ = 10 ^ ((Bytes.ofNat d.digits).length - 1) := by rw [hn, pow_add]
      _ ≤ d.digits := hlow
  · obtain ⟨k, hk⟩ := Int.eq_ofNat_of_zero_le hnonneg
    have hmany : 1024 ≤ (Bytes.ofNat d.digits).length - 1 + k := by omega
    have hplain : d.nearest = Double.ofDecimal false (d.digits * 10 ^ k) 0 := by
      rw [nearest, Double.ofDecimal_mul_pow, hk, Int.zero_add]
    rw [hplain, ← Bool.not_eq_true, Double.isInfinite_ofNat_iff] at h
    refine h ?_
    calc Double.beyond ≤ 10 ^ ((Bytes.ofNat d.digits).length - 1 + k) := hbeyond hmany
      _ = 10 ^ ((Bytes.ofNat d.digits).length - 1) * 10 ^ k := pow_add _ _ _
      _ ≤ d.digits * 10 ^ k := Nat.mul_le_mul_right _ hlow

/-- A decimal that is not rounded to zero has no very small leading exponent. -/
theorem le_leadingExponent (hdigits : 0 < d.digits) (h : d.nearest.isZero = false) :
    -1100 ≤ d.leadingExponent := by
  by_contra hsmall
  have hlength := Bytes.length_ofNat_pos d.digits
  rw [leadingExponent] at hsmall
  -- The decimal is below half of the least number above zero.
  have htiny : 2 * (d.digits * 2 ^ 1074) < 10 ^ (-d.exp).toNat :=
    Nat.lt_of_lt_of_le (Bytes.two_mul_lt_pow d.digits 1074)
      (Nat.pow_le_pow_right (by decide) (by omega))
  have hzero : d.nearest = Double.ofMagnitude false 0 := by
    rw [nearest, Double.ofDecimal_of_le hdigits (by omega), show d.exp.toNat = 0 by omega, pow_zero,
      Nat.mul_one, Double.ofRatio, Double.roundBits_eq_zero hdigits htiny, ite_self, ite_self]
  -- So it is rounded to zero, against `h`.
  rw [hzero] at h
  exact absurd h (by decide)

/-! ## Notations -/

/-- Positional text is read as the number nearest to the decimal. -/
theorem readDouble_positional (d : Decimal) : Numeral.readDouble d.positional = some d.nearest := by
  rcases lt_or_ge d.exp 0 with hneg | hnonneg
  · exact (positional_of_neg hneg).readDouble
  · obtain ⟨k, hk⟩ := Int.eq_ofNat_of_zero_le hnonneg
    -- Without a fraction the text is the digits and the zeros behind them.
    have hne : d.positional ≠ [] := by simp [positional_eq hk, Bytes.ofNat_ne_nil]
    have hread := Numeral.readDouble_of_parts [] [] hne
      (fun b => isDigit_of_mem_positional hnonneg) nofun rfl
    rw [if_pos rfl, List.append_nil, List.append_nil] at hread
    rw [hread, positional_eq hk, Bytes.value_append, Bytes.value_ofNat,
      Bytes.value_replicate_zero, List.length_replicate, Nat.add_zero, Double.ofDecimal_mul_pow,
      nearest, hk]
    simp

/-- Text with an exponent is read as the number nearest to the decimal, if the exponent is
    small. -/
theorem readDouble_scientific (width : Nat) (h : d.leadingExponent.natAbs < 100000) :
    Numeral.readDouble (d.scientific width) = some d.nearest := by
  have hlength := Bytes.length_ofNat_pos d.digits
  have hne : (Bytes.ofNat d.digits).take 1 ≠ [] := by simp [Bytes.ofNat_ne_nil]
  have hread := Numeral.readDouble_of_parts ((Bytes.ofNat d.digits).drop 1) _ hne
    (fun b hb => Bytes.isDigit_of_mem_ofNat (List.mem_of_mem_take hb))
    (fun b hb => Bytes.isDigit_of_mem_ofNat (List.mem_of_mem_drop hb))
    (Numeral.readExponent_signed h (width - (Bytes.ofNat d.leadingExponent.natAbs).length))
  -- The digits behind the point are taken off the exponent again.
  have hexp : d.leadingExponent - ((Bytes.ofNat d.digits).drop 1).length = d.exp := by
    rw [leadingExponent, List.length_drop]
    omega
  rw [List.take_append_drop, Bytes.value_ofNat, hexp] at hread
  rw [nearest, ← hread, scientific]
  simp only [List.drop_eq_nil_iff]
  rw [List.append_assoc]

/-- The leading exponent of the digits that a finite number is written with is small. -/
theorem natAbs_leadingExponent_shortest {x : Double} (hx : x.isNegative = false)
    (hfinite : x.isFinite = true) : (shortest x).leadingExponent.natAbs ≤ 1100 := by
  have hnearest := nearest_shortest hx hfinite
  cases hzero : x.isZero with
  | true =>
    have hshortest : shortest x = ⟨0, 0⟩ := by rw [shortest, if_pos hzero]
    simp [hshortest, leadingExponent, Bytes.ofNat]
  | false =>
    -- Both bounds come from the number that the digits are rounded to.
    have hinfinite : x.isInfinite = false := by
      have hlt : x.magnitude < Double.infinityBits := of_decide_eq_true hfinite
      exact beq_false_of_ne (Nat.ne_of_lt hlt)
    have hdigits : 0 < (shortest x).digits := by
      by_contra hnone
      have hnothing : Double.ofDecimal false 0 (shortest x).exp = Double.ofMagnitude false 0 := rfl
      rw [nearest, Nat.eq_zero_of_not_pos hnone, hnothing] at hnearest
      rw [← hnearest] at hzero
      exact absurd hzero (by decide)
    have hle := leadingExponent_le hdigits (by rw [hnearest, hinfinite])
    have hge := le_leadingExponent hdigits (by rw [hnearest, hzero])
    omega

end Decimal

/-- A finite number that is not negative is read back from its text in any notation. -/
theorem Double.readDouble_write {x : Double} (hx : x.isNegative = false)
    (hfinite : x.isFinite = true) (n : Decimal.Notation) :
    Numeral.readDouble (x.writeWith (Decimal.write n)) = some x := by
  have hlt : x.magnitude < infinityBits := of_decide_eq_true hfinite
  -- A finite number is written with digits, not as a word.
  have hplain : x.special? = none := by
    have hnan : x.isNaN = false := decide_eq_false (by omega)
    have hinfinite : x.isInfinite = false := beq_false_of_ne (Nat.ne_of_lt hlt)
    rw [special?, hnan, hinfinite]
    rfl
  have hsmall := Decimal.natAbs_leadingExponent_shortest hx hfinite
  have hread : Numeral.readDouble (Decimal.write n (Decimal.shortest x)) =
      some (Decimal.shortest x).nearest := by
    unfold Decimal.write
    dsimp only
    split
    · exact Decimal.readDouble_positional _
    · exact Decimal.readDouble_scientific _ (by omega)
  rw [Decimal.nearest_shortest hx hfinite] at hread
  rw [writeWith, hplain]
  simpa [hx] using hread

end Scriptlet
