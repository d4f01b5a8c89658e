/-
  Scriptlet.Proofs.Arithmetic

  Arithmetic of integers is exact or leaves the integers; it never wraps around.

  A machine word that was computed from words differs from the exact result by a
  multiple of 2^64, so it is the exact result where that fits 64 bits and no other
  time (`Word.bmod_eq_self_iff`). Each operator has a test of its own that tells the
  two apart, and each test is right for all operands (`Word.sum_wraps_iff`,
  `Word.difference_wraps_iff`, `Word.product_wraps_iff`). The test of products divides
  the wrapped product back: the remainder of a division is smaller than the divisor, so
  it cannot hide a multiple of 2^64.

  Prefix minus has no such test, which shows at the least word alone
  (`negate_exact_iff`).
-/
import Scriptlet.Value.Operator
import Mathlib.Algebra.Order.Ring.Int

namespace Scriptlet

/-! ## Words that wrapped around -/

namespace Word

variable {l r : Int64} {z : Int}

theorem holds_iff : holds z = true ↔ -2 ^ 63 ≤ z ∧ z < 2 ^ 63 := by
  rw [holds, least, greatest, Bool.and_eq_true, decide_eq_true_eq, decide_eq_true_eq]
  omega

theorem holds_toInt (w : Int64) : holds w.toInt = true :=
  holds_iff.mpr ⟨w.le_toInt, w.toInt_lt⟩

/-- Wrapping around leaves the integers of 64 bits alone and changes all others. -/
theorem bmod_eq_self_iff : z.bmod (2 ^ 64) = z ↔ holds z = true := by
  rw [holds_iff]
  constructor
  · intro h
    rw [← h]
    have hlow := Int.le_bmod (x := z) (m := 2 ^ 64) (by decide)
    have hhigh := Int.bmod_lt (x := z) (m := 2 ^ 64) (by decide)
    omega
  · rintro ⟨hlow, hhigh⟩
    apply Int.bmod_eq_of_le <;> omega

/-- A word is negative where its first bit is set. -/
theorem lt_zero_iff_msb (w : Int64) : w < 0 ↔ w.toBitVec.msb = true := by
  rw [Int64.lt_iff_toBitVec_slt]
  exact BitVec.slt_zero_iff_msb_cond

/-- A sum wraps around where its sign is that of neither operand. -/
theorem sum_wraps_iff (l r : Int64) :
    (l ^^^ (l + r)) &&& (r ^^^ (l + r)) < 0 ↔ ¬ holds (l.toInt + r.toInt) = true := by
  have hoverflow := BitVec.saddOverflow_eq l.toBitVec r.toBitVec
  rw [lt_zero_iff_msb, Int64.toBitVec_and, Int64.toBitVec_xor, Int64.toBitVec_xor,
    Int64.toBitVec_add, BitVec.msb_and, BitVec.msb_xor, BitVec.msb_xor, holds_iff]
  have hsigns : (((l.toBitVec.msb ^^ (l.toBitVec + r.toBitVec).msb) &&
      (r.toBitVec.msb ^^ (l.toBitVec + r.toBitVec).msb)) = true) ↔
      l.toBitVec.saddOverflow r.toBitVec = true := by
    rw [hoverflow]
    -- Only the first bits matter, so there are eight cases.
    cases l.toBitVec.msb <;> cases r.toBitVec.msb <;> cases (l.toBitVec + r.toBitVec).msb <;> decide
  rw [hsigns, BitVec.saddOverflow, Bool.or_eq_true, decide_eq_true_eq, decide_eq_true_eq,
    Int64.toInt_toBitVec, Int64.toInt_toBitVec]
  omega

/-- A difference wraps around where the operands differ in sign and the result has not
    the sign of the first one. -/
theorem difference_wraps_iff (l r : Int64) :
    (l ^^^ r) &&& (l ^^^ (l - r)) < 0 ↔ ¬ holds (l.toInt - r.toInt) = true := by
  have hoverflow := BitVec.ssubOverflow_eq l.toBitVec r.toBitVec
  rw [lt_zero_iff_msb, Int64.toBitVec_and, Int64.toBitVec_xor, Int64.toBitVec_xor,
    Int64.toBitVec_sub, BitVec.msb_and, BitVec.msb_xor, BitVec.msb_xor, holds_iff]
  have hsigns : (((l.toBitVec.msb ^^ r.toBitVec.msb) &&
      (l.toBitVec.msb ^^ (l.toBitVec - r.toBitVec).msb)) = true) ↔
      l.toBitVec.ssubOverflow r.toBitVec = true := by
    rw [hoverflow]
    cases l.toBitVec.msb <;> cases r.toBitVec.msb <;> cases (l.toBitVec - r.toBitVec).msb <;> decide
  rw [hsigns, BitVec.ssubOverflow, Bool.or_eq_true, decide_eq_true_eq, decide_eq_true_eq,
    Int64.toInt_toBitVec, Int64.toInt_toBitVec]
  omega

/-- The least word divided by minus one is the only quotient of words that does not fit. -/
theorem toInt_quotient (h : ¬ (l = Int64.minValue ∧ r = -1)) :
    (l / r).toInt = l.toInt.tdiv r.toInt := by
  by_cases hl : l = Int64.minValue
  · exact Int64.toInt_div_of_ne_right l r fun hr => h ⟨hl, hr⟩
  · exact Int64.toInt_div_of_ne_left l r hl

/-- Dividing a word by minus one wraps around for the least word only, which is a product
    with minus one only of itself. -/
theorem eq_least_of_mul_eq (h : l * r = Int64.minValue) (hl : l = -1) : r = Int64.minValue := by
  have hproduct : (-r.toInt).bmod (2 ^ 64) = -2 ^ 63 := by
    have hword := congrArg Int64.toInt h
    rwa [Int64.toInt_mul, hl, show (-1 : Int64).toInt = -1 from rfl, Int.neg_one_mul,
      Int64.toInt_minValue] at hword
  have hlow := r.le_toInt
  have hhigh := r.toInt_lt
  -- The negation of any other word fits, and no word is 2^63.
  by_contra hr
  have hne : r.toInt ≠ -2 ^ 63 := fun h => hr (Int64.toInt_inj.mp h)
  rw [bmod_eq_self_iff.mpr (holds_iff.mpr (by omega))] at hproduct
  omega

/-- A product wraps around where dividing it by the first factor does not give the second
    one, or where that division itself wraps around. -/
theorem product_wraps_iff (hl : l ≠ 0) :
    (l * r / l ≠ r ∨ l = -1 ∧ r = Int64.minValue) ↔ ¬ holds (l.toInt * r.toInt) = true := by
  have hzero : l.toInt ≠ 0 := fun h => hl (Int64.toInt_inj.mp h)
  by_cases hspecial : l = -1 ∧ r = Int64.minValue
  · obtain ⟨rfl, rfl⟩ := hspecial
    decide
  have hquotient : (l * r / l).toInt = ((l.toInt * r.toInt).bmod (2 ^ 64)).tdiv l.toInt := by
    rw [toInt_quotient fun h => hspecial ⟨h.2, eq_least_of_mul_eq h.1 h.2⟩, Int64.toInt_mul]
  -- Apart from the least word and minus one, the division of the product does not wrap around
  -- itself.
  simp only [hspecial, or_false]
  refine not_congr ⟨fun h => ?_, fun h => ?_⟩
  · -- The wrapped product is off by a multiple of 2^64, and also by a remainder of the
    -- division by `l`.
    rw [h] at hquotient
    have hdivision := Int.mul_tdiv_add_tmod ((l.toInt * r.toInt).bmod (2 ^ 64)) l.toInt
    have hremainder := Int.natAbs_tmod ((l.toInt * r.toInt).bmod (2 ^ 64)) l.toInt
    have hsmall := Nat.mod_lt ((l.toInt * r.toInt).bmod (2 ^ 64)).natAbs
      (Int.natAbs_pos.mpr hzero)
    have hmultiple : ((2 ^ 64 : Nat) : Int) ∣
        (l.toInt * r.toInt).bmod (2 ^ 64) - l.toInt * r.toInt := Int.dvd_bmod_sub_self
    have hlow := l.le_toInt
    have hhigh := l.toInt_lt
    rw [← hquotient] at hdivision
    rw [← bmod_eq_self_iff]
    omega
  · rw [bmod_eq_self_iff.mpr h, Int.mul_tdiv_cancel_left _ hzero] at hquotient
    exact Int64.toInt_inj.mp hquotient

end Word

/-! ## Exact values -/

/-- The value is the integer `z` where that fits 64 bits, and a float otherwise. -/
structure Value.Exact (v : Value) (z : Int) : Prop where
  int : ∀ k, v = .int k ↔ Word.holds z = true ∧ k.toInt = z
  float : Word.holds z = false → ∃ d, v = .float d

/-- The value is the integer `l / r` where the division leaves no remainder and the quotient
    fits 64 bits, and a float otherwise. -/
structure Value.ExactQuotient (v : Value) (l r : Int) : Prop where
  int : ∀ k, v = .int k ↔ r ∣ l ∧ Word.holds (l / r) = true ∧ k.toInt = l / r
  float : (∀ k, v ≠ .int k) → ∃ d, v = .float d

namespace Arithmetic

variable {r : Int64}

theorem exact_int {word : Int64} {z : Int} (h : word.toInt = z) : (Value.int word).Exact z := by
  subst h
  refine ⟨fun k => ⟨fun hk => ?_, fun hk => ?_⟩, by simp [Word.holds_toInt]⟩
  · cases hk
    exact ⟨Word.holds_toInt word, rfl⟩
  · rw [Int64.toInt_inj.mp hk.2]

/-- A word that is called wrong where it wrapped around is promoted to an exact value. -/
theorem exact_promote {wrong : Bool} {word : Int64} {z : Int} (otherwise : Double)
    (hwrong : wrong = true ↔ ¬ Word.holds z = true) (hword : word.toInt = z.bmod (2 ^ 64)) :
    (promote wrong word otherwise).Exact z := by
  cases wrong with
  -- The word did not wrap around, so it is the exact result.
  | false =>
    have hz : Word.holds z = true := by simpa using hwrong
    exact exact_int (hword.trans (Word.bmod_eq_self_iff.mpr hz))
  | true =>
    have hz : Word.holds z = false := by simpa using hwrong
    exact ⟨fun k => by simp [promote, hz], fun _ => ⟨otherwise, rfl⟩⟩

theorem exact_add (l r : Int64) :
    ∃ v, integers .add l r = some (.ok v) ∧ v.Exact (l.toInt + r.toInt) := by
  refine ⟨_, rfl, exact_promote _ ?_ (Int64.toInt_add l r)⟩
  rw [decide_eq_true_eq]
  exact Word.sum_wraps_iff l r

theorem exact_sub (l r : Int64) :
    ∃ v, integers .sub l r = some (.ok v) ∧ v.Exact (l.toInt - r.toInt) := by
  refine ⟨_, rfl, exact_promote _ ?_ (Int64.toInt_sub l r)⟩
  rw [decide_eq_true_eq]
  exact Word.difference_wraps_iff l r

theorem exact_mul (l r : Int64) :
    ∃ v, integers .mul l r = some (.ok v) ∧ v.Exact (l.toInt * r.toInt) := by
  by_cases hl : l = 0
  · -- A factor of zero is not divided by, and the product with it never wraps around.
    subst hl
    exact ⟨.int (0 * r), rfl, exact_int (by simp)⟩
  · have hvalue : integers .mul l r = some (.ok (promote
        (l * r / l != r || (l == -1 && r == Int64.minValue)) (l * r)
        ((widen l).mul (widen r)))) := by
      simp only [integers, Word.quotient?, hl, if_false, Option.map_some]
    refine ⟨_, hvalue, exact_promote _ ?_ (Int64.toInt_mul l r)⟩
    rw [← Word.product_wraps_iff hl]
    simp

theorem exact_div (l : Int64) (hr : r ≠ 0) :
    ∃ v, integers .div l r = some (.ok v) ∧ v.ExactQuotient l.toInt r.toInt := by
  by_cases hspecial : l = Int64.minValue ∧ r = -1
  · obtain ⟨rfl, rfl⟩ := hspecial
    -- The quotient is 2^63, one more than the greatest word.
    have hbig : Word.holds (Int64.minValue.toInt / (-1 : Int64).toInt) = false := by decide
    refine ⟨.float _, rfl, fun k => ⟨nofun, fun hk => ?_⟩, fun _ => ⟨_, rfl⟩⟩
    rw [hk.2.1] at hbig
    cases hbig
  -- A division leaves no remainder in whichever direction its quotient is rounded.
  have hdvd : l % r = 0 ↔ r.toInt ∣ l.toInt := by
    rw [← Int64.toInt_inj, Int64.toInt_mod, Int.dvd_iff_tmod_eq_zero]
    rfl
  simp only [integers, Word.remainder?, Word.quotient?, hspecial, hr, if_false, Option.bind_some,
    Option.map_some]
  by_cases hmod : l % r = 0
  · have hquotient : (l / r).toInt = l.toInt / r.toInt := by
      rw [Word.toInt_quotient hspecial, Int.tdiv_eq_ediv_of_dvd (hdvd.mp hmod)]
    refine ⟨.int (l / r), by rw [if_pos hmod], fun k => ⟨fun hk => ?_, fun hk => ?_⟩,
      fun h => absurd rfl (h _)⟩
    · cases hk
      rw [← hquotient]
      exact ⟨hdvd.mp hmod, Word.holds_toInt _, rfl⟩
    · rw [Int64.toInt_inj.mp (hk.2.2.trans hquotient.symm)]
  · refine ⟨.float _, by rw [if_neg hmod], fun k => ?_, fun _ => ⟨_, rfl⟩⟩
    simp [← hdvd, hmod]

theorem exact_rem (l : Int64) (hr : r ≠ 0) :
    ∃ m, integers .rem l r = some (.ok (.int m)) ∧
      l.toInt = r.toInt * l.toInt.tdiv r.toInt + m.toInt := by
  refine ⟨l % r, by simp [integers, Word.remainder?, hr], ?_⟩
  rw [Int64.toInt_mod, Int.mul_tdiv_add_tmod]

end Arithmetic

/-! ## Operators -/

namespace BinaryOp

variable {op : BinaryOp} {l r : Int64}

theorem apply_zero (hop : op = .div ∨ op = .rem) (l : Int64) :
    op.apply (.int l) (.int 0) = .error (.divideByZero (.int l) op (.int 0)) := by
  rcases hop with rfl | rfl <;> rfl

/-- Where no word is divided by zero, an operator does to integers what it does to words,
    and words have a result. -/
theorem integers_eq_apply (hequal : op ≠ .equal) (hnotEqual : op ≠ .notEqual)
    (hr : op = .div ∨ op = .rem → r ≠ 0) :
    Arithmetic.integers op l r = some (op.apply (.int l) (.int r)) := by
  -- The test for a zero divisor, which stands in front of all arithmetic.
  have hguard : ((op == .div || op == .rem) && (Value.int r).isZero) = false := by
    simpa [Value.isZero, ← not_or] using hr
  unfold apply
  split
  · exact absurd rfl hequal
  · exact absurd rfl hnotEqual
  · simp [Value.isNumber, hguard]

/-- What words give is what the operator gives. -/
theorem apply_of_integers {v : Value} (hequal : op ≠ .equal) (hnotEqual : op ≠ .notEqual)
    (hr : op = .div ∨ op = .rem → r ≠ 0) (h : Arithmetic.integers op l r = some (.ok v)) :
    op.apply (.int l) (.int r) = .ok v := by
  rw [integers_eq_apply hequal hnotEqual hr] at h
  exact Option.some.inj h

theorem exact_apply_sub (l r : Int64) :
    ∃ v, BinaryOp.sub.apply (.int l) (.int r) = .ok v ∧ v.Exact (l.toInt - r.toInt) := by
  obtain ⟨v, hv, hexact⟩ := Arithmetic.exact_sub l r
  exact ⟨v, apply_of_integers nofun nofun nofun hv, hexact⟩

theorem exact_apply_div (l : Int64) (hr : r ≠ 0) :
    ∃ v, BinaryOp.div.apply (.int l) (.int r) = .ok v ∧ v.ExactQuotient l.toInt r.toInt := by
  obtain ⟨v, hv, hexact⟩ := Arithmetic.exact_div l hr
  exact ⟨v, apply_of_integers nofun nofun (fun _ => hr) hv, hexact⟩

theorem exact_apply_rem (l : Int64) (hr : r ≠ 0) :
    ∃ m, BinaryOp.rem.apply (.int l) (.int r) = .ok (.int m) ∧
      l.toInt = r.toInt * l.toInt.tdiv r.toInt + m.toInt := by
  obtain ⟨m, hm, hexact⟩ := Arithmetic.exact_rem l hr
  exact ⟨m, apply_of_integers nofun nofun (fun _ => hr) hm, hexact⟩

/-- Division is refused where the divisor is zero and nowhere else. -/
theorem refuses_iff (hop : op = .div ∨ op = .rem) :
    (∃ problem, op.apply (.int l) (.int r) = .error problem ∧ problem.code = .arithmetic) ↔
      r = 0 := by
  refine ⟨?_, by rintro rfl; exact ⟨_, apply_zero hop l, rfl⟩⟩
  rintro ⟨problem, hproblem, -⟩
  -- Every other divisor gives a value, so there is no fault.
  by_contra hr
  rcases hop with rfl | rfl
  · obtain ⟨v, hv, -⟩ := exact_apply_div l hr
    rw [hv] at hproblem
    cases hproblem
  · obtain ⟨m, hm, -⟩ := exact_apply_rem l hr
    rw [hm] at hproblem
    cases hproblem

/-- Operators between integers, for all operands of 64 bits. Sums, differences and
    products are the exact integers where these fit 64 bits, and floats otherwise. Quotients
    and remainders by zero are refused as faults of arithmetic, and no others; a quotient is
    an integer where the division leaves no remainder and the quotient fits, and a float
    otherwise; a remainder is the integer that the division toward zero leaves. Every
    operator that computes with words has a result for them, so none divides a word by
    zero. -/
theorem integers_exact (l r : Int64) :
    (∃ v, BinaryOp.add.apply (.int l) (.int r) = .ok v ∧ v.Exact (l.toInt + r.toInt)) ∧
    (∃ v, BinaryOp.sub.apply (.int l) (.int r) = .ok v ∧ v.Exact (l.toInt - r.toInt)) ∧
    (∃ v, BinaryOp.mul.apply (.int l) (.int r) = .ok v ∧ v.Exact (l.toInt * r.toInt)) ∧
    (∀ op : BinaryOp, op = .div ∨ op = .rem →
      ((∃ problem, op.apply (.int l) (.int r) = .error problem ∧ problem.code = .arithmetic) ↔
        r = 0)) ∧
    (r ≠ 0 → ∃ v, BinaryOp.div.apply (.int l) (.int r) = .ok v ∧
      v.ExactQuotient l.toInt r.toInt) ∧
    (r ≠ 0 → ∃ m, BinaryOp.rem.apply (.int l) (.int r) = .ok (.int m) ∧
      l.toInt = r.toInt * l.toInt.tdiv r.toInt + m.toInt) ∧
    (∀ op : BinaryOp, op ≠ .equal → op ≠ .notEqual → (op = .div ∨ op = .rem → r ≠ 0) →
      Arithmetic.integers op l r = some (op.apply (.int l) (.int r))) := by
  obtain ⟨sum, hsum, hexactSum⟩ := Arithmetic.exact_add l r
  obtain ⟨product, hproduct, hexactProduct⟩ := Arithmetic.exact_mul l r
  exact ⟨⟨sum, apply_of_integers nofun nofun nofun hsum, hexactSum⟩, exact_apply_sub l r,
    ⟨product, apply_of_integers nofun nofun nofun hproduct, hexactProduct⟩,
    fun _ hop => refuses_iff hop, exact_apply_div l, exact_apply_rem l,
    fun _ hequal hnotEqual hr => integers_eq_apply hequal hnotEqual hr⟩

end BinaryOp

namespace UnaryOp

/-- All words but the least have a negation of 64 bits. -/
theorem holds_neg_iff (x : Int64) : Word.holds (-x.toInt) = true ↔ x ≠ Int64.minValue := by
  have hlow := x.le_toInt
  have hhigh := x.toInt_lt
  have hleast : x = Int64.minValue ↔ x.toInt = -2 ^ 63 := by
    rw [← Int64.toInt_inj, Int64.toInt_minValue]
  rw [Word.holds_iff, ne_eq, hleast]
  omega

/-- Prefix minus gives an integer for every integer. It is the exact negation, as the
    difference to zero is, for all integers but the least one; that is its own negation,
    where the difference to zero is a float. -/
theorem negate_exact_iff (x : Int64) :
    (∃ k, UnaryOp.negate.apply (.int x) = .ok (.int k) ∧
      ((Value.int k).Exact (-x.toInt) ↔ x ≠ Int64.minValue)) ∧
    (UnaryOp.negate.apply (.int x) = BinaryOp.sub.apply (.int 0) (.int x) ↔
      x ≠ Int64.minValue) ∧
    (x = Int64.minValue → UnaryOp.negate.apply (.int x) = .ok (.int x) ∧
      ∃ d, BinaryOp.sub.apply (.int 0) (.int x) = .ok (.float d)) := by
  obtain ⟨v, hv, hexact⟩ := BinaryOp.exact_apply_sub 0 x
  rw [Int64.toInt_zero, Int.zero_sub] at hexact
  have hnegate : UnaryOp.negate.apply (.int x) = .ok (.int (-x)) := rfl
  by_cases hx : x = Int64.minValue
  · have hbig : Word.holds (-x.toInt) = false := by
      rw [Bool.eq_false_iff, ne_eq, holds_neg_iff, not_not]
      exact hx
    -- The difference does not fit and is a float, while the word stays what it is.
    obtain ⟨d, rfl⟩ := hexact.float hbig
    refine ⟨⟨-x, rfl, ?_⟩, ?_, fun _ => ⟨?_, d, hv⟩⟩
    · simp only [hx, ne_eq, not_true, iff_false]
      intro h
      have hint := (h.int (-Int64.minValue)).mp rfl
      rw [← hx, hbig] at hint
      cases hint.1
    · rw [hnegate, hv]
      simp [hx]
    · rw [hx]
      rfl
  · have hword : (-x).toInt = -x.toInt := by
      rw [Int64.toInt_neg, Word.bmod_eq_self_iff, holds_neg_iff]
      exact hx
    obtain rfl : v = .int (-x) := (hexact.int (-x)).mpr ⟨(holds_neg_iff x).mpr hx, hword⟩
    refine ⟨⟨-x, rfl, by simpa [hx] using Arithmetic.exact_int hword⟩, ?_, fun h => absurd h hx⟩
    rw [hnegate, hv]
    simp [hx]

end UnaryOp

end Scriptlet
