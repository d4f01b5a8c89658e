/-
  Scriptlet.Value.Operator

  What the operators do to values. Integers are computed on machine words; a
  result that does not fit 64 bits is computed in binary64 instead.
-/
import Scriptlet.Number.Word
import Scriptlet.Fault

namespace Scriptlet

/-! ## Prefix operators -/

/-- Applies a prefix operator. Zero is true to conditions and yet its negation
    is true; the negation of the least integer is itself. -/
def UnaryOp.apply (op : UnaryOp) (v : Value) : Except EvalProblem Value :=
  match op with
  | .not => .ok (.bool (v.isFalse || v.isZero))
  | .negate =>
    match v with
    -- Machine words: there is no test for the least one here.
    | .int n => .ok (.int (-n))
    | .float d => .ok (.float d.neg)
    | _ => .error (.notNegatable v)
  | .unknown _ => .error (.unknownUnary op)

/-! ## Arithmetic and order -/

namespace Arithmetic

/-- The binary64 number nearest to an integer. -/
def widen (n : Int64) : Double := Double.ofInt n.toInt

/-- The word that a machine computed, or the binary64 result where the word is
    wrong because it wrapped around. -/
def promote (wrong : Bool) (word : Int64) (otherwise : Double) : Value :=
  if wrong then .float otherwise else .int word

/-- Operators between integers, computed on machine words. A sum or a difference
    that wrapped around has the wrong sign, and a product is not divided by its
    first factor into the second one; the division of the least word by minus one
    wraps around itself. There is no result where a word would be divided by
    zero. -/
def integers (op : BinaryOp) (l r : Int64) : Option (Except EvalProblem Value) :=
  match op with
  | .add =>
    let sum := l + r
    some (.ok (promote ((l ^^^ sum) &&& (r ^^^ sum) < 0) sum ((widen l).add (widen r))))
  | .sub =>
    let difference := l - r
    some (.ok (promote ((l ^^^ r) &&& (l ^^^ difference) < 0) difference
      ((widen l).sub (widen r))))
  | .mul =>
    let product := l * r
    -- The test divides the product by `l`.
    if l = 0 then some (.ok (.int product))
    else
      (Word.quotient? product l).map fun q =>
        .ok (promote (q != r || (l == -1 && r == Int64.minValue)) product
          ((widen l).mul (widen r)))
  | .div =>
    if l = Int64.minValue ∧ r = -1 then some (.ok (.float (widen l).neg))
    else
      -- Only a division without remainder stays with the integers.
      (Word.remainder? l r).bind fun m =>
        if m = 0 then (Word.quotient? l r).map fun q => .ok (.int q)
        else some (.ok (.float ((widen l).div (widen r))))
  | .rem => (Word.remainder? l r).map fun m => .ok (.int m)
  | .less => some (.ok (.bool (l < r)))
  | .greater => some (.ok (.bool (r < l)))
  | .lessEq => some (.ok (.bool (l ≤ r)))
  | .greaterEq => some (.ok (.bool (r ≤ l)))
  | _ => some (.error (.inapplicable op))

/-- The divisors that were refused are all that integers cannot be divided by. -/
theorem isSome_integers {op : BinaryOp} {l r : Int64}
    (h : ¬ ((op == .div || op == .rem) && (Value.int r).isZero) = true) :
    (integers op l r).isSome = true := by
  cases op with
  | mul =>
    by_cases hl : l = 0 <;> simp [integers, Word.quotient?, hl]
  | div =>
    have hr : r ≠ 0 := by simpa [Value.isZero] using h
    simp only [integers, Word.remainder?, Word.quotient?, hr, if_false, Option.map_some,
      Option.bind_some]
    repeat' split
    all_goals rfl
  | rem =>
    have hr : r ≠ 0 := by simpa [Value.isZero] using h
    simp [integers, Word.remainder?, hr]
  | _ => rfl

/-- Operators between binary64 numbers. -/
def doubles (op : BinaryOp) (l r : Double) : Except EvalProblem Value :=
  match op with
  | .add => .ok (.float (l.add r))
  | .sub => .ok (.float (l.sub r))
  | .mul => .ok (.float (l.mul r))
  | .div => .ok (.float (l.div r))
  | .rem => .ok (.float (l.rem r))
  | .less => .ok (.bool (l.less r))
  | .greater => .ok (.bool (r.less l))
  | .lessEq => .ok (.bool (l.lessEq r))
  | .greaterEq => .ok (.bool (r.lessEq l))
  | _ => .error (.inapplicable op)

end Arithmetic

/-- Applies a binary operator to two values. Equality takes any values, every
    other operator numbers only, the left operand being checked first. -/
def BinaryOp.apply (op : BinaryOp) (left right : Value) : Except EvalProblem Value :=
  match op with
  | .equal => .ok (.bool (left.equal right))
  | .notEqual => .ok (.bool (!left.equal right))
  | _ =>
    if !left.isNumber then .error (.notANumber op left)
    else if !right.isNumber then .error (.notANumber op right)
    else if h : (op == .div || op == .rem) && right.isZero then
      .error (.divideByZero left op right)
    else
      match left, right, h with
      | .int l, .int r, h => (Arithmetic.integers op l r).get (Arithmetic.isSome_integers h)
      -- One float is enough for the other operand to become one.
      | _, _, _ => Arithmetic.doubles op left.toDouble right.toDouble

end Scriptlet
