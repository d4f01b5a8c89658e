/-
  Scriptlet.Number.Word

  The range of signed 64-bit integers, and their division by a machine.
-/

namespace Scriptlet.Word

/-- The least signed 64-bit integer. -/
def least : Int := -0x8000000000000000

/-- The greatest signed 64-bit integer. -/
def greatest : Int := 0x7FFFFFFFFFFFFFFF

/-- Whether an integer is one of signed 64 bits. -/
def holds (n : Int) : Bool := least ≤ n && n ≤ greatest

/-! ## Division -/

/-- The quotient of two words toward zero, which wraps around where it does not
    fit. No word is divided by zero. -/
def quotient? (l r : Int64) : Option Int64 := if r = 0 then none else some (l / r)

/-- The remainder of the division of two words toward zero. -/
def remainder? (l r : Int64) : Option Int64 := if r = 0 then none else some (l % r)

end Scriptlet.Word
