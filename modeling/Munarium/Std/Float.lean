import Mathlib.Data.Rat.Defs
import Mathlib.Algebra.Order.Ring.Rat
import Mathlib.Data.Prod.Lex
import Mathlib.Order.Compare

/-! Floating-point values as the program compares them: the finite magnitudes are read as
rationals, and the two zeros, the infinities and NaN are kept apart. -/
namespace Munarium

inductive F64 where
  | nan
  | negInf
  | negZero
  | num (q : ℚ)
  | inf
  deriving DecidableEq, Repr

namespace F64

def isNan : F64 → Bool
  | nan => true
  | _ => false

/-- The sign bit flips, so the two zeros change places. -/
def neg : F64 → F64
  | nan => nan
  | negInf => inf
  | negZero => num 0
  | num q => if q = 0 then negZero else num (-q)
  | inf => negInf

/-- The numeric order of values that are numbers; the zeros share a place. -/
def magnitude : F64 → ℤ ×ₗ ℚ
  | nan => toLex (-1, 0)
  | negInf => toLex (-1, 0)
  | negZero => toLex (0, 0)
  | num q => toLex (0, q)
  | inf => toLex (1, 0)

/-- The sign that `total_cmp` reads where the magnitudes agree. -/
def zeroSign : F64 → ℕ
  | negZero => 0
  | _ => 1

def partialCmp (a b : F64) : Option Ordering :=
  if a.isNan || b.isNan then none else some (compare a.magnitude b.magnitude)

/-- `f64::total_cmp` on values that are numbers. -/
def totalCmp (a b : F64) : Ordering :=
  (compare a.magnitude b.magnitude).then (compare a.zeroSign b.zeroSign)

/-- The total order that `totalCmp` compares by. -/
def totalKey (v : F64) : (ℤ ×ₗ ℚ) ×ₗ ℕ :=
  toLex (v.magnitude, v.zeroSign)

end F64
end Munarium
