/-!
# Double-precision magnitudes

The finite non-negative double-precision numbers as exact pairs of a mantissa and an exponent of
two, with rounding of a quotient to the nearest of them.  Signs, infinities and NaN are left out.
-/

namespace ContentQuery

/-- The number `mantissa * 2 ^ exponent`. -/
structure Binary64 where
  mantissa : Nat
  exponent : Int
deriving DecidableEq, Repr

namespace Binary64

def zero : Binary64 := ⟨0, -1074⟩

def isZero (x : Binary64) : Bool :=
  x.mantissa == 0

/-! ## Quotients -/

/-- The quotient rounded to the nearest integer, a half to the even one. -/
def roundQuotient (num den : Nat) : Nat :=
  let quotient := num / den
  let twice := 2 * (num % den)
  if den < twice ∨ (den = twice ∧ quotient % 2 = 1) then quotient + 1 else quotient

/-- The numerator and denominator of `num / den * 2 ^ shift`. -/
def shiftQuotient (num den : Nat) : Int → Nat × Nat
  | .ofNat n => (num * Nat.pow 2 n, den)
  | .negSucc n => (num, den * Nat.pow 2 (n + 1))

/-- The exponent of the leading binary digit of a positive quotient. -/
def leadingExponent (num den : Nat) : Int :=
  let guess : Int := (num.log2 : Int) - (den.log2 : Int)
  let (a, b) := shiftQuotient num den (-guess)
  if a < b then guess - 1 else guess

/-- The number nearest to a quotient, or none where it exceeds the range. -/
def ofQuotient? (num den : Nat) : Option Binary64 :=
  if num = 0 then some zero
  else
    let exponent := max (leadingExponent num den - 52) (-1074)
    let (a, b) := shiftQuotient num den (-exponent)
    let mantissa := roundQuotient a b
    let rounded : Binary64 :=
      if mantissa = Nat.pow 2 53 then ⟨Nat.pow 2 52, exponent + 1⟩ else ⟨mantissa, exponent⟩
    if 971 < rounded.exponent then none else some rounded

/-- The numerator and denominator of a number. -/
def quotient (x : Binary64) : Nat × Nat :=
  shiftQuotient x.mantissa 1 x.exponent

/-! ## Scaling by powers of ten -/

/-- The number nearest to a power of ten within range. -/
def powerOfTen (n : Nat) : Binary64 :=
  (ofQuotient? (Nat.pow 10 n) 1).getD zero

def mul? (x y : Binary64) : Option Binary64 :=
  let (a, b) := x.quotient
  let (c, d) := y.quotient
  ofQuotient? (a * c) (b * d)

/-- Division by a positive number. -/
def div (x y : Binary64) : Binary64 :=
  let (a, b) := x.quotient
  let (c, d) := y.quotient
  (ofQuotient? (a * d) (b * c)).getD zero

/-- Divides by `10 ^ n`, in steps of the greatest power of ten within range. -/
def divPower (x : Binary64) (n : Nat) : Binary64 :=
  if n ≤ 308 then x.div (powerOfTen n)
  else if x.isZero then x
  else divPower (x.div (powerOfTen 308)) (n - 308)
termination_by n

/-- The number read for `significand * 10 ^ exponent`: both factors are rounded before they are
multiplied or divided, so the result need not be the nearest number. -/
def ofScaled? (significand : Nat) (exponent : Int) : Option Binary64 := do
  let x ← ofQuotient? significand 1
  match exponent with
  | .ofNat n => if n ≤ 308 then x.mul? (powerOfTen n) else if x.isZero then some x else none
  | .negSucc n => some (x.divPower (n + 1))

end Binary64
end ContentQuery
