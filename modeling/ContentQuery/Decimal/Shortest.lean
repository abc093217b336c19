import ContentQuery.Chars.Unsigned
import ContentQuery.Decimal.Binary64

/-!
# Shortest decimals

The decimal with the fewest digits that still reads back as a given double-precision number, and
its text.
-/

namespace ContentQuery
namespace Decimal

/-- The number `digits * 10 ^ exponent`. -/
structure Scaled where
  digits : Nat
  exponent : Int
deriving DecidableEq, Repr

/-! ## Rounding intervals -/

/-- The numerator and denominator of `2 ^ two / 10 ^ ten`. -/
def unit (two ten : Int) : Nat × Nat :=
  let (a, b) := Binary64.shiftQuotient 1 1 two
  match ten with
  | .ofNat n => (a, b * Nat.pow 10 n)
  | .negSucc n => (a * Nat.pow 10 (n + 1), b)

/-- Whether `digits * 10 ^ exponent` lies where rounding gives `x`.  Below a power of two the next
number is half as far away.  An even mantissa also gets the two ends. -/
def readsBackAs (x : Binary64) (digits : Nat) (exponent : Int) : Bool :=
  let (num, den) := unit x.exponent exponent
  let below := if x.mantissa = Nat.pow 2 52 ∧ -1074 < x.exponent then 1 else 2
  let value := 4 * digits * den
  let low := (4 * x.mantissa - below) * num
  let high := (4 * x.mantissa + 2) * num
  if x.mantissa % 2 = 0 then low ≤ value && value ≤ high else low < value && value < high

/-- Exponent of the leading decimal digit of a positive number. -/
def leadingExponent (x : Binary64) : Int :=
  let guess := ((x.mantissa.log2 : Int) + x.exponent) * 30103 / 100000
  let reaches (n : Int) : Bool :=
    let (num, den) := unit x.exponent n
    den ≤ x.mantissa * num
  if reaches guess then if reaches (guess + 1) then guess + 1 else guess else guess - 1

/-! ## Candidates -/

/-- The nearest of the two decimals around `x` with the given exponent that read back as `x`; a tie
goes to the even one. -/
def nearest? (x : Binary64) (exponent : Int) : Option Scaled :=
  let (num, den) := unit x.exponent exponent
  let floor := x.mantissa * num / den
  let twice := 2 * (x.mantissa * num % den)
  match readsBackAs x floor exponent, readsBackAs x (floor + 1) exponent with
  | true, true =>
      if twice < den ∨ (twice = den ∧ floor % 2 = 0) then some ⟨floor, exponent⟩
      else some ⟨floor + 1, exponent⟩
  | true, false => some ⟨floor, exponent⟩
  | false, true => some ⟨floor + 1, exponent⟩
  | false, false => none

/-- The first hit among the decimals of `count` lengths that begin with the given exponent. -/
def firstNearest? (x : Binary64) : (count : Nat) → Int → Option Scaled
  | 0, _ => none
  | count + 1, exponent => (nearest? x exponent).or (firstNearest? x count (exponent - 1))

/-- The shortest decimal of a positive number; seventeen digits are always enough. -/
def shortest (x : Binary64) : Scaled :=
  (firstNearest? x 17 (leadingExponent x)).getD ⟨0, 0⟩

/-! ## Text -/

/-- The digits without final zeros, and the exponent that goes with them. -/
def trimZeros (s : Scaled) : List Char × Int :=
  let digits := Chars.decimal s.digits
  let kept := (digits.reverse.dropWhile (· == '0')).reverse
  (kept, s.exponent + ((digits.length - kept.length : Nat) : Int))

def exponentText : Int → List Char
  | .ofNat n => 'e' :: '+' :: Chars.decimal n
  | .negSucc n => 'e' :: '-' :: Chars.decimal (n + 1)

/-- Digits with a point after the first, and an exponent. -/
def scientific (digits : List Char) (exponent : Int) : List Char :=
  match digits with
  | [] => []
  | [d] => d :: exponentText exponent
  | d :: rest => d :: '.' :: rest ++ exponentText exponent

/-- Text of a number: with a point where the leading digit stands between `10 ^ -5` and `10 ^ 15`,
with an exponent elsewhere. -/
def text (x : Binary64) : List Char :=
  if x.isZero then ['0', '.', '0']
  else
    let (digits, exponent) := trimZeros (shortest x)
    let leading := (digits.length : Int) + exponent - 1
    if -5 ≤ leading ∧ leading ≤ 15 then
      match exponent, leading with
      | .ofNat zeros, _ => digits ++ List.replicate zeros '0' ++ ['.', '0']
      | _, .ofNat n => digits.take (n + 1) ++ '.' :: digits.drop (n + 1)
      | _, .negSucc n => '0' :: '.' :: List.replicate n '0' ++ digits
    else scientific digits leading

end Decimal
end ContentQuery
