/-!
# Unsigned decimals

Reading of unsigned numbers, of any size or only those that fit a machine word.  A single plus sign
may stand in front.
-/

namespace ContentQuery
namespace Chars

/-- The bound of 64-bit unsigned numbers. -/
def wordBound : Nat := Nat.pow 2 64

def digit? (c : Char) : Option Nat :=
  if c.isDigit then some (c.toNat - '0'.toNat) else none

/-- Reads digits only, on top of the value read so far. -/
def digitsValue? (value : Nat) : List Char → Option Nat
  | [] => some value
  | c :: cs => (digit? c).bind fun d => digitsValue? (10 * value + d) cs

/-- Reads a number: an optional plus sign and at least one digit. -/
def number? (s : List Char) : Option Nat :=
  let digits := match s with
    | '+' :: rest => rest
    | _ => s
  match digits with
  | [] => none
  | _ :: _ => digitsValue? 0 digits

/-- Reads a number below `wordBound`. -/
def word? (s : List Char) : Option Nat :=
  (number? s).filter (· < wordBound)

/-- The decimal digits of a number, without leading zeros. -/
def decimal (n : Nat) : List Char :=
  Nat.toDigits 10 n

end Chars
end ContentQuery
