import ContentQuery.Json.Basic

/-!
# JSON lexemes

The lexemes of a JSON text.  Numbers are read from at most as many digits as fit 64 bits; further
digits only scale the number.
-/

namespace ContentQuery
namespace Json

inductive Lexeme where
  | openArray
  | closeArray
  | openObject
  | closeObject
  | comma
  | colon
  /-- A string; none if it has half a surrogate pair. -/
  | text (s : Option String)
  /-- A value that is neither a string nor a container. -/
  | scalar (j : Json)

/-! ## Strings -/

/-- A part of a string: a character, or a code unit written by its digits. -/
inductive Part where
  | char (c : Char)
  | unit (n : Nat)
deriving DecidableEq, Repr

def hexValue? (c : Char) : Option Nat :=
  if c.isDigit then some (c.toNat - 0x30)
  else if 'a' ≤ c ∧ c ≤ 'f' then some (c.toNat - 0x57)
  else if 'A' ≤ c ∧ c ≤ 'F' then some (c.toNat - 0x37)
  else none

/-- The code unit written by four hexadecimal digits. -/
def codeUnit? (a b c d : Char) : Option Nat := do
  let a ← hexValue? a
  let b ← hexValue? b
  let c ← hexValue? c
  let d ← hexValue? d
  return ((a * 16 + b) * 16 + c) * 16 + d

/-- The character after a backslash, `u` aside. -/
def escapedChar? (c : Char) : Option Char :=
  if c = '"' ∨ c = '\\' ∨ c = '/' then some c
  else if c = 'b' then some '\x08'
  else if c = 'f' then some '\x0c'
  else if c = 'n' then some '\n'
  else if c = 'r' then some '\r'
  else if c = 't' then some '\t'
  else none

/-- The parts of a string after its opening quote, and the number of characters up to and with the
closing one. -/
def stringParts? : List Char → Option (List Part × Nat)
  | [] => none
  | '"' :: _ => some ([], 1)
  | '\\' :: 'u' :: a :: b :: c :: d :: rest => do
      let unit ← codeUnit? a b c d
      let (parts, length) ← stringParts? rest
      return (.unit unit :: parts, length + 6)
  | '\\' :: c :: rest => do
      let char ← escapedChar? c
      let (parts, length) ← stringParts? rest
      return (.char char :: parts, length + 2)
  | c :: rest =>
      if c.toNat < 0x20 ∨ c = '\\' then none
      else do
        let (parts, length) ← stringParts? rest
        return (.char c :: parts, length + 1)

def isHighSurrogate (n : Nat) : Bool := 0xD800 ≤ n && n < 0xDC00

def isLowSurrogate (n : Nat) : Bool := 0xDC00 ≤ n && n < 0xE000

/-- The characters of the parts; two code units that form a surrogate pair are one character. -/
def joinParts? : List Part → Option (List Char)
  | [] => some []
  | .char c :: rest => (joinParts? rest).map (c :: ·)
  | .unit n :: rest =>
      if isLowSurrogate n then none
      else if isHighSurrogate n then
        match rest with
        | .unit m :: rest =>
            if isLowSurrogate m then
              (joinParts? rest).map
                (Char.ofNat (0x10000 + (n - 0xD800) * 0x400 + (m - 0xDC00)) :: ·)
            else none
        | _ => none
      else (joinParts? rest).map (Char.ofNat n :: ·)

/-! ## Numbers -/

/-- Takes digits on top of a value as long as it stays below `Chars.wordBound`; the rest remains. -/
def takeDigits (value : Nat) : List Char → Nat × List Char
  | [] => (value, [])
  | c :: cs =>
      let next := 10 * value + (c.toNat - 0x30)
      if next < Chars.wordBound then takeDigits next cs else (value, c :: cs)

/-- The parts of a number as written. -/
structure Numeral where
  isNegative : Bool
  whole : List Char
  fraction : Option (List Char)
  exponent : Option Int

namespace Numeral

/-- The number for a significand and an exponent, if it is in range. -/
def real (isNegative : Bool) (significand : Nat) (exponent : Int) : Json :=
  match Binary64.ofScaled? significand exponent with
  | some magnitude => .number (.real isNegative magnitude)
  | none => .unreadable

/-- The value of a numeral: an integer where its digits fit a machine word, else a real number. -/
def value (n : Numeral) : Json :=
  let (significand, scaling) := takeDigits 0 n.whole
  match n.fraction, n.exponent, scaling with
  | none, none, [] =>
      if !n.isNegative then .number (.natural significand)
      else if significand = 0 ∨ Nat.pow 2 63 < significand then real true significand 0
      else .number (.negative significand)
  | fraction, exponent, _ =>
      let digits := fraction.getD []
      let (significand, unused) := takeDigits significand digits
      real n.isNegative significand
        ((scaling.length : Int) + (unused.length : Int) - (digits.length : Int) + exponent.getD 0)

end Numeral

def digitsInt (digits : List Char) : Int :=
  ((Chars.digitsValue? 0 digits).getD 0 : Nat)

/-- The fraction after the whole digits of a number, if there is one, and the text behind it. -/
def readFraction? : List Char → Option (Option (List Char) × List Char)
  | '.' :: rest =>
      let digits := rest.takeWhile Char.isDigit
      if digits.isEmpty then none else some (some digits, rest.dropWhile Char.isDigit)
  | text => some (none, text)

/-- The exponent of a number, if there is one, and the text behind it. -/
def readExponent? (text : List Char) : Option (Option Int × List Char) :=
  match text with
  | c :: rest =>
      if c = 'e' ∨ c = 'E' then
        let (sign, rest) : Int × List Char := match rest with
          | '+' :: rest => (1, rest)
          | '-' :: rest => (-1, rest)
          | rest => (1, rest)
        let digits := rest.takeWhile Char.isDigit
        if digits.isEmpty then none
        else some (some (sign * digitsInt digits), rest.dropWhile Char.isDigit)
      else some (none, text)
  | [] => some (none, [])

/-- A number at the start of a text, and its length. -/
def readNumber? (text : List Char) : Option (Json × Nat) := do
  let (isNegative, body) := match text with
    | '-' :: body => (true, body)
    | body => (false, body)
  let whole := body.takeWhile Char.isDigit
  if whole.isEmpty || (whole.head? == some '0' && 1 < whole.length) then none
  else do
    let (fraction, rest) ← readFraction? (body.dropWhile Char.isDigit)
    let (exponent, rest) ← readExponent? rest
    return (Numeral.value { isNegative, whole, fraction, exponent }, text.length - rest.length)

/-! ## Lexemes -/

/-- The literal names at the start of a text. -/
def readName? (text : List Char) : Option (Json × Nat) :=
  if "true".toList.isPrefixOf text then some (.bool true, 4)
  else if "false".toList.isPrefixOf text then some (.bool false, 5)
  else if "null".toList.isPrefixOf text then some (.null, 4)
  else none

/-- The lexeme at the start of a text that does not start with a blank, and its length. -/
def readLexeme? : List Char → Option (Lexeme × Nat)
  | [] => none
  | '[' :: _ => some (.openArray, 1)
  | ']' :: _ => some (.closeArray, 1)
  | '\x7b' :: _ => some (.openObject, 1)
  | '\x7d' :: _ => some (.closeObject, 1)
  | ',' :: _ => some (.comma, 1)
  | ':' :: _ => some (.colon, 1)
  | '"' :: rest => do
      let (parts, length) ← stringParts? rest
      return (.text ((joinParts? parts).map String.ofList), length + 1)
  | c :: rest => do
      let (value, length) ←
        if c = '-' ∨ c.isDigit then readNumber? (c :: rest) else readName? (c :: rest)
      return (.scalar value, length)

def isSpace (c : Char) : Bool :=
  c == ' ' || c == '\n' || c == '\t' || c == '\r'

/-- The lexemes of a text; the first `skip` characters belong to one that was read already. -/
def lexemesFrom? : (skip : Nat) → List Char → Option (List Lexeme)
  | _, [] => some []
  | skip + 1, _ :: cs => lexemesFrom? skip cs
  | 0, c :: cs =>
      if isSpace c then lexemesFrom? 0 cs
      else do
        let (lexeme, length) ← readLexeme? (c :: cs)
        let rest ← lexemesFrom? (length - 1) cs
        return lexeme :: rest

end Json
end ContentQuery
