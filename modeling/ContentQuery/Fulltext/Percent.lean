import ContentQuery.Text

/-!
# Percent-encoded search strings

Search strings come in the form encoding of query strings: a plus sign is a space, `%XX` is a byte,
and the bytes are UTF-8.  Bytes that are not UTF-8 become replacement characters, one for each
longest piece that begins a character and is cut short, and one for each byte that begins none.
-/

namespace ContentQuery
namespace Percent

/-! ## Bytes -/

def hexDigit? (b : UInt8) : Option UInt8 :=
  if 0x30 ≤ b ∧ b ≤ 0x39 then some (b - 0x30)
  else if 0x41 ≤ b ∧ b ≤ 0x46 then some (b - 0x37)
  else if 0x61 ≤ b ∧ b ≤ 0x66 then some (b - 0x57)
  else none

/-- The byte written by `%` and the next two bytes. -/
def escaped? : List UInt8 → Option UInt8
  | high :: low :: _ => do
      let h ← hexDigit? high
      let l ← hexDigit? low
      return h * 16 + l
  | _ => none

/-- Decodes `%XX`; the first `skip` bytes are digits of an escape that was decoded already. -/
def decodeFrom : (skip : Nat) → List UInt8 → List UInt8
  | _, [] => []
  | skip + 1, _ :: bs => decodeFrom skip bs
  | 0, b :: bs =>
      if b = 0x25 then
        match escaped? bs with
        | some value => value :: decodeFrom 2 bs
        | none => b :: decodeFrom 0 bs
      else b :: decodeFrom 0 bs

/-! ## UTF-8 -/

/-- What UTF-8 expects next: `more` further bytes for a character whose bits so far are `bits`, the
next of them from `low` to `high`. -/
structure Pending where
  more : Nat
  bits : Nat
  low : UInt8
  high : UInt8
deriving DecidableEq, Repr

/-- The effect of a byte between characters. -/
inductive Lead where
  | char (c : Char)
  | pending (p : Pending)
  | invalid
deriving DecidableEq, Repr

def lead (b : UInt8) : Lead :=
  if b < 0x80 then .char (Char.ofNat b.toNat)
  else if 0xC2 ≤ b ∧ b ≤ 0xDF then .pending ⟨1, b.toNat - 0xC0, 0x80, 0xBF⟩
  else if b = 0xE0 then .pending ⟨2, 0, 0xA0, 0xBF⟩
  else if b = 0xED then .pending ⟨2, 0xD, 0x80, 0x9F⟩
  else if 0xE1 ≤ b ∧ b ≤ 0xEF then .pending ⟨2, b.toNat - 0xE0, 0x80, 0xBF⟩
  else if b = 0xF0 then .pending ⟨3, 0, 0x90, 0xBF⟩
  else if 0xF1 ≤ b ∧ b ≤ 0xF3 then .pending ⟨3, b.toNat - 0xF0, 0x80, 0xBF⟩
  else if b = 0xF4 then .pending ⟨3, 4, 0x80, 0x8F⟩
  else .invalid

def replacement : Char := '\uFFFD'

/-- Decodes the bytes after `pending`, what has been read of a character. -/
def utf8From : Option Pending → List UInt8 → List Char
  | none, [] => []
  | some _, [] => [replacement]
  | some p, b :: bs =>
      if p.low ≤ b ∧ b ≤ p.high then
        let bits := p.bits * 64 + (b.toNat - 0x80)
        match p.more with
        | more + 2 => utf8From (some ⟨more + 1, bits, 0x80, 0xBF⟩) bs
        | _ => Char.ofNat bits :: utf8From none bs
      else
        replacement :: match lead b with
          | .char c => c :: utf8From none bs
          | .pending q => utf8From (some q) bs
          | .invalid => replacement :: utf8From none bs
  | none, b :: bs =>
      match lead b with
      | .char c => c :: utf8From none bs
      | .pending q => utf8From (some q) bs
      | .invalid => replacement :: utf8From none bs

/-- The text of a byte sequence, with replacement characters where it is not UTF-8. -/
def utf8Lossy (bs : List UInt8) : List Char :=
  utf8From none bs

/-! ## Search strings -/

def plusToSpace (s : String) : String :=
  s.map fun c => if c = '+' then ' ' else c

/-- The text that a search string encodes. -/
def decodeSearch (s : String) : String :=
  String.ofList (utf8Lossy (decodeFrom 0 (plusToSpace s).toUTF8.toList))

end Percent
end ContentQuery
