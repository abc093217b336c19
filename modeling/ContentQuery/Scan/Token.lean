import ContentQuery.Chars.Cut
import ContentQuery.Scan.Keyword

/-!
# Keyword tokens and top-level cuts

The occurrences of keywords outside literals, and the two cuts built on the scan: at a separator
on the top level, and around the first keyword on the top level.
-/

namespace ContentQuery

/-- A keyword found in a text. -/
structure Token where
  /-- Place of the keyword in the list that was searched. -/
  index : Nat
  start : Nat
  stop : Nat
  /-- Depth of parentheses at which the keyword stands. -/
  depth : Nat
deriving DecidableEq, Repr

namespace Scan

/-! ## Keyword tokens -/

/-- Finds the keywords outside literals, none inside another, and reads the rest.  The first `skip`
characters belong to a keyword that was found already. -/
def tokensFrom (words : List Keyword) : (skip : Nat) → Scan → List Char → List Token × Scan
  | _, s, [] => ([], s)
  | skip + 1, s, c :: cs => tokensFrom words skip (s.pass c) cs
  | 0, s, c :: cs =>
      match (if s.isOutside c then Keyword.first? words s.last (c :: cs) else none) with
      | some (index, length + 1) =>
          let found := tokensFrom words length (s.pass c) cs
          (⟨index, s.position, s.position + (length + 1), s.depth⟩ :: found.1, found.2)
      | _ => tokensFrom words 0 (s.step c) cs

/-- The keywords of a text in order, and the scan at its end. -/
def tokens (words : List Keyword) (text : List Char) : List Token × Scan :=
  tokensFrom words 0 {} text

/-! ## Separators -/

/-- Puts a character in front of the first piece. -/
def consHead (c : Char) : List (List Char) → List (List Char)
  | [] => [[c]]
  | piece :: pieces => (c :: piece) :: pieces

/-- The pieces between the top-level occurrences of `separator`. -/
def pieces (separator : Char) : Scan → List Char → List (List Char)
  | _, [] => [[]]
  | s, c :: cs =>
      if c = separator ∧ s.isTopLevel c then [] :: pieces separator (s.pass c) cs
      else consHead c (pieces separator (s.step c) cs)

/-- Splits at the top-level separators; the parts are trimmed and empty ones dropped. -/
def splitTopLevel (separator : Char) (text : List Char) : List (List Char) :=
  ((pieces separator {} text).map Chars.trim).filter (!·.isEmpty)

/-! ## Cut around a keyword -/

/-- Splits around the first top-level keyword; the sides are trimmed, and there is no right side
if the keyword does not occur. -/
def splitAtKeyword (word : Keyword) (text : List Char) : List Char × Option (List Char) :=
  match (tokens [word] text).1.find? (·.depth == 0) with
  | some token => (Chars.trim (text.take token.start), some (Chars.trim (text.drop token.stop)))
  | none => (Chars.trim text, none)

end Scan
end ContentQuery
