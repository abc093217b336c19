import ContentQuery.Chars.Alphabet
import ContentQuery.Chars.Blank
import ContentQuery.Chars.Uppercase
import ContentQuery.Scan.Basic

/-!
# Keywords

A keyword is matched without regard to ASCII case and must stand on word boundaries.  A space in a
keyword stands for a non-empty run of blanks, so `GROUP BY` is also found in a text that breaks the
line between the two words.
-/

namespace ContentQuery

/-- The capital letters and spaces of a keyword. -/
structure Keyword where
  letters : List Char
deriving DecidableEq, Repr

namespace Keyword

def ofString (word : String) : Keyword :=
  ⟨Chars.upper word.toList⟩

/-- Characters that may continue a name on either side of a keyword. -/
def isIdentifierChar (c : Char) : Bool :=
  Chars.isAlphanumeric c || c == '_' || c == '$' || c == '.'

/-! ## Matching -/

/-- Number of characters at the start of the text that spell the letters and end on a boundary. -/
def spelling? : (letters text : List Char) → Option Nat
  | [], text => if text.head?.any isIdentifierChar then none else some 0
  | letter :: letters, text =>
      if letter = ' ' then
        let blanks := text.takeWhile Chars.isBlank
        if blanks.isEmpty then none
        else (spelling? letters (text.dropWhile Chars.isBlank)).map (· + blanks.length)
      else match text with
        | [] => none
        | c :: cs =>
            if c ≠ '\x00' ∧ c.toUpper = letter then (spelling? letters cs).map (· + 1) else none

/-- Length of the keyword at the start of `text`, where `last` is the character before it. -/
def length? (k : Keyword) (last : Option Char) (text : List Char) : Option Nat :=
  if last.any isIdentifierChar then none else spelling? k.letters text

/-- Length of the keyword at `position` of a text. -/
def lengthAt? (k : Keyword) (text : List Char) (position : Nat) : Option Nat :=
  k.length? (Scan.startAt text position).last (text.drop position)

/-- The first of several keywords that matches, as its index and its length. -/
def first? (words : List Keyword) (last : Option Char) (text : List Char) : Option (Nat × Nat) :=
  words.zipIdx.findSome? fun word => (word.1.length? last text).map fun n => (word.2, n)

/-! ## The keywords of a statement -/

def select : Keyword := ⟨"SELECT".toList⟩
def distinct : Keyword := ⟨"DISTINCT".toList⟩
def as : Keyword := ⟨"AS".toList⟩
def source : Keyword := ⟨"FROM".toList⟩
def innerJoin : Keyword := ⟨"INNER JOIN".toList⟩
def leftJoin : Keyword := ⟨"LEFT JOIN".toList⟩
def rightJoin : Keyword := ⟨"RIGHT JOIN".toList⟩
def on : Keyword := ⟨"ON".toList⟩
def max : Keyword := ⟨"MAX".toList⟩
def condition : Keyword := ⟨"WHERE".toList⟩
def groupBy : Keyword := ⟨"GROUP BY".toList⟩
def orderBy : Keyword := ⟨"ORDER BY".toList⟩
def limit : Keyword := ⟨"LIMIT".toList⟩
def offset : Keyword := ⟨"OFFSET".toList⟩

end Keyword
end ContentQuery
