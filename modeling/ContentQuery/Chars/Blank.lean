/-!
# Blank characters, trimming and lines

White space is the Unicode property of that name.  The file defines the class, trimming on either
side, and the cut of a text into lines.
-/

namespace ContentQuery
namespace Chars

/-- The characters with the Unicode property White_Space. -/
def isBlank (c : Char) : Bool :=
  let n := c.toNat
  (9 ≤ n && n ≤ 13) || n == 0x20 || n == 0x85 || n == 0xA0 || n == 0x1680 ||
    (0x2000 ≤ n && n ≤ 0x200A) || n == 0x2028 || n == 0x2029 || n == 0x202F || n == 0x205F ||
    n == 0x3000

theorem isBlank_of_isWhitespace {c : Char} (h : c.isWhitespace = true) : isBlank c = true := by
  simp only [Char.isWhitespace, Bool.or_eq_true, decide_eq_true_eq] at h
  rcases h with ((h | h) | h) | h <;> subst h <;> decide

/-! ## Trimming -/

def trimStart (s : List Char) : List Char :=
  s.dropWhile isBlank

def trimEnd (s : List Char) : List Char :=
  (s.reverse.dropWhile isBlank).reverse

/-- Blanks at both ends go, blanks inside stay. -/
def trim (s : List Char) : List Char :=
  trimEnd (trimStart s)

/-- Drops every final character that satisfies `p`. -/
def dropTrailing (p : Char → Bool) (s : List Char) : List Char :=
  (s.reverse.dropWhile p).reverse

/-! ## Lines -/

/-- The pieces between line feeds.  A text that ends in a line feed has an empty last piece. -/
def lines (s : List Char) : List (List Char) :=
  s.splitOn '\n'

end Chars
end ContentQuery
