/-!
# Cutting and replacing in character lists

Slices by position, cuts at the first or last separator, prefixes and suffixes, and replacement of
every occurrence of a pattern.
-/

namespace ContentQuery
namespace Chars

/-- The characters from position `start` up to `stop`; positions past the end are harmless. -/
def slice (s : List Char) (start stop : Nat) : List Char :=
  (s.take stop).drop start

/-- Cuts around the first `sep`. -/
def splitOnce? (sep : Char) : List Char → Option (List Char × List Char)
  | [] => none
  | c :: cs =>
      if c = sep then some ([], cs)
      else (splitOnce? sep cs).map fun parts => (c :: parts.1, parts.2)

/-- Cuts around the last character that satisfies `p`. -/
def splitLast? (p : Char → Bool) : List Char → Option (List Char × List Char)
  | [] => none
  | c :: cs =>
      match splitLast? p cs with
      | some parts => some (c :: parts.1, parts.2)
      | none => if p c then some ([], cs) else none

/-- What follows `start` in a text that begins with it. -/
def stripLeading? : List Char → List Char → Option (List Char)
  | [], s => some s
  | _ :: _, [] => none
  | p :: ps, c :: cs => if p = c then stripLeading? ps cs else none

/-- What precedes `tail` in a text that ends with it. -/
def stripTrailing? (tail s : List Char) : Option (List Char) :=
  (stripLeading? tail.reverse s.reverse).map List.reverse

theorem append_of_stripLeading? {p s r : List Char} (h : stripLeading? p s = some r) :
    s = p ++ r := by
  induction p generalizing s with
  | nil => simpa [stripLeading?] using h
  | cons a ps ih =>
      cases s with
      | nil => simp [stripLeading?] at h
      | cons c cs =>
          by_cases hac : a = c
          · subst hac
            rw [stripLeading?, if_pos rfl] at h
            rw [ih h]
            rfl
          · simp [stripLeading?, hac] at h

@[simp] theorem stripLeading?_append (p r : List Char) : stripLeading? p (p ++ r) = some r := by
  induction p with
  | nil => rfl
  | cons a ps ih => simpa [stripLeading?] using ih

/-- An empty pattern occurs before every character and at the end. -/
def interleave (new : List Char) : List Char → List Char
  | [] => new
  | c :: cs => new ++ c :: interleave new cs

/-- Replaces a non-empty pattern from left to right; the first `skip` characters are the rest of an
occurrence that was replaced already. -/
def replaceFrom (pattern new : List Char) : (skip : Nat) → List Char → List Char
  | _, [] => []
  | skip + 1, _ :: cs => replaceFrom pattern new skip cs
  | 0, c :: cs =>
      if pattern.isPrefixOf (c :: cs) then new ++ replaceFrom pattern new (pattern.length - 1) cs
      else c :: replaceFrom pattern new 0 cs

/-- Replaces every occurrence of `pattern`, none inside another. -/
def replaceAll (pattern new s : List Char) : List Char :=
  if pattern.isEmpty then interleave new s else replaceFrom pattern new 0 s

end Chars
end ContentQuery
