import ContentQuery.Chars.Unsigned

/-!
# Replacement templates

A template is a text with references to numbered groups: `$1` and `$name` take the longest name of
ASCII letters, digits and underscores, `$` with a name in braces takes that name, and `$$` is a
dollar sign.  A reference to a group that does not exist is empty, and a dollar sign that begins no
reference stands for itself.
-/

namespace ContentQuery
namespace Chars

/-- Characters of a name without braces. -/
def isGroupNameChar (c : Char) : Bool :=
  c.isAlphanum || c == '_'

/-- The text of the group with the given name. -/
def groupText (groups : List (List Char)) (name : List Char) : List Char :=
  ((word? name).bind (groups[·]?)).getD []

/-- The text for a reference behind a dollar sign, and the length of the reference. -/
def reference? (groups : List (List Char)) : List Char → Option (List Char × Nat)
  | '$' :: _ => some (['$'], 1)
  | '\x7b' :: rest =>
      let name := rest.takeWhile (· ≠ '\x7d')
      if name.length < rest.length then some (groupText groups name, name.length + 2) else none
  | text =>
      let name := text.takeWhile isGroupNameChar
      if name.isEmpty then none else some (groupText groups name, name.length)

/-- Fills in the references of a template; the first `skip` characters belong to one that was
filled in already. -/
def expandFrom (groups : List (List Char)) : (skip : Nat) → List Char → List Char
  | _, [] => []
  | skip + 1, _ :: cs => expandFrom groups skip cs
  | 0, c :: cs =>
      match (if c = '$' then reference? groups cs else none) with
      | some (text, length) => text ++ expandFrom groups length cs
      | none => c :: expandFrom groups 0 cs

def expand (groups : List (List Char)) (template : List Char) : List Char :=
  expandFrom groups 0 template

end Chars
end ContentQuery
