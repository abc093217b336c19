import ContentQuery.Chars.Alphabet
import ContentQuery.Chars.Cut
import ContentQuery.Chars.Template

/-!
# Table names in conditions

A condition that was made for a table is carried over to an alias of it: the table name is replaced
where it begins at a word boundary and a dot follows, possibly after a backquote.
-/

namespace ContentQuery
namespace Rename

/-! ## Matches -/

/-- Whether a word begins or ends between two neighbouring characters. -/
def isBoundary (last : Option Char) (next : Char) : Bool :=
  last.any Chars.isWordChar != Chars.isWordChar next

/-- What separates a qualifying table name from the column: a dot, or a backquote and a dot. -/
def separator? : List Char → Option (List Char)
  | '.' :: _ => some ['.']
  | '`' :: '.' :: _ => some ['`', '.']
  | _ => none

/-- The separator behind `table` at the start of a text. -/
def match? (table : List Char) (last : Option Char) (text : List Char) : Option (List Char) :=
  match text with
  | [] => none
  | next :: _ =>
      if isBoundary last next then (Chars.stripLeading? table text).bind separator? else none

/-! ## Replacement -/

/-- Replaces the matches by the expansions of a template over the whole match, the table and the
separator; the first `skip` characters belong to a match that was replaced already. -/
def replaceFrom (table template : List Char) : (skip : Nat) → Option Char → List Char → List Char
  | _, _, [] => []
  | skip + 1, _, c :: cs => replaceFrom table template skip (some c) cs
  | 0, last, c :: cs =>
      match match? table last (c :: cs) with
      | some separator =>
          Chars.expand [table ++ separator, table, separator] template ++
            replaceFrom table template (table.length + separator.length - 1) (some c) cs
      | none => c :: replaceFrom table template 0 (some c) cs

/-- The alias in front of the separator, as a template: dollar signs in the alias are references. -/
def template (aliasName : String) : List Char :=
  aliasName.toList ++ "$\x7b2\x7d".toList

/-- The condition with `alias` in place of `table`. -/
def tableToAlias (condition table aliasName : String) : String :=
  String.ofList (replaceFrom table.toList (template aliasName) 0 none condition.toList)

end Rename
end ContentQuery
