import ContentQuery.Condition.Literal

/-!
# Boolean search terms

A user's search string becomes a list of terms for a boolean search.  Quoted phrases and bracketed
groups are kept whole; another term keeps one operator in front and one wildcard behind, and is
dropped if it is shorter than the index can find.

Groups are set aside under numbered marks while the string is cut at spaces, and put back
afterwards.
-/

namespace ContentQuery
namespace SearchTerms

/-! ## Groups -/

/-- The character on both sides of the number of a group. -/
def mark : Char := '\x01'

/-- Length of the text up to and with the first quote. -/
def phraseLength? : List Char → Option Nat
  | [] => none
  | c :: cs => if c = '"' then some 1 else (phraseLength? cs).map (· + 1)

/-- Length of the text up to and with the parenthesis that closes the last of `depth` open ones. -/
def bracketLength? (depth : Nat) : List Char → Option Nat
  | [] => none
  | c :: cs =>
      if c = '(' then (bracketLength? (depth + 1) cs).map (· + 1)
      else if c = ')' then
        match depth with
        | 0 | 1 => some 1
        | depth + 1 => (bracketLength? depth cs).map (· + 1)
      else (bracketLength? depth cs).map (· + 1)

/-- Length of the rest of a group that `c` begins. -/
def groupTail? (c : Char) (cs : List Char) : Option Nat :=
  if c = '"' then phraseLength? cs else if c = '(' then bracketLength? 1 cs else none

/-- Sets groups aside: the text with numbered marks in their place, and the groups.  `count` groups
were set aside before, and the first `skip` characters belong to the last of them. -/
def protectFrom : (skip count : Nat) → List Char → List Char × List (List Char)
  | _, _, [] => ([], [])
  | skip + 1, count, _ :: cs => protectFrom skip count cs
  | 0, count, c :: cs =>
      match groupTail? c cs with
      | some length =>
          let rest := protectFrom length (count + 1) cs
          (mark :: Chars.decimal count ++ mark :: rest.1, (c :: cs.take length) :: rest.2)
      | none =>
          let rest := protectFrom 0 count cs
          (c :: rest.1, rest.2)

/-- Puts groups back: behind the first piece, pieces come in pairs of a number and a text.  A number
that no group has, however large, stands for nothing. -/
def restorePieces (groups : List (List Char)) : List (List Char) → List Char
  | number :: text :: rest =>
      ((Chars.number? number).bind (groups[·]?)).getD [] ++ text ++ restorePieces groups rest
  | _ => []

/-- The text with its numbered marks replaced by the groups. -/
def restore (groups : List (List Char)) (text : List Char) : List Char :=
  match text.splitOn mark with
  | [] => []
  | first :: rest => first ++ restorePieces groups rest

/-! ## Terms -/

/-- The operators that may stand in front of a term. -/
def operators : List Char :=
  ['+', '-', '~', '>', '<']

/-- An operator in front of a term, and the rest of the term. -/
def splitOperator : List Char → List Char × List Char
  | [] => ([], [])
  | c :: cs => if c ∈ operators then ([c], cs) else ([], c :: cs)

/-- The term that a piece without spaces stands for, if it is of any use. -/
def term? (minLength : Nat) (groups : List (List Char)) (piece : List Char) : Option (List Char) :=
  let (op, rest) := splitOperator piece
  if mark ∈ rest then some (op ++ (restore groups rest).flatMap Literal.slashChar)
  else
    let (word, wildcard) := match Chars.stripTrailing? ['*'] rest with
      | some word => (word, ['*'])
      | none => (rest, [])
    if word.isEmpty || (wildcard.isEmpty && word.length < minLength) then none
    else some (op ++ word.flatMap Literal.slashChar ++ wildcard)

/-- The terms of a search string, with a space between neighbours. -/
def process (minLength : Nat) (search : String) : String :=
  let (text, groups) := protectFrom 0 0 search.toList
  let pieces := (text.splitOn ' ').filter (!·.isEmpty)
  String.ofList ([' '].intercalate (pieces.filterMap (term? minLength groups)))

end SearchTerms
end ContentQuery
