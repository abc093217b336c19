import ContentQuery.Chars.Blank
import ContentQuery.Chars.Cut
import ContentQuery.Chars.Unsigned

/-!
# Operations on strings

The character-list operations carried over to strings, and joining with a separator.
-/

namespace ContentQuery
namespace Text

def trim (s : String) : String :=
  String.ofList (Chars.trim s.toList)

def isBlank (s : String) : Bool :=
  s.toList.all Chars.isBlank

/-- The pieces between the occurrences of `sep`; there is always at least one. -/
def splitOn (sep : Char) (s : String) : List String :=
  (s.toList.splitOn sep).map String.ofList

/-- The trimmed pieces between the occurrences of `sep`, without the empty ones. -/
def items (sep : Char) (s : String) : List String :=
  ((splitOn sep s).map trim).filter (!·.isEmpty)

def splitOnce? (sep : Char) (s : String) : Option (String × String) :=
  (Chars.splitOnce? sep s.toList).map fun parts =>
    (String.ofList parts.1, String.ofList parts.2)

/-- Cuts around the last `sep`. -/
def splitLast? (sep : Char) (s : String) : Option (String × String) :=
  (Chars.splitLast? (· == sep) s.toList).map fun parts =>
    (String.ofList parts.1, String.ofList parts.2)

def stripLeading? (start s : String) : Option String :=
  (Chars.stripLeading? start.toList s.toList).map String.ofList

def stripTrailing? (tail s : String) : Option String :=
  (Chars.stripTrailing? tail.toList s.toList).map String.ofList

def replaceAll (pattern new s : String) : String :=
  String.ofList (Chars.replaceAll pattern.toList new.toList s.toList)

/-- The strings of a list with `sep` between neighbours. -/
def join (sep : String) : List String → String
  | [] => ""
  | [s] => s
  | s :: t :: rest => s ++ sep ++ join sep (t :: rest)

/-- Equality without regard to ASCII case. -/
def equalsIgnoringCase (s t : String) : Bool :=
  s.toList.map Char.toUpper == t.toList.map Char.toUpper

def word? (s : String) : Option Nat :=
  Chars.word? s.toList

def decimal (n : Nat) : String :=
  String.ofList (Chars.decimal n)

/-- The decimal digits of an integer, after a minus sign if it is negative. -/
def signed : Int → String
  | .ofNat n => decimal n
  | .negSucc n => "-" ++ decimal (n + 1)

end Text
end ContentQuery
