/-!
# Scanning for literals and parentheses

A scan reads a text character by character and keeps track of the quoted literal it is in and of
the depth of parentheses outside literals.  Inside a literal a backslash takes the next character
with it, and a doubled quote stands for one quote.

A quote that may end a literal leaves the scan in `closing`: if the same quote follows, the two
were a doubled quote.  So no character is looked at ahead of time, and reading `a ++ b` is reading
`a` and then `b`.
-/

namespace ContentQuery

/-- Where a scan stands with respect to literals. -/
inductive Mode where
  | plain
  /-- Inside a literal opened by `quote`. -/
  | quoted (quote : Char)
  /-- After a backslash inside a literal. -/
  | escaped (quote : Char)
  /-- After a quote that ends the literal unless it is doubled. -/
  | closing (quote : Char)
deriving DecidableEq, Repr

structure Scan where
  /-- Number of characters passed. -/
  position : Nat := 0
  /-- The character passed last. -/
  last : Option Char := none
  mode : Mode := .plain
  depth : Nat := 0
  /-- Position of the first closing parenthesis without an opening one. -/
  strayClose : Option Nat := none
  /-- Position at which the latest literal was opened. -/
  quoteStart : Nat := 0
deriving DecidableEq, Repr

namespace Scan

/-! ## Reading -/

/-- The effect of a character outside literals, position aside. -/
def stepPlain (s : Scan) (c : Char) : Scan :=
  if c = '\'' ∨ c = '"' then { s with mode := .quoted c, quoteStart := s.position }
  else if c = '(' then { s with mode := .plain, depth := s.depth + 1 }
  else if c = ')' then
    match s.depth with
    | 0 => { s with mode := .plain, strayClose := some (s.strayClose.getD s.position) }
    | depth + 1 => { s with mode := .plain, depth := depth }
  else { s with mode := .plain }

/-- The effect of a character, position aside. -/
def stepMode (s : Scan) (c : Char) : Scan :=
  match s.mode with
  | .plain => s.stepPlain c
  | .quoted quote =>
      if c = '\\' then { s with mode := .escaped quote }
      else if c = quote then { s with mode := .closing quote }
      else s
  | .escaped quote => { s with mode := .quoted quote }
  | .closing quote => if c = quote then { s with mode := .quoted quote } else s.stepPlain c

/-- Reads one character. -/
def step (s : Scan) (c : Char) : Scan :=
  { s.stepMode c with position := s.position + 1, last := some c }

/-- Reads a text. -/
def read (s : Scan) (text : List Char) : Scan :=
  text.foldl step s

/-- Passes one character without reading it. -/
def pass (s : Scan) (c : Char) : Scan :=
  { s with mode := .plain, position := s.position + 1, last := some c }

/-- A scan that starts afresh at `position` of a text. -/
def startAt (text : List Char) (position : Nat) : Scan :=
  { position := min position text.length, last := (text.take position).getLast? }

@[simp] theorem read_nil (s : Scan) : s.read [] = s :=
  rfl

@[simp] theorem read_cons (s : Scan) (c : Char) (cs : List Char) :
    s.read (c :: cs) = (s.step c).read cs :=
  rfl

theorem read_append (s : Scan) (a b : List Char) : s.read (a ++ b) = (s.read a).read b :=
  List.foldl_append

/-! ## Observations -/

/-- The quote of the literal that is open at the end of the text read. -/
def openQuote? (s : Scan) : Option Char :=
  match s.mode with
  | .quoted quote | .escaped quote => some quote
  | .plain | .closing _ => none

/-- Before `next` the scan stands outside literals: `next` does not double a closing quote. -/
def isOutside (s : Scan) (next : Char) : Bool :=
  match s.mode with
  | .plain => true
  | .closing quote => next != quote
  | .quoted _ | .escaped _ => false

/-- Before `next` the scan stands outside literals and parentheses. -/
def isTopLevel (s : Scan) (next : Char) : Bool :=
  s.depth == 0 && s.isOutside next

/-- A text is closed if its literals are terminated and its parentheses balanced. -/
def Closed (text : List Char) : Prop :=
  let final := ({} : Scan).read text
  final.openQuote? = none ∧ final.depth = 0 ∧ final.strayClose = none

instance (text : List Char) : Decidable (Closed text) :=
  inferInstanceAs (Decidable (_ ∧ _ ∧ _))

/-! ## Strides -/

/-- A scan and the text ahead of it. -/
structure Stop where
  scan : Scan
  ahead : List Char
deriving DecidableEq, Repr

namespace Stop

/-- Outside literals and parentheses, with regard to the text already passed. -/
def isTopLevel (p : Stop) : Bool :=
  p.scan.depth == 0 && p.scan.openQuote?.isNone

end Stop

/-- The stops of a walk that takes an escape or a doubled quote in one stride.  A backslash that
ends the text inside a literal strides one position past the end. -/
def strides (s : Scan) : List Char → List Stop
  | [] => []
  | c :: cs =>
      let next := s.step c
      match next.mode, cs with
      | .escaped quote, [] =>
          [⟨{ next with position := next.position + 1, last := none, mode := .quoted quote }, []⟩]
      | .escaped _, _ :: _ => strides next cs
      | .closing quote, d :: _ =>
          if d = quote then strides next cs else ⟨next, cs⟩ :: strides next cs
      | _, _ => ⟨next, cs⟩ :: strides next cs

end Scan
end ContentQuery
