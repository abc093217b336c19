import ContentQuery.Json.Lexeme

/-!
# Reading JSON

The reader goes through the lexemes once, with the containers part way through in a list of frames.
`read?` keeps everything that stands in the text; `readValue?` gives a value with distinct keys.
-/

namespace ContentQuery
namespace Json

/-- A container part way through; what is done stands in reverse. -/
inductive Frame where
  | array (done : List Json)
  /-- An object that waits for the value of `key`; an unreadable key is none. -/
  | object (done : List (Option String × Json)) (key : Option String)

/-- What may stand next in a text. -/
inductive Expect where
  | value
  /-- The first item of an array, or its end. -/
  | itemOrEnd
  /-- A key of an object with these members, which may also end where `first` says so. -/
  | key (done : List (Option String × Json)) (first : Bool)
  | colon
  /-- The value has been read, and its container goes on. -/
  | after (j : Json)

/-- The object with the given members in reverse; none of it can be read if a key cannot. -/
def closeObject (done : List (Option String × Json)) : Json :=
  match done.reverse.mapM fun m => m.1.map fun key => (key, m.2) with
  | some members => .object members
  | none => .unreadable

/-- Reads a value from lexemes. -/
def build? : Expect → List Frame → List Lexeme → Option Json
  | .after j, [], [] => some j
  | .after j, .array done :: frames, .comma :: rest =>
      build? .value (.array (j :: done) :: frames) rest
  | .after j, .array done :: frames, .closeArray :: rest =>
      build? (.after (.array (j :: done).reverse)) frames rest
  | .after j, .object done key :: frames, .comma :: rest =>
      build? (.key ((key, j) :: done) false) frames rest
  | .after j, .object done key :: frames, .closeObject :: rest =>
      build? (.after (closeObject ((key, j) :: done))) frames rest
  | .key done _, frames, .text s :: rest => build? .colon (.object done s :: frames) rest
  | .key done true, frames, .closeObject :: rest => build? (.after (closeObject done)) frames rest
  | .colon, frames, .colon :: rest => build? .value frames rest
  | .itemOrEnd, .array done :: frames, .closeArray :: rest =>
      build? (.after (.array done.reverse)) frames rest
  | .itemOrEnd, frames, .scalar j :: rest => build? (.after j) frames rest
  | .itemOrEnd, frames, .text s :: rest =>
      build? (.after ((s.map Json.string).getD .unreadable)) frames rest
  | .itemOrEnd, frames, .openArray :: rest => build? .itemOrEnd (.array [] :: frames) rest
  | .itemOrEnd, frames, .openObject :: rest => build? (.key [] true) frames rest
  | .value, frames, .scalar j :: rest => build? (.after j) frames rest
  | .value, frames, .text s :: rest =>
      build? (.after ((s.map Json.string).getD .unreadable)) frames rest
  | .value, frames, .openArray :: rest => build? .itemOrEnd (.array [] :: frames) rest
  | .value, frames, .openObject :: rest => build? (.key [] true) frames rest
  | _, _, _ => none

/-- The value that a text is written for, with every member of its objects. -/
def read? (text : String) : Option Json := do
  let lexemes ← lexemesFrom? 0 text.toList
  build? .value [] lexemes

/-- The value of a text with distinct keys, of limited depth and without unreadable parts. -/
def readValue? (text : String) : Option Json :=
  (read? text).bind (settle? maxDepth)

end Json
end ContentQuery
