import ContentQuery.Platform.Catalog
import ContentQuery.Platform.Settings

/-!
# Stored definitions

Settings and catalogs are kept in files.  A file may be missing or hold no UTF-8 text, or its text
may not be the JSON of what is asked for.
-/

namespace ContentQuery

inductive LoadError where
  /-- There is no file, or it holds no text. -/
  | unreadableFile
  | malformedJson
deriving DecidableEq, Repr

namespace Stored

/-- The text of a file, given by its bytes if it exists. -/
def text (file : Option ByteArray) : Except LoadError String :=
  match file.bind String.fromUTF8? with
  | some text => .ok text
  | none => .error .unreadableFile

/-- Reads the text of a file. -/
def load {α : Type} (read? : String → Option α) (file : Option ByteArray) :
    Except LoadError α := do
  match read? (← text file) with
  | some value => return value
  | none => throw .malformedJson

end Stored

def Settings.load (file : Option ByteArray) : Except LoadError Settings :=
  Stored.load Settings.ofText? file

def Catalog.load (file : Option ByteArray) : Except LoadError Catalog :=
  Stored.load Catalog.ofText? file

end ContentQuery
