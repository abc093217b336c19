import ContentQuery.Json.Parser
import ContentQuery.Json.Record
import ContentQuery.Platform.Policy
import ContentQuery.Text

/-!
# Settings

The settings stored with a query: how long results are kept, which visibility rules and overlays
are left out for which tables, and the least length of a search word.
-/

namespace ContentQuery

/-! ## Lists of tables -/

inductive TableList where
  | all
  | none
  | tables (names : List String)
deriving DecidableEq, Repr

namespace TableList

/-- A star among the names stands for every table. -/
def ofNames (names : List String) : TableList :=
  if "*" ∈ names then all else if names.isEmpty then none else tables names

/-- Reads names separated by commas. -/
def ofText (text : String) : TableList :=
  ofNames (Text.items ',' text)

def contains (list : TableList) (table : String) : Bool :=
  match list with
  | all => true
  | none => false
  | tables names => table ∈ names

def text : TableList → String
  | all => "*"
  | none => ""
  | tables names => Text.join "," names

/-- Reads a text or an array of names. -/
def ofJson? : Json → Option TableList
  | .string text => some (ofText text)
  | .array items =>
      (items.mapM Json.asText?).map fun names =>
        ofNames ((names.map Text.trim).filter (!·.isEmpty))
  | _ => Option.none

end TableList

/-! ## Visibility modes -/

/-- Which visibility rules are left out. -/
inductive VisibilityMode where
  /-- All rules apply. -/
  | none
  /-- No rule applies. -/
  | all
  /-- Rules are left out by kind and by table. -/
  | partialIgnore
deriving DecidableEq, Repr

namespace VisibilityMode

def name : VisibilityMode → String
  | none => "none"
  | all => "all"
  | partialIgnore => "partial"

def ofName? (name : String) : Option VisibilityMode :=
  if name = "none" ∨ name = "0" then some none
  else if name = "all" ∨ name = "1" then some all
  else if name = "partial" ∨ name = "2" then some partialIgnore
  else Option.none

end VisibilityMode

/-! ## Settings -/

/-- A length of time in whole seconds and nanoseconds. -/
structure Lifetime where
  seconds : Nat
  nanoseconds : Nat
deriving DecidableEq, Repr

/-- The greatest lifetime: the greatest 64-bit number of milliseconds. -/
def Lifetime.longest : Lifetime := ⟨9223372036854775, 807000000⟩

structure Settings where
  /-- Seconds for which results are kept. -/
  cacheDuration : Nat := 86400
  visibility : VisibilityMode := .none
  ignoreTime : TableList := .none
  ignoreDisabled : TableList := .none
  ignoreGroup : TableList := .none
  ignoreLanguage : Bool := false
  /-- Tables that get no overlay with records of another language. -/
  skipOverlays : TableList := .none
  /-- Tables whose versions are fetched as they are. -/
  directVersions : TableList := .none
  minWordLength : Nat := 4
deriving DecidableEq, Repr

namespace Settings

/-- The time for which results are kept, cut off at the longest lifetime. -/
def cacheLifetime (s : Settings) : Lifetime :=
  if s.cacheDuration ≤ Lifetime.longest.seconds then ⟨s.cacheDuration, 0⟩ else .longest

/-- The visibility fields that are left out for a table; only the partial mode leaves out any. -/
def ignoredFields (s : Settings) (table : String) : IgnoredFields :=
  match s.visibility with
  | .partialIgnore =>
      { disabled := s.ignoreDisabled.contains table
        startTime := s.ignoreTime.contains table
        endTime := s.ignoreTime.contains table
        group := s.ignoreGroup.contains table }
  | .none | .all => {}

def ofJson? (j : Json) : Option Settings := do
  let initial : Settings := {}
  match ← Json.fields?
      [["cache_duration"], ["ignore_enable_fields"], ["ignore_time_for_tables"],
        ["ignore_disabled_for_tables"], ["ignore_fegroup_for_tables"],
        ["ignore_language_handling"], ["skip_overlays_for_tables"], ["get_versions_directly"],
        ["fulltext_minimum_word_length"]] j with
  | [duration, mode, time, disabled, group, language, overlays, versions, length] => do
      let word := Json.asNatural? Chars.wordBound
      let cacheDuration ← Json.decodeOr initial.cacheDuration word duration
      let visibility ←
        Json.decodeOr initial.visibility (Json.asChoice? VisibilityMode.ofName?) mode
      let ignoreTime ← Json.decodeOr initial.ignoreTime TableList.ofJson? time
      let ignoreDisabled ← Json.decodeOr initial.ignoreDisabled TableList.ofJson? disabled
      let ignoreGroup ← Json.decodeOr initial.ignoreGroup TableList.ofJson? group
      let ignoreLanguage ← Json.decodeOr initial.ignoreLanguage Json.asBool? language
      let skipOverlays ← Json.decodeOr initial.skipOverlays TableList.ofJson? overlays
      let directVersions ← Json.decodeOr initial.directVersions TableList.ofJson? versions
      let minWordLength ← Json.decodeOr initial.minWordLength word length
      return { cacheDuration, visibility, ignoreTime, ignoreDisabled, ignoreGroup, ignoreLanguage,
               skipOverlays, directVersions, minWordLength }
  | _ => none

/-- Reads settings from a JSON text; a repeated key matters only where it is a setting. -/
def ofText? (text : String) : Option Settings :=
  (Json.read? text).bind ofJson?

end Settings
end ContentQuery
