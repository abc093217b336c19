import ContentQuery.Json.Record
import ContentQuery.Platform.Timestamp

/-!
# Request contexts

What a request asks for: the language, the workspace, hidden records, the time of access and the
groups of the user.
-/

namespace ContentQuery

structure RequestContext where
  /-- Zero is the default language. -/
  language : Nat
  /-- Whether a workspace is previewed. -/
  preview : Bool
  workspace : Nat
  showHiddenPages : Bool
  showHiddenRecords : Bool
  /-- Seconds since 1970, for start and end times. -/
  accessTime : Int
  userGroups : List Int
deriving DecidableEq, Repr

namespace RequestContext

/-- A live request in the default language by a user without groups of their own. -/
def atTime (accessTime : Int) : RequestContext where
  language := 0
  preview := false
  workspace := 0
  showHiddenPages := false
  showHiddenRecords := false
  accessTime := accessTime
  userGroups := [0, -1]

def withPreview (context : RequestContext) (workspace : Nat) : RequestContext :=
  { context with preview := true, workspace := workspace }

/-- Whether hidden records of a table are visible; pages have a setting of their own. -/
def showHidden (context : RequestContext) (table : String) : Bool :=
  if table = "pages" then context.showHiddenPages else context.showHiddenRecords

/-- Reads a context; `now` is the time of access where none is given. -/
def ofJson? (now : Int) (j : Json) : Option RequestContext := do
  let initial := atTime now
  match ← Json.fields?
      [["language"], ["versioning_preview"], ["workspace"], ["show_hidden_pages"],
        ["show_hidden_records"], ["access_time"], ["user_groups"]] j with
  | [language, preview, workspace, pages, records, time, groups] => do
      let language ← Json.decodeOr initial.language (Json.asNatural? (Nat.pow 2 32)) language
      let preview ← Json.decodeOr initial.preview Json.asBool? preview
      let workspace ← Json.decodeOr initial.workspace (Json.asNatural? (Nat.pow 2 32)) workspace
      let showHiddenPages ← Json.decodeOr initial.showHiddenPages Json.asBool? pages
      let showHiddenRecords ← Json.decodeOr initial.showHiddenRecords Json.asBool? records
      let accessTime ←
        Json.decodeOr initial.accessTime (fun j => j.asText?.bind Timestamp.read?) time
      let userGroups ← Json.decodeOr initial.userGroups (Json.asList? Json.asInteger?) groups
      return { language, preview, workspace, showHiddenPages, showHiddenRecords, accessTime,
               userGroups }
  | _ => none

end RequestContext
end ContentQuery
