import ContentQuery.Condition.Rename
import ContentQuery.Draft.Basic

/-!
# Visibility, language and workspaces

The conditions that the platform puts on every table of a query, and the columns that the caller
needs for overlays.  A rule that the policy cannot give is left out.
-/

namespace ContentQuery
namespace Draft

/-! ## Visibility -/

/-- The alias and table of the main table and of every join. -/
def tableRefs (d : Draft) : List TableRef :=
  ⟨d.query.mainTable, d.query.mainAlias⟩ ::
    d.query.joins.values.map fun join => ⟨join.table, join.aliasName⟩

/-- Attaches the visibility condition of one table, written for its alias. -/
def addVisibilityOf (p : Platform) (d : Draft) (ref : TableRef) : Draft :=
  match p.policy.visibility ref.table (p.context.showHidden ref.table)
      (p.settings.ignoredFields ref.aliasName) p.context with
  | .ok condition =>
      d.attach ref.aliasName
        (if ref.aliasName = ref.table then condition
        else Rename.tableToAlias condition ref.table ref.aliasName)
  | .error e =>
      d.warn "Enable fields ignored"
        ("No enable fields for table " ++ ref.table ++ ": " ++ e.message)

/-- Attaches the visibility condition of every table, unless the settings leave out all rules. -/
def addVisibility (p : Platform) (d : Draft) : Draft :=
  match p.settings.visibility with
  | .all => d
  | .none | .partialIgnore => d.tableRefs.foldl (addVisibilityOf p) d

/-! ## Columns for overlays -/

/-- Selects the columns of a table that are not selected; `selected` are those before the rules. -/
def addMissing (d : Draft) (table aliasName : String) (columns selected : List String) : Draft :=
  columns.foldl
    (fun d column =>
      if column ∈ selected ∨ d.hasField aliasName column then d
      else d.selectExtra table aliasName column)
    d

/-- The selected columns of every table that has any entry in the SELECT list. -/
def selectedColumns (d : Draft) : OrderedMap String (List String) :=
  d.tables.mapValues fun _ t => t.columns

def setOverlay (d : Draft) (table : String) (needed : Bool) : Draft :=
  { d with overlays := d.overlays.insert table needed }

def setVersionOverlay (d : Draft) (table : String) (needed : Bool) : Draft :=
  { d with versionOverlays := d.versionOverlays.insert table needed }

/-! ## Language -/

/-- Prepares the language overlay of a table, and restricts the language where the table itself
holds all of them. -/
def addLanguageOverlay (p : Platform) (d : Draft) (table aliasName : String)
    (selected : List String) (mode : LanguageStorage) : Draft :=
  match p.policy.overlayColumns table selected with
  | .error _ => d.setOverlay table false
  | .ok columns =>
      let d := (d.addMissing table aliasName columns selected).setOverlay table true
      if mode = .sameTable then
        match p.policy.languageCondition table aliasName p.context with
        | .ok condition => d.attach aliasName condition
        | .error _ => d.setOverlay table false
      else d

/-- Applies the language rules of one table. -/
def addLanguageOf (p : Platform) (d : Draft) (entry : String × List String) : Draft :=
  let (aliasName, selected) := entry
  let table := d.query.tableOf aliasName
  if p.settings.skipOverlays.contains table then d.setOverlay table false
  else match p.policy.languageStorage table with
    | .none => d
    | .languageFlag field =>
        d.attach aliasName
          (aliasName ++ "." ++ field ++ " IN (" ++ Text.decimal p.context.language ++ ", -1)")
    | mode => d.addLanguageOverlay p table aliasName selected mode

/-- Applies the language rules, unless the settings leave them out or the query is DISTINCT. -/
def addLanguage (p : Platform) (d : Draft) (selected : OrderedMap String (List String)) : Draft :=
  if p.settings.ignoreLanguage || d.query.distinct then d
  else selected.entries.foldl (addLanguageOf p) d

/-! ## Workspaces -/

/-- The condition for live records. -/
def liveCondition (aliasName : String) : String :=
  aliasName ++ ".t3ver_oid = '0'"

/-- The columns and the condition for the versions of a workspace. -/
def previewRules (p : Platform) (table aliasName : String) (selected : List String) :
    Except PolicyError (List String × String) := do
  let columns ← p.policy.versionColumns table selected
  let condition ←
    p.policy.versionCondition table aliasName (p.settings.directVersions.contains aliasName)
      p.context
  return (columns, condition)

/-- Applies the workspace rules of one table: live records only, unless a workspace is previewed. -/
def addVersioningOf (p : Platform) (d : Draft) (entry : String × List String) : Draft :=
  let (aliasName, selected) := entry
  let table := d.query.tableOf aliasName
  let d := d.setVersionOverlay table false
  if !p.policy.isVersioned table then d
  else if !p.context.preview then d.attach aliasName (liveCondition aliasName)
  else match previewRules p table aliasName selected with
    | .ok (columns, condition) =>
        ((d.addMissing table aliasName columns selected).setVersionOverlay table true).attach
          aliasName condition
    | .error e =>
        (d.warn ("Falling back to LIVE records for table " ++ table)
          ("A problem happened with versioning: " ++ e.message)).attach
          aliasName (liveCondition aliasName)

def addVersioning (p : Platform) (d : Draft) (selected : OrderedMap String (List String)) :
    Draft :=
  selected.entries.foldl (addVersioningOf p) d

/-! ## All rules -/

/-- Adds the conditions and columns that the platform requires. -/
def addMechanisms (p : Platform) (d : Draft) : Draft :=
  let d := d.addVisibility p
  let selected := d.selectedColumns
  (d.addLanguage p selected).addVersioning p selected

end Draft
end ContentQuery
