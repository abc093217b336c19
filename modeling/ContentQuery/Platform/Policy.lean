import ContentQuery.Platform.Context

/-!
# Record policies

The rules of the platform on which records may be seen: visibility, language and workspaces.  A
rule that cannot be given is reported by a message, and whoever asked for it goes on without.
-/

namespace ContentQuery

/-- The reason why a rule is not available. -/
structure PolicyError where
  message : String
deriving DecidableEq, Repr

/-- Where a table keeps its records in other languages than the default one. -/
inductive LanguageStorage where
  | none
  /-- Records have a language, but no link to a record in the default language. -/
  | languageFlag (languageField : String)
  /-- They stand in the table itself and point to their record in the default language. -/
  | sameTable
  | foreignTable
deriving DecidableEq, Repr

def LanguageStorage.usesOverlays : LanguageStorage → Bool
  | sameTable | foreignTable => true
  | none | languageFlag _ => false

/-- The visibility fields that are left out of a condition. -/
structure IgnoredFields where
  disabled : Bool := false
  startTime : Bool := false
  endTime : Bool := false
  group : Bool := false
deriving DecidableEq, Repr

def IgnoredFields.isEmpty (i : IgnoredFields) : Bool :=
  !(i.disabled || i.startTime || i.endTime || i.group)

structure Policy where
  /-- The condition under which records of a table are visible. -/
  visibility :
    (table : String) → (showHidden : Bool) → IgnoredFields → RequestContext →
      Except PolicyError String
  languageStorage : (table : String) → LanguageStorage
  /-- The condition on the language of the records of a table that keeps all languages itself. -/
  languageCondition : (table aliasName : String) → RequestContext → Except PolicyError String
  /-- The selected columns, completed by those that a language overlay needs. -/
  overlayColumns :
    (table : String) → (selected : List String) → Except PolicyError (List String)
  isVersioned : (table : String) → Bool
  /-- The condition on the workspace of the records of a table; `direct` asks for versions as they
  are, without an overlay. -/
  versionCondition :
    (table aliasName : String) → (direct : Bool) → RequestContext → Except PolicyError String
  /-- The selected columns, completed by those that an overlay with versions needs. -/
  versionColumns :
    (table : String) → (selected : List String) → Except PolicyError (List String)

end ContentQuery
