import ContentQuery.Proofs.Draft.Reading
import ContentQuery.Proofs.Platform.Conditions

/-!
# Visibility under every alias

The visibility condition of a table is made of parts that qualify their columns by the name of the
table.  Made for the table and renamed, or made for a table that has the alias as its name: both
give one text.  The visibility stage attaches this text first, for the main table and for every join.
-/

namespace ContentQuery
namespace Draft

open Chars (IsName Solid)
open Rename

variable {catalog : Catalog} {context : RequestContext} {settings : Settings}
  {tableOf : String → String}

/-! ## Conditions for one alias -/

theorem shaped_of_mem_languageOf {entry : String × List String} {t : Attachment}
    (ht : t ∈ languageOf (catalog.platform context settings) tableOf entry) :
    catalog.Shaped (tableOf entry.1) entry.1 t.condition := by
  rcases mem_languageOf_cases ht with ⟨field, hstorage, rfl⟩ | ⟨condition, hcondition, rfl⟩
  · exact Catalog.shaped_languageFlag entry.1 context.language hstorage
  · exact Catalog.shaped_languageCondition hcondition

theorem shaped_liveCondition (catalog : Catalog) (table a : String) :
    catalog.Shaped table a (liveCondition a) := by
  refine ⟨.test "t3ver_oid" " = '0'", ⟨.inr (by decide), Shape.tail_of_closed (by decide)⟩, ?_⟩
  rw [← String.toList_inj]
  simp [liveCondition, Shape.text]

theorem shaped_of_mem_versioningOf {entry : String × List String} {t : Attachment}
    (ht : t ∈ versioningOf (catalog.platform context settings) tableOf entry) :
    catalog.Shaped (tableOf entry.1) entry.1 t.condition := by
  rcases mem_versioningOf_cases ht with rfl | ⟨condition, hcondition, rfl⟩
  · exact shaped_liveCondition catalog (tableOf entry.1) entry.1
  · exact Catalog.shaped_versionCondition hcondition

/-- Every condition on language and workspace is one for the table of its alias. -/
theorem shaped_of_mem_later {d : Draft} {selected : OrderedMap String (List String)}
    {t : Attachment}
    (ht : t ∈ languageConditions (catalog.platform context settings) d selected ++
      versioningConditions (catalog.platform context settings) d selected) :
    catalog.Shaped (d.query.tableOf t.aliasName) t.aliasName t.condition := by
  rcases List.mem_append.1 ht with ht | ht
  · unfold languageConditions at ht
    split at ht
    · simp at ht
    · rcases List.mem_flatMap.1 ht with ⟨entry, _, ht⟩
      rw [aliasName_of_mem_languageOf ht]
      exact shaped_of_mem_languageOf ht
  · rcases List.mem_flatMap.1 ht with ⟨entry, _, ht⟩
    rw [aliasName_of_mem_versioningOf ht]
    exact shaped_of_mem_versioningOf ht

/-! ## Every table -/

/-- The conditions added under an alias begin with the visibility condition that the catalog would
give if the alias were the name of the table, and all of them qualify their columns by the alias. -/
def VisibleFirst (catalog : Catalog) (context : RequestContext) (settings : Settings)
    (ref : TableRef) (added : List String) : Prop :=
  ∃ schema condition later, catalog.table? ref.table = some schema ∧
    (catalog.withTable ref.aliasName schema).visibility ref.aliasName
      (context.showHidden ref.table) (settings.ignoredFields ref.aliasName) context =
        .ok condition ∧
    added = (if condition = "" then [] else [condition]) ++ later ∧
    ∀ text ∈ added, QualifiedBy ref.aliasName.toList text.toList

/-- A table that can be shown: it is described, and it, its alias and its control columns are
names. -/
def Described (catalog : Catalog) (ref : TableRef) : Prop :=
  IsName ref.table.toList ∧ IsName ref.aliasName.toList ∧
    ∃ schema, catalog.table? ref.table = some schema ∧
      ∀ c ∈ schema.control.columns, IsName c.toList

theorem Described.namesColumns {ref : TableRef} (h : Described catalog ref) :
    catalog.NamesColumns ref.table := by
  rcases h with ⟨_, _, schema, htable, hcolumns⟩
  intro schema' htable'
  rw [htable, Option.some.injEq] at htable'
  rw [← htable']
  exact hcolumns

/-- The visibility stage attaches one condition for a described table. -/
theorem visibilityOf_eq (context : RequestContext) (settings : Settings) {ref : TableRef}
    (h : Described catalog ref) :
    ∃ schema condition, catalog.table? ref.table = some schema ∧
      (catalog.withTable ref.aliasName schema).visibility ref.aliasName
        (context.showHidden ref.table) (settings.ignoredFields ref.aliasName) context =
          .ok condition ∧
      visibilityOf (catalog.platform context settings) ref = [⟨ref.aliasName, condition⟩] ∧
      QualifiedBy ref.aliasName.toList condition.toList ∧
      (condition = "" ∨ Solid condition.toList) := by
  rcases h with ⟨ht, ha, schema, htable, hcolumns⟩
  obtain ⟨condition, hcondition, hrename, hqualified, hsolid⟩ := catalog.tableToAlias_visibility ht ha
    hcolumns (context.showHidden ref.table) (settings.ignoredFields ref.aliasName) context
  refine ⟨schema, condition, htable, hcondition, ?_, hqualified, hsolid⟩
  -- The policy gives the parts for the table; the stage renames them if the alias differs.
  have hpolicy : (catalog.platform context settings).policy.visibility ref.table
      (context.showHidden ref.table) (settings.ignoredFields ref.aliasName) context =
        .ok (Text.join " AND " (Catalog.visibilityParts schema.control ref.table
          (context.showHidden ref.table) (settings.ignoredFields ref.aliasName) context)) := by
    show catalog.visibility _ _ _ _ = _
    simp only [Catalog.visibility, Catalog.control, htable]
    rfl
  have hshown : (catalog.platform context settings).context = context := rfl
  have hignored : (catalog.platform context settings).settings = settings := rfl
  unfold visibilityOf
  simp only [hshown, hignored, hpolicy]
  by_cases hself : ref.aliasName = ref.table
  · -- Nothing to rename: the table has its own name as alias.
    rw [if_pos hself]
    have htable' : (catalog.withTable ref.aliasName schema).table? ref.aliasName = some schema := by
      rw [Catalog.withTable, Catalog.table?, OrderedMap.get?_insert, if_pos rfl]
    simp only [Catalog.visibility, Catalog.control, htable'] at hcondition
    have htext := Except.ok.inj hcondition
    rw [hself] at htext ⊢
    rw [htext]
  · rw [if_neg hself, hrename]

theorem on_solid {a condition : String} (h : condition = "" ∨ Solid condition.toList) :
    Attachment.on [⟨a, condition⟩] a = if condition = "" then [] else [condition] := by
  rcases h with rfl | h
  · have hblank : Text.trim "" = "" := by decide
    exact Attachment.on_cons_of_blank (t := ⟨a, ""⟩) hblank a []
  · have hne : condition ≠ "" := by
      rintro rfl
      exact h.ne_nil rfl
    have htrim : Text.trim condition = condition := by
      rw [Text.trim, h.trim, String.ofList_toList]
    rw [if_neg hne, Attachment.on_singleton htrim hne]

theorem map_aliasName_tableRefs {d : Draft} (hd : d.query.WellKept) :
    d.tableRefs.map (·.aliasName) = d.query.mainAlias :: d.query.joins.keys := by
  have hjoins : d.query.joins.entries.map (fun e => e.2.aliasName) = d.query.joins.keys := by
    refine List.map_congr_left fun e he => ?_
    exact hd.keyed (OrderedMap.get?_eq_some_iff.2 he)
  rw [tableRefs, List.map_cons, List.map_map, OrderedMap.values, List.map_map]
  exact congrArg _ hjoins

/-- With distinct aliases every table has its own visibility condition. -/
theorem on_visibilityConditions (catalog : Catalog) (context : RequestContext) {d : Draft}
    (hd : d.query.WellKept) (hdistinct : d.query.mainAlias ∉ d.query.joins.keys)
    (hmode : settings.visibility ≠ .all) {ref : TableRef} (href : ref ∈ d.tableRefs) :
    Attachment.on (visibilityConditions (catalog.platform context settings) d) ref.aliasName =
      Attachment.on (visibilityOf (catalog.platform context settings) ref) ref.aliasName := by
  have hall : visibilityConditions (catalog.platform context settings) d =
      d.tableRefs.flatMap (visibilityOf (catalog.platform context settings)) := by
    have hsettings : (catalog.platform context settings).settings = settings := rfl
    unfold visibilityConditions
    rw [hsettings]
    cases hvisibility : settings.visibility with
    | all => exact absurd hvisibility hmode
    | none => rfl
    | partialIgnore => rfl
  have hnodup : (d.tableRefs.map (·.aliasName)).Nodup := by
    rw [map_aliasName_tableRefs hd, List.nodup_cons]
    exact ⟨hdistinct, d.query.joins.nodup⟩
  -- The conditions for other tables are attached under other aliases.
  rw [hall, Attachment.on_flatMap]
  refine OrderedMap.flatMap_of_nodup hnodup href fun ref' _ hne => ?_
  refine Attachment.on_eq_nil fun t ht => ?_
  rw [aliasName_of_mem_visibilityOf ht]
  exact hne

/-- The conditions on language and workspace qualify their columns by the alias, too. -/
theorem qualifiedBy_later (context : RequestContext) (settings : Settings) (d : Draft) {a : String}
    (ha : IsName a.toList) (hcolumns : catalog.NamesColumns (d.query.tableOf a)) :
    ∀ text ∈ Attachment.on
        (languageConditions (catalog.platform context settings) d d.selectedColumns ++
          versioningConditions (catalog.platform context settings) d d.selectedColumns) a,
      QualifiedBy a.toList text.toList := by
  intro text htext
  rcases List.mem_filterMap.1 htext with ⟨t, ht, hif⟩
  -- Every condition made for this alias is solid, so attaching it trims nothing off.
  have hmade : t.aliasName = a → MadeFor a t.condition := by
    rintro rfl
    exact (shaped_of_mem_later ht).madeFor ha hcolumns
  split at hif
  · next hboth =>
      have h := hmade hboth.1
      have htrim : Text.trim t.condition = t.condition := by
        rw [Text.trim, h.solid.trim, String.ofList_toList]
      rw [← Option.some.inj hif, htrim]
      exact qualifiedBy_of_part h.part ha
  · simp at hif

/-- What the platform adds under the alias of a described table. -/
theorem visibleFirst_mechanismConditions {d : Draft} (hd : d.query.WellKept)
    (hdistinct : d.query.mainAlias ∉ d.query.joins.keys) (hmode : settings.visibility ≠ .all)
    {ref : TableRef} (href : ref ∈ d.tableRefs) (hdescribed : Described catalog ref)
    (htable : d.query.tableOf ref.aliasName = ref.table) :
    VisibleFirst catalog context settings ref
      (Attachment.on (mechanismConditions (catalog.platform context settings) d)
        ref.aliasName) := by
  obtain ⟨schema, condition, hschema, hcondition, hof, hqualified, hsolid⟩ :=
    visibilityOf_eq context settings hdescribed
  have hlater := qualifiedBy_later context settings d
    hdescribed.2.1 (by rw [htable]; exact hdescribed.namesColumns)
  -- Visibility comes first; the other stages attach behind it.
  have hadded := congrArg (· ++ Attachment.on
    (languageConditions (catalog.platform context settings) d d.selectedColumns ++
      versioningConditions (catalog.platform context settings) d d.selectedColumns) ref.aliasName)
    (on_visibilityConditions catalog context hd hdistinct hmode href)
  simp only [← Attachment.on_append, hof, on_solid hsolid, ← List.append_assoc] at hadded
  rw [mechanismConditions, hadded]
  refine ⟨schema, condition, _, hschema, hcondition, rfl, ?_⟩
  intro text htext
  rcases List.mem_append.1 htext with htext | htext
  · split at htext
    · simp at htext
    · rw [List.mem_singleton.1 htext]
      exact hqualified
  · exact hlater text htext

/-- With distinct aliases and described tables, the rules of the platform restrict every table of a
query: the first new condition for the main table and for every join is the visibility condition
under its alias, and no new condition qualifies a column by anything but the alias. -/
theorem visibility_of_every_table {text warning : String} {d₀ d : Draft}
    (hparse : d₀.parse (catalog.platform context settings) text = (d, .ok warning))
    (hmode : settings.visibility ≠ .all)
    (hdistinct : d.query.mainAlias ∉ d.query.joins.keys)
    (hdescribed : ∀ ref ∈ d.tableRefs, Described catalog ref) :
    let after := (d.addMechanisms (catalog.platform context settings)).query
    (∃ added, VisibleFirst catalog context settings ⟨d.query.mainTable, d.query.mainAlias⟩ added ∧
        after.conditions = d.query.conditions ++ added) ∧
      ∀ a join, d.query.joins.get? a = some join →
        ∃ added, VisibleFirst catalog context settings ⟨join.table, a⟩ added ∧
          after.joins.get? a = some (join.restrict added) := by
  intro after
  have hd := wellKept_of_parse hparse
  let added := Attachment.on (mechanismConditions (catalog.platform context settings) d)
  have hall := attaches_addMechanisms (catalog.platform context settings) d
  constructor
  -- The main table stands under its own alias, which no join takes from it.
  · have href : (⟨d.query.mainTable, d.query.mainAlias⟩ : TableRef) ∈ d.tableRefs := by
      simp [tableRefs]
    refine ⟨added d.query.mainAlias,
      visibleFirst_mechanismConditions hd hdistinct hmode href (hdescribed _ href) ?_,
      hall.conditions⟩
    have hmain := hd.mainTable hdistinct
    simp [Query.tableOf, Query.mainTable, hmain]
  -- A join is listed under the alias by which it is kept.
  · intro a join hjoin
    have hname : join.aliasName = a := hd.keyed hjoin
    have href : (⟨join.table, a⟩ : TableRef) ∈ d.tableRefs := by
      rw [tableRefs, List.mem_cons, List.mem_map]
      exact .inr ⟨join, List.mem_map.2 ⟨(a, join), OrderedMap.get?_eq_some_iff.1 hjoin, rfl⟩,
        by rw [hname]⟩
    have hne : d.query.mainAlias ≠ a := by
      rintro rfl
      exact hdistinct (OrderedMap.mem_keys_of_mem (OrderedMap.get?_eq_some_iff.1 hjoin))
    refine ⟨added a,
      visibleFirst_mechanismConditions hd hdistinct hmode href (hdescribed _ href) ?_, ?_⟩
    · simp [Query.tableOf, hd.joined hjoin]
    · have h := hall.join hd.aliases hjoin
      have hmain : d.query.isMainAlias a = false := by simpa [Query.isMainAlias] using hne
      rw [Query.joinConditions, hmain] at h
      exact h

/-- The listing of pages and news is restricted under both aliases. -/
theorem visibility_of_newsDraft :
    let after := (newsDraft.addMechanisms (Catalog.site.platform (.atTime 0) {})).query
    (∃ added, VisibleFirst Catalog.site (.atTime 0) {}
          ⟨newsDraft.query.mainTable, newsDraft.query.mainAlias⟩ added ∧
        after.conditions = newsDraft.query.conditions ++ added) ∧
      ∀ a join, newsDraft.query.joins.get? a = some join →
        ∃ added, VisibleFirst Catalog.site (.atTime 0) {} ⟨join.table, a⟩ added ∧
          after.joins.get? a = some (join.restrict added) := by
  have hread : newsDraft.tableRefs = [⟨"pages", "pages"⟩, ⟨"news", "n"⟩] ∧
      newsDraft.query.mainAlias ∉ newsDraft.query.joins.keys := by
    decide +kernel
  refine visibility_of_every_table parse_newsDraft (by decide) hread.2 ?_
  intro ref href
  rw [hread.1] at href
  simp only [List.mem_cons, List.not_mem_nil, or_false] at href
  rcases href with rfl | rfl
  · exact ⟨by decide, by decide, _, rfl, by decide⟩
  · exact ⟨by decide, by decide, _, rfl, by decide⟩

end Draft
end ContentQuery
