import ContentQuery.Platform.Catalog
import ContentQuery.Proofs.Condition.Closed
import ContentQuery.Proofs.Platform.Conditions

/-!
# Closed conditions of a catalog

The conditions that a catalog gives on visibility, language and workspace are closed if the names of
tables, aliases and columns are made of letters, digits and underscores.
-/

namespace ContentQuery

open Scan (Closed Ordinary)
open Text (NameLike)

/-- The columns that a catalog puts into conditions are made of name characters. -/
structure Catalog.Named (catalog : Catalog) : Prop where
  control : ∀ t ∈ catalog.tables.entries, ∀ c ∈ t.2.control.columns, NameLike c
  indexes : ∀ t ∈ catalog.tables.entries, ∀ e ∈ t.2.indexes.entries, ∀ c ∈ e.2, NameLike c

namespace Catalog

variable {catalog : Catalog} {table a condition : String} {context : RequestContext}

theorem mem_tables_of_table? {schema : TableSchema} (h : catalog.table? table = some schema) :
    (table, schema) ∈ catalog.tables.entries :=
  OrderedMap.get?_eq_some_iff.1 h

theorem Named.control_of_ok (hcatalog : catalog.Named) {control : TableControl}
    (h : catalog.control table = .ok control) : ∀ c ∈ control.columns, NameLike c := by
  obtain ⟨schema, htable, rfl⟩ := control_eq_ok_iff.1 h
  exact hcatalog.control _ (mem_tables_of_table? htable)

theorem closed_visibility (hcatalog : catalog.Named) (htable : NameLike table) {showHidden : Bool}
    {ignored : IgnoredFields}
    (h : catalog.visibility table showHidden ignored context = .ok condition) :
    Closed condition.toList := by
  rcases Query.bind_eq_ok.1 h with ⟨control, hcontrol, h⟩
  cases h
  rw [← map_text_visibilityShapes]
  refine Text.closed_join (by decide) (by decide) fun part hpart => ?_
  rcases List.mem_map.1 hpart with ⟨s, hs, rfl⟩
  exact (over_visibilityShapes control showHidden ignored context s hs).closed htable
    (hcatalog.control_of_ok hcontrol)

theorem Shaped.closed (h : catalog.Shaped table a condition) (hcatalog : catalog.Named)
    (ha : NameLike a) : Closed condition.toList := by
  obtain ⟨s, hover, rfl⟩ := h
  refine hover.closed ha fun c hc => ?_
  obtain ⟨schema, htable, hc⟩ := mem_controlColumns.1 hc
  exact hcatalog.control _ (mem_tables_of_table? htable) c hc

/-! ## Fulltext indexes -/

theorem ordinary_fulltextIndexes (hcatalog : catalog.Named) (htable : NameLike table) :
    ∀ e ∈ (catalog.toSchema.fulltextIndexes table).entries, Ordinary e.2.toList := by
  intro e he
  simp only [toSchema] at he
  cases hschema : catalog.table? table with
  | none => simp [hschema] at he
  | some schema =>
      simp only [hschema, Option.map_some, Option.getD_some, TableSchema.qualifiedIndexes,
        OrderedMap.mapValues, List.mem_map] at he
      rcases he with ⟨index, hindex, rfl⟩
      refine Text.ordinary_join (by decide) ?_
      intro t ht
      rcases List.mem_map.1 ht with ⟨c, hc, rfl⟩
      exact Text.ordinary_append (Text.ordinary_append htable.ordinary (by decide))
        (hcatalog.indexes _ (mem_tables_of_table? hschema) index hindex c hc).ordinary

end Catalog
end ContentQuery
