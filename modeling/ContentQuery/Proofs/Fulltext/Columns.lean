import ContentQuery.Fulltext.Match
import ContentQuery.Platform.Catalog
import ContentQuery.Proofs.Condition.Closed

/-!
# Columns of a fulltext index

A catalog gives the columns of an index as one text, each qualified by the table, and a search takes
the text apart again to put the alias in place of the table.  The columns that are searched are those
of the catalog, in its order, each behind the alias: whether or not the alias is the table, and
whatever the columns have in common with the name of the table.
-/

namespace ContentQuery
namespace Text

theorem toList_join (sep : String) (parts : List String) :
    (join sep parts).toList = sep.toList.intercalate (parts.map String.toList) := by
  induction parts with
  | nil => rfl
  | cons part rest ih =>
      cases rest with
      | nil => simp [join]
      | cons next rest =>
          simpa [join, List.intercalate_cons_cons, List.append_assoc] using ih

/-- Parts without a separator are found again in the text that is made of them. -/
theorem splitOn_join {sep : Char} {parts : List String} (hne : parts ≠ [])
    (hparts : ∀ part ∈ parts, sep ∉ part.toList) :
    splitOn sep (join (String.singleton sep) parts) = parts := by
  have hchars : ∀ cs ∈ parts.map String.toList, sep ∉ cs := by
    intro cs hcs
    obtain ⟨part, hpart, rfl⟩ := List.mem_map.1 hcs
    exact hparts part hpart
  have hcut : ([sep].intercalate (parts.map String.toList)).splitOn sep =
      parts.map String.toList :=
    List.splitOn_intercalate sep hchars (by simpa using hne)
  calc splitOn sep (join (String.singleton sep) parts)
      = (([sep].intercalate (parts.map String.toList)).splitOn sep).map String.ofList := by
        rw [splitOn, toList_join]
        simp
    _ = parts := by simp [hcut, Function.comp_def]

end Text

namespace Fulltext

open Text (NameLike)

variable {table : String}

/-! ## Qualified columns -/

/-- The columns behind a name, with commas between them. -/
def qualified (name : String) (columns : List String) : String :=
  Text.join "," (columns.map fun column => name ++ "." ++ column)

section Column

variable {column : String}

theorem mem_column (htable : NameLike table) (hcolumn : NameLike column) {c : Char}
    (hc : c ∈ (table ++ "." ++ column).toList) : Chars.isNameChar c = true ∨ c = '.' := by
  simp only [String.toList_append, List.mem_append] at hc
  rcases hc with (hc | hc) | hc
  · exact .inl (htable c hc)
  · exact .inr (List.mem_singleton.1 hc)
  · exact .inl (hcolumn c hc)

theorem comma_not_mem_column (htable : NameLike table) (hcolumn : NameLike column) :
    ',' ∉ (table ++ "." ++ column).toList := by
  intro hmem
  rcases mem_column htable hcolumn hmem with h | h
  · cases h
  · cases h

theorem trim_column (htable : NameLike table) (hcolumn : NameLike column) :
    Text.trim (table ++ "." ++ column) = table ++ "." ++ column := by
  have hsolid : Chars.Solid (table ++ "." ++ column).toList := by
    refine Chars.solid_of_all (by simp) ?_
    intro c hc
    rcases mem_column htable hcolumn hc with h | rfl
    · exact Chars.isBlank_of_isNameChar h
    · decide
  rw [Text.trim, hsolid.trim, String.ofList_toList]

theorem stripLeading?_column (table column : String) :
    Text.stripLeading? (table ++ ".") (table ++ "." ++ column) = some column := by
  have htext : (table ++ "." ++ column).toList = (table ++ ".").toList ++ column.toList :=
    String.toList_append
  simp only [Text.stripLeading?, htext, Chars.stripLeading?_append, Option.map_some,
    String.ofList_toList]

/-- One column of an index with the alias in place of the table. -/
def requalify (table aliasName column : String) : String :=
  match Text.stripLeading? (table ++ ".") (Text.trim column) with
  | some bare => aliasName ++ "." ++ bare
  | none => Text.trim column

theorem qualify_of_ne {aliasName : String} (h : table ≠ aliasName) (columns : String) :
    qualify columns table aliasName =
      Text.join "," ((Text.splitOn ',' columns).map (requalify table aliasName)) :=
  if_neg h

theorem requalify_column (htable : NameLike table) (hcolumn : NameLike column)
    (aliasName : String) :
    requalify table aliasName (table ++ "." ++ column) = aliasName ++ "." ++ column := by
  simp only [requalify, trim_column htable hcolumn, stripLeading?_column]

/-- The table does not stand in an empty text. -/
theorem requalify_empty (table aliasName : String) : requalify table aliasName "" = "" := by
  have hstrip : Text.stripLeading? (table ++ ".") "" = none := by
    cases hchars : (table ++ ".").toList with
    | nil => simp at hchars
    | cons c cs => simp [Text.stripLeading?, hchars, Chars.stripLeading?]
  have htrim : Text.trim "" = "" := by decide
  simp only [requalify, htrim, hstrip]

end Column

/-- The alias takes the place of the table in front of every column. -/
theorem qualify_qualified (htable : NameLike table) {columns : List String}
    (hcolumns : ∀ column ∈ columns, NameLike column) (aliasName : String) :
    qualify (qualified table columns) table aliasName = qualified aliasName columns := by
  by_cases hself : table = aliasName
  · simp [qualify, hself]
  by_cases hnil : columns = []
  · -- The text for no columns has one part, which is empty.
    have hsplit : Text.splitOn ',' "" = [""] := by decide
    subst hnil
    calc qualify (qualified table []) table aliasName
        = Text.join "," ((Text.splitOn ',' "").map (requalify table aliasName)) :=
          qualify_of_ne hself _
      _ = qualified aliasName [] := by
          simp [hsplit, requalify_empty, Text.join, qualified]
  · have hsplit : Text.splitOn ',' (qualified table columns) =
        columns.map fun column => table ++ "." ++ column := by
      refine Text.splitOn_join (by simpa using hnil) ?_
      intro part hpart
      obtain ⟨column, hcolumn, rfl⟩ := List.mem_map.1 hpart
      exact comma_not_mem_column htable (hcolumns column hcolumn)
    rw [qualify_of_ne hself, hsplit, List.map_map]
    refine congrArg (Text.join ",") (List.map_congr_left ?_)
    intro column hcolumn
    exact requalify_column htable (hcolumns column hcolumn) aliasName

/-! ## Searches -/

/-- The catalog lists the columns of an index behind the name of the table. -/
theorem get?_fulltextIndexes {catalog : Catalog} {schema : TableSchema} {index : String}
    {columns : List String} (htable : catalog.table? table = some schema)
    (hindex : schema.indexes.get? index = some columns) :
    (catalog.toSchema.fulltextIndexes table).get? index = some (qualified table columns) := by
  have hindexes : catalog.toSchema.fulltextIndexes table = schema.qualifiedIndexes table := by
    simp [Catalog.toSchema, htable]
  rw [hindexes, OrderedMap.get?_eq_some_iff]
  exact List.mem_map.2 ⟨(index, columns), OrderedMap.get?_eq_some_iff.1 hindex, rfl⟩

/-- A search that leaves a term asks for the columns that the catalog has for the index, each behind
the alias and in their order. -/
theorem condition_columns {catalog : Catalog} {schema : TableSchema} {s : Search}
    {columns : List String} (htable : catalog.table? s.table = some schema)
    (hindex : schema.indexes.get? s.index = some columns) (hname : NameLike s.table)
    (hcolumns : ∀ column ∈ columns, NameLike column) {minLength : Nat}
    (hterms : terms minLength s.natural s.text ≠ "") :
    condition catalog.toSchema minLength s = .ok ((if s.negate then "NOT " else "") ++ "MATCH(" ++
      Text.join "," (columns.map fun column => s.aliasName ++ "." ++ column) ++ ") AGAINST('" ++
      terms minLength s.natural s.text ++ "'" ++
      (if s.natural then "" else " IN BOOLEAN MODE") ++ ")") := by
  have hsome : ¬ (terms minLength s.natural s.text).isEmpty = true := by
    simpa [String.isEmpty_iff] using hterms
  rw [condition, get?_fulltextIndexes htable hindex]
  simp only [if_neg hsome, qualify_qualified hname hcolumns]
  rfl

/-- Press releases whose columns are named like their table, or begin with its name. -/
def releaseSchema : TableSchema :=
  { indexes := .ofList [("lead", ["title"]), ("all", ["news", "newsletter", "news_", "title"])] }

def releaseSearch : Search where
  table := "news"
  aliasName := "n"
  index := "all"
  text := "press+%2Brelease"
  natural := false
  negate := true

theorem condition_columns_releases :
    let catalog := Catalog.withTable {} "news" releaseSchema
    let s := releaseSearch
    let columns := ["news", "newsletter", "news_", "title"]
    catalog.table? s.table = some releaseSchema ∧
      releaseSchema.indexes.get? s.index = some columns ∧
      NameLike s.table ∧ (∀ column ∈ columns, NameLike column) ∧
      terms 4 s.natural s.text ≠ "" ∧
      condition catalog.toSchema 4 s = .ok ("NOT MATCH(n.news,n.newsletter,n.news_,n.title) " ++
        "AGAINST('press +release' IN BOOLEAN MODE)") := by
  intro catalog s columns
  have htable : catalog.table? s.table = some releaseSchema := by decide +kernel
  have hindex : releaseSchema.indexes.get? s.index = some columns := by decide +kernel
  have hname : NameLike s.table := by decide +kernel
  have hcolumns : ∀ column ∈ columns, NameLike column := by decide +kernel
  have hterms : terms 4 s.natural s.text ≠ "" := by decide +kernel
  refine ⟨htable, hindex, hname, hcolumns, hterms, ?_⟩
  rw [condition_columns htable hindex hname hcolumns hterms]
  decide +kernel

end Fulltext
end ContentQuery
