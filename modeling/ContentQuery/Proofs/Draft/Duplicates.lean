import Mathlib.Data.List.Nodup
import ContentQuery.Proofs.Draft.Selections

/-!
# Fields selected twice

A field that is selected more than once is reported with the result columns that show it.  They are
taken from the origins, where of several entries with one result column the last one counts.  So an
entry is overlooked if a later one has its result column: the report names no field that is selected
once, but it leaves out a field whose entries share a result column, or lose theirs to other fields.
Where the result columns differ, the report is exact.
-/

namespace ContentQuery

namespace Draft

variable {d : Draft} {entries : List ListEntry} {place : String × String} {column : String}

/-! ## Result columns of a field -/

/-- The result columns that show a field. -/
def columnsAt (d : Draft) (place : String × String) : List String :=
  (d.origins.entries.filter fun e => (e.2.tableAlias, e.2.field) == place).map Prod.fst

theorem nodup_columnsAt (d : Draft) (place : String × String) : (d.columnsAt place).Nodup :=
  d.origins.nodup.sublist (List.filter_sublist.map Prod.fst)

theorem mem_columnsAt :
    column ∈ d.columnsAt place ↔
      ∃ origin, d.origins.get? column = some origin ∧ (origin.tableAlias, origin.field) = place := by
  simp only [columnsAt, List.mem_map, List.mem_filter, beq_iff_eq, OrderedMap.get?_eq_some_iff]
  constructor
  · rintro ⟨⟨_, origin⟩, ⟨hmem, hplace⟩, rfl⟩
    exact ⟨origin, hmem, hplace⟩
  · rintro ⟨origin, hmem, hplace⟩
    exact ⟨(column, origin), ⟨hmem, hplace⟩, rfl⟩

namespace Lists

/-- A field is shown by the result columns of its entries, but for those that a later entry has. -/
theorem mem_columnsAt_iff (h : d.Lists entries) :
    column ∈ d.columnsAt place ↔
      ∃ before e after, entries = before ++ e :: after ∧ e.column = column ∧
        column ∉ after.map (·.column) ∧ e.place = place := by
  rw [mem_columnsAt, h.origins]
  simp only [OrderedMap.get?_ofList_eq_some_iff]
  constructor
  · rintro ⟨origin, ⟨before, after, hentries, hlast⟩, hplace⟩
    rcases List.map_eq_append_iff.1 hentries with ⟨front, rest, rfl, rfl, hrest⟩
    rcases List.map_eq_cons_iff.1 hrest with ⟨e, behind, rfl, he, rfl⟩
    rw [Prod.mk.injEq] at he
    refine ⟨front, e, behind, rfl, he.1, ?_, ?_⟩
    · simpa using hlast
    · rw [← hplace, ← he.2]
      rfl
  · rintro ⟨before, e, after, rfl, rfl, hlast, hplace⟩
    refine ⟨e.origin, ⟨_, _, by rw [List.map_append, List.map_cons], ?_⟩, hplace⟩
    simpa using hlast

/-- No more result columns show a field than there are entries of it. -/
theorem length_columnsAt_le (h : d.Lists entries) (place : String × String) :
    (d.columnsAt place).length ≤ (entries.map (·.place)).count place := by
  have hsubset : d.columnsAt place ⊆ (entries.filter (·.place == place)).map (·.column) := by
    intro column hcolumn
    rcases h.mem_columnsAt_iff.1 hcolumn with ⟨before, e, after, rfl, rfl, _, hplace⟩
    exact List.mem_map_of_mem (List.mem_filter.2 ⟨by simp, by simp [hplace]⟩)
  calc (d.columnsAt place).length
      ≤ ((entries.filter (·.place == place)).map (·.column)).length :=
        (List.subperm_of_subset (d.nodup_columnsAt place) hsubset).length_le
    _ = (entries.map (·.place)).count place := by
        rw [List.length_map, ← List.countP_eq_length_filter, List.count_eq_countP, List.countP_map]
        rfl

/-- Where the result columns differ, each entry shows its field. -/
theorem length_columnsAt_of_nodup (h : d.Lists entries) (hnodup : (entries.map (·.column)).Nodup)
    (place : String × String) :
    (d.columnsAt place).length = (entries.map (·.place)).count place := by
  have hkept : d.origins.entries = entries.map fun e => (e.column, e.origin) := by
    rw [h.origins]
    apply OrderedMap.entries_ofList_iff.2
    simpa [Function.comp_def] using hnodup
  rw [columnsAt, hkept, List.length_map, ← List.countP_eq_length_filter, List.countP_map,
    List.count_eq_countP, List.countP_map]
  rfl

end Lists

/-! ## Grouping -/

/-- The result columns that a table of groups holds for a field. -/
def groupAt (tables : OrderedMap String (OrderedMap String (List String)))
    (place : String × String) : Option (List String) :=
  (tables.get? place.1).bind (·.get? place.2)

/-- One origin adds its result column to the group of its field. -/
theorem groupAt_upsert (tables : OrderedMap String (OrderedMap String (List String)))
    (column a field : String) (place : String × String) :
    groupAt (tables.upsert a fun fields =>
        (fields.getD ∅).upsert field fun columns => columns.getD [] ++ [column]) place =
      if (a, field) = place then some ((groupAt tables place).getD [] ++ [column])
      else groupAt tables place := by
  rcases place with ⟨b, name⟩
  by_cases hb : b = a
  · subst hb
    by_cases hname : name = field
    · subst hname
      cases hfields : tables.get? b <;> simp [groupAt, OrderedMap.get?_upsert, hfields]
    · cases hfields : tables.get? b <;>
        simp [groupAt, OrderedMap.get?_upsert, hfields, hname, Ne.symm hname]
  · simp [groupAt, OrderedMap.get?_upsert, hb, Ne.symm hb]

/-- Each group holds the result columns of its field, in their order. -/
theorem groupAt_columnsPerField (d : Draft) (place : String × String) :
    (groupAt d.columnsPerField place).getD [] = d.columnsAt place := by
  -- On tables already filled, each origin adds its column behind those of its own place.
  have hfold : ∀ (es : List (String × FieldOrigin))
      (tables : OrderedMap String (OrderedMap String (List String))),
      (groupAt (es.foldl (fun tables e =>
          tables.upsert e.2.tableAlias fun fields =>
            (fields.getD ∅).upsert e.2.field fun columns => columns.getD [] ++ [e.1])
          tables) place).getD [] =
        (groupAt tables place).getD [] ++
          (es.filter fun e => (e.2.tableAlias, e.2.field) == place).map Prod.fst := by
    intro es
    induction es with
    | nil => simp
    | cons e es ih =>
        intro tables
        rw [List.foldl_cons, ih, groupAt_upsert]
        by_cases hplace : (e.2.tableAlias, e.2.field) = place
        · simp [hplace]
        · simp [hplace]
  exact hfold d.origins.entries ∅

/-- The fields that are reported, each with the result columns that show it. -/
def repeatedFields (d : Draft) : List ((String × String) × List String) :=
  d.columnsPerField.entries.flatMap fun table =>
    (table.2.entries.filter fun e => 1 < e.2.length).map fun e => ((table.1, e.1), e.2)

/-- The line on one field. -/
def duplicateLine (e : (String × String) × List String) : String :=
  "In table " ++ e.1.1 ++ ", duplicates for " ++ e.1.2 ++ " as: " ++ Text.join "," e.2

theorem duplicateLines_eq (d : Draft) : d.duplicateLines = d.repeatedFields.map duplicateLine := by
  simp only [duplicateLines, repeatedFields, List.map_flatMap, List.map_map]
  rfl

theorem mem_repeatedFields {columns : List String} :
    (place, columns) ∈ d.repeatedFields ↔ columns = d.columnsAt place ∧ 1 < columns.length := by
  have hgroup : (place, columns) ∈ d.repeatedFields ↔
      groupAt d.columnsPerField place = some columns ∧ 1 < columns.length := by
    simp only [repeatedFields, groupAt, List.mem_flatMap, List.mem_map, List.mem_filter,
      decide_eq_true_eq, Option.bind_eq_some_iff, OrderedMap.get?_eq_some_iff]
    constructor
    · rintro ⟨⟨a, fields⟩, htable, ⟨field, _⟩, ⟨hfield, hlength⟩, heq⟩
      cases heq
      exact ⟨⟨fields, htable, hfield⟩, hlength⟩
    · rintro ⟨⟨fields, htable, hfield⟩, hlength⟩
      exact ⟨(place.1, fields), htable, (place.2, columns), ⟨hfield, hlength⟩, rfl⟩
  rw [hgroup, ← groupAt_columnsPerField]
  -- A group with two members is there.
  cases groupAt d.columnsPerField place with
  | none =>
      constructor
      · rintro ⟨h, _⟩
        cases h
      · rintro ⟨rfl, hlength⟩
        simp at hlength
  | some group => simp [eq_comm]

theorem mem_map_repeatedFields :
    place ∈ d.repeatedFields.map Prod.fst ↔ 1 < (d.columnsAt place).length := by
  constructor
  · intro h
    rcases List.mem_map.1 h with ⟨⟨_, columns⟩, hmem, rfl⟩
    rcases mem_repeatedFields.1 hmem with ⟨rfl, hlength⟩
    exact hlength
  · intro h
    exact List.mem_map.2 ⟨(place, d.columnsAt place), mem_repeatedFields.2 ⟨rfl, h⟩, rfl⟩

/-- No field is reported twice. -/
theorem nodup_repeatedFields (d : Draft) : (d.repeatedFields.map Prod.fst).Nodup := by
  rw [repeatedFields, List.map_flatMap, List.nodup_flatMap]
  constructor
  · intro table _
    have hfields : ((table.2.entries.filter fun e => 1 < e.2.length).map Prod.fst).Nodup :=
      table.2.nodup.sublist (List.filter_sublist.map Prod.fst)
    rw [List.map_map]
    refine List.Nodup.of_map Prod.snd ?_
    rwa [List.map_map]
  · refine (List.pairwise_map.1 d.columnsPerField.nodup).imp fun hne place h h' => ?_
    simp only [List.mem_map] at h h'
    rcases h with ⟨_, ⟨e, _, rfl⟩, rfl⟩
    rcases h' with ⟨_, ⟨e', _, rfl⟩, heq⟩
    exact hne (congrArg Prod.fst heq).symm

/-! ## Warnings -/

/-- What is said of the fields that are reported. -/
def duplicateWarning (repeated : List ((String × String) × List String)) : String :=
  if repeated.isEmpty then ""
  else "Duplicate fields in query: " ++ Text.join " / " (repeated.map duplicateLine)

theorem duplicateWarning_eq_empty_iff {repeated : List ((String × String) × List String)} :
    duplicateWarning repeated = "" ↔ repeated = [] := by
  cases repeated with
  | nil => simp [duplicateWarning]
  | cons e repeated => simp [duplicateWarning]

theorem snd_warnDuplicates (d : Draft) : d.warnDuplicates.2 = duplicateWarning d.repeatedFields := by
  unfold warnDuplicates
  rw [duplicateLines_eq]
  cases d.repeatedFields <;> rfl

theorem warning_of_parse {p : Platform} {text warning : String} {d₀ d : Draft}
    (h : d₀.parse p text = (d, .ok warning)) : warning = duplicateWarning d.repeatedFields := by
  have hsame : ∀ d : Draft, d.warnDuplicates.1.repeatedFields = d.repeatedFields := by
    intro d
    unfold warnDuplicates
    split <;> rfl
  rcases exists_of_accepted h with ⟨q, _, hcompleted⟩
  calc warning
      = (completed p q).warnDuplicates.2 := (congrArg Prod.snd hcompleted).symm
    _ = duplicateWarning (completed p q).warnDuplicates.1.repeatedFields := by
        rw [snd_warnDuplicates, hsame]
    _ = duplicateWarning d.repeatedFields := by rw [hcompleted]

/-- The warning of an accepted text lists, each once, the fields that two result columns or more
show.  A result column shows the field of the last entry that has it, so every listed field is
selected more than once.  Where the result columns of the entries differ, all fields that are
selected more than once are listed. -/
theorem duplicates_of_parse {p : Platform} {text warning : String} {d₀ d : Draft}
    (h : d₀.parse p text = (d, .ok warning)) :
    let entries := d.query.listed p.schema
    let count := fun place => (entries.map (·.place)).count place
    d.Lists entries ∧
      ∃ repeated : List ((String × String) × List String),
        warning = duplicateWarning repeated ∧ (warning = "" ↔ repeated = []) ∧
        (repeated.map Prod.fst).Nodup ∧
        (∀ place columns, (place, columns) ∈ repeated ↔
          columns = d.columnsAt place ∧ 1 < columns.length) ∧
        (∀ place column, column ∈ d.columnsAt place ↔
          ∃ before e after, entries = before ++ e :: after ∧ e.column = column ∧
            column ∉ after.map (·.column) ∧ e.place = place) ∧
        (∀ place ∈ repeated.map Prod.fst, 1 < count place) ∧
        ((entries.map (·.column)).Nodup →
          (∀ place, place ∈ repeated.map Prod.fst ↔ 1 < count place) ∧
            (warning = "" ↔ ∀ place, count place ≤ 1)) := by
  intro entries count
  rcases of_parse h with ⟨q, hq, hbody, _⟩
  have hentries : entries = q.listed p.schema :=
    (congrArg (fun q : Query => q.listed p.schema) hbody :)
  have hlists : d.Lists entries := by
    have hread := (lists_of_parse hq d₀).1
    rwa [h, ← hentries] at hread
  have hwarning := warning_of_parse h
  have hempty : warning = "" ↔ d.repeatedFields = [] := hwarning ▸ duplicateWarning_eq_empty_iff
  -- The draft counts result columns, and no more of them than the list has entries.
  refine ⟨hlists, d.repeatedFields, hwarning, hempty, nodup_repeatedFields d,
    fun _ _ => mem_repeatedFields, fun _ _ => hlists.mem_columnsAt_iff, fun place hplace => ?_,
    fun hnodup => ?_⟩
  · exact Nat.lt_of_lt_of_le (mem_map_repeatedFields.1 hplace) (hlists.length_columnsAt_le place)
  · have hlisted : ∀ place, place ∈ d.repeatedFields.map Prod.fst ↔ 1 < count place := by
      intro place
      rw [mem_map_repeatedFields, hlists.length_columnsAt_of_nodup hnodup]
    refine ⟨hlisted, hempty.trans ?_⟩
    constructor
    · intro hnone place
      rw [← Nat.not_lt, ← hlisted, hnone]
      simp
    · intro hone
      apply List.eq_nil_iff_forall_not_mem.2
      intro e he
      exact absurd ((hlisted e.1).1 (List.mem_map_of_mem he)) (Nat.not_lt.2 (hone e.1))

/-- The site as it is live. -/
def liveSite : Platform :=
  Catalog.site.platform (.atTime 0) {}

/-- The title is selected once by itself and once under a headline. -/
theorem duplicates_of_headline :
    let d := (({} : Draft).parse liveSite "SELECT uid, title, title AS headline FROM pages").1
    ∃ warning, ({} : Draft).parse liveSite "SELECT uid, title, title AS headline FROM pages" =
        (d, .ok warning) ∧
      ((d.query.listed liveSite.schema).map (·.column)).Nodup ∧
      ∃ repeated : List ((String × String) × List String),
        warning = duplicateWarning repeated ∧ warning ≠ "" ∧
          ("pages", "title") ∈ repeated.map Prod.fst := by
  intro d
  have hparse : ({} : Draft).parse liveSite "SELECT uid, title, title AS headline FROM pages" =
      (d, .ok "Duplicate fields in query: In table pages, duplicates for title as: title,headline") :=
    Prod.ext rfl (by decide +kernel)
  have hnodup : ((d.query.listed liveSite.schema).map (·.column)).Nodup := by decide +kernel
  have htwice : 1 < ((d.query.listed liveSite.schema).map (·.place)).count ("pages", "title") := by
    decide +kernel
  rcases duplicates_of_parse hparse with ⟨_, repeated, hwarning, _, _, _, _, _, hexact⟩
  exact ⟨_, hparse, hnodup, repeated, hwarning, by decide, ((hexact hnodup).1 _).2 htwice⟩

/-- A title that is selected twice under one result column is not reported, whether it is written
twice or comes with a wildcard; nor is one whose result column goes to another field. -/
theorem duplicates_overlooked :
    let twice := ({} : Draft).parse liveSite "SELECT title, title FROM pages"
    let starred := ({} : Draft).parse liveSite "SELECT *, title FROM pages"
    let hidden := ({} : Draft).parse liveSite "SELECT title, pid AS title, title AS name FROM pages"
    let count := fun d : Draft =>
      ((d.query.listed liveSite.schema).map (·.place)).count ("pages", "title")
    (twice.2 = .ok "" ∧ count twice.1 = 2) ∧ (starred.2 = .ok "" ∧ count starred.1 = 2) ∧
      hidden.2 = .ok "Duplicate fields in query: In table pages, duplicates for pid as: title,pid" ∧
      count hidden.1 = 2 := by
  decide +kernel

end Draft
end ContentQuery
