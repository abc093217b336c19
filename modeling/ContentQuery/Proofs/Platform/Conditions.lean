import ContentQuery.Platform.Catalog
import ContentQuery.Proofs.Condition.Shapes
import ContentQuery.Proofs.OrderedMap
import ContentQuery.Proofs.Query.Bookkeeping

/-!
# Conditions of a catalog

A catalog gives conditions on visibility, language and workspace.  Each of them is a shape over the
control columns of its table.

Made for a table and renamed to an alias, a visibility condition is therefore the one that a table
with the alias as its name would have; the conditions on language and workspace are made for the
alias from the start.
-/

namespace ContentQuery

open Chars (IsName Solid)
open Rename

/-- The control columns of a table that conditions name. -/
def TableControl.columns (control : TableControl) : List String :=
  control.deleted.toList ++ control.disabled.toList ++ control.startTime.toList ++
    control.endTime.toList ++ control.group.toList ++ control.language.toList ++
    control.languageParent.toList

theorem TableControl.mem_columns {control : TableControl} {c : String} {column : Option String}
    (hc : c ∈ column)
    (h : column ∈ [control.deleted, control.disabled, control.startTime, control.endTime,
      control.group, control.language, control.languageParent]) : c ∈ control.columns := by
  simp only [columns, List.mem_append, Option.mem_toList, or_assoc]
  simp only [List.mem_cons, List.not_mem_nil, or_false] at h
  rcases h with rfl | rfl | rfl | rfl | rfl | rfl | rfl <;> simp [Option.mem_def.1 hc]

namespace Catalog

variable {catalog : Catalog} {table a condition : String} {context : RequestContext}

/-- The control columns of a table that the catalog describes are names. -/
def NamesColumns (catalog : Catalog) (table : String) : Prop :=
  ∀ schema, catalog.table? table = some schema → ∀ c ∈ schema.control.columns, IsName c.toList

theorem control_eq_ok_iff {control : TableControl} :
    catalog.control table = .ok control ↔
      ∃ schema, catalog.table? table = some schema ∧ schema.control = control := by
  unfold Catalog.control
  cases catalog.table? table with
  | none => simp
  | some schema => simp

/-! ## The visibility condition -/

/-- Records that stand on a page. -/
def placedShape : Shape :=
  .test "pid" "<>-1"

def versionShape (context : RequestContext) : Shape :=
  if context.preview then
    .both (.group (.both (.test "t3ver_wsid" "=0") " OR "
      (.test "t3ver_wsid" ("=" ++ Text.decimal context.workspace)))) " AND " placedShape
  else .both (.test "t3ver_state" "<=0") " AND " placedShape

/-- Records for everyone, in one of three spellings, or for one of the groups. -/
def groupShape (column : String) (groups : List Int) : Shape :=
  .group (.chain " OR " (.test column "=''")
    ([.test column " IS NULL", .test column "='0'"] ++
      groups.map fun group => .member (Text.signed group) column))

def visibilityShapes (control : TableControl) (showHidden : Bool) (ignored : IgnoredFields)
    (context : RequestContext) : List Shape :=
  let now := Text.signed context.accessTime
  let part (column : Option String) (applies : Bool) (shape : String → Shape) : List Shape :=
    ((column.filter fun _ => applies).map shape).toList
  part control.deleted true (.test · "=0") ++
    (if control.versioned then [versionShape context] else []) ++
    part control.disabled (!showHidden && !ignored.disabled) (.test · "=0") ++
    part control.startTime (!ignored.startTime) (.test · ("<=" ++ now)) ++
    part control.endTime (!ignored.endTime)
      (fun column => .group (.both (.test column "=0") " OR " (.test column (">" ++ now)))) ++
    part control.group (!ignored.group) (groupShape · context.userGroups)

theorem text_versionShape (name : String) (context : RequestContext) :
    (versionShape context).text name = versionPart name context := by
  rw [← String.toList_inj]
  unfold versionShape versionPart
  split <;> simp [Shape.text, placedShape]

theorem text_groupShape (name column : String) (groups : List Int) :
    (groupShape column groups).text name = groupCondition name column groups := by
  simp only [groupShape, groupCondition, Shape.text, Shape.text_chain, List.map_cons, List.map_map,
    List.cons_append, List.nil_append]
  rfl

/-- A part that depends on a control column, as a shape and as a text. -/
theorem map_text_part {name : String} {shape : String → Shape} {text : String → String}
    (h : ∀ c, (shape c).text name = text c) (column : Option String) (applies : Bool) :
    ((column.filter fun _ => applies).map shape).toList.map (Shape.text name) =
      match column with
      | some c => if applies then [text c] else []
      | none => [] := by
  cases column with
  | none => simp
  | some c => cases applies <;> simp [h]

/-- The parts of a visibility condition are the shapes, written for the table. -/
theorem map_text_visibilityShapes (control : TableControl) (name : String) (showHidden : Bool)
    (ignored : IgnoredFields) (context : RequestContext) :
    (visibilityShapes control showHidden ignored context).map (Shape.text name) =
      visibilityParts control name showHidden ignored context := by
  unfold visibilityShapes visibilityParts
  simp only [List.map_append]
  -- One case for each part: deleted, version, disabled, start, end, user groups.
  refine congrArg₂ _ (congrArg₂ _ (congrArg₂ _ (congrArg₂ _ (congrArg₂ _ ?_ ?_) ?_) ?_) ?_) ?_
  · exact map_text_part (fun _ => rfl) control.deleted true
  · cases control.versioned with
    | false => rfl
    | true => simp [text_versionShape]
  · exact map_text_part (fun _ => rfl) control.disabled _
  · refine map_text_part (fun c => ?_) control.startTime _
    exact String.append_assoc.symm
  · refine map_text_part (fun c => ?_) control.endTime _
    rw [← String.toList_inj]
    simp [Shape.text]
  · cases control.group with
    | none => simp
    | some c => cases ignored.group <;> simp [text_groupShape]

theorem over_versionShape (columns : List String) (context : RequestContext) :
    (versionShape context).Over columns := by
  have hplaced : placedShape.Over columns := ⟨.inr (by decide), Shape.tail_of_closed (by decide)⟩
  have hworkspace : ∀ w, Shape.Tail w → (Shape.test "t3ver_wsid" w).Over columns :=
    fun w hw => ⟨.inr (by decide), hw⟩
  unfold versionShape
  split
  · have hlive := hworkspace "=0" (Shape.tail_of_closed (by decide))
    have hpreview := hworkspace _ (Shape.tail_decimal (v := "=") (by decide) context.workspace)
    exact ⟨⟨hlive, by decide, hpreview⟩, by decide, hplaced⟩
  · exact ⟨⟨.inr (by decide), Shape.tail_of_closed (by decide)⟩, by decide, hplaced⟩

theorem over_groupShape {columns : List String} {column : String} (hcolumn : column ∈ columns)
    (groups : List Int) : (groupShape column groups).Over columns := by
  refine Shape.over_chain (by decide) fun s hs => ?_
  simp only [List.cons_append, List.nil_append, List.mem_cons, List.mem_map] at hs
  rcases hs with rfl | rfl | rfl | ⟨group, _, rfl⟩
  · exact ⟨.inl hcolumn, Shape.tail_of_closed (by decide)⟩
  · exact ⟨.inl hcolumn, Shape.tail_of_closed (by decide)⟩
  · exact ⟨.inl hcolumn, Shape.tail_of_closed (by decide)⟩
  · exact ⟨.inl hcolumn, (Text.ending_signed group).plain, Text.inside_signed group⟩

/-- A part that depends on a control column is there only with the column. -/
theorem over_part {columns : List String} {shape : String → Shape} {column : Option String}
    (applies : Bool) (h : ∀ c ∈ column, (shape c).Over columns) :
    ∀ s ∈ ((column.filter fun _ => applies).map shape).toList, s.Over columns := by
  intro s hs
  rcases Option.map_eq_some_iff.1 (Option.mem_toList.1 hs) with ⟨c, hc, rfl⟩
  exact h c (Option.filter_eq_some_iff.1 hc).1

theorem over_visibilityShapes (control : TableControl) (showHidden : Bool)
    (ignored : IgnoredFields) (context : RequestContext) :
    ∀ s ∈ visibilityShapes control showHidden ignored context, s.Over control.columns := by
  have hnow : ∀ w, Shape.Bare w → Shape.Tail (w ++ Text.signed context.accessTime) :=
    fun w hw => Shape.tail_signed hw context.accessTime
  have hzero : Shape.Tail "=0" := Shape.tail_of_closed (by decide)
  simp only [visibilityShapes, List.forall_mem_append]
  -- One case for each part: deleted, version, disabled, start, end, user groups.
  refine ⟨⟨⟨⟨⟨?_, ?_⟩, ?_⟩, ?_⟩, ?_⟩, ?_⟩
  · exact over_part _ fun c hc => ⟨.inl (TableControl.mem_columns hc (by simp)), hzero⟩
  · intro s hs
    split at hs
    · rw [List.mem_singleton.1 hs]
      exact over_versionShape control.columns context
    · cases hs
  · exact over_part _ fun c hc => ⟨.inl (TableControl.mem_columns hc (by simp)), hzero⟩
  · exact over_part _ fun c hc =>
      ⟨.inl (TableControl.mem_columns hc (by simp)), hnow "<=" (by decide)⟩
  · refine over_part _ fun c hc => ?_
    have hmem : c ∈ control.columns := TableControl.mem_columns hc (by simp)
    exact ⟨⟨.inl hmem, hzero⟩, by decide, .inl hmem, hnow ">" (by decide)⟩
  · exact over_part _ fun c hc =>
      over_groupShape (TableControl.mem_columns hc (by simp)) context.userGroups

/-- The condition that the catalog gives for a table, renamed to an alias, is the one it would give
for a table that has the alias as its name. -/
theorem tableToAlias_visibility {schema : TableSchema} (catalog : Catalog)
    (ht : IsName table.toList) (ha : IsName a.toList)
    (hcontrol : ∀ c ∈ schema.control.columns, IsName c.toList) (showHidden : Bool)
    (ignored : IgnoredFields) (context : RequestContext) :
    ∃ condition, (catalog.withTable a schema).visibility a showHidden ignored context = .ok condition ∧
      tableToAlias (Text.join " AND "
        (visibilityParts schema.control table showHidden ignored context)) table a = condition ∧
      QualifiedBy a.toList condition.toList ∧ (condition = "" ∨ Solid condition.toList) := by
  have hparts := Shape.parts_of_over
    (over_visibilityShapes schema.control showHidden ignored context) table ha hcontrol
  rw [map_text_visibilityShapes, map_text_visibilityShapes] at hparts
  -- The joined parts are renamed as one text, from its beginning.
  have hrenamed := hparts.join joiner_and [] [] free_nil none rfl
  simp only [List.append_nil] at hrenamed
  have htable : (catalog.withTable a schema).table? a = some schema := by
    rw [withTable, table?, OrderedMap.get?_insert, if_pos rfl]
  refine ⟨_, ?_, hrenamed.tableToAlias_eq ht ha, hrenamed.qualifiedBy ha, ?_⟩
  · simp only [visibility, control, htable]
    rfl
  · cases hlist : visibilityParts schema.control a showHidden ignored context with
    | nil => exact .inl rfl
    | cons q qs =>
        rw [hlist] at hparts
        exact .inr (hparts.solid_join (by simp) _)

/-! ## Language and workspace conditions -/

def controlColumns (catalog : Catalog) (table : String) : List String :=
  ((catalog.table? table).map (·.control.columns)).getD []

theorem mem_controlColumns {c : String} :
    c ∈ catalog.controlColumns table ↔
      ∃ schema, catalog.table? table = some schema ∧ c ∈ schema.control.columns := by
  unfold controlColumns
  cases catalog.table? table with
  | none => simp
  | some schema => simp

/-- The condition is a shape over the control columns of the table, made for the alias. -/
def Shaped (catalog : Catalog) (table a condition : String) : Prop :=
  ∃ s : Shape, s.Over (catalog.controlColumns table) ∧ condition = s.text a

theorem Shaped.madeFor (h : catalog.Shaped table a condition) (ha : IsName a.toList)
    (hcolumns : catalog.NamesColumns table) : MadeFor a condition := by
  obtain ⟨s, hover, rfl⟩ := h
  refine hover.solidPart a ha fun c hc => ?_
  obtain ⟨schema, htable, hc⟩ := mem_controlColumns.1 hc
  exact hcolumns schema htable c hc

theorem shaped_languageFlag {field : String} (a : String) (language : Nat)
    (h : catalog.languageStorage table = .languageFlag field) :
    catalog.Shaped table a
      (a ++ "." ++ field ++ " IN (" ++ Text.decimal language ++ ", -1)") := by
  have hmem : field ∈ catalog.controlColumns table := by
    unfold languageStorage at h
    split at h
    · cases h
    · next schema htable =>
        simp only at h
        split at h <;> cases h
        next _ _ hlanguage =>
          exact mem_controlColumns.2
            ⟨schema, htable, TableControl.mem_columns hlanguage (by simp)⟩
  have hvalues : Shape.Bare (Text.decimal language ++ ", -1") :=
    (Shape.bare_decimal language).append (by decide)
  refine ⟨.test field (" IN (" ++ (Text.decimal language ++ ", -1") ++ ")"),
    ⟨.inl hmem, Shape.tail_listed hvalues⟩, ?_⟩
  rw [← String.toList_inj]
  simp [Shape.text]

theorem shaped_languageCondition (h : catalog.languageCondition table a context = .ok condition) :
    catalog.Shaped table a condition := by
  unfold languageCondition at h
  rcases Query.bind_eq_ok.1 h with ⟨control, hcontrol, h⟩
  obtain ⟨schema, htable, rfl⟩ := control_eq_ok_iff.1 hcontrol
  have hmem : ∀ c ∈ schema.control.columns, c ∈ catalog.controlColumns table :=
    fun c hc => mem_controlColumns.2 ⟨schema, htable, hc⟩
  -- The condition exists if the table has a column for the language and one for the origin.
  split at h
  · next language pointer hlanguage hpointer =>
      have hfield := hmem language (TableControl.mem_columns hlanguage (by simp))
      have hparent := hmem pointer (TableControl.mem_columns hpointer (by simp))
      have hdefault : (Shape.test language " IN (0,-1)").Over (catalog.controlColumns table) :=
        ⟨.inl hfield, Shape.tail_of_closed (by decide)⟩
      split at h
      · cases h
        exact ⟨_, hdefault, rfl⟩
      · cases h
        have hother : (Shape.group
            (.both (.test language (" = '" ++ Text.decimal context.language ++ "'")) " AND "
              (.test pointer " = '0'"))).Over (catalog.controlColumns table) :=
          ⟨⟨.inl hfield, Shape.tail_literal context.language⟩, by decide, .inl hparent,
            Shape.tail_of_closed (by decide)⟩
        refine ⟨.both _ " OR " _, ⟨hdefault, by decide, hother⟩, ?_⟩
        rw [← String.toList_inj]
        simp [Shape.text]
  · simp [throw, throwThe, MonadExceptOf.throw] at h

/-- Live records, or records of the workspace in one of three states. -/
def overlayShape (workspace : Nat) : Shape :=
  let inState (state : String) : Shape :=
    .group (.both (.test "t3ver_state" (" = " ++ state)) " AND "
      (.test "t3ver_wsid" (" = " ++ Text.decimal workspace)))
  .chain " OR " (.group (.both (.test "t3ver_state" " <= 0") " AND " (.test "t3ver_oid" " = 0")))
    [inState "0", inState "1", inState "3"]

theorem over_overlayShape (columns : List String) (workspace : Nat) :
    (overlayShape workspace).Over columns := by
  have hstate : ∀ w, Shape.Tail w → (Shape.test "t3ver_state" w).Over columns :=
    fun w hw => ⟨.inr (by decide), hw⟩
  have hworkspace : (Shape.test "t3ver_wsid" (" = " ++ Text.decimal workspace)).Over columns :=
    ⟨.inr (by decide), Shape.tail_decimal (by decide) workspace⟩
  refine Shape.over_chain (by decide) fun s hs => ?_
  simp only [List.mem_cons, List.not_mem_nil, or_false] at hs
  rcases hs with rfl | rfl | rfl | rfl
  · exact ⟨hstate _ (Shape.tail_of_closed (by decide)), by decide, .inr (by decide),
      Shape.tail_of_closed (by decide)⟩
  · exact ⟨hstate _ (Shape.tail_of_closed (by decide)), by decide, hworkspace⟩
  · exact ⟨hstate _ (Shape.tail_of_closed (by decide)), by decide, hworkspace⟩
  · exact ⟨hstate _ (Shape.tail_of_closed (by decide)), by decide, hworkspace⟩

theorem shaped_versionCondition {direct : Bool}
    (h : catalog.versionCondition table a direct context = .ok condition) :
    catalog.Shaped table a condition := by
  unfold versionCondition at h
  simp only at h
  split at h
  · cases h
  · split at h
    · cases h
      have hvalues : Shape.Bare ("0," ++ Text.decimal context.workspace) :=
        Shape.Bare.append (by decide) (Shape.bare_decimal context.workspace)
      refine ⟨.test "t3ver_wsid" (" IN (" ++ ("0," ++ Text.decimal context.workspace) ++ ")"),
        ⟨.inr (by decide), Shape.tail_listed hvalues⟩, ?_⟩
      rw [← String.toList_inj]
      simp [Shape.text]
    · cases h
      refine ⟨overlayShape context.workspace, over_overlayShape _ context.workspace, ?_⟩
      rw [overlayShape, Shape.text_chain, ← String.toList_inj]
      simp [Shape.text, Text.join]

end Catalog
end ContentQuery
