import ContentQuery.Proofs.Query.Selections

/-!
# Fulltext entries

A piece of a SELECT list may ask for a fulltext index in place of a column.  Its entry is written as
a column of a made-up field, and the same text is registered as a placeholder.
-/

namespace ContentQuery
namespace Query

open SelectList (placeholderKey)

/-! ## Entries with their placeholders -/

/-- An entry of the SELECT list that stands for a fulltext index, with its placeholder. -/
structure FulltextEntry (q : Query) (f : SelectField) (index : String) : Prop where
  mem : f ∈ q.select
  column : f.isCall = false
  field : f.field = "fulltext." ++ index
  registered : placeholderKey f.tableAlias index ∈ q.placeholders.keys

theorem FulltextEntry.expression {q : Query} {f : SelectField} {index : String}
    (h : q.FulltextEntry f index) : f.expression = placeholderKey f.tableAlias index := by
  have hdot : ".fulltext." = "." ++ "fulltext." := by decide
  rw [SelectField.expression, if_neg (by simp [h.column]), h.field, placeholderKey, hdot]
  simp only [String.append_assoc]

/-- Entries and placeholders stay, whatever is selected behind them. -/
theorem FulltextEntry.enter {q : Query} {f : SelectField} {index : String}
    (h : q.FulltextEntry f index) (s : Selection) : (q.enter s).FulltextEntry f index := by
  refine ⟨?_, h.column, h.field, ?_⟩
  · rw [SelectList.select_enter]
    exact List.mem_append_left _ h.mem
  · rw [SelectList.placeholders_enter]
    cases s.placeholder? with
    | none => exact h.registered
    | some key => exact OrderedMap.mem_keys_upsert.2 (.inl h.registered)

theorem FulltextEntry.foldl_enter {q : Query} {f : SelectField} {index : String}
    (h : q.FulltextEntry f index) (selected : List Selection) :
    (selected.foldl Query.enter q).FulltextEntry f index :=
  List.foldlRecOn (motive := fun q : Query => q.FulltextEntry f index) selected _ h
    fun _ hq s _ => hq.enter s

/-- The column that a piece of a SELECT list names. -/
def columnOf (spec : FieldSpec) : String :=
  ((Text.splitOnce? '.' spec.expression).map fun parts => Text.trim parts.2).getD spec.expression

/-- The alias that a piece of a SELECT list names, or else the main one. -/
def tableAliasOf (q : Query) (spec : FieldSpec) : String :=
  ((Text.splitOnce? '.' spec.expression).map fun parts => Text.trim parts.1).getD q.mainAlias

theorem fieldOf_column {spec : FieldSpec} (h : spec.isCall = false) (q : Query) (calls : Nat) :
    ∃ table, SelectList.fieldOf q calls spec =
      { table, tableAlias := q.tableAliasOf spec, field := columnOf spec,
        aliasName := spec.aliasName, isCall := false } := by
  unfold SelectList.fieldOf tableAliasOf columnOf
  rw [if_neg (by simp [h])]
  cases Text.splitOnce? '.' spec.expression with
  | none => exact ⟨_, rfl⟩
  | some parts => exact ⟨_, rfl⟩

/-- A column with a fulltext mark is entered together with its placeholder, into whatever query. -/
theorem exists_fulltextEntry {spec : FieldSpec} (hcolumn : spec.isCall = false)
    (hplain : spec.isWildcard = false) {index : String}
    (hmark : SelectList.fulltextIndex? (columnOf spec) = some index) (schema : Schema)
    (q q' : Query) (calls : Nat) :
    ∃ f, (q'.enter (SelectList.selection schema q calls spec)).FulltextEntry f index ∧
      f.aliasName = spec.aliasName ∧ f.tableAlias = q.tableAliasOf spec := by
  rcases fieldOf_column hcolumn q calls with ⟨table, hfield⟩
  let f : SelectField :=
    { table, tableAlias := q.tableAliasOf spec, field := "fulltext." ++ index,
      aliasName := spec.aliasName, isCall := false }
  have hselection : SelectList.selection schema q calls spec =
      { tableAlias := f.tableAlias, fields := [f]
        placeholder? := some (placeholderKey f.tableAlias index) } := by
    simp only [SelectList.selection, hplain, hfield, SelectList.selectionOf, hmark,
      Bool.false_eq_true, if_false, f]
  rw [hselection]
  refine ⟨f, ⟨?_, rfl, rfl, ?_⟩, rfl, rfl⟩
  · rw [SelectList.select_enter]
    exact List.mem_append_right _ (List.mem_singleton_self _)
  · rw [SelectList.placeholders_enter]
    exact OrderedMap.mem_keys_upsert.2 (.inr rfl)

theorem fulltextEntry_of_list {schema : Schema} {list : List Char} {q q' : Query}
    (h : SelectList.parse schema list q = (q', .ok ())) :
    ∃ specs, SelectList.split (SelectList.splitDistinct list).2 = .ok specs ∧
      ∀ spec ∈ specs, spec.isCall = false → spec.isWildcard = false →
        ∀ index, SelectList.fulltextIndex? (columnOf spec) = some index →
          ∃ f, q'.FulltextEntry f index ∧ f.aliasName = spec.aliasName ∧
            f.tableAlias = q.tableAliasOf spec := by
  rcases SelectList.parse_eq_ok_iff.1 h with ⟨-, specs, hspecs, rfl⟩
  refine ⟨specs, hspecs, fun spec hspec hcolumn hplain index hmark => ?_⟩
  -- The entry is made where the piece is entered, and the pieces behind it leave it.
  rcases List.append_of_mem hspec with ⟨front, behind, rfl⟩
  rw [SelectList.selections_append, List.foldl_append, SelectList.selections, List.foldl_cons]
  rcases exists_fulltextEntry hcolumn hplain hmark schema q _ _ with ⟨f, hentry, hnames⟩
  exact ⟨f, hentry.foldl_enter _, hnames⟩

/-- Every fulltext entry that an accepted text writes is entered with its placeholder. -/
theorem fulltextEntry_of_parse {schema : Schema} {text : String} {q : Query}
    (h : parse schema text = .ok q) :
    ∃ list rest specs, splitStatement text.toList = .ok (list, rest) ∧
      SelectList.split (SelectList.splitDistinct list).2 = .ok specs ∧
        ∀ spec ∈ specs, spec.isCall = false → spec.isWildcard = false →
          ∀ index, SelectList.fulltextIndex? (columnOf spec) = some index →
            ∃ f, q.FulltextEntry f index ∧ f.aliasName = spec.aliasName ∧
              f.tableAlias = q.tableAliasOf spec := by
  rcases parse_eq_ok_iff.1 h with ⟨list, rest, q₀, q₁, hstatement, _, _, hlist⟩
  rcases fulltextEntry_of_list hlist with ⟨specs, hspecs, hentries⟩
  have hmain := congrArg Query.mainAlias (withoutList_parse hlist)
  simp only [withoutList] at hmain
  refine ⟨list, rest, specs, hstatement, hspecs, fun spec hspec hcolumn hplain index hmark => ?_⟩
  rcases hentries spec hspec hcolumn hplain index hmark with ⟨f, hentry, halias, htable⟩
  rw [tableAliasOf, ← hmain] at htable
  exact ⟨f, hentry, halias, htable⟩

end Query
end ContentQuery
