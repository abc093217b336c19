import ContentQuery.Proofs.Draft.Selections
import ContentQuery.Proofs.Query.ListExchange

/-!
# Literals in the final SELECT list

A final entry is put together from the table alias, the field and the alias of an entry that was
read.  Field and alias are closed, since they are cut out of a closed list; so the entry is closed
if the table alias is.

A table alias may come from the FROM clause, which is not searched for open literals, or from the
entry itself, as the text in front of its first dot.
-/

namespace ContentQuery

open Scan (Closed Fills Ordinary isOrdinary isQuote literal)

/-! ## Texts with a separator -/

/-- A closed text is left behind a closed one and an ordinary character. -/
theorem Scan.Closed.behind {a b : List Char} {c : Char} (h : Closed (a ++ c :: b)) (ha : Closed a)
    (hc : isOrdinary c = true) : Closed b := by
  have htext : a ++ c :: b = a ++ (c :: b) := rfl
  have hstart := Scan.starts_of_keyword (n := 0) (Scan.closed_iff_settled.1 ha) htext (by simp)
    (by simpa using hc)
  have hdrop := h.drop hstart
  rwa [List.drop_length_add_append] at hdrop

theorem closed_separated {a b : String} (ha : Closed a.toList) (hb : Closed b.toList)
    {separator : String} (hordinary : Ordinary separator.toList) (hne : separator.toList ≠ []) :
    Closed (a ++ separator ++ b).toList := by
  simpa using ha.append (hb.neutral_append hordinary hne)

/-! ## Entries as they are read -/

/-- The field and the alias of an entry are closed. -/
structure SelectField.Closed (f : SelectField) : Prop where
  field : Scan.Closed f.field.toList
  aliasName : ∀ a ∈ f.aliasName, Scan.Closed a.toList

namespace SelectList

variable {schema : Schema}

theorem closed_callName (calls : Nat) : Closed ("function_" ++ Text.decimal calls).toList := by
  have hdigits : Ordinary (Chars.decimal calls) := fun c hc =>
    Scan.isOrdinary_of_isNameChar
      (Chars.isNameChar_iff.2 (.inr (.inl (Chars.isDigit_of_mem_decimal hc))))
  have hfront : Ordinary "function_".toList := by decide
  have hall : ("function_" ++ Text.decimal calls).toList =
      "function_".toList ++ Chars.decimal calls := by
    simp [Text.decimal]
  rw [hall]
  exact Scan.closed_ordinary (hfront.append hdigits)

/-- The parts of a closed piece are closed, if the one for the table is. -/
theorem fieldOf_closed (q : Query) (calls : Nat) {spec : FieldSpec} (hspec : spec.Closed)
    (htable : Closed (fieldOf q calls spec).tableAlias.toList) : (fieldOf q calls spec).Closed := by
  unfold fieldOf at htable ⊢
  split
  · refine ⟨hspec.expression, ?_⟩
    rintro a ha
    cases ha
    cases hname : spec.aliasName with
    | none => exact closed_callName calls
    | some name => exact hspec.aliasName name hname
  · next hcall =>
      rw [if_neg hcall] at htable
      split
      · next aliasName column hdot =>
          rw [hdot] at htable
          -- In front of the dot stands the closed name of the table.
          refine ⟨?_, hspec.aliasName⟩
          rcases Option.map_eq_some_iff.1 hdot with ⟨⟨x, y⟩, hparts, heq⟩
          cases heq
          have hexpression := hspec.expression
          rw [Chars.append_of_splitOnce? hparts] at hexpression
          have hfront : Closed x := by
            simpa [Text.trim, Scan.closed_trim_iff] using htable
          simpa [Text.trim, Scan.closed_trim_iff] using hexpression.behind hfront (by decide)
      · exact ⟨hspec.expression, hspec.aliasName⟩

/-- A mark of a fulltext entry is ordinary, and so is what replaces it. -/
theorem closed_fulltextIndex? {field index : String} (h : fulltextIndex? field = some index)
    (hfield : Closed field.toList) : Closed ("fulltext." ++ index).toList := by
  rcases Option.map_eq_some_iff.1 h with ⟨rest, hrest, rfl⟩
  rcases List.exists_of_findSome?_eq_some hrest with ⟨mark, hmark, hstrip⟩
  rcases Option.map_eq_some_iff.1 hstrip with ⟨r, hr, rfl⟩
  have hordinary : Ordinary mark.toList := by
    simp only [fulltextMarks, List.mem_cons, List.not_mem_nil, or_false] at hmark
    rcases hmark with rfl | rfl <;> decide
  rw [Chars.append_of_stripLeading? hr, Scan.closed_prepend_iff hordinary] at hfield
  rw [String.toList_append, Scan.closed_prepend_iff (by decide), Text.trim, String.toList_ofList,
    String.toList_ofList, Scan.closed_trim_iff]
  exact hfield

theorem selection_closed (hcolumns : ∀ table, ∀ column ∈ schema.columns table, Closed column.toList)
    (q : Query) (calls : Nat) {spec : FieldSpec} (hspec : spec.Closed) :
    ∀ f ∈ (selection schema q calls spec).fields, Closed f.tableAlias.toList → f.Closed := by
  intro f hf htable
  unfold selection at hf
  split at hf
  · rcases List.mem_map.1 hf with ⟨column, hcolumn, rfl⟩
    exact ⟨hcolumns _ column hcolumn, by simp⟩
  · unfold selectionOf at hf
    split at hf
    · next index hindex =>
        rw [List.mem_singleton] at hf
        subst hf
        have hfield := fieldOf_closed q calls hspec htable
        -- The index that the marker names is cut out of the field, so it is as closed as that.
        have hmark : fulltextIndex? (fieldOf q calls spec).field = some index := by
          split at hindex
          · cases hindex
          · exact hindex
        exact ⟨closed_fulltextIndex? hmark hfield.field, hfield.aliasName⟩
    · rw [List.mem_singleton] at hf
      subst hf
      exact fieldOf_closed q calls hspec htable

end SelectList

/-- The entries of a query that was read are closed where their table aliases are. -/
theorem Query.select_closed {schema : Schema} {text : String} {q : Query}
    (h : parse schema text = .ok q)
    (hcolumns : ∀ table, ∀ column ∈ schema.columns table, Closed column.toList) :
    ∀ f ∈ q.select, Closed f.tableAlias.toList → f.Closed := by
  rcases parse_eq_ok_iff.1 h with ⟨list, rest, q₀, q₁, _, htables, hclauses, hlist⟩
  rcases SelectList.parse_eq_ok_iff.1 hlist with ⟨-, specs, hspecs, rfl⟩
  have hempty : q₁.select = [] :=
    congrArg (fun r => r.2.1) (listRecords_of_clauses htables hclauses)
  intro f hf
  rw [SelectList.select_foldl_enter] at hf
  have hf' : f ∈ (SelectList.selections schema q₁ 0 specs).flatMap Selection.fields := by
    simpa [hempty] using hf
  rcases List.mem_flatMap.1 hf' with ⟨s, hs, hfield⟩
  rcases SelectList.mem_selections hs with ⟨spec, hspec, n, rfl⟩
  exact SelectList.selection_closed hcolumns q₁ n ((SelectList.closed_of_split hspecs).2 spec hspec)
    f hfield

/-! ## Entries as they are written down -/

namespace Draft

variable {f : SelectField}

theorem closed_expression (htable : Closed f.tableAlias.toList) (hf : f.Closed) :
    Closed f.expression.toList := by
  unfold SelectField.expression
  split
  · exact hf.field
  · exact closed_separated htable hf.field (by decide) (by decide)

theorem closed_resultColumn (mainAlias : String) (htable : Closed f.tableAlias.toList)
    (hf : f.Closed) : Closed (resultColumn mainAlias f).1.toList := by
  unfold resultColumn
  simp only
  split
  · split
    · exact hf.field
    · exact closed_separated htable hf.field (by decide) (by decide)
  · next name hname =>
      have hclosed := hf.aliasName name hname
      split
      · next table field hdot =>
          -- The dot of the alias is replaced.
          rcases Option.map_eq_some_iff.1 hdot with ⟨⟨x, y⟩, hparts, heq⟩
          cases heq
          rw [Chars.append_of_splitOnce? hparts] at hclosed
          have hdollar := Scan.Closed.replace_inert (v := ['.']) (w := ['$']) hclosed (by decide)
            (by simp) (by decide) (by simp)
          simpa using hdollar
      · split
        · exact hclosed
        · exact closed_separated htable hclosed (by decide) (by decide)

theorem closed_entryText (mainAlias : String) (htable : Closed f.tableAlias.toList)
    (hf : f.Closed) : Closed (entryText mainAlias f).toList := by
  unfold entryText
  split
  · exact closed_separated (closed_expression htable hf) (closed_resultColumn mainAlias htable hf)
      (by decide) (by decide)
  · exact closed_expression htable hf

theorem closed_ofColumn (table : String) {a field column : String} (ha : Closed a.toList)
    (hfield : Closed field.toList) (hcolumn : Closed column.toList) :
    Closed (ListEntry.ofColumn table a field column).text.toList := by
  have hplain : Closed (a ++ "." ++ field).toList :=
    closed_separated ha hfield (by decide) (by decide)
  unfold ListEntry.ofColumn
  simp only
  split
  · exact hplain
  · exact closed_separated hplain hcolumn (by decide) (by decide)

theorem closed_usual (mainAlias table : String) {a field : String} (ha : Closed a.toList)
    (hfield : Closed field.toList) :
    Closed (ListEntry.usual mainAlias table a field).text.toList := by
  refine closed_ofColumn table ha hfield ?_
  split
  · exact hfield
  · exact closed_separated ha hfield (by decide) (by decide)

/-- All that is written down of a query is closed, if the table aliases are. -/
theorem closed_listed {schema : Schema} {text : String} {q : Query}
    (h : Query.parse schema text = .ok q)
    (hcolumns : ∀ table, ∀ column ∈ schema.columns table, Closed column.toList)
    (haliases : ∀ a ∈ q.baseFields.keys, Closed a.toList) :
    ∀ e ∈ q.listed schema, Closed e.text.toList := by
  intro e he
  rcases Query.mem_listed_cases he with ⟨f, hf, rfl⟩ | ⟨a, ha, field, hfield, rfl⟩
  · have htable := haliases _ (Query.entriesNoted_of_parse h f hf)
    exact closed_entryText _ htable (Query.select_closed h hcolumns f hf htable)
  · refine closed_usual _ _ (haliases a ha) ?_
    rcases hfield with rfl | rfl <;> decide

/-! ## Opaque literals -/

/-- A list that was read is read with any other body of a literal, and the queries agree but for the
literal, unless that is read as a part of the name of a table.  The final list of a draft that was
read is closed, if the aliases of its tables and the columns of the schema are. -/
theorem literals_of_list {a u v : List Char} {c : Char}
    (ha : (({} : Scan).read a).openQuote? = none) (hc : isQuote c = true) (hu : Fills c u)
    (hv : Fills c v) (b : List Char) :
    (∀ (schema : Schema) (q p : Query),
      SelectList.parse schema (a ++ (literal c u ++ b)) q = (p, .ok ()) →
        ∃ p', SelectList.parse schema (a ++ (literal c v ++ b)) q = (p', .ok ()) ∧
          (q.ListExchanged (literal c u) (literal c v) p p' ∨
            SelectList.NamesTable c (fun w => a ++ (literal c w ++ b)) u v)) ∧
    ∀ (p : Platform) (text warning : String) (d d' : Draft), d.parse p text = (d', .ok warning) →
      (∀ table, ∀ column ∈ p.schema.columns table, Closed column.toList) →
      (∀ name ∈ d'.query.baseFields.keys, Closed name.toList) →
        ∀ entry ∈ d'.query.selectList, Closed entry.toList := by
  refine ⟨fun schema q p h => SelectList.exists_parse_exchanged ha hc hu hv b h, ?_⟩
  intro p text warning d d' h hcolumns haliases entry hentry
  rcases of_parse h with ⟨q, hq, hbody, -⟩
  have hbase : d'.query.baseFields = q.baseFields := by
    show d'.query.body.baseFields = q.body.baseFields
    rw [hbody]
  have hlists := (lists_of_parse hq d).1
  rw [h] at hlists
  rw [hlists.selectList] at hentry
  rcases List.mem_map.1 hentry with ⟨e, he, rfl⟩
  exact closed_listed hq hcolumns (hbase ▸ haliases) e he

/-- A version in a label is exchanged for a text that has all the marks of a SELECT list, and the
list of the news is closed. -/
theorem literals_of_label :
    let site := Catalog.site.platform (.atTime 0) {}
    let pages := Query.setMainTable {} ⟨"pages", "pages"⟩
    let front := "CONCAT(title, ".toList
    let version := "v1.0".toList
    let telling := "it''s) AS x, n.* (\\'".toList
    let behind := ") AS label".toList
    (({} : Scan).read front).openQuote? = none ∧ Fills '\'' version ∧ Fills '\'' telling ∧
      (∃ p p', SelectList.parse site.schema (front ++ (literal '\'' version ++ behind)) pages =
          (p, .ok ()) ∧
        SelectList.parse site.schema (front ++ (literal '\'' telling ++ behind)) pages =
          (p', .ok ()) ∧
        pages.ListExchanged (literal '\'' version) (literal '\'' telling) p p') ∧
      ∀ entry ∈ newsDraft.query.selectList, Closed entry.toList := by
  intro site pages front version telling behind
  have hfront : (({} : Scan).read front).openQuote? = none := by decide
  have hversion : Fills '\'' version := by decide
  have htelling : Fills '\'' telling := by decide
  have hlist := literals_of_list hfront (by decide) hversion htelling behind
  refine ⟨hfront, hversion, htelling, ?_, ?_⟩
  · have hread : (SelectList.parse site.schema (front ++ (literal '\'' version ++ behind))
        pages).2 = .ok () := by decide +kernel
    obtain ⟨p', hp', hexchanged⟩ := hlist.1 site.schema pages _ (Prod.ext rfl hread)
    refine ⟨_, p', Prod.ext rfl hread, hp', hexchanged.resolve_right ?_⟩
    -- The piece with the literal is a call.
    rintro ⟨before, spec, after, hname, hsplit⟩
    have hpieces : (SelectList.split (SelectList.splitDistinct
        (front ++ (literal '\'' version ++ behind))).2).map (·.map fun spec =>
          (spec.isCall, spec.isWildcard)) = .ok [(true, false)] := by
      decide +kernel
    rw [hsplit version hversion, Except.map, Except.ok.injEq] at hpieces
    have hmem : ((spec version).isCall, (spec version).isWildcard) ∈ [(true, false)] := by
      rw [← hpieces]
      simp
    rw [List.mem_singleton, Prod.mk.injEq] at hmem
    cases hname with
    | wildcard spec left right hwildcard => exact absurd (hwildcard.symm.trans hmem.2) (by decide)
    | column spec left right hcall _ => exact absurd (hcall.symm.trans hmem.1) (by decide)
  · have hcolumns : ∀ table, ∀ column ∈ site.schema.columns table, Closed column.toList := by
      intro table column hcolumn
      have hall : ∀ t ∈ Catalog.site.tables.entries, ∀ column ∈ t.2.columns.keys,
          Closed column.toList := by decide +kernel
      have hfound : column ∈ ((Catalog.site.table? table).map (·.columns.keys)).getD [] := hcolumn
      cases htable : Catalog.site.table? table with
      | none =>
          rw [htable] at hfound
          cases hfound
      | some t =>
          rw [htable] at hfound
          exact hall (table, t) (OrderedMap.get?_eq_some_iff.1 htable) column hfound
    have haliases : ∀ name ∈ newsDraft.query.baseFields.keys, Closed name.toList := by
      decide +kernel
    exact hlist.2 site _ _ {} newsDraft parse_newsDraft hcolumns haliases

/-- A literal in front of a dot is the name of a table, whatever stands in it, and a dot in a
literal is taken for the one behind the name of a table.  The alias of a table may be an open
literal, as the text behind FROM is not searched for any, and so may the name of a column. -/
theorem namedLiteral_moves_entry :
    let pages := Query.setMainTable {} ⟨"pages", "pages"⟩
    let places := fun list : String =>
      (SelectList.parse .empty list.toList pages).1.select.map fun f => (f.tableAlias, f.field)
    let read := fun (catalog : Catalog) (text : String) =>
      (({} : Draft).parse (catalog.platform (.atTime 0) {}) text)
    let odd : Catalog := { tables := .ofList [("pages", { columns := .ofList [("it's", none)] })] }
    (places "'x'.title" = [("'x'", "title")] ∧ places "'y'.title" = [("'y'", "title")]) ∧
      (places "title || 'v10' AS label" = [("pages", "title || 'v10'")] ∧
        places "title || 'v1.0' AS label" = [("title || 'v1", "0'")]) ∧
      ((read .site "SELECT title FROM pages AS 'x").2 = .ok "" ∧
        "'x.title" ∈ (read .site "SELECT title FROM pages AS 'x").1.query.selectList ∧
        ¬ Closed "'x.title".toList) ∧
      (read odd "SELECT * FROM pages").2 = .ok "" ∧
        "pages.it's" ∈ (read odd "SELECT * FROM pages").1.query.selectList ∧
        ¬ Closed "pages.it's".toList := by
  decide +kernel

end Draft
end ContentQuery
