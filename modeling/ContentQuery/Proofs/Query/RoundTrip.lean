import ContentQuery.Proofs.Query.Clauses
import ContentQuery.Proofs.Query.SelectList

/-!
# Reading undoes writing

The text of a canonical query is read as the query that was written.  The SELECT list is quiet to
the reader of FROM, so the list and the clauses are told apart; each of them then comes back, and
so do the records on aliases and fields.  Only the conditions come back as one text.
-/

namespace ContentQuery

open Keyword (IsWord Lawful Opens Ends isIdentifierChar ends_nil ends_cons)
open Scan (Quiet Settled joined topTokens)
open Chars (isNameChar)

variable {q : Query}

/-! ## FROM in a SELECT list -/

theorem quiet_expression {f : SelectField} (hf : f.Canonical q) :
    Quiet [.select, .source] (· == 1) [] (' ' :: f.expression.toList) := by
  have hlawful := reader_source.lawful
  cases hcall : f.isCall with
  | true =>
      rcases hf.call hcall with ⟨_, _, _, htext⟩
      have hexpression : f.expression = f.field := by simp [SelectField.expression, hcall]
      rw [hexpression]
      refine Scan.quiet_closed hlawful ?_ htext.closed htext.lacks
      intro i k hk hpick
      have hi : i = 1 := by simpa using hpick
      subst hi
      cases hk
      simp
  | false =>
      rcases hf.column hcall with ⟨halias, hfield, _⟩
      -- The alias is no keyword, and the rest of the column continues its identifier.
      have hne : ∀ k ∈ [Keyword.select, .source],
          f.tableAlias.toList.map Char.toUpper ≠ k.firstWord := by
        intro k hk heq
        refine halias.2 ?_
        rw [heq]
        exact reader_source.reserved k hk
      have hdot : ∀ c ∈ ('.' :: f.field.toList).head?, isNameChar c = false := by
        rintro c hc
        cases hc
        decide
      rw [SelectField.toList_expression hcall]
      exact (Scan.quiet_identifier hlawful.formed halias.1
        (SelectList.isIdentifierChar_column hfield) hdot hne).cons hlawful.formed (by decide)
        (by decide)

theorem quiet_entry {f : SelectField} (hf : f.Canonical q) :
    Quiet [.select, .source] (· == 1) [] (' ' :: f.text.toList) := by
  have hformed := reader_source.lawful.formed
  have has : Quiet [.select, .source] (· == 1) [] Keyword.as.letters :=
    reader_source.quiet_between (by decide) (by decide) (by simp)
  have hexpression := quiet_expression hf
  rw [SelectField.toList_text, SelectField.aliasChars]
  cases hname : f.aliasName with
  | none => simpa using hexpression
  | some a =>
      have hword : Quiet [.select, .source] (· == 1) [] a.toList :=
        quiet_word hformed reader_source.reserved (hf.aliasName a hname)
      have halias := (has.spaced hformed hword).cons hformed (c := ' ') (by decide) (by decide)
      exact hexpression.append halias (ends_cons (by decide) _) (by simp)

/-- The SELECT list shows no FROM. -/
theorem quiet_listChars (hq : q.Canonical) :
    Quiet [.select, .source] (· == 1) [] (' ' :: q.listChars) := by
  have hformed := reader_source.lawful.formed
  have hentries : Quiet [.select, .source] (· == 1) []
      (' ' :: joined ',' (q.select.map (·.text.toList))) := by
    refine Scan.quiet_joined hformed Scan.separates_comma (ends_cons (by decide))
      (by simpa using hq.selected) ?_
    intro _ hpart
    rcases List.mem_map.1 hpart with ⟨f, hf, rfl⟩
    exact quiet_entry (hq.fields f hf)
  unfold Query.listChars
  cases q.distinct with
  | false => exact hentries
  | true =>
      have hdistinct : Quiet [.select, .source] (· == 1) [] Keyword.distinct.letters :=
        Scan.quiet_name hformed (by decide) (by decide)
      have hall := (hdistinct.append hentries (ends_cons (by decide) _) (by simp)).cons
        hformed (c := ' ') (by decide) (by decide)
      simpa using hall

/-! ## The two halves of a statement -/

theorem find?_reverse {α : Type} (p : α → Bool) (xs : List α) :
    xs.reverse.find? p = (xs.filter p).getLast? := by
  rw [← List.head?_filter, List.filter_reverse, List.head?_reverse]

/-- The tokens of a statement: SELECT, and the last one on the top level is FROM. -/
theorem tokens_render (hq : q.Canonical) :
    ∃ tokens, (Scan.tokens [.select, .source] (q.render true).toList).1 = ⟨0, 0, 6, 0⟩ :: tokens ∧
      (∀ t ∈ tokens, 6 ≤ t.start) ∧
      tokens.filter (fun t => t.depth == 0 && t.index == 1) =
        [⟨1, q.listChars.length + 8, q.listChars.length + 12, 0⟩] := by
  have hlawful := reader_source.lawful
  have hbehind : ∀ text : List Char, ∀ c ∈ (' ' :: text).head?, isIdentifierChar c = false :=
    Keyword.head_cons (by decide)
  have hselect : Opens [.select, .source] [] 0 .select := by decide
  have hsource : Opens [.select, .source] [] 1 .source := by decide
  rw [Query.toList_render hq]
  -- SELECT is the first token.
  obtain ⟨hfirst, hsettled⟩ := Scan.tokensFrom_keyword hlawful hselect Scan.settled_start rfl
    (hbehind (q.listChars ++ ' ' :: (Keyword.source.letters ++ q.tailChars)))
  have hposition : (({} : Scan).read Keyword.select.letters).position = 6 := by
    rw [Scan.position_read]
    decide
  refine ⟨_, hfirst, ?_, ?_⟩
  · intro t ht
    have hle := (Scan.bounds_of_mem hlawful.formed ht).1
    rwa [hposition] at hle
  · generalize ({} : Scan).read Keyword.select.letters = s at hsettled hposition
    -- The list has none on the top level, and the rest has none behind FROM.
    obtain ⟨hlist, hsettled'⟩ := quiet_listChars hq s (' ' :: (Keyword.source.letters ++ q.tailChars))
      hsettled (ends_nil (hbehind _))
    have hlast : ((s.read (' ' :: q.listChars)).step ' ').last.any isIdentifierChar = false :=
      Scan.last_any_step (by decide) _
    obtain ⟨hfrom, hsettled''⟩ := @Scan.topTokens_keyword _ _ (· == 1) _ hlawful _ _ hsource rfl
      (hsettled'.step (c := ' ') (by decide)) hlast _ (hbehind (q.source.chars ++
        q.written.flatMap Scan.Section.text))
    rcases quiet_tailChars hq _ [] hsettled'' (ends_nil (by simp)) with ⟨hrest, _⟩
    have hat : ((s.read (' ' :: q.listChars)).step ' ').position = q.listChars.length + 8 := by
      rw [Scan.position_step, Scan.position_read, hposition, List.length_cons]
      omega
    have hletters : Keyword.source.letters.length = 4 := by decide
    rw [List.append_nil] at hrest
    calc topTokens [.select, .source] (· == 1) s
          (' ' :: (q.listChars ++ ' ' :: (Keyword.source.letters ++ q.tailChars)))
        = topTokens [.select, .source] (· == 1) (s.read (' ' :: q.listChars))
            (' ' :: (Keyword.source.letters ++ q.tailChars)) := hlist
      _ = topTokens [.select, .source] (· == 1) ((s.read (' ' :: q.listChars)).step ' ')
            (Keyword.source.letters ++ q.tailChars) :=
          Scan.topTokens_cons_of_not_isNameChar hlawful.formed (by decide) _ _
      _ = ⟨1, q.listChars.length + 8, q.listChars.length + 12, 0⟩ ::
            topTokens [.select, .source] (· == 1)
              (((s.read (' ' :: q.listChars)).step ' ').read Keyword.source.letters)
              q.tailChars := by
          rw [Query.tailChars, List.cons_append, hfrom, hat, hletters]
      _ = [⟨1, q.listChars.length + 8, q.listChars.length + 12, 0⟩] := by
          rw [hrest]
          rfl

/-- A statement is cut behind SELECT and at FROM. -/
theorem splitStatement_render (hq : q.Canonical) :
    Query.splitStatement (q.render true).toList =
      .ok (' ' :: (q.listChars ++ [' ']), q.tailChars) := by
  rcases tokens_render hq with ⟨tokens, htokens, hstart, hlast⟩
  -- SELECT is the first token; of those behind it FROM is the last on the top level.
  have hcandidates : ((⟨0, 0, 6, 0⟩ : Token) :: tokens).filter
      (fun t => t.index == 1 && decide (6 ≤ t.start)) = tokens.filter (·.index == 1) := by
    rw [List.filter_cons_of_neg (by simp)]
    refine List.filter_congr fun t ht => ?_
    have hle := hstart t ht
    simp [hle]
  have hchosen : (tokens.filter (·.index == 1)).reverse.find? (·.depth == 0) =
      some ⟨1, q.listChars.length + 8, q.listChars.length + 12, 0⟩ := by
    rw [find?_reverse, List.filter_filter, hlast]
    rfl
  have htext := Query.toList_render hq
  have hselect : Keyword.select.letters.length = 6 := by decide
  have hsource : Keyword.source.letters.length = 4 := by decide
  have hlist : Chars.slice (q.render true).toList 6 (q.listChars.length + 8) =
      ' ' :: (q.listChars ++ [' ']) := by
    refine SelectList.slice_eq (b := Keyword.select.letters)
      (r := Keyword.source.letters ++ q.tailChars) ?_ rfl ?_
    · simpa using htext
    · simp only [hselect, List.length_cons, List.length_append, List.length_nil]
      omega
  have hrest : (q.render true).toList.drop (q.listChars.length + 12) = q.tailChars := by
    have hsides : (q.render true).toList = (Keyword.select.letters ++
        ' ' :: (q.listChars ++ ' ' :: Keyword.source.letters)) ++ q.tailChars := by
      simpa using htext
    rw [hsides]
    refine List.drop_left' ?_
    simp only [hselect, hsource, List.length_cons, List.length_append]
    omega
  unfold Query.splitStatement
  simp only [htokens, List.find?_cons, beq_self_eq_true, Bool.and_self, hcandidates, hchosen,
    Option.some_or, hlist, hrest]

/-! ## Records -/

namespace Query

/-- What a query that was read back has in common with the query that was written. -/
structure Restored (q q' : Query) : Prop where
  distinct : q'.distinct = q.distinct
  select : q'.select = q.select
  source : q'.source = q.source
  joins : q'.joins = q.joins
  /-- The conditions come back in parentheses, joined by AND. -/
  conditions : q'.conditions = q.combinedConditions
  groupBy : q'.groupBy = q.groupBy
  orderBy : q'.orderBy = q.orderBy
  orderFields : q'.orderFields = q.writtenOrder
  limit : q'.limit = q.limit
  offset : q'.offset = q.offset
  mainAlias : q'.mainAlias = q.mainAlias
  tables : ∀ a, q'.table? a = q.table? a
  subtables : q'.subtableAliases.Perm q.subtableAliases
  selectList : q'.selectList = q.selectList
  placeholders : q'.placeholders = q.placeholders
  /-- The records on fields are those of the SELECT list. -/
  baseFields : q'.baseFields = (q.select.foldl SelectList.addField {}).baseFields
  fieldAliases : q'.fieldAliases = (q.select.foldl SelectList.addField {}).fieldAliases
  aliasExpressions : q'.aliasExpressions = (q.select.foldl SelectList.addField {}).aliasExpressions

/-- The records of a query on its fields. -/
def fieldRecords (q : Query) :
    OrderedMap String BaseFields × OrderedMap String (OrderedMap String String) ×
      OrderedMap String String :=
  (q.baseFields, q.fieldAliases, q.aliasExpressions)

/-- The records on fields depend on the fields and on what was recorded before. -/
theorem fieldRecords_foldl_addField (fields : List SelectField) :
    ∀ {q q' : Query}, q.fieldRecords = q'.fieldRecords →
      (fields.foldl SelectList.addField q).fieldRecords =
        (fields.foldl SelectList.addField q').fieldRecords := by
  induction fields with
  | nil => exact fun h => h
  | cons f fs ih =>
      intro q q' h
      refine ih ?_
      -- One field changes the three records by what they were before.
      simp only [fieldRecords, Prod.mk.injEq] at h
      rcases h with ⟨hbase, haliases, hexpressions⟩
      simp [fieldRecords, addField_eq, noteResultName, hbase, haliases, hexpressions]

/-- Records that are kept well say the same as those of a canonical query. -/
theorem WellKept.table?_eq {q' : Query} (hkept : q'.WellKept) (hq : q.Canonical)
    (hsource : q'.source = q.source) (hjoins : q'.joins = q.joins) (a : String) :
    q'.table? a = q.table? a := by
  have hmain : q'.mainAlias = q.mainAlias := by
    rw [hkept.main, hq.main, hsource]
  -- An alias is that of a join, that of the main table, or unknown to both queries.
  by_cases ha : a ∈ q.joins.keys
  · rcases OrderedMap.exists_of_mem_keys ha with ⟨join, hmem⟩
    have hget : q'.joins.get? a = some join := by
      rw [hjoins]
      exact OrderedMap.get?_eq_some_iff.2 hmem
    rw [hkept.joined hget, hq.joined (a, join) hmem]
  · by_cases heq : a = q.mainAlias
    · have hkey : q'.mainAlias ∉ q'.joins.keys := by
        rw [hmain, hjoins]
        exact hq.apart
      rw [heq, hq.mainTable, ← hmain, hkept.mainTable hkey, hsource]
    · have hnone : ∀ {p : Query}, (a ∈ p.tableOfAlias.keys → a = q.mainAlias ∨ a ∈ q.joins.keys) →
          p.table? a = none := by
        intro p hp
        refine OrderedMap.get?_eq_none_iff.2 fun hmem => ?_
        rcases hp hmem with h | h
        · exact heq h
        · exact ha h
      have hcovered : a ∈ q'.tableOfAlias.keys → a = q.mainAlias ∨ a ∈ q.joins.keys := by
        rw [hkept.covered, hmain, hjoins]
        exact fun h => h
      rw [hnone hcovered, hnone (hq.covered a)]

/-! ## Whole statements -/

/-- The query that the clauses give, with the fields of the list, is restored. -/
theorem restored_addField {q₁ : Query} (hq : q.Canonical) (hkept : q₁.WellKept)
    {tables : OrderedMap String String} {subtables : List String}
    (hframed : q₁ = framed q.source q.joins tables subtables q.combinedConditions q.groupBy
      q.orderBy q.writtenOrder q.limit q.offset) :
    q.Restored
      (q.select.foldl SelectList.addField { q₁ with distinct := q₁.distinct || q.distinct }) := by
  obtain ⟨hwithout, hselect, hdistinct, hplaceholders⟩ :=
    foldl_addField q.select { q₁ with distinct := q₁.distinct || q.distinct }
  have hrecords := @fieldRecords_foldl_addField q.select
    { q₁ with distinct := q₁.distinct || q.distinct } {} (by rw [hframed]; rfl)
  generalize q.select.foldl SelectList.addField { q₁ with distinct := q₁.distinct || q.distinct } =
    q' at hwithout hselect hdistinct hplaceholders hrecords ⊢
  simp only [fieldRecords, Prod.mk.injEq] at hrecords
  -- What the list leaves as it is comes from the clauses.
  have hclauses : ∀ {α : Type} (field : Query → α), field q'.withoutList = field q₁.withoutList :=
    fun field => congrArg field hwithout
  have hmain : q'.mainAlias = q.mainAlias := by
    calc q'.mainAlias
        = q₁.mainAlias := hclauses (·.mainAlias)
      _ = q.source.aliasName := by rw [hframed]; rfl
      _ = q.mainAlias := hq.main.symm
  have hjoins : q₁.joins = q.joins := by
    rw [hframed]
    rfl
  have hsource : q₁.source = q.source := by
    rw [hframed]
    rfl
  have htables : ∀ a, q'.table? a = q₁.table? a :=
    fun a => hclauses (·.table? a)
  have hsubtables : q'.subtableAliases = q.joins.keys := by
    calc q'.subtableAliases
        = q₁.subtableAliases := hclauses (·.subtableAliases)
      _ = q.joins.keys := by rw [hkept.aliases, hjoins]
  subst hframed
  constructor
  case distinct => exact hdistinct
  case select => exact hselect
  case source => exact hclauses (·.source)
  case joins => exact hclauses (·.joins)
  case conditions => exact hclauses (·.conditions)
  case groupBy => exact hclauses (·.groupBy)
  case orderBy => exact hclauses (·.orderBy)
  case orderFields => exact hclauses (·.orderFields)
  case limit => exact hclauses (·.limit)
  case offset => exact hclauses (·.offset)
  case mainAlias => exact hmain
  case tables => exact fun a => (htables a).trans (hkept.table?_eq hq hsource hjoins a)
  case subtables =>
    rw [hsubtables]
    exact hq.subtables.symm
  case selectList => exact (hclauses (·.selectList)).trans hq.selectList.symm
  case placeholders => exact hplaceholders.trans hq.placeholders.symm
  case baseFields => exact hrecords.1
  case fieldAliases => exact hrecords.2.1
  case aliasExpressions => exact hrecords.2.2

/-- The text of a canonical query is read as that query, whatever the schema. -/
theorem parse_render {q : Query} (hq : q.Canonical) (schema : Schema) :
    ∃ q', parse schema (q.render true) = .ok q' ∧ q.Restored q' := by
  rcases foldlM_addClause_written hq with ⟨tables, subtables, hclauses⟩
  have htables : ofTables (tablesText (Segment.ofText q.tailChars)) =
      .ok (setMainTable {} q.source) := by
    rw [segments_tailChars hq]
    exact ofTables_chars hq.table hq.aliasName
  have hkept := wellKept_of_clauses htables hclauses
  -- The SELECT list is resolved against the tables that were written.
  have hmain := hkept.main.trans hq.main.symm
  have htable := hkept.table?_eq hq rfl rfl
  have hsame : SelectList.SameTables q (framed q.source q.joins tables subtables
      q.combinedConditions q.groupBy q.orderBy q.writtenOrder q.limit q.offset) := by
    constructor
    case mainAlias => exact hmain
    case mainTable =>
      rw [mainTable, mainTable, hmain, htable]
      rfl
    case tableOf =>
      intro a
      rw [tableOf, tableOf, htable]
  have hlist := SelectList.parse_listChars hq schema hsame
  refine ⟨_, ?_, restored_addField hq hkept rfl⟩
  exact parse_eq_ok_iff.2 ⟨_, _, _, _, splitStatement_render hq, htables, hclauses, hlist⟩

/-- A query with keywords, commas and parentheses inside its texts. -/
def newsQuery : Query where
  distinct := true
  select :=
    [⟨"tx_news", "n", "title", some "headline", false⟩,
      ⟨"pages", "pages", "CONCAT(n.title, ' FROM ', EXTRACT(YEAR FROM n.day))", some "stamp", true⟩,
      ⟨"pages", "pages", "uid", none, false⟩]
  source := ⟨"pages", "pages"⟩
  joins :=
    ⟨[("n", ⟨.left, "tx_news", "n", "n.pid = pages.uid AND n.note <> 'WHERE ('", none⟩),
      ("c", ⟨.inner, "categories", "c", "", none⟩)], by decide⟩
  conditions := ["n.title LIKE '%)%' OR n.day IN (1, 2)", "pages.hidden = 0"]
  groupBy := ["n.uid", "IF(n.day > 0, 'a, b', c.uid)"]
  orderBy := ["n.day DESC", "FIELD(n.uid, 3, 1)"]
  limit := some 10
  offset := some 5
  mainAlias := "pages"
  tableOfAlias := ⟨[("pages", "pages"), ("n", "tx_news"), ("c", "categories")], by decide⟩
  subtableAliases := ["n", "c"]

theorem canonical_newsQuery : newsQuery.Canonical where
  table := by decide
  aliasName := by decide
  main := rfl
  mainTable := by decide
  apart := by decide
  keyed := by decide
  joins := by decide +kernel
  joined := by decide
  covered := by decide
  subtables := by decide
  selected := by decide
  fields := by decide +kernel
  selectList := rfl
  placeholders := rfl
  conditions := by decide +kernel
  groupBy := by decide +kernel
  orderBy := by decide +kernel
  limit := by decide
  offset := by decide
  offsetLimit := by decide

theorem parse_render_newsQuery :
    newsQuery.Canonical ∧
      ∃ q', parse .empty (newsQuery.render true) = .ok q' ∧
        newsQuery.Restored q' :=
  ⟨canonical_newsQuery, parse_render canonical_newsQuery _⟩

end Query
end ContentQuery
