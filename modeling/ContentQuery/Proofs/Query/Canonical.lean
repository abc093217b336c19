import ContentQuery.Proofs.OrderedMap
import ContentQuery.Proofs.Scan.Chunks
import ContentQuery.Proofs.Scan.Pieces
import ContentQuery.Query.Parser
import ContentQuery.Query.Printer

/-!
# Queries in canonical form

A query is canonical if its text can be read back: names are words that are no keywords, every other
text is closed and shows no clause keyword on its top level, and nothing is set that is not written.
The file has the form, and the written text in sections, one for each clause.
-/

namespace ContentQuery

open Scan (Closed Section joined lacksKeywords lacksSeparator)
open Chars (IsName Solid)

/-! ## Reserved words -/

namespace Keyword

/-- The single words of the keywords. -/
def reserved : List (List Char) :=
  all.flatMap fun k => k.letters.splitOn ' '

/-- The keywords that end the text of a clause. -/
def clauses : List Keyword :=
  source :: Clause.openers.map Prod.snd

/-- A name that is no word of a keyword, in whatever case. -/
def IsWord (s : String) : Prop :=
  IsName s.toList ∧ s.toList.map Char.toUpper ∉ reserved

instance (s : String) : Decidable (IsWord s) :=
  inferInstanceAs (Decidable (_ ∧ _))

end Keyword

open Keyword (IsWord)

/-! ## Canonical parts -/

/-- A text that can stand in a clause: closed, neither blank nor with blanks around it, and without
a clause keyword on the top level. -/
structure ClauseText (s : String) : Prop where
  closed : Closed s.toList
  solid : Solid s.toList
  lacks : lacksKeywords Keyword.clauses s.toList = true

/-- A part of a list of such texts. -/
structure ClausePart (s : String) : Prop extends ClauseText s where
  separate : lacksSeparator ',' s.toList = true

/-- The text of a function call in a SELECT list. -/
structure CallText (s : String) : Prop where
  closed : Closed s.toList
  solid : Solid s.toList
  /-- An opening parenthesis stands outside literals. -/
  call : Scan.everywhere (fun s c _ => !(c == '(' && s.isOutside c)) {} s.toList = false
  separate : lacksSeparator ',' s.toList = true
  lacks : lacksKeywords [Keyword.as, Keyword.source] s.toList = true
  begins : Keyword.distinct.lengthAt? s.toList 0 = none

structure SelectField.Canonical (q : Query) (f : SelectField) : Prop where
  aliasName : ∀ a ∈ f.aliasName, IsWord a
  column : f.isCall = false →
    IsWord f.tableAlias ∧ IsWord f.field ∧ f.table = q.tableOf f.tableAlias
  call : f.isCall = true →
    f.tableAlias = q.mainAlias ∧ f.table = q.mainTable ∧ f.aliasName.isSome = true ∧
      CallText f.field

structure Join.Canonical (join : Join) : Prop where
  table : IsWord join.table
  aliasName : IsWord join.aliasName
  on : join.on ≠ "" → ClauseText join.on ∧ (Join.splitRowLimit join.on.toList).2 = none
  rowLimit : join.rowLimit = none

/-- A query that is written in full and can be read back. -/
structure Query.Canonical (q : Query) : Prop where
  table : IsWord q.source.table
  aliasName : IsWord q.source.aliasName
  main : q.mainAlias = q.source.aliasName
  mainTable : q.table? q.mainAlias = some q.source.table
  apart : q.mainAlias ∉ q.joins.keys
  keyed : ∀ e ∈ q.joins.entries, e.2.aliasName = e.1
  joins : ∀ e ∈ q.joins.entries, e.2.Canonical
  joined : ∀ e ∈ q.joins.entries, q.table? e.1 = some e.2.table
  covered : ∀ a ∈ q.tableOfAlias.keys, a = q.mainAlias ∨ a ∈ q.joins.keys
  subtables : q.subtableAliases.Perm q.joins.keys
  selected : q.select ≠ []
  fields : ∀ f ∈ q.select, f.Canonical q
  selectList : q.selectList = []
  placeholders : q.placeholders = ∅
  conditions : ∀ c ∈ q.conditions, Closed c.toList ∧ Solid c.toList
  groupBy : ∀ part ∈ q.groupBy, ClausePart part
  orderBy : ∀ part ∈ q.orderBy, ClausePart part
  limit : ∀ n ∈ q.limit, n < Chars.wordBound
  offset : ∀ n ∈ q.offset, n < Chars.wordBound
  offsetLimit : q.limit = none → q.offset = none

/-! ### Deciding canonicity -/

instance (s : String) : Decidable (ClauseText s) :=
  decidable_of_iff
    (Closed s.toList ∧ Solid s.toList ∧ lacksKeywords Keyword.clauses s.toList = true)
    ⟨fun h => ⟨h.1, h.2.1, h.2.2⟩, fun h => ⟨h.closed, h.solid, h.lacks⟩⟩

instance (s : String) : Decidable (ClausePart s) :=
  decidable_of_iff (ClauseText s ∧ lacksSeparator ',' s.toList = true)
    ⟨fun h => ⟨h.1, h.2⟩, fun h => ⟨h.toClauseText, h.separate⟩⟩

instance (s : String) : Decidable (CallText s) :=
  decidable_of_iff
    (Closed s.toList ∧ Solid s.toList ∧
      Scan.everywhere (fun s c _ => !(c == '(' && s.isOutside c)) {} s.toList = false ∧
      lacksSeparator ',' s.toList = true ∧
      lacksKeywords [Keyword.as, Keyword.source] s.toList = true ∧
      Keyword.distinct.lengthAt? s.toList 0 = none)
    ⟨fun ⟨closed, solid, call, separate, lacks, begins⟩ =>
        { closed, solid, call, separate, lacks, begins },
      fun h => ⟨h.closed, h.solid, h.call, h.separate, h.lacks, h.begins⟩⟩

instance (q : Query) (f : SelectField) : Decidable (f.Canonical q) :=
  decidable_of_iff
    ((∀ a ∈ f.aliasName, IsWord a) ∧
      (f.isCall = false →
        IsWord f.tableAlias ∧ IsWord f.field ∧ f.table = q.tableOf f.tableAlias) ∧
      (f.isCall = true →
        f.tableAlias = q.mainAlias ∧ f.table = q.mainTable ∧ f.aliasName.isSome = true ∧
          CallText f.field))
    ⟨fun h => ⟨h.1, h.2.1, h.2.2⟩, fun h => ⟨h.aliasName, h.column, h.call⟩⟩

instance (join : Join) : Decidable join.Canonical :=
  decidable_of_iff
    (IsWord join.table ∧ IsWord join.aliasName ∧
      (join.on ≠ "" → ClauseText join.on ∧ (Join.splitRowLimit join.on.toList).2 = none) ∧
      join.rowLimit = none)
    ⟨fun h => ⟨h.1, h.2.1, h.2.2.1, h.2.2.2⟩, fun h => ⟨h.table, h.aliasName, h.on, h.rowLimit⟩⟩

/-! ## Sections of the text -/

def JoinKind.keyword : JoinKind → Keyword
  | .inner => .innerJoin
  | .left => .leftJoin
  | .right => .rightJoin

/-- The place of the keyword of a join among those that open a clause. -/
def JoinKind.place : JoinKind → Nat
  | .inner => 0
  | .left => 1
  | .right => 2

/-- A table with its alias. -/
def TableRef.chars (ref : TableRef) : List Char :=
  ref.table.toList ++ ' ' :: (Keyword.as.letters ++ ' ' :: ref.aliasName.toList)

namespace Join

/-- The ON text behind its keyword, if there is one. -/
def onChars (join : Join) : List Char :=
  if join.on.isEmpty then [] else ' ' :: (Keyword.on.letters ++ ' ' :: join.on.toList)

def written (join : Join) : Section :=
  ⟨join.kind.place, join.kind.keyword,
    ' ' :: ((⟨join.table, join.aliasName⟩ : TableRef).chars ++ join.onChars)⟩

end Join

namespace Query

/-- The conditions in parentheses with AND between them. -/
def conjunction (conditions : List (List Char)) : List Char :=
  match conditions with
  | [] => []
  | c :: cs =>
      ('(' :: (c ++ [')'])) ++ cs.flatMap fun d => " AND ".toList ++ '(' :: (d ++ [')'])

/-- The conditions as they come back: one text, in which they are joined by AND. -/
def combinedConditions (q : Query) : List String :=
  if q.conditions.isEmpty then []
  else [Text.join " AND " (q.conditions.map fun c => "(" ++ c ++ ")")]

def writtenConditions (q : Query) : List Section :=
  if q.conditions.isEmpty then []
  else [⟨3, .condition, ' ' :: conjunction (q.conditions.map String.toList)⟩]

/-- A clause with a list of parts; an empty list is not written. -/
def writtenList (place : Nat) (word : Keyword) (parts : List String) : List Section :=
  if parts.isEmpty then [] else [⟨place, word, ' ' :: joined ',' (parts.map String.toList)⟩]

/-- A clause with a number. -/
def writtenCount (place : Nat) (word : Keyword) : Option Nat → List Section
  | some n => [⟨place, word, ' ' :: Chars.decimal n⟩]
  | none => []

/-- The clauses behind the main table, in the order in which they are written. -/
def written (q : Query) : List Section :=
  q.joins.values.map Join.written ++ q.writtenConditions ++ writtenList 4 .groupBy q.groupBy ++
    writtenList 5 .orderBy q.orderBy ++ writtenCount 6 .limit q.limit ++
    writtenCount 7 .offset q.offset

/-- The text behind FROM. -/
def tailChars (q : Query) : List Char :=
  ' ' :: q.source.chars ++ q.written.flatMap Section.text

/-- The SELECT list. -/
def listChars (q : Query) : List Char :=
  (if q.distinct then Keyword.distinct.letters ++ [' '] else []) ++
    joined ',' (q.select.map (·.text.toList))

theorem toList_join_cons (sep s : String) (ss : List String) :
    (Text.join sep (s :: ss)).toList = s.toList ++ ss.flatMap fun t => sep.toList ++ t.toList := by
  induction ss generalizing s with
  | nil => simp [Text.join]
  | cons t ts ih => simp [Text.join, ih]

theorem toList_joinComma (ss : List String) :
    (Text.join ", " ss).toList = joined ',' (ss.map String.toList) := by
  cases ss with
  | nil => rfl
  | cons s ss =>
      rw [toList_join_cons, List.map_cons, joined, List.flatMap_map]
      rfl

theorem toList_joinText (join : Join) : (joinText join).toList = join.written.text := by
  have hword : (" " ++ join.kind.word ++ " JOIN ").toList =
      ' ' :: (join.kind.keyword.letters ++ [' ']) := by
    cases join.kind <;> decide
  have has : " AS ".toList = ' ' :: (Keyword.as.letters ++ [' ']) := by decide
  have hon : " ON ".toList = ' ' :: (Keyword.on.letters ++ [' ']) := by decide
  rw [joinText]
  simp only [String.toList_append, hword, has, apply_ite String.toList, hon, String.toList_empty,
    Join.written, Section.text, TableRef.chars, Join.onChars, List.append_assoc, List.cons_append,
    List.nil_append]

theorem toList_conjunction (cs : List String) :
    (Text.join " AND " (cs.map fun c => "(" ++ c ++ ")")).toList =
      conjunction (cs.map String.toList) := by
  have hopen : "(".toList = ['('] := by decide
  have hclose : ")".toList = [')'] := by decide
  cases cs with
  | nil => rfl
  | cons c cs =>
      simp only [List.map_cons, hopen, hclose, String.toList_append, toList_join_cons,
        List.flatMap_map, conjunction, List.append_assoc, List.cons_append, List.nil_append]

theorem toList_whereText (q : Query) :
    q.whereText.toList = q.writtenConditions.flatMap Section.text := by
  have hwhere : " WHERE ".toList = ' ' :: (Keyword.condition.letters ++ [' ']) := by decide
  unfold whereText writtenConditions
  cases hcase : q.conditions.isEmpty with
  | true => rfl
  | false =>
      simp only [Bool.false_eq_true, if_false, String.toList_append, hwhere, toList_conjunction,
        List.flatMap_cons, List.flatMap_nil, List.append_nil, Section.text, List.append_assoc,
        List.cons_append, List.nil_append]

theorem toList_list (place : Nat) (word : Keyword) {text : String}
    (htext : text.toList = ' ' :: (word.letters ++ [' '])) (parts : List String) :
    (if parts.isEmpty then "" else text ++ Text.join ", " parts).toList =
      (writtenList place word parts).flatMap Section.text := by
  unfold writtenList
  cases parts with
  | nil => rfl
  | cons part parts =>
      simp only [List.isEmpty_cons, Bool.false_eq_true, if_false, String.toList_append, htext,
        toList_joinComma, List.flatMap_cons, List.flatMap_nil, List.append_nil, Section.text,
        List.cons_append, List.append_assoc, List.nil_append]

theorem toList_groupText (q : Query) :
    q.groupText.toList = (writtenList 4 .groupBy q.groupBy).flatMap Section.text :=
  toList_list 4 .groupBy (by decide) q.groupBy

theorem toList_orderText (q : Query) :
    q.orderText.toList = (writtenList 5 .orderBy q.orderBy).flatMap Section.text :=
  toList_list 5 .orderBy (by decide) q.orderBy

theorem toList_limitText {q : Query} (h : q.limit = none → q.offset = none) :
    q.limitText.toList =
      (writtenCount 6 .limit q.limit ++ writtenCount 7 .offset q.offset).flatMap Section.text := by
  have hlimit : " LIMIT ".toList = ' ' :: (Keyword.limit.letters ++ [' ']) := by decide
  have hoffset : " OFFSET ".toList = ' ' :: (Keyword.offset.letters ++ [' ']) := by decide
  unfold limitText
  cases hnone : q.limit with
  | none =>
      -- An offset is written behind a limit only.
      rw [h hnone]
      rfl
  | some limit =>
      cases q.offset <;>
        simp only [String.toList_append, hlimit, hoffset, Text.decimal, String.toList_ofList,
          writtenCount, Section.text, List.cons_append, List.nil_append, List.append_assoc,
          List.flatMap_cons, List.flatMap_nil, List.append_nil]

theorem toList_selectText {q : Query} (hlist : q.selectList = []) (hnone : q.placeholders = ∅) :
    q.selectText.toList = joined ',' (q.select.map (·.text.toList)) := by
  have horder : q.placeholderOrder = [] := by
    rw [placeholderOrder, hnone, OrderedMap.entries_empty, List.mergeSort_nil]
  rw [selectText, horder, hlist]
  simp only [List.isEmpty_nil, if_true, List.foldl_nil, toList_joinComma, List.map_map]
  rfl

/-- The text of a canonical query in its parts. -/
theorem toList_render {q : Query} (hq : q.Canonical) :
    (q.render true).toList =
      Keyword.select.letters ++
        ' ' :: (q.listChars ++ ' ' :: (Keyword.source.letters ++ q.tailChars)) := by
  have hselect : "SELECT ".toList = Keyword.select.letters ++ [' '] := by decide
  have hsource : " FROM ".toList = ' ' :: (Keyword.source.letters ++ [' ']) := by decide
  have has : " AS ".toList = ' ' :: (Keyword.as.letters ++ [' ']) := by decide
  have hdistinct : (if q.distinct then "DISTINCT " else "").toList =
      if q.distinct then Keyword.distinct.letters ++ [' '] else [] := by
    cases q.distinct <;> decide
  -- Every clause is written as its sections; what is left is to put them behind each other.
  have hjoins : (String.join (q.joins.values.map joinText)).toList =
      (q.joins.values.map Join.written).flatMap Section.text := by
    rw [String.toList_join, List.flatMap_map, List.flatMap_map]
    exact congrArg q.joins.values.flatMap (funext toList_joinText)
  unfold render
  simp only [String.toList_append, hselect, hsource, has, hdistinct,
    toList_selectText hq.selectList hq.placeholders, hjoins, toList_whereText, toList_groupText,
    if_true, toList_orderText, toList_limitText hq.offsetLimit, listChars, tailChars, written,
    TableRef.chars, List.flatMap_append, List.append_assoc, List.cons_append, List.nil_append]

end Query
end ContentQuery
