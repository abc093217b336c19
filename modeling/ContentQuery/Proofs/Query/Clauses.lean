import ContentQuery.Proofs.Query.RowCounts
import ContentQuery.Proofs.Query.SeparatedLists
import ContentQuery.Proofs.Query.Tables
import ContentQuery.Proofs.Query.Written

/-!
# Clauses that come back

What is read from the text of each section: the table, the joins, the conditions, the lists and the
numbers that were written.
-/

namespace ContentQuery

open Keyword (IsWord Lawful Opens Spells isIdentifierChar ends_nil head_cons)
open Scan (Closed Section Quiet Settled anyWord joined topTokens splitAtKeyword)
open Chars (IsName Solid isNameChar)

/-! ## Texts around a keyword -/

theorem find?_tokens (words : List Keyword) (text : List Char) :
    (Scan.tokens words text).1.find? (·.depth == 0) = (topTokens words anyWord {} text).head? := by
  rw [topTokens, List.head?_filter]
  simp [anyWord, Scan.tokens]

/-- A text without the keyword is one side. -/
theorem splitAtKeyword_of_quiet {word : Keyword} {text : List Char}
    (h : Quiet [word] anyWord [] text) :
    splitAtKeyword word text = (Chars.trim text, none) := by
  rcases h {} [] Scan.settled_start (ends_nil (by simp)) with ⟨htokens, _⟩
  rw [List.append_nil] at htokens
  have hnone : topTokens [word] anyWord {} text = [] := htokens
  rw [splitAtKeyword, find?_tokens, hnone]
  rfl

/-- The first keyword, however it is spelled, cuts a text into the sides that were written around
it. -/
theorem splitAtKeyword_spelled {word : Keyword} (hword : Lawful [word] [])
    {a blanks stretch b : List Char} (ha : Quiet [word] anyWord [] a) (hne : blanks ≠ [])
    (hblanks : ∀ c ∈ blanks, Chars.isBlank c = true) (hspells : Spells word.letters stretch)
    (hb : ∀ c ∈ b.head?, isIdentifierChar c = false) :
    splitAtKeyword word (a ++ (blanks ++ (stretch ++ b))) =
      (Chars.trim a, some (Chars.trim b)) := by
  have hopens : Opens [word] [] 0 word := ⟨rfl, by simp, by simp⟩
  obtain ⟨htokens, hsettled⟩ := ha {} (blanks ++ (stretch ++ b)) Scan.settled_start
    (Scan.ends_spelled hword hopens hne hblanks hspells b)
  have htop := hsettled.onTop.read_blanks hblanks
  have hbound := (hsettled.onTop.beside_of_blanks hne hblanks).bound
  have hposition : ((({} : Scan).read a).read blanks).position = a.length + blanks.length := by
    rw [Scan.position_read, Scan.position_read]
    exact congrArg (· + blanks.length) (Nat.zero_add _)
  have hall : topTokens [word] anyWord {} (a ++ (blanks ++ (stretch ++ b))) =
      ⟨0, a.length + blanks.length, a.length + blanks.length + stretch.length, 0⟩ ::
        topTokens [word] anyWord (((({} : Scan).read a).read blanks).read stretch) b := by
    rw [htokens, Scan.topTokens_blanks hword.formed hblanks, topTokens,
      Scan.tokensFrom_spelled hword hopens hspells htop.right htop.outside hbound hb, hposition,
      htop.depth, List.filter_cons_of_pos rfl]
    rfl
  -- The sides are what stands before and behind the token.
  have hleft : (a ++ (blanks ++ (stretch ++ b))).take (a.length + blanks.length) = a ++ blanks := by
    rw [List.take_length_add_append, List.take_left]
  have hright : (a ++ (blanks ++ (stretch ++ b))).drop
      (a.length + blanks.length + stretch.length) = b := by
    rw [Nat.add_assoc, List.drop_length_add_append, List.drop_length_add_append, List.drop_left]
  rw [splitAtKeyword, find?_tokens, hall]
  simp only [List.head?_cons, hleft, hright, Chars.trim_append_blanks hblanks]

/-- The same for a keyword in capitals behind a space. -/
theorem splitAtKeyword_append {word : Keyword} (hword : Lawful [word] []) {a b : List Char}
    (ha : Quiet [word] anyWord [] a) (hb : ∀ c ∈ b.head?, isIdentifierChar c = false) :
    splitAtKeyword word (a ++ ' ' :: (word.letters ++ b)) =
      (Chars.trim a, some (Chars.trim b)) :=
  splitAtKeyword_spelled hword ha (List.cons_ne_nil ' ' []) (by decide)
    (Keyword.spells_self (hword.formed word (by simp)).spelled) hb

/-! ## Tables -/

/-- The sides of AS are the table and its alias. -/
theorem TableRef.ofText_spelled {table blanks stretch aliasText : List Char}
    (htable : Quiet [.as] anyWord [] table) (hne : blanks ≠ [])
    (hblanks : ∀ c ∈ blanks, Chars.isBlank c = true)
    (hspells : Spells Keyword.as.letters stretch)
    (hbound : ∀ c ∈ aliasText.head?, isIdentifierChar c = false)
    (halias : Chars.trim aliasText ≠ []) :
    TableRef.ofText (table ++ (blanks ++ (stretch ++ aliasText))) =
      ⟨String.ofList (Chars.trim table), String.ofList (Chars.trim aliasText)⟩ := by
  have hsplit := splitAtKeyword_spelled (by decide) htable hne hblanks hspells hbound
  -- An alias counts if it is not blank.
  obtain ⟨c, cs, hcons⟩ := List.exists_cons_of_ne_nil halias
  unfold TableRef.ofText
  simp only [hsplit, hcons]

theorem ofText_chars {ref : TableRef} (htable : IsWord ref.table) (halias : IsWord ref.aliasName) :
    TableRef.ofText ref.chars = ref := by
  have htrim := halias.1.solid.trim_space
  have h := TableRef.ofText_spelled (quiet_word (by decide) (by decide) htable)
    (List.cons_ne_nil ' ' []) (by decide) (Keyword.spells_self (by decide))
    (head_cons (by decide) ref.aliasName.toList) (htrim.symm ▸ halias.1.1)
  rw [htable.1.trim, htrim, String.ofList_toList, String.ofList_toList] at h
  exact h

/-- A text without parentheses, quotes and commas is one part. -/
theorem splitTopLevel_ordinary {text : List Char} (hsolid : Solid text)
    (htext : ∀ c ∈ text, Scan.isOrdinary c = true ∧ c ≠ ',') :
    Scan.splitTopLevel ',' text = [text] := by
  have hclosed : Closed text :=
    Scan.closed_iff_settled.2 (Scan.settled_start.read fun c hc => (htext c hc).1)
  have hlacks : Scan.lacksSeparator ',' text = true := by
    rw [Scan.lacksSeparator, Scan.everywhere_iff]
    rintro before c behind rfl
    have hc := (htext c (by simp)).2
    simp [hc]
  have hpart : ∀ part ∈ [text], Scan.Part ',' part := by
    intro part hmem
    rw [List.mem_singleton.1 hmem]
    exact ⟨hclosed, hsolid, hlacks⟩
  -- The text is a list of one part.
  have hjoined : joined ',' [text] = text := by simp [joined]
  rw [← hjoined, Scan.splitTopLevel_joined hpart, hjoined]

theorem ordinary_name {s : List Char} (hs : IsName s) :
    ∀ c ∈ s, Scan.isOrdinary c = true ∧ c ≠ ',' :=
  fun c hc => ⟨Scan.isOrdinary_of_isNameChar (hs.2 c hc), hs.ne hc (by decide)⟩

theorem ofTables_chars {ref : TableRef} (htable : IsWord ref.table)
    (halias : IsWord ref.aliasName) :
    Query.ofTables ref.chars = .ok (Query.setMainTable {} ref) := by
  have has : ∀ c ∈ Keyword.as.letters, Scan.isOrdinary c = true ∧ c ≠ ',' := by decide
  have hspace : Scan.isOrdinary ' ' = true ∧ ' ' ≠ ',' := by decide
  -- Neither the names nor the word between them hold a comma or anything a scan reacts to.
  have hordinary : ∀ c ∈ ref.chars, Scan.isOrdinary c = true ∧ c ≠ ',' := by
    intro c hc
    simp only [TableRef.chars, List.mem_append, List.mem_cons] at hc
    rcases hc with hc | rfl | hc | rfl | hc
    · exact ordinary_name htable.1 c hc
    · exact hspace
    · exact has c hc
    · exact hspace
    · exact ordinary_name halias.1 c hc
  unfold Query.ofTables
  rw [splitTopLevel_ordinary (solid_chars htable halias) hordinary, List.map_cons, List.map_nil,
    ofText_chars htable halias]
  rfl

/-! ## Joins -/

theorem splitRowLimit_of_none {text : List Char} (h : (Join.splitRowLimit text).2 = none) :
    Join.splitRowLimit text = (Chars.trim text, none) := by
  revert h
  unfold Join.splitRowLimit
  simp only
  split
  · split
    · intro h
      simp at h
    · exact fun _ => rfl
  · exact fun _ => rfl

theorem ofText_written {join : Join} (hjoin : join.Canonical) :
    Join.ofText join.kind (Chars.trim join.written.body) = join := by
  have href : TableRef.ofText (⟨join.table, join.aliasName⟩ : TableRef).chars =
      ⟨join.table, join.aliasName⟩ := ofText_chars hjoin.table hjoin.aliasName
  have hsolid : Solid (⟨join.table, join.aliasName⟩ : TableRef).chars :=
    solid_chars hjoin.table hjoin.aliasName
  have hquiet : Quiet [.on] anyWord [] (⟨join.table, join.aliasName⟩ : TableRef).chars :=
    quiet_ref (by decide) (by decide) (by decide) hjoin.table hjoin.aliasName
  -- Without an ON text there is no ON to find, with one it is the first ON of the join.
  by_cases hempty : join.on = ""
  · have hchars : join.onChars = [] := by simp [Join.onChars, hempty]
    have hsplit := splitAtKeyword_of_quiet hquiet
    rw [hsolid.trim] at hsplit
    rw [Join.written, hchars, List.append_nil, hsolid.trim_space, Join.ofText, hsplit]
    simp only [href, Join.bare]
    rw [← hempty, ← hjoin.rowLimit]
  · have hchars : join.onChars = ' ' :: (Keyword.on.letters ++ ' ' :: join.on.toList) := by
      simp [Join.onChars, String.isEmpty_iff, hempty]
    rcases hjoin.on hempty with ⟨htext, hlimit⟩
    have hsplit : splitAtKeyword .on ((⟨join.table, join.aliasName⟩ : TableRef).chars ++
        join.onChars) = ((⟨join.table, join.aliasName⟩ : TableRef).chars, some join.on.toList) := by
      rw [hchars, splitAtKeyword_append (by decide) hquiet (head_cons (by decide) _), hsolid.trim,
        htext.solid.trim_space]
    have hall : Solid ((⟨join.table, join.aliasName⟩ : TableRef).chars ++ join.onChars) := by
      have h := hsolid.append htext.solid (' ' :: (Keyword.on.letters ++ [' ']))
      rw [hchars]
      simpa using h
    rw [Join.written, hall.trim_space, Join.ofText, hsplit]
    simp only [href, Join.bare, splitRowLimit_of_none hlimit, htext.solid.trim,
      String.ofList_toList]
    rw [← hjoin.rowLimit]

/-! ## Lists and numbers -/

theorem splitTopLevel_parts {parts : List String} (hparts : ∀ part ∈ parts, ClausePart part)
    (hne : parts ≠ []) :
    Scan.splitTopLevel ',' (Chars.trim (' ' :: joined ',' (parts.map String.toList))) =
      parts.map String.toList := by
  have hall : ∀ part ∈ parts.map String.toList, Scan.Part ',' part := by
    intro _ hpart
    rcases List.mem_map.1 hpart with ⟨part, hmem, rfl⟩
    have h := hparts part hmem
    exact ⟨h.closed, h.solid, h.separate⟩
  have hne' : parts.map String.toList ≠ [] := by simpa using hne
  rw [(Scan.solid_joined hne' fun part hpart => (hall part hpart).solid).trim_space,
    Scan.splitTopLevel_joined hall]

/-! ## Clause after clause -/

namespace Query

variable {q : Query}

/-- One clause that is read leaves the rest to be read. -/
theorem foldlM_addClause_append {first rest : List Segment} {q₀ q₁ : Query}
    (h : first.foldlM addClause q₀ = .ok q₁) :
    (first ++ rest).foldlM addClause q₀ = rest.foldlM addClause q₁ := by
  rw [List.foldlM_append, h]
  rfl

/-- A clause that is read in one step. -/
theorem foldlM_addClause_singleton {x : Section} {q₀ q₁ : Query}
    (h : addClause q₀ (.ofSection x) = .ok q₁) :
    ([x].map Segment.ofSection).foldlM addClause q₀ = .ok q₁ := by
  rw [List.map_singleton, List.foldlM_cons, h]
  rfl

/-- Sections of joins add the joins in their order. -/
theorem foldlM_addClause_joins {joins : List Join} (hjoins : ∀ join ∈ joins, join.Canonical)
    (q₀ : Query) :
    ((joins.map Join.written).map Segment.ofSection).foldlM addClause q₀ =
      .ok (joins.foldl addJoin q₀) := by
  have hstep : ∀ {join : Join}, join.Canonical → ∀ q₀,
      addClause q₀ (.ofSection join.written) = .ok (q₀.addJoin join) := by
    intro join hjoin q₀
    have hclause : Clause.atIndex join.kind.place = .join join.kind := by
      cases join.kind <;> rfl
    have hplace : join.written.place = join.kind.place := rfl
    simp only [Segment.ofSection, addClause, hplace, hclause, ofText_written hjoin]
  induction joins generalizing q₀ with
  | nil => rfl
  | cons join joins ih =>
      rw [List.map_cons, List.map_cons, List.foldlM_cons, hstep (hjoins join (by simp))]
      exact ih (fun other hmem => hjoins other (by simp [hmem])) (q₀.addJoin join)

theorem solid_conjunction {cs : List (List Char)} (hne : cs ≠ []) : Solid (conjunction cs) := by
  have hopen : Solid ['('] := by decide
  have hclose : Solid [')'] := by decide
  cases cs with
  | nil => exact absurd rfl hne
  | cons c cs =>
      clear hne
      rw [conjunction]
      -- Parentheses at both ends, whatever stands between them.
      induction cs generalizing c with
      | nil =>
          have hall := hopen.append hclose c
          simpa using hall
      | cons d ds ih =>
          have hall := hopen.append (ih d) (c ++ ')' :: " AND ".toList)
          simpa using hall

/-- The conditions come back as one fragment. -/
theorem foldlM_addClause_conditions (q q₀ : Query) :
    (q.writtenConditions.map Segment.ofSection).foldlM addClause q₀ =
      .ok { q₀ with conditions := q₀.conditions ++ q.combinedConditions } := by
  unfold writtenConditions combinedConditions
  cases hempty : q.conditions.isEmpty with
  | true =>
      simp only [if_true, List.append_nil]
      rfl
  | false =>
      have hne : q.conditions.map String.toList ≠ [] := by
        simpa [List.isEmpty_iff] using hempty
      have hsolid := solid_conjunction hne
      rw [← toList_conjunction] at hsolid ⊢
      -- The fragment begins and ends with a parenthesis, so trimming leaves it.
      generalize Text.join " AND " (q.conditions.map fun c => "(" ++ c ++ ")") = text at hsolid ⊢
      have htrim : Text.trim text = text := by
        rw [Text.trim, hsolid.trim, String.ofList_toList]
      have hnonempty : text.isEmpty = false := by
        cases hcase : text.isEmpty with
        | false => rfl
        | true => exact absurd (by simpa using hcase) hsolid.ne_nil
      have hclause : Clause.atIndex 3 = .condition := rfl
      have hstep : addClause q₀ (.ofSection ⟨3, .condition, ' ' :: text.toList⟩) =
          .ok { q₀ with conditions := q₀.conditions ++ [text] } := by
        simp only [Segment.ofSection, addClause, hclause, hsolid.trim_space,
          String.ofList_toList, addCondition, htrim, hnonempty, Bool.false_eq_true, if_false]
      exact foldlM_addClause_singleton hstep

/-- The ordering as it is read from its parts. -/
def writtenOrder (q : Query) : List OrderField :=
  q.orderBy.map fun part => OrderField.ofText part.toList

theorem map_ofList_toList (parts : List String) :
    (parts.map String.toList).map String.ofList = parts := by
  rw [List.map_map]
  exact (List.map_congr_left fun part _ => String.ofList_toList).trans (List.map_id parts)

theorem foldlM_addClause_groupBy {parts : List String} (hparts : ∀ part ∈ parts, ClausePart part)
    (q₀ : Query) :
    ((writtenList 4 .groupBy parts).map Segment.ofSection).foldlM addClause q₀ =
      .ok { q₀ with groupBy := q₀.groupBy ++ parts } := by
  unfold writtenList
  cases hempty : parts.isEmpty with
  | true =>
      simp only [List.isEmpty_iff.1 hempty, if_true, List.append_nil]
      rfl
  | false =>
      have hne : parts ≠ [] := by simpa [List.isEmpty_iff] using hempty
      have hclause : Clause.atIndex 4 = .groupBy := rfl
      have hstep : addClause q₀ (.ofSection ⟨4, .groupBy, ' ' :: joined ',' (parts.map String.toList)⟩)
          = .ok { q₀ with groupBy := q₀.groupBy ++ parts } := by
        simp only [Segment.ofSection, addClause, hclause, readGroup,
          splitTopLevel_parts hparts hne, map_ofList_toList]
      exact foldlM_addClause_singleton hstep

theorem foldlM_addClause_orderBy {parts : List String} (hparts : ∀ part ∈ parts, ClausePart part)
    (q₀ : Query) :
    ((writtenList 5 .orderBy parts).map Segment.ofSection).foldlM addClause q₀ =
      .ok { q₀ with
        orderBy := q₀.orderBy ++ parts
        orderFields := q₀.orderFields ++ parts.map fun part => OrderField.ofText part.toList } := by
  unfold writtenList
  cases hempty : parts.isEmpty with
  | true =>
      simp only [List.isEmpty_iff.1 hempty, if_true, List.map_nil, List.append_nil]
      rfl
  | false =>
      have hne : parts ≠ [] := by simpa [List.isEmpty_iff] using hempty
      have hclause : Clause.atIndex 5 = .orderBy := rfl
      have hfields : (parts.map String.toList).map OrderField.ofText =
          parts.map fun part => OrderField.ofText part.toList := by
        rw [List.map_map]
        rfl
      have hstep : addClause q₀ (.ofSection ⟨5, .orderBy, ' ' :: joined ',' (parts.map String.toList)⟩)
          = .ok { q₀ with
            orderBy := q₀.orderBy ++ parts
            orderFields := q₀.orderFields ++
              parts.map fun part => OrderField.ofText part.toList } := by
        simp only [Segment.ofSection, addClause, hclause, readOrder,
          splitTopLevel_parts hparts hne, map_ofList_toList, hfields]
      exact foldlM_addClause_singleton hstep

theorem foldlM_addClause_limit {limit : Option Nat} (hlimit : ∀ n ∈ limit, n < Chars.wordBound)
    {q₀ : Query} (hnone : q₀.limit = none) :
    ((writtenCount 6 .limit limit).map Segment.ofSection).foldlM addClause q₀ =
      .ok { q₀ with limit } := by
  cases limit with
  | none =>
      have hsame : { q₀ with limit := none } = q₀ := by rw [← hnone]
      rw [hsame]
      rfl
  | some n =>
      have hsolid := (Chars.isName_decimal n).solid
      have hclause : Clause.atIndex 6 = .limit := rfl
      have hstep : addClause q₀ (.ofSection ⟨6, .limit, ' ' :: Chars.decimal n⟩) =
          .ok { q₀ with limit := some n } := by
        simp only [Segment.ofSection, addClause, hclause, hsolid.trim_space,
          RowClause.readLimit_decimal (hlimit n rfl)]
        rfl
      exact foldlM_addClause_singleton hstep

theorem foldlM_addClause_offset {offset : Option Nat}
    (hoffset : ∀ n ∈ offset, n < Chars.wordBound) {q₀ : Query} (hnone : q₀.offset = none) :
    ((writtenCount 7 .offset offset).map Segment.ofSection).foldlM addClause q₀ =
      .ok { q₀ with offset } := by
  cases offset with
  | none =>
      have hsame : { q₀ with offset := none } = q₀ := by rw [← hnone]
      rw [hsame]
      rfl
  | some n =>
      have hsolid := (Chars.isName_decimal n).solid
      have hclause : Clause.atIndex 7 = .offset := rfl
      have hstep : addClause q₀ (.ofSection ⟨7, .offset, ' ' :: Chars.decimal n⟩) =
          .ok { q₀ with offset := some n } := by
        simp only [Segment.ofSection, addClause, hclause, hsolid.trim_space,
          RowClause.readOffset, RowClause.readCount_decimal _ (hoffset n rfl)]
        rfl
      exact foldlM_addClause_singleton hstep

/-! ## Everything behind FROM -/

theorem foldl_insert_joins (hkeyed : ∀ e ∈ q.joins.entries, e.2.aliasName = e.1) :
    q.joins.values.foldl (fun m join => m.insert join.aliasName join) ∅ = q.joins := by
  calc q.joins.values.foldl (fun m join => m.insert join.aliasName join) ∅
      = q.joins.entries.foldl (fun m e => m.insert e.2.aliasName e.2) ∅ := by
        rw [OrderedMap.values, List.foldl_map]
    _ = q.joins.entries.foldl (fun m e => m.insert e.1 e.2) ∅ := by
        -- Every join is kept under its own alias.
        exact List.foldl_ext _ _ _ fun m e he => by rw [hkeyed e he]
    _ = q.joins := OrderedMap.foldl_insert_entries q.joins

/-- The query of a main table and of the clauses behind it. -/
def framed (source : TableRef) (joins : OrderedMap String Join)
    (tableOfAlias : OrderedMap String String) (subtableAliases : List String)
    (conditions groupBy orderBy : List String) (orderFields : List OrderField)
    (limit offset : Option Nat) : Query :=
  { source, joins, conditions, groupBy, orderBy, limit, offset
    mainAlias := source.aliasName, tableOfAlias, subtableAliases, orderFields }

/-- The clauses that were written are read into the query of the main table. -/
theorem foldlM_addClause_written (hq : q.Canonical) :
    ∃ tables subtables,
      (Segment.ofText q.tailChars).foldlM addClause (setMainTable {} q.source) =
        .ok (framed q.source q.joins tables subtables q.combinedConditions q.groupBy q.orderBy
          q.writtenOrder q.limit q.offset) := by
  obtain ⟨subtables, hadd⟩ := exists_foldl_addJoin q.joins.values (setMainTable {} q.source)
  generalize q.joins.values.foldl (fun m join => m.insert join.aliasName join.table)
    (setMainTable {} q.source).tableOfAlias = tables at hadd
  have hempty : (setMainTable {} q.source).joins = ∅ := rfl
  rw [hempty, foldl_insert_joins hq.keyed] at hadd
  have hcanonical : ∀ join ∈ q.joins.values, join.Canonical := by
    intro join hmem
    rcases List.mem_map.1 hmem with ⟨e, he, rfl⟩
    exact hq.joins e he
  -- Stage by stage, each one fills the next fields of the query.
  let state := framed q.source q.joins tables subtables
  have hjoins : ((q.joins.values.map Join.written).map Segment.ofSection).foldlM addClause
      (setMainTable {} q.source) = .ok (state [] [] [] [] none none) :=
    (foldlM_addClause_joins hcanonical _).trans (congrArg Except.ok hadd)
  have hconditions : (q.writtenConditions.map Segment.ofSection).foldlM addClause
      (state [] [] [] [] none none) = .ok (state q.combinedConditions [] [] [] none none) :=
    foldlM_addClause_conditions q _
  have hgroup : ((writtenList 4 .groupBy q.groupBy).map Segment.ofSection).foldlM addClause
      (state q.combinedConditions [] [] [] none none) =
        .ok (state q.combinedConditions q.groupBy [] [] none none) :=
    foldlM_addClause_groupBy hq.groupBy _
  have horder : ((writtenList 5 .orderBy q.orderBy).map Segment.ofSection).foldlM addClause
      (state q.combinedConditions q.groupBy [] [] none none) =
        .ok (state q.combinedConditions q.groupBy q.orderBy q.writtenOrder none none) :=
    foldlM_addClause_orderBy hq.orderBy _
  have hlimit : ((writtenCount 6 .limit q.limit).map Segment.ofSection).foldlM addClause
      (state q.combinedConditions q.groupBy q.orderBy q.writtenOrder none none) =
        .ok (state q.combinedConditions q.groupBy q.orderBy q.writtenOrder q.limit none) :=
    foldlM_addClause_limit hq.limit rfl
  have hoffset : ((writtenCount 7 .offset q.offset).map Segment.ofSection).foldlM addClause
      (state q.combinedConditions q.groupBy q.orderBy q.writtenOrder q.limit none) =
        .ok (state q.combinedConditions q.groupBy q.orderBy q.writtenOrder q.limit q.offset) :=
    foldlM_addClause_offset hq.offset rfl
  refine ⟨tables, subtables, ?_⟩
  rw [segments_tailChars hq]
  show (q.written.map Segment.ofSection).foldlM addClause (setMainTable {} q.source) = _
  simp only [written, List.map_append, List.append_assoc]
  rw [foldlM_addClause_append hjoins, foldlM_addClause_append hconditions,
    foldlM_addClause_append hgroup, foldlM_addClause_append horder,
    foldlM_addClause_append hlimit, hoffset]

end Query
end ContentQuery
