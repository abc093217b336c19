import ContentQuery.Condition.Compile
import ContentQuery.Proofs.Condition.Lexemes
import ContentQuery.Proofs.Condition.Rename
import ContentQuery.Proofs.Fulltext.Terms
import ContentQuery.Proofs.OrderedMap
import ContentQuery.Proofs.Scan.Cuts

/-!
# Closed conditions

Whatever the values of a condition are, the SQL that it is compiled to is closed: a value is written
between quotes with every quote and backslash escaped, and all else is made of the field, keywords
and parentheses.
-/

namespace ContentQuery

open Scan (Closed Neutral Inside Ordinary)

/-! ## Strings -/

namespace Text

variable {a b w : String}

theorem ordinary_append (ha : Ordinary a.toList) (hb : Ordinary b.toList) :
    Ordinary (a ++ b).toList := by
  rw [String.toList_append]
  exact ha.append hb

/-- A text of name characters, possibly of none. -/
def NameLike (s : String) : Prop :=
  ∀ c ∈ s.toList, Chars.isNameChar c = true

instance (s : String) : Decidable (NameLike s) :=
  inferInstanceAs (Decidable (∀ c ∈ s.toList, Chars.isNameChar c = true))

theorem NameLike.ordinary (ha : NameLike a) : Ordinary a.toList :=
  fun c hc => Scan.isOrdinary_of_isNameChar (ha c hc)

theorem ordinary_decimal (n : Nat) : Ordinary (decimal n).toList := by
  rw [decimal, String.toList_ofList]
  exact fun c hc => Scan.isOrdinary_of_isNameChar ((Chars.isName_decimal n).2 c hc)

theorem ordinary_signed (n : Int) : Ordinary (signed n).toList := by
  cases n with
  | ofNat n => exact ordinary_decimal n
  | negSucc n => exact ordinary_append (by decide) (ordinary_decimal (n + 1))

theorem closed_append (ha : Closed a.toList) (hb : Neutral b.toList) : Closed (a ++ b).toList := by
  rw [String.toList_append]
  exact ha.append hb

theorem neutral_append (ha : Neutral a.toList) (hb : Neutral b.toList) :
    Neutral (a ++ b).toList := by
  rw [String.toList_append]
  exact ha.append hb

/-- Behind an ordinary text any closed one may stand. -/
theorem neutral_behind (hw : Ordinary w.toList) (hne : w ≠ "") (ha : Closed a.toList) :
    Neutral (w ++ a).toList := by
  rw [String.toList_append]
  exact ha.neutral_append hw (by simpa using hne)

theorem neutral_parenthesized (ha : Closed a.toList) : Neutral ("(" ++ a ++ ")").toList := by
  have htext : ("(" ++ a ++ ")").toList = '(' :: (a.toList ++ [')']) := by simp
  rw [htext]
  exact ha.neutral_parenthesized

theorem closed_literal (ha : Inside a.toList) : Closed ("'" ++ a ++ "'").toList := by
  have htext : ("'" ++ a ++ "'").toList = '\'' :: (a.toList ++ ['\'']) := by simp
  rw [htext]
  exact ha.closed_quoted

/-- What is kept where the separator is put between two texts holds of joined texts. -/
theorem join_of {P : String → Prop} {sep : String} (hempty : P "")
    (happend : ∀ s t, P s → P t → P (s ++ sep ++ t)) {ts : List String} (hts : ∀ t ∈ ts, P t) :
    P (join sep ts) := by
  induction ts with
  | nil => exact hempty
  | cons t ts ih =>
      have hrest := ih fun u hu => hts u (by simp [hu])
      cases ts with
      | nil => exact hts t (by simp)
      | cons u us => exact happend t _ (hts t (by simp)) hrest

/-- Closed texts with an ordinary separator between them. -/
theorem closed_join {sep : String} (hsep : Ordinary sep.toList) (hne : sep ≠ "") {ts : List String}
    (hts : ∀ t ∈ ts, Closed t.toList) : Closed (join sep ts).toList := by
  refine join_of (P := fun t => Closed t.toList) Scan.closed_nil (fun s t hs ht => ?_) hts
  rw [String.append_assoc]
  exact closed_append hs (neutral_behind hsep hne ht)

theorem ordinary_join {sep : String} (hsep : Ordinary sep.toList) {ts : List String}
    (hts : ∀ t ∈ ts, Ordinary t.toList) : Ordinary (join sep ts).toList := by
  refine join_of (P := fun t => Ordinary t.toList) Scan.ordinary_nil (fun s t hs ht => ?_) hts
  exact ordinary_append (ordinary_append hs hsep) ht

/-- A qualified column and a text behind it. -/
theorem closed_column {c : String} (ha : NameLike a) (hc : NameLike c) (hw : Neutral w.toList) :
    Closed (a ++ "." ++ c ++ w).toList := by
  have hqualified : Ordinary (a ++ "." ++ c).toList :=
    ordinary_append (ordinary_append ha.ordinary (by decide)) hc.ordinary
  exact closed_append (Scan.closed_ordinary hqualified) hw

end Text

/-! ## Literals -/

namespace Literal

/-- Neither an escape nor a character that needs none ends a literal. -/
theorem StandsFor.inside {w : List Char} {c : Char} (h : StandsFor w c) : Inside w := by
  cases h with
  | plain hc =>
      rw [not_or, not_or] at hc
      exact Scan.inside_char hc.1 hc.2.1
  | escape _ => exact Scan.inside_escaped _

theorem inside_quote (s : String) : Inside (quote s).toList := by
  rw [quote, String.toList_ofList]
  exact Scan.inside_flatMap fun c _ => (standsFor_quoteChar c).inside

theorem inside_addSlashes (s : String) : Inside (addSlashes s).toList := by
  rw [addSlashes, String.toList_ofList]
  exact Scan.inside_flatMap fun c _ => (standsFor_slashChar c).inside

/-- No value ends the literal that it is written into. -/
theorem closed_fullQuote (s : String) : Closed (fullQuote s).toList :=
  Text.closed_literal (inside_quote s)

/-- The test for a member of a list column, whatever the member is. -/
theorem closed_findInSet {argument field : String} (hargument : Inside argument.toList)
    (hfield : Closed field.toList) :
    Closed ("FIND_IN_SET('" ++ argument ++ "'," ++ field ++ ")").toList := by
  have htext : "FIND_IN_SET('" ++ argument ++ "'," ++ field ++ ")" =
      "FIND_IN_SET" ++ ("(" ++ ("'" ++ argument ++ "'" ++ ("," ++ field)) ++ ")") := by
    rw [← String.toList_inj]
    simp
  have hbehind : Neutral ("," ++ field).toList :=
    Text.neutral_behind (by decide) (by decide) hfield
  have hinner := Text.closed_append (Text.closed_literal hargument) hbehind
  rw [htext]
  exact Text.closed_append (Scan.closed_ordinary (by decide)) (Text.neutral_parenthesized hinner)

end Literal

/-! ## Fulltext searches -/

namespace Fulltext

theorem ordinary_of_mem_splitOn {piece s : List Char} {c : Char} (hs : Ordinary s)
    (hpiece : piece ∈ s.splitOn c) : Ordinary piece :=
  fun d hd => hs d ((Chars.isInfix_of_mem_splitOn hpiece).subset hd)

/-- Qualified columns are ordinary if the columns and the alias are. -/
theorem ordinary_qualify {columns table aliasName : String} (hcolumns : Ordinary columns.toList)
    (halias : Ordinary aliasName.toList) : Ordinary (qualify columns table aliasName).toList := by
  unfold qualify
  split
  · exact hcolumns
  · refine Text.ordinary_join (by decide) ?_
    intro t ht
    rcases List.mem_map.1 ht with ⟨column, hcolumn, rfl⟩
    rcases List.mem_map.1 hcolumn with ⟨chars, hchars, rfl⟩
    -- A piece of an ordinary text is ordinary, and so is what its blanks and its table leave of it.
    have htrimmed : Ordinary (Chars.trim chars) := by
      have hpiece := ordinary_of_mem_splitOn hcolumns hchars
      rcases Chars.exists_blanks chars with ⟨u, v, _, _, htext⟩
      rw [htext] at hpiece
      exact (Scan.ordinary_append_iff.1 (Scan.ordinary_append_iff.1 hpiece).2).1
    simp only
    split
    · next bare hbare =>
        rcases Option.map_eq_some_iff.1 hbare with ⟨rest, hrest, rfl⟩
        have hsplit := Chars.append_of_stripLeading? hrest
        rw [Text.trim, String.toList_ofList, String.toList_ofList] at hsplit
        rw [hsplit] at htrimmed
        refine Text.ordinary_append (Text.ordinary_append halias (by decide)) ?_
        rw [String.toList_ofList]
        exact (Scan.ordinary_append_iff.1 htrimmed).2
    · rw [Text.trim, String.toList_ofList, String.toList_ofList]
      exact htrimmed

/-- Whatever is searched for, the terms are a text with slashes added. -/
theorem exists_terms_eq (minLength : Nat) (natural : Bool) (search : String) :
    ∃ text, terms minLength natural search = Literal.addSlashes text := by
  unfold terms
  simp only
  split
  · exact ⟨_, rfl⟩
  · exact SearchTerms.slashed_process minLength _

/-- A condition on a search qualifies the columns of an index and writes slashed terms. -/
theorem exists_of_condition {schema : Schema} {minLength : Nat} {s : Search} {fragment : String}
    (h : condition schema minLength s = .ok fragment) :
    ∃ columns text, (schema.fulltextIndexes s.table).get? s.index = some columns ∧
      fragment = (if s.negate then "NOT " else "") ++ "MATCH(" ++
        qualify columns s.table s.aliasName ++ ") AGAINST('" ++ Literal.addSlashes text ++ "'" ++
          (if s.natural then "" else " IN BOOLEAN MODE") ++ ")" := by
  obtain ⟨text, hterms⟩ := exists_terms_eq minLength s.natural s.text
  unfold condition at h
  split at h
  · cases h
  · next columns hfound =>
      simp only [hterms] at h
      split at h
      · cases h
      · exact ⟨columns, text, hfound, (Except.ok.inj h).symm⟩

/-- A search is closed, whatever is searched for. -/
theorem closed_condition {schema : Schema} {minLength : Nat} {s : Search} {fragment : String}
    (hcolumns : ∀ e ∈ (schema.fulltextIndexes s.table).entries, Ordinary e.2.toList)
    (halias : Ordinary s.aliasName.toList)
    (h : condition schema minLength s = .ok fragment) : Closed fragment.toList := by
  obtain ⟨columns, text, hfound, rfl⟩ := exists_of_condition h
  have hqualified : Ordinary (qualify columns s.table s.aliasName).toList :=
    ordinary_qualify (hcolumns _ (OrderedMap.get?_eq_some_iff.1 hfound)) halias
  have hmode : Neutral (if s.natural then "" else " IN BOOLEAN MODE").toList := by
    apply Scan.neutral_ordinary
    split <;> decide
  have hnot : Ordinary (if s.negate then "NOT " else "").toList := by
    split <;> decide
  -- The text of the condition, with a group for each pair of parentheses.
  have htext : (if s.negate then "NOT " else "") ++ "MATCH(" ++
      qualify columns s.table s.aliasName ++ ") AGAINST('" ++ Literal.addSlashes text ++ "'" ++
        (if s.natural then "" else " IN BOOLEAN MODE") ++ ")" =
      (if s.negate then "NOT " else "") ++ ("MATCH" ++
        (("(" ++ qualify columns s.table s.aliasName ++ ")") ++ (" AGAINST" ++
          ("(" ++ ("'" ++ Literal.addSlashes text ++ "'" ++
            (if s.natural then "" else " IN BOOLEAN MODE")) ++ ")")))) := by
    rw [← String.toList_inj]
    simp
  have hsearch := Text.neutral_parenthesized
    (Text.closed_append (Text.closed_literal (Literal.inside_addSlashes text)) hmode)
  rw [htext]
  refine Text.closed_append (Scan.closed_ordinary hnot) ?_
  refine Text.neutral_append (Scan.neutral_ordinary (by decide)) ?_
  refine Text.neutral_append (Text.neutral_parenthesized (Scan.closed_ordinary hqualified)) ?_
  exact Text.neutral_append (Scan.neutral_ordinary (by decide)) hsearch

end Fulltext

/-! ## Compiled conditions -/

namespace Condition

variable {field : String}

theorem closed_likeTest (hfield : Closed field.toList) (op : Operator) (value : String) :
    Closed (likeTest field op value).toList := by
  unfold likeTest
  simp only
  rw [String.append_assoc]
  exact Text.closed_append hfield
    (Text.neutral_behind (by decide) (by decide) (Literal.closed_fullQuote _))

theorem closed_comparisonTest (hfield : Closed field.toList) (c : Comparison) (value : String) :
    Closed (comparisonTest field c value).toList := by
  have hsymbol : Ordinary (" " ++ c.symbol ++ " ").toList := by
    cases c <;> decide
  have hnull : Ordinary (" " ++ c.nullSymbol ++ " NULL").toList := by
    cases c <;> decide
  have hne : " " ++ c.symbol ++ " " ≠ "" := by
    cases c <;> decide
  -- Against the empty text, against NULL, or against a quoted value.
  unfold comparisonTest
  split
  · have htext : field ++ " " ++ c.symbol ++ " ''" =
        field ++ ((" " ++ c.symbol ++ " ") ++ ("'" ++ "" ++ "'")) := by
      rw [← String.toList_inj]
      simp
    rw [htext]
    exact Text.closed_append hfield
      (Text.neutral_behind hsymbol hne (Text.closed_literal Scan.inside_nil))
  · split
    · have htext : field ++ " " ++ c.nullSymbol ++ " NULL" =
          field ++ (" " ++ c.nullSymbol ++ " NULL") := by
        rw [← String.toList_inj]
        simp
      rw [htext]
      exact Text.closed_append hfield (Scan.neutral_ordinary hnull)
    · have htext : field ++ " " ++ c.symbol ++ " " ++ Literal.fullQuote value =
          field ++ ((" " ++ c.symbol ++ " ") ++ Literal.fullQuote value) := by
        rw [← String.toList_inj]
        simp
      rw [htext]
      exact Text.closed_append hfield
        (Text.neutral_behind hsymbol hne (Literal.closed_fullQuote value))

theorem closed_negated (negate : Bool) {fragment : String} (h : Closed fragment.toList) :
    Closed (negated negate fragment).toList := by
  unfold negated
  split
  · have htext : "NOT (" ++ fragment ++ ")" = "NOT " ++ ("(" ++ fragment ++ ")") := by
      rw [← String.toList_inj]
      simp
    rw [htext]
    exact Text.closed_append (Scan.closed_ordinary (by decide)) (Text.neutral_parenthesized h)
  · exact h

theorem closed_tests {op : String} (hop : Ordinary op.toList) (hne : op ≠ "") (negate : Bool)
    {test : String → String} (htest : ∀ value, Closed (test value).toList)
    (values : List String) : Closed (negated negate (Text.join op (values.map test))).toList := by
  refine closed_negated negate (Text.closed_join hop hne ?_)
  intro t ht
  rcases List.mem_map.1 ht with ⟨value, _, rfl⟩
  exact htest value

/-- The test for one of several values. -/
theorem closed_membership (hfield : Closed field.toList) (negate : Bool) (values : List String) :
    Closed (field ++ (if negate then " NOT" else "") ++ " IN (" ++
      Text.join "," (values.map Literal.fullQuote) ++ ")").toList := by
  -- Literals and ordinary text are closed, and the parentheses around them balance.
  have hnot : Ordinary ((if negate then " NOT" else "") ++ " IN ").toList := by
    cases negate <;> decide
  have hvalues : Closed (Text.join "," (values.map Literal.fullQuote)).toList := by
    apply Text.closed_join (by decide) (by decide)
    intro t ht
    rcases List.mem_map.1 ht with ⟨value, _, rfl⟩
    exact Literal.closed_fullQuote value
  have htext : field ++ (if negate then " NOT" else "") ++ " IN (" ++
      Text.join "," (values.map Literal.fullQuote) ++ ")" =
        field ++ (((if negate then " NOT" else "") ++ " IN ") ++
          ("(" ++ Text.join "," (values.map Literal.fullQuote) ++ ")")) := by
    rw [← String.toList_inj]
    simp
  rw [htext]
  exact Text.closed_append hfield
    (Text.neutral_append (Scan.neutral_ordinary hnot) (Text.neutral_parenthesized hvalues))

/-- A condition on a closed field is closed, whatever its operator and its values are. -/
theorem closed_compile {schema : Schema} {minLength : Nat} {target : ConditionTarget}
    {c : Condition} {fragment : String} (hfield : Closed target.field.toList)
    (hcolumns : ∀ e ∈ (schema.fulltextIndexes target.table).entries, Ordinary e.2.toList)
    (halias : Ordinary target.aliasName.toList)
    (h : c.compile schema minLength target = .ok fragment) : Closed fragment.toList := by
  unfold compile at h
  simp only at h
  split at h
  · cases h
    exact Scan.closed_nil
  · -- The three operators with a pattern share one test.
    have hlike : Closed (negated c.negate
        (Text.join " OR " (c.value.texts.map (likeTest target.field c.operator)))).toList :=
      closed_tests (by decide) (by decide) c.negate (closed_likeTest hfield c.operator) c.value.texts
    cases hoperator : c.operator with
    | oneOf =>
        simp only [hoperator, Except.ok.injEq] at h
        rw [← h]
        exact closed_membership hfield c.negate c.value.items
    | andGroup | orGroup =>
        simp only [hoperator, Except.ok.injEq] at h
        rw [← h]
        exact closed_tests (by decide) (by decide) c.negate
          (fun value => Literal.closed_findInSet (Literal.inside_quote value) hfield) c.value.items
    | comparison op =>
        simp only [hoperator, Except.ok.injEq] at h
        rw [← h]
        exact closed_tests (by decide) (by decide) c.negate (closed_comparisonTest hfield op)
          c.value.texts
    | fulltext | fulltextNatural =>
        simp only [hoperator] at h
        exact Fulltext.closed_condition hcolumns halias h
    | like | start | finish =>
        simp only [hoperator, Except.ok.injEq] at h hlike
        rw [← h]
        exact hlike

end Condition

/-! ## Renamed conditions -/

namespace Rename

theorem separator?_eq_some {text separator : List Char} (h : separator? text = some separator) :
    separator ≠ [] ∧ (∀ c ∈ separator, Scan.isInert c = true) ∧ ∃ rest, text = separator ++ rest := by
  unfold separator? at h
  split at h
  · next rest =>
      cases h
      exact ⟨by simp, by decide, rest, rfl⟩
  · next rest =>
      cases h
      exact ⟨by simp, by decide, rest, rfl⟩
  · cases h

/-- A match is the table and a separator in front of the rest of the text. -/
theorem exists_of_match? {table text separator : List Char} {last : Option Char}
    (h : match? table last text = some separator) :
    separator ≠ [] ∧ (∀ c ∈ separator, Scan.isInert c = true) ∧
      ∃ rest, text = (table ++ separator) ++ rest := by
  cases text with
  | nil => cases h
  | cons c cs =>
      simp only [match?] at h
      split at h
      · rcases Option.bind_eq_some_iff.1 h with ⟨behind, hstrip, hseparator⟩
        rcases separator?_eq_some hseparator with ⟨hne, hinert, rest, hrest⟩
        refine ⟨hne, hinert, rest, ?_⟩
        rw [Chars.append_of_stripLeading? hstrip, hrest, List.append_assoc]
      · cases h

/-- A scan of the renamed text goes along with a scan of the text: where they differ, both read the
characters of a name and a separator. -/
theorem alike_replaceFrom {table aliasName : String} (htable : Text.NameLike table)
    (halias : Text.NameLike aliasName) (text : List Char) :
    ∀ (skip : Nat) (last : Option Char) (s t : Scan), s.QuotedRight →
      Scan.Alike (s.read (text.take skip)) t →
      Scan.Alike (s.read text)
        (t.read (replaceFrom table.toList (template aliasName) skip last text)) := by
  induction text with
  | nil =>
      intro skip last s t _ h
      cases skip <;> simpa [replaceFrom] using h
  | cons c cs ih =>
      intro skip last s t hs h
      cases skip with
      | succ skip => exact ih skip (some c) (s.step c) t (hs.step c) h
      | zero =>
          rw [replaceFrom]
          cases hmatch : match? table.toList last (c :: cs) with
          | none => exact ih 0 (some c) (s.step c) (t.step c) (hs.step c) (h.step c)
          | some separator =>
              rcases exists_of_match? hmatch with ⟨hne, hinert, rest, htext⟩
              -- The match is skipped in the text, and its replacement read in the renamed one.
              have hskip : c :: cs.take (table.toList.length + separator.length - 1) =
                  table.toList ++ separator := by
                have hpos : 0 < separator.length := List.length_pos_iff.2 hne
                have htake : (c :: cs).take (table.toList.length + separator.length) =
                    table.toList ++ separator := by
                  rw [htext, ← List.length_append, List.take_left]
                have hlength : table.toList.length + separator.length =
                    (table.toList.length + separator.length - 1) + 1 := by omega
                rw [hlength, List.take_succ_cons] at htake
                exact htake
              have hname : ∀ w : List Char, (∀ d ∈ w, Chars.isNameChar d = true) →
                  ∀ d ∈ w ++ separator, Scan.isInert d = true := by
                intro w hw d hd
                rcases List.mem_append.1 hd with hd | hd
                · exact Scan.isInert_of_isNameChar (hw d hd)
                · exact hinert d hd
              have hboth := Scan.Alike.inert h hs (hname _ htable) (by simp [hne])
                (hname _ halias) (by simp [hne])
              have hdollar : Chars.Inert aliasName.toList := by
                refine Chars.inert_of_ne ?_
                rintro d hd rfl
                exact absurd (halias '$' hd) (by decide)
              simp only [Renamed.expand_template hdollar]
              rw [Scan.read_append, Scan.read_cons]
              apply ih _ (some c) (s.step c) _ (hs.step c)
              rw [← Scan.read_cons, hskip]
              exact hboth

/-- Renaming keeps conditions closed. -/
theorem closed_tableToAlias {condition table aliasName : String} (h : Closed condition.toList)
    (htable : Text.NameLike table) (halias : Text.NameLike aliasName) :
    Closed (tableToAlias condition table aliasName).toList := by
  have halike := alike_replaceFrom htable halias condition.toList 0 none {} {} trivial (.refl _)
  rw [tableToAlias, String.toList_ofList, Scan.closed_iff_settled]
  exact halike.settled (Scan.closed_iff_settled.1 h)

end Rename
end ContentQuery
