import ContentQuery.Proofs.Query.Accepted
import ContentQuery.Proofs.Query.OpaqueLiterals
import ContentQuery.Proofs.Query.RowCounts
import ContentQuery.Proofs.Query.Segments
import ContentQuery.Proofs.Query.Selections

/-!
# Two ways to limit the rows

`LIMIT m,n` and `LIMIT n OFFSET m` behind a statement read the same: the statement in front is read
as it is without them, whatever counts it has itself, and gets the limit `n` and the offset `m`.  A
clause behind a statement is cut off at its keyword, because the text in front ends outside literals
and parentheses, and the list and the clauses in front stay what they are.
-/

namespace ContentQuery

open Chars (decimal wordBound)
open Keyword (Ends)
open Scan (OnTop anyWord isOrdinary tokens tokensFrom topTokens)

/-! ## Text behind a statement -/

namespace Query

variable {a w : List Char}

/-- What stands behind a statement and has neither SELECT nor FROM belongs to its last clause. -/
theorem splitStatement_append (hends : Ends [] w)
    (hw : (tokensFrom [.select, .source] 0 (({} : Scan).read a) w).1 = []) :
    splitStatement (a ++ w) =
      (splitStatement a).map fun parts => (parts.1, parts.2 ++ w) := by
  have htokens : (tokens [.select, .source] (a ++ w)).1 = (tokens [.select, .source] a).1 := by
    rw [tokens, Scan.tokensFrom_append lawful_statement hends, hw, List.append_nil]
    rfl
  rw [splitStatement_eq, splitStatement_eq, htokens]
  cases hcut : cutTokens (tokens [.select, .source] a).1 with
  | error e => rfl
  | ok cut =>
      obtain ⟨-, hsource, -⟩ := mem_of_cutTokens hcut
      have hbounds := Scan.bounds_of_mem_tokens lawful_statement.formed hsource
      show Except.ok (_, _) = Except.ok (_, _)
      rw [Chars.slice_append_of_le (hbounds.1.trans hbounds.2),
        List.drop_append_of_le_length hbounds.2]

/-- The text behind FROM ends on the top level if the statement does. -/
theorem onTop_of_splitStatement {list rest : List Char} (ha : OnTop (({} : Scan).read a))
    (h : splitStatement a = .ok (list, rest)) : OnTop (({} : Scan).read rest) := by
  rw [splitStatement_eq] at h
  cases hcut : cutTokens (tokens [.select, .source] a).1 with
  | error e =>
      rw [hcut] at h
      cases h
  | ok cut =>
      rw [hcut] at h
      cases h
      exact Scan.onTop_behind_token lawful_statement.formed (mem_of_cutTokens hcut).2.1 ha

end Query

/-! ## Clauses behind a statement -/

/-- Clauses of other kinds do not touch the list of tables. -/
theorem Query.tablesText_append (text : List Char) (segments : List Segment) :
    tablesText (Segment.ofText text ++ segments) = tablesText (Segment.ofText text) := by
  -- The first clause is always the list of tables.
  have hfirst : ∃ first rest, Segment.ofText text = first :: rest ∧ first.clause = .source := by
    unfold Segment.ofText
    cases (tokens (Clause.openers.map Prod.snd) text).1.filter (·.depth == 0) with
    | nil => exact ⟨_, _, rfl, rfl⟩
    | cons token tokens => exact ⟨_, _, rfl, rfl⟩
  obtain ⟨first, rest, hsegments, hclause⟩ := hfirst
  simp [tablesText, hsegments, hclause]

/-- Clauses that make a change to every query make it behind the clauses that stand in front. -/
theorem Query.readClauses_append {rest : List Char} (hrest : OnTop (({} : Scan).read rest))
    {clauses : List WrittenClause} (hclauses : ∀ x ∈ clauses, x.Sound) {change : Query → Query}
    (hchange : ∀ q, (clauses.map WrittenClause.segment).foldlM addClause q = .ok (change q)) :
    readClauses (rest ++ clauses.flatMap WrittenClause.chars) = (readClauses rest).map change := by
  rw [readClauses, Segment.ofText_append_flatMap hclauses hrest, tablesText_append, readClauses]
  cases ofTables (tablesText (Segment.ofText rest)) with
  | error e => rfl
  | ok q =>
      show (Segment.ofText rest ++ clauses.map WrittenClause.segment).foldlM addClause q =
        ((Segment.ofText rest).foldlM addClause q).map change
      rw [List.foldlM_append]
      cases (Segment.ofText rest).foldlM addClause q with
      | error e => rfl
      | ok q₁ => exact hchange q₁

/-! ## Clauses of row counts -/

/-- A text of digits and commas. -/
def IsNumeric (text : List Char) : Prop :=
  ∀ c ∈ text, c.isDigit = true ∨ c = ','

theorem isNumeric_decimal (n : Nat) : IsNumeric (decimal n) :=
  fun _ hc => .inl (Chars.isDigit_of_mem_decimal hc)

theorem IsNumeric.isAlpha {text : List Char} (h : IsNumeric text) :
    ∀ c ∈ text, c.isAlpha = false := by
  intro c hc
  rcases h c hc with hdigit | rfl
  · rw [Chars.isDigit_iff] at hdigit
    rw [← Bool.not_eq_true, Chars.isAlpha_iff, Chars.isUpper_iff, Chars.isLower_iff]
    omega
  · decide

theorem IsNumeric.isOrdinary {text : List Char} (h : IsNumeric text) :
    ∀ c ∈ text, isOrdinary c = true := by
  intro c hc
  rcases h c hc with hdigit | rfl
  · exact Scan.isOrdinary_of_isNameChar (Chars.isNameChar_iff.2 (.inr (.inl hdigit)))
  · decide

theorem IsNumeric.fits {text : List Char} (h : IsNumeric text) : Fits text where
  outside := (Scan.settled_start.read h.isOrdinary).outside
  depth := (Scan.settled_start.read h.isOrdinary).depth_eq
  lacks := Scan.lacksKeywords_of_not_isAlpha reader_clauses.lawful.formed h.isAlpha

namespace WrittenClause

/-- The clauses of row counts with their keywords. -/
def countPlaces : List (Clause × Keyword) :=
  [(.limit, .limit), (.offset, .offset)]

/-- A clause of row counts, with its keyword in capitals between single blanks. -/
structure OfCounts (x : WrittenClause) : Prop where
  place : ∃ place ∈ countPlaces, place.1 = x.clause ∧ place.2.letters = x.keyword
  front : x.front = [' ']
  back : x.back = [' ']
  numeric : IsNumeric x.text

namespace OfCounts

variable {x : WrittenClause}

theorem sound (hx : x.OfCounts) : x.Sound where
  opener := by
    obtain ⟨place, hplace, hclause, hkeyword⟩ := hx.place
    have hopeners : ∀ place ∈ countPlaces, place ∈ Clause.openers := by decide
    have hformed := wellFormed_of_mem_openers place (hopeners place hplace)
    exact ⟨place, hopeners place hplace, hclause,
      hkeyword ▸ Keyword.spells_self hformed.spelled⟩
  front := by
    rw [hx.front]
    decide
  back := by
    rw [hx.back]
    decide
  fits := hx.numeric.fits

theorem chars_eq (hx : x.OfCounts) : x.chars = [' '] ++ (x.keyword ++ ([' '] ++ x.text)) := by
  rw [chars, hx.front, hx.back]

theorem isOrdinary_chars (hx : x.OfCounts) : ∀ c ∈ x.chars, isOrdinary c = true := by
  obtain ⟨place, hplace, -, hkeyword⟩ := hx.place
  have hletters : ∀ place ∈ countPlaces, ∀ c ∈ place.2.letters, isOrdinary c = true := by decide
  rw [hx.chars_eq, ← hkeyword]
  simp only [List.forall_mem_append, List.forall_mem_singleton]
  exact ⟨rfl, hletters place hplace, rfl, hx.numeric.isOrdinary⟩

/-- Neither SELECT nor FROM is in the clause. -/
theorem topTokens (hx : x.OfCounts) (s : Scan) (b : List Char) :
    topTokens [.select, .source] anyWord s (x.chars ++ b) =
      topTokens [.select, .source] anyWord (s.read x.chars) b := by
  obtain ⟨place, hplace, -, hkeyword⟩ := hx.place
  -- No keyword of the statement starts at a count word, a blank or a number.
  have hname : ∀ place ∈ countPlaces, Chars.IsName place.2.letters ∧
      ∀ k ∈ [Keyword.select, .source],
        place.2.letters.map Char.toUpper ≠ k.letters.takeWhile (· != ' ') := by
    decide
  have hblank : ∀ c ∈ [' '], c.isAlpha = false := by decide
  have hformed := Query.lawful_statement.formed
  rw [hx.chars_eq, ← hkeyword]
  simp only [List.append_assoc, Scan.read_append]
  rw [Scan.topTokens_of_not_isAlpha hformed hblank,
    Scan.topTokens_name hformed (hname place hplace).1 (by simp; decide) (hname place hplace).2,
    Scan.topTokens_of_not_isAlpha hformed hblank,
    Scan.topTokens_of_not_isAlpha hformed hx.numeric.isAlpha]

end OfCounts

section Counts

variable {clauses : List WrittenClause} (hclauses : ∀ x ∈ clauses, x.OfCounts)
include hclauses

theorem ends_ofCounts : Ends [] (clauses.flatMap chars) := by
  refine Keyword.ends_nil ?_
  cases clauses with
  | nil => simp
  | cons x xs =>
      rw [List.flatMap_cons, (hclauses x (by simp)).chars_eq]
      simp
      decide

/-- No clause of row counts brings another SELECT or FROM. -/
theorem tokensFrom_ofCounts {s : Scan} (hs : OnTop s) :
    (tokensFrom [.select, .source] 0 s (clauses.flatMap chars)).1 = [] := by
  have hordinary : ∀ c ∈ clauses.flatMap chars, isOrdinary c = true := by
    intro c hc
    obtain ⟨x, hx, hc⟩ := List.mem_flatMap.1 hc
    exact (hclauses x hx).isOrdinary_chars c hc
  have hall := Scan.topTokens_of_isOrdinary Query.lawful_statement.formed hs hordinary
    (fun _ => rfl : ∀ i, anyWord i = true)
  rw [← hall]
  clear hall hordinary hs
  induction clauses generalizing s with
  | nil => rfl
  | cons x xs ih =>
      rw [List.flatMap_cons, (hclauses x (by simp)).topTokens]
      exact ih fun y hy => hclauses y (by simp [hy])

end Counts

end WrittenClause

/-! ## Counts and the SELECT list -/

/-- The query with other row counts. -/
def Query.withCounts (limit offset : Option Nat) (q : Query) : Query :=
  { q with limit, offset }

namespace SelectList

variable {limit offset : Option Nat}

theorem addField_withCounts (q : Query) (f : SelectField) :
    addField (q.withCounts limit offset) f = (addField q f).withCounts limit offset := by
  rw [Query.addField_eq, Query.addField_eq]
  rfl

theorem enter_withCounts (q : Query) (s : Selection) :
    (q.withCounts limit offset).enter s = (q.enter s).withCounts limit offset := by
  have hfields : ∀ q : Query, s.fields.foldl addField (q.withCounts limit offset) =
      (s.fields.foldl addField q).withCounts limit offset := fun q =>
    List.foldl_hom (Query.withCounts limit offset) addField_withCounts
  rw [Query.enter_eq, Query.enter_eq, ← hfields]
  rfl

/-- A SELECT list is read without regard to the row counts, and leaves them. -/
theorem parse_withCounts (schema : Schema) (list : List Char) (q : Query) :
    parse schema list (q.withCounts limit offset) =
      (((parse schema list q).1).withCounts limit offset, (parse schema list q).2) := by
  -- Resolving an entry neither reads nor writes the two counts.
  have hresolve : ∀ (state : Nat × Query) (spec : FieldSpec),
      resolve schema (state.1, state.2.withCounts limit offset) spec =
        ((resolve schema state spec).1, (resolve schema state spec).2.withCounts limit offset) := by
    rintro ⟨calls, q⟩ spec
    rw [resolve_eq_enter, resolve_eq_enter]
    exact congrArg (Prod.mk _) (enter_withCounts q _)
  have hfold : ∀ (specs : List FieldSpec) (state : Nat × Query),
      specs.foldl (resolve schema) (state.1, state.2.withCounts limit offset) =
        ((specs.foldl (resolve schema) state).1,
          (specs.foldl (resolve schema) state).2.withCounts limit offset) := fun specs state =>
    List.foldl_hom (fun state : Nat × Query => (state.1, state.2.withCounts limit offset)) hresolve
  unfold parse
  simp only
  split
  · rfl
  · split
    · next specs _ =>
        exact congrArg (fun state : Nat × Query => (state.2, Except.ok ()))
          (hfold specs (0, { q with distinct := q.distinct || (splitDistinct list).1 }))
    · rfl

end SelectList

/-- Clauses of row counts behind a statement set the counts of the query, which is otherwise read as
it is without them. -/
theorem Query.parse_append (schema : Schema) {front : String}
    (hfront : OnTop (({} : Scan).read front.toList)) {clauses : List WrittenClause}
    (hclauses : ∀ x ∈ clauses, x.OfCounts) {limit offset : Option Nat}
    (hcounts : ∀ q, (clauses.map WrittenClause.segment).foldlM addClause q =
      .ok (q.withCounts limit offset)) {text : String}
    (htext : text.toList = front.toList ++ clauses.flatMap WrittenClause.chars) :
    parse schema text = (parse schema front).map (withCounts limit offset) := by
  have hsplit := splitStatement_append (WrittenClause.ends_ofCounts hclauses)
    (WrittenClause.tokensFrom_ofCounts hclauses hfront)
  rw [← htext] at hsplit
  cases hfrontSplit : splitStatement front.toList with
  | error e =>
      rw [hfrontSplit] at hsplit
      rw [parse, parse, hsplit, hfrontSplit]
      rfl
  | ok parts =>
      rcases parts with ⟨list, rest⟩
      rw [hfrontSplit] at hsplit
      -- The SELECT list is the same one, and the clauses only set the counts.
      rw [parse_eq schema hsplit, parse_eq schema hfrontSplit,
        readClauses_append (onTop_of_splitStatement hfront hfrontSplit)
          (fun x hx => (hclauses x hx).sound) hcounts]
      cases readClauses rest with
      | error e => rfl
      | ok q =>
          have hmoved : SelectList.parse schema list (q.withCounts limit offset) = _ :=
            SelectList.parse_withCounts schema list q
          rcases hlist : SelectList.parse schema list q with ⟨q', outcome⟩
          rw [hlist] at hmoved
          cases outcome <;> simp [bind, Except.bind, Except.map, hlist, hmoved]

/-! ## The two notations -/

namespace WrittenClause

/-- `LIMIT m,n` -/
def range (m n : Nat) : WrittenClause :=
  ⟨.limit, [' '], Keyword.limit.letters, [' '], decimal m ++ ',' :: decimal n⟩

/-- `LIMIT n` -/
def count (n : Nat) : WrittenClause :=
  ⟨.limit, [' '], Keyword.limit.letters, [' '], decimal n⟩

/-- `OFFSET m` -/
def start (m : Nat) : WrittenClause :=
  ⟨.offset, [' '], Keyword.offset.letters, [' '], decimal m⟩

theorem ofCounts_range (m n : Nat) : (range m n).OfCounts where
  place := ⟨(.limit, .limit), by decide, rfl, rfl⟩
  front := rfl
  back := rfl
  numeric := by
    intro c hc
    rcases List.mem_append.1 hc with hc | hc
    · exact isNumeric_decimal m c hc
    · rcases List.mem_cons.1 hc with rfl | hc
      · exact .inr rfl
      · exact isNumeric_decimal n c hc

theorem ofCounts_count (n : Nat) : (count n).OfCounts :=
  ⟨⟨(.limit, .limit), by decide, rfl, rfl⟩, rfl, rfl, isNumeric_decimal n⟩

theorem ofCounts_start (m : Nat) : (start m).OfCounts :=
  ⟨⟨(.offset, .offset), by decide, rfl, rfl⟩, rfl, rfl, isNumeric_decimal m⟩

end WrittenClause

open WrittenClause (range count start)

namespace Query

variable {m n : Nat}

theorem addClauses_range (hm : m < wordBound) (hn : n < wordBound) (q : Query) :
    ([range m n].map WrittenClause.segment).foldlM addClause q =
      .ok (q.withCounts (some n) (some m)) := by
  have hsolid := (Chars.isName_decimal m).solid.append (Chars.isName_decimal n).solid [',']
  have hread : RowClause.readLimit (Chars.trim (decimal m ++ ',' :: decimal n)) =
      .ok (n, some m) := by
    rw [show Chars.trim (decimal m ++ ',' :: decimal n) = decimal m ++ ',' :: decimal n from
      hsolid.trim]
    exact RowClause.readLimit_of_limitText
      (.range (RowClause.counts_decimal hm) (RowClause.counts_decimal hn))
  simp only [List.map_cons, List.map_nil, WrittenClause.segment, range, List.foldlM_cons,
    addClause, hread]
  rfl

theorem addClauses_count_start (hm : m < wordBound) (hn : n < wordBound) (q : Query) :
    ([count n, start m].map WrittenClause.segment).foldlM addClause q =
      .ok (q.withCounts (some n) (some m)) := by
  have hlimit := RowClause.readLimit_decimal hn
  have hoffset : RowClause.readOffset (decimal m) = .ok m :=
    RowClause.readCount_decimal .offset hm
  simp only [List.map_cons, List.map_nil, WrittenClause.segment, count, start, List.foldlM_cons,
    addClause, (Chars.isName_decimal _).trim, hlimit, hoffset]
  rfl

/-- `LIMIT m,n` and `LIMIT n OFFSET m` behind a text that ends outside literals and parentheses give
the same result: the error of the text in front, or the query that it gives with the limit `n` and
the offset `m`, whatever counts it had before. -/
theorem parse_limitNotations (schema : Schema) {front : String}
    (hquote : (({} : Scan).read front.toList).openQuote? = none)
    (hdepth : (({} : Scan).read front.toList).depth = 0) (hm : m < wordBound) (hn : n < wordBound) :
    parse schema (front ++ " LIMIT " ++ Text.decimal m ++ "," ++ Text.decimal n) =
        parse schema (front ++ " LIMIT " ++ Text.decimal n ++ " OFFSET " ++ Text.decimal m) ∧
      parse schema (front ++ " LIMIT " ++ Text.decimal m ++ "," ++ Text.decimal n) =
        (parse schema front).map fun q => { q with limit := some n, offset := some m } := by
  have hfront : OnTop (({} : Scan).read front.toList) :=
    ⟨hquote, hdepth, Scan.QuotedRight.read (s := {}) trivial _⟩
  have hrange : parse schema (front ++ " LIMIT " ++ Text.decimal m ++ "," ++ Text.decimal n) =
      (parse schema front).map (withCounts (some n) (some m)) := by
    refine parse_append schema hfront (List.forall_mem_singleton.2
      (WrittenClause.ofCounts_range m n)) (addClauses_range hm hn) ?_
    simp only [String.toList_append, Text.decimal, String.toList_ofList, List.flatMap_cons,
      List.flatMap_nil, List.append_nil, List.append_assoc]
    rfl
  have hcount : parse schema
        (front ++ " LIMIT " ++ Text.decimal n ++ " OFFSET " ++ Text.decimal m) =
      (parse schema front).map (withCounts (some n) (some m)) := by
    refine parse_append schema hfront (List.forall_mem_cons.2
      ⟨WrittenClause.ofCounts_count n, List.forall_mem_singleton.2
        (WrittenClause.ofCounts_start m)⟩) (addClauses_count_start hm hn) ?_
    simp only [String.toList_append, Text.decimal, String.toList_ofList, List.flatMap_cons,
      List.flatMap_nil, List.append_nil, List.append_assoc, WrittenClause.chars, count, start]
    rfl
  exact ⟨hrange.trans hcount.symm, hrange⟩

/-- Behind counts of its own and a parenthesis too many. -/
theorem parse_limitNotations_overruled :
    let front := "SELECT title FROM pages WHERE uid > 1) LIMIT 7 OFFSET 3"
    (10 < wordBound ∧ 20 < wordBound) ∧
      ((({} : Scan).read front.toList).openQuote? = none ∧
        (({} : Scan).read front.toList).depth = 0) ∧
      parse .empty (front ++ " LIMIT " ++ Text.decimal 10 ++ "," ++ Text.decimal 20) =
          parse .empty (front ++ " LIMIT " ++ Text.decimal 20 ++ " OFFSET " ++ Text.decimal 10) ∧
        parse .empty (front ++ " LIMIT " ++ Text.decimal 10 ++ "," ++ Text.decimal 20) =
          (parse .empty front).map fun q => { q with limit := some 20, offset := some 10 } := by
  intro front
  have hquote : (({} : Scan).read front.toList).openQuote? = none := by decide
  have hdepth : (({} : Scan).read front.toList).depth = 0 := by decide
  exact ⟨by decide, ⟨hquote, hdepth⟩,
    parse_limitNotations .empty hquote hdepth (by decide) (by decide)⟩

end Query

end ContentQuery
