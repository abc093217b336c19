import ContentQuery.Proofs.Query.Entries
import ContentQuery.Proofs.Query.RowLimits

/-!
# What is accepted

Only the SELECT list of a statement is searched for open literals and unbalanced parentheses; the
text behind FROM is kept as it is written.  So a statement that is accepted has a closed SELECT list,
and all texts of its query are closed if the text behind FROM is.
-/

namespace ContentQuery

open Scan (Closed Starts Stops Ordinary isOrdinary)

/-! ## Ends of clauses -/

namespace Scan

/-- A text that spells capital letters is ordinary. -/
theorem ordinary_of_upper {w letters : List Char} (h : w.map Char.toUpper = letters)
    (hletters : ∀ l ∈ letters, l.isUpper = true) : Ordinary w := by
  intro c hc
  have hupper : c.toUpper.isUpper = true :=
    hletters _ (h ▸ List.mem_map.2 ⟨c, hc, rfl⟩)
  exact isOrdinary_of_isNameChar (Keyword.isNameChar_of_toUpper hupper rfl)

end Scan

theorem Chars.append_of_splitLast? {p : Char → Bool} {s a b : List Char}
    (h : Chars.splitLast? p s = some (a, b)) : ∃ c, p c = true ∧ s = a ++ c :: b := by
  induction s generalizing a with
  | nil => simp [Chars.splitLast?] at h
  | cons c cs ih =>
      rw [Chars.splitLast?] at h
      split at h
      · next parts hparts =>
          cases h
          rcases ih hparts with ⟨d, hd, rfl⟩
          exact ⟨d, hd, rfl⟩
      · split at h
        · next hc =>
            cases h
            exact ⟨c, hc, rfl⟩
        · cases h

namespace Join

/-- A row limit is ordinary. -/
theorem EndsInLimit.exists_ordinary {text front : List Char} {n : Nat}
    (h : EndsInLimit text front n) : ∃ limit, text = front ++ limit ∧ Ordinary limit := by
  obtain ⟨max, blanks, digits, tail, htext, -, hmax, hblanks, hdigits, -, -, htail⟩ := h
  have hword : Ordinary max := Scan.ordinary_of_upper
    ((Keyword.spells_iff_map (by decide)).1 hmax) (by decide)
  have hcount : Ordinary digits := fun c hc =>
    Scan.isOrdinary_of_isNameChar (Chars.isNameChar_iff.2 (.inr (.inl (hdigits.2 c hc))))
  refine ⟨_, htext, hword.append (Ordinary.append ?_ (hcount.append ?_))⟩
  · exact fun c hc => Scan.isOrdinary_of_isBlank (hblanks.2 c hc)
  · exact fun c hc => Scan.isOrdinary_of_isBlank (htail c hc)

/-- What is left of a closed text without its row limit is closed. -/
theorem closed_splitRowLimit {text : List Char} (h : Closed text) :
    Closed (splitRowLimit text).1 := by
  cases hlimit : (splitRowLimit text).2 with
  | none =>
      rw [splitRowLimit_of_none hlimit]
      exact Scan.closed_trim_iff.2 h
  | some n =>
      obtain ⟨front, hends⟩ := endsInLimit_of_splitRowLimit hlimit
      rw [hends.splitRowLimit]
      obtain ⟨limit, rfl, hordinary⟩ := hends.exists_ordinary
      exact Scan.closed_trim_iff.2 ((Scan.closed_append_iff hordinary).1 h)

end Join

theorem OrderField.closed_ofText {part : List Char} (h : Closed part) :
    Closed (OrderField.ofText part).field.toList := by
  have hplain : ∀ direction, Closed (plain (String.ofList part) direction).field.toList := by
    intro direction
    simpa [plain] using h
  unfold OrderField.ofText
  split
  · next field direction hlast =>
      simp only
      split
      · next hdirection =>
          rcases Chars.append_of_splitLast? hlast with ⟨c, hc, rfl⟩
          -- The direction is a keyword, and cutting ordinary text off leaves the field closed.
          have hletters : Ordinary direction := by
            rcases hdirection with hdirection | hdirection
            · exact Scan.ordinary_of_upper hdirection (by decide)
            · exact Scan.ordinary_of_upper hdirection (by decide)
          have hend : Ordinary (c :: direction) :=
            Scan.ordinary_cons.2 ⟨Scan.isOrdinary_of_isBlank hc, hletters⟩
          rw [Scan.closed_append_iff hend] at h
          simpa [plain, Scan.closed_trim_iff] using h
      · exact hplain _
  · exact hplain _

/-! ## Segments -/

theorem Segment.closed_cut {text : List Char} (h : Closed text) (clause : Clause) {start : Nat}
    (hstart : Starts text start) {tokens : List Token}
    (htokens : ∀ token ∈ tokens, Stops text token.start ∧ Starts text token.stop) :
    ∀ segment ∈ cut text clause start tokens, Closed segment.text := by
  induction tokens generalizing clause start with
  | nil =>
      intro segment hsegment
      rw [cut, List.mem_singleton] at hsegment
      rw [hsegment]
      exact Scan.closed_trim_iff.2 (h.drop hstart)
  | cons token tokens ih =>
      have htoken := htokens token (by simp)
      intro segment hsegment
      rw [cut, List.mem_cons] at hsegment
      rcases hsegment with rfl | hsegment
      · exact Scan.closed_trim_iff.2 (Scan.closed_slice hstart htoken.1)
      · exact ih _ htoken.2 (fun t ht => htokens t (by simp [ht])) segment hsegment

theorem Segment.closed_ofText {text : List Char} (h : Closed text) :
    ∀ segment ∈ ofText text, Closed segment.text := by
  have hwords : ∀ k ∈ Clause.openers.map Prod.snd, k.WellFormed := by decide
  refine closed_cut h .source (Scan.starts_zero text) fun token htoken => ?_
  rw [List.mem_filter, beq_iff_eq] at htoken
  exact Scan.cut_of_mem_tokens hwords h htoken.1 htoken.2

/-! ## Clauses -/

structure TableRef.Closed (ref : TableRef) : Prop where
  table : Scan.Closed ref.table.toList
  aliasName : Scan.Closed ref.aliasName.toList

structure Join.Closed (join : Join) : Prop where
  table : Scan.Closed join.table.toList
  aliasName : Scan.Closed join.aliasName.toList
  on : Scan.Closed join.on.toList

theorem TableRef.closed_ofText {text : List Char} (h : Scan.Closed text) : (ofText text).Closed := by
  have hword : Keyword.as.WellFormed := by decide
  have hsides := Scan.closed_splitAtKeyword hword h
  unfold ofText
  simp only
  split
  · next c cs hright =>
      exact ⟨by simpa using hsides.1, by simpa using hsides.2 _ hright⟩
  · exact ⟨by simpa using hsides.1, by simpa using hsides.1⟩

theorem Join.closed_bare (kind : JoinKind) {ref : TableRef} (href : ref.Closed) :
    (bare kind ref).Closed :=
  ⟨href.table, href.aliasName, Scan.closed_nil⟩

theorem Join.closed_ofText (kind : JoinKind) {text : List Char} (h : Scan.Closed text) :
    (ofText kind text).Closed := by
  have hword : Keyword.on.WellFormed := by decide
  have hsides := Scan.closed_splitAtKeyword hword h
  have hbare := closed_bare kind (TableRef.closed_ofText hsides.1)
  unfold ofText
  simp only
  split
  · next condition hright =>
      refine ⟨hbare.table, hbare.aliasName, ?_⟩
      simpa using closed_splitRowLimit (hsides.2 _ hright)
  · exact hbare

namespace Query

/-- All texts that a query keeps of its tables and clauses are closed. -/
structure ClausesClosed (q : Query) : Prop where
  source : q.source.Closed
  mainAlias : Closed q.mainAlias.toList
  joins : ∀ e ∈ q.joins.entries, e.2.Closed
  conditions : ∀ c ∈ q.conditions, Closed c.toList
  groupBy : ∀ part ∈ q.groupBy, Closed part.toList
  orderBy : ∀ part ∈ q.orderBy, Closed part.toList
  orderFields : ∀ f ∈ q.orderFields, Closed f.field.toList

namespace ClausesClosed

variable {q : Query}

theorem addJoin (hq : q.ClausesClosed) {join : Join} (hjoin : join.Closed) :
    (q.addJoin join).ClausesClosed := by
  refine { hq with joins := ?_ }
  intro e he
  rcases OrderedMap.mem_entries_insert he with he | rfl
  · exact hq.joins e he
  · exact hjoin

theorem addCondition (hq : q.ClausesClosed) {text : List Char} (htext : Closed text) :
    (q.addCondition (String.ofList text)).ClausesClosed := by
  unfold Query.addCondition
  simp only
  split
  · exact hq
  · refine { hq with conditions := ?_ }
    intro c hc
    rcases List.mem_append.1 hc with hc | hc
    · exact hq.conditions c hc
    · rw [List.mem_singleton] at hc
      rw [hc, Text.trim, String.toList_ofList, String.toList_ofList, Scan.closed_trim_iff]
      exact htext

/-- Every clause of a closed text keeps closed texts. -/
theorem addClause {q' : Query} (hq : q.ClausesClosed) {segment : Segment}
    (hsegment : Closed segment.text) (h : addClause q segment = .ok q') : q'.ClausesClosed := by
  have hpart : ∀ part ∈ Scan.splitTopLevel ',' segment.text, Closed part :=
    fun part => Scan.closed_of_mem_splitTopLevel (by decide) hsegment
  -- What is added to the grouping and to the order are the parts of the clause.
  have htexts : ∀ part ∈ (Scan.splitTopLevel ',' segment.text).map String.ofList,
      Closed part.toList :=
    List.forall_mem_map.2 fun chars hchars => by simpa using hpart chars hchars
  have hfields : ∀ f ∈ (Scan.splitTopLevel ',' segment.text).map OrderField.ofText,
      Closed f.field.toList :=
    List.forall_mem_map.2 fun chars hchars => OrderField.closed_ofText (hpart chars hchars)
  rcases segment with ⟨clause, text⟩
  cases clause with
  | source =>
      cases h
      exact hq
  | join kind =>
      cases h
      exact hq.addJoin (Join.closed_ofText kind hsegment)
  | condition =>
      simp only [Query.addClause, Except.ok.injEq] at h
      rw [← h]
      exact hq.addCondition hsegment
  | groupBy =>
      cases h
      exact { hq with groupBy := List.forall_mem_append.2 ⟨hq.groupBy, htexts⟩ }
  | orderBy =>
      cases h
      exact { hq with
        orderBy := List.forall_mem_append.2 ⟨hq.orderBy, htexts⟩
        orderFields := List.forall_mem_append.2 ⟨hq.orderFields, hfields⟩ }
  | limit =>
      rcases bind_eq_ok.1 h with ⟨counts, _, h⟩
      cases h
      exact { hq with }
  | offset =>
      rcases bind_eq_ok.1 h with ⟨count, _, h⟩
      cases h
      exact { hq with }

end ClausesClosed

theorem closed_ofTables {text : List Char} (h : Closed text) {q : Query}
    (hq : ofTables text = .ok q) : q.ClausesClosed := by
  have hrefs : ∀ ref ∈ (Scan.splitTopLevel ',' text).map TableRef.ofText, ref.Closed := by
    intro ref href
    rcases List.mem_map.1 href with ⟨part, hpart, rfl⟩
    exact TableRef.closed_ofText (Scan.closed_of_mem_splitTopLevel (by decide) h hpart)
  unfold ofTables at hq
  split at hq
  · cases hq
  · next main others hmap =>
      rw [hmap] at hrefs
      cases hq
      have hmain := hrefs main (by simp)
      refine List.foldlRecOn (motive := ClausesClosed) others _ ?_ fun q hq ref href => ?_
      · refine ⟨hmain, hmain.aliasName, ?_, ?_, ?_, ?_, ?_⟩ <;> simp [setMainTable]
      · exact hq.addJoin (Join.closed_bare .inner (hrefs ref (by simp [href])))

/-- Tables and clauses behind FROM, without the SELECT list. -/
def readClauses (text : List Char) : Except QueryError Query :=
  ofTables (tablesText (Segment.ofText text)) >>= (Segment.ofText text).foldlM addClause

theorem closed_readClauses {text : List Char} (h : Closed text) {q : Query}
    (hq : readClauses text = .ok q) : q.ClausesClosed := by
  have hsegments := Segment.closed_ofText h
  have htables : Closed (tablesText (Segment.ofText text)) := by
    unfold tablesText
    cases hfind : (Segment.ofText text).find? (·.clause == .source) with
    | none => exact Scan.closed_nil
    | some segment => exact hsegments segment (List.mem_of_find?_eq_some hfind)
  rcases bind_eq_ok.1 hq with ⟨q₀, hq₀, hclauses⟩
  exact foldlM_addClause (fun segment hsegment _ _ hq hone =>
    hq.addClause (hsegments segment hsegment) hone) (closed_ofTables htables hq₀) hclauses

/-! ## Statements -/

theorem parse_eq (schema : Schema) {text : String} {list rest : List Char}
    (h : splitStatement text.toList = .ok (list, rest)) :
    parse schema text = readClauses rest >>= fun q =>
      match SelectList.parse schema list q with
      | (q, .ok ()) => .ok q
      | (_, .error e) => .error e := by
  unfold parse readClauses
  rw [h]
  simp only [bind_assoc]
  rfl

theorem entriesClosed_of_readClauses (schema : Schema) {text : List Char} {q : Query}
    (h : readClauses text = .ok q) : q.EntriesClosed schema := by
  rcases bind_eq_ok.1 h with ⟨q₀, hq₀, hclauses⟩
  have hrecords := listRecords_of_clauses hq₀ hclauses
  have hselect : q.select = [] := congrArg (fun r => r.2.1) hrecords
  have haliases : q.aliasExpressions.entries = [] :=
    congrArg (fun r => r.2.2.2.2.2.1.entries) hrecords
  refine ⟨?_, ?_, ?_⟩
  · simp [hselect]
  · simp [hselect]
  · simp [haliases]

theorem entriesClosed_of_parse {schema : Schema} {text : String} {q : Query}
    (h : parse schema text = .ok q) : q.EntriesClosed schema := by
  rcases parse_eq_ok_iff.1 h with ⟨list, rest, q₀, q₁, _, htables, hclauses, hlist⟩
  have hread : readClauses rest = .ok q₁ := bind_eq_ok.2 ⟨q₀, htables, hclauses⟩
  exact (SelectList.closed_of_parse hlist (entriesClosed_of_readClauses schema hread)).2

theorem ClausesClosed.congr {q q' : Query} (hq : q.ClausesClosed)
    (h : q'.withoutList = q.withoutList) : q'.ClausesClosed := by
  have hkept : ∀ {α : Type} (f : Query → α), (∀ q : Query, f q.withoutList = f q) → f q' = f q := by
    intro α f hf
    rw [← hf q', h, hf]
  have hsource := hkept Query.source fun _ => rfl
  have hmain := hkept Query.mainAlias fun _ => rfl
  have hjoins := hkept Query.joins fun _ => rfl
  have hconditions := hkept Query.conditions fun _ => rfl
  have hgroup := hkept Query.groupBy fun _ => rfl
  have horder := hkept Query.orderBy fun _ => rfl
  have hfields := hkept Query.orderFields fun _ => rfl
  constructor
  case source => exact hsource ▸ hq.source
  case mainAlias => exact hmain ▸ hq.mainAlias
  case joins => exact hjoins ▸ hq.joins
  case conditions => exact hconditions ▸ hq.conditions
  case groupBy => exact hgroup ▸ hq.groupBy
  case orderBy => exact horder ▸ hq.orderBy
  case orderFields => exact hfields ▸ hq.orderFields

/-- A statement that is accepted has a closed SELECT list, and closed clauses if the text behind
FROM is closed.  A list that is not closed is the reason to refuse a statement whose clauses can be
read. -/
theorem parse_closed (schema : Schema) {text : String} {list rest : List Char}
    (hsplit : splitStatement text.toList = .ok (list, rest)) :
    (∀ q, parse schema text = .ok q →
      Closed list ∧ q.EntriesClosed schema ∧ (Closed rest → q.ClausesClosed)) ∧
    (¬ Closed list → ∀ q₁, readClauses rest = .ok q₁ →
      ∃ position, parse schema text = .error (.unterminatedLiteral position) ∨
        parse schema text = .error (.unbalancedParentheses position)) := by
  rw [parse_eq schema hsplit]
  constructor
  · intro q hq
    rcases bind_eq_ok.1 hq with ⟨q₁, hq₁, hq⟩
    cases hlist : SelectList.parse schema list q₁ with
    | mk q₂ outcome =>
        rw [hlist] at hq
        cases outcome with
        | error e => cases hq
        | ok _ =>
            cases hq
            -- The list is closed because it was split; the clauses are read from the rest alone.
            have hentries := SelectList.closed_of_parse hlist (entriesClosed_of_readClauses schema hq₁)
            refine ⟨hentries.1, hentries.2, fun hrest => ?_⟩
            exact (closed_readClauses hrest hq₁).congr (withoutList_parse hlist)
  · intro hopen q₁ hq₁
    rcases SelectList.parse_of_not_closed hopen schema q₁ with ⟨q₂, position, herror⟩
    refine ⟨position, ?_⟩
    rw [hq₁]
    rcases herror with herror | herror
    · left
      simp only [bind, Except.bind, herror]
    · right
      simp only [bind, Except.bind, herror]

/-- A listing with a closed condition keeps closed texts, and a call that is left open is refused. -/
theorem parse_closed_titles :
    (∃ q, parse .empty "SELECT title FROM pages WHERE title = 'x'" = .ok q ∧
      q.EntriesClosed .empty ∧ q.ClausesClosed) ∧
    ∃ position, parse .empty "SELECT COUNT(title FROM pages" = .error (.unterminatedLiteral position) ∨
      parse .empty "SELECT COUNT(title FROM pages" = .error (.unbalancedParentheses position) := by
  have hsplit : splitStatement "SELECT title FROM pages WHERE title = 'x'".toList =
      .ok (" title ".toList, " pages WHERE title = 'x'".toList) := by decide +kernel
  have hsplitOpen : splitStatement "SELECT COUNT(title FROM pages".toList =
      .ok (" COUNT(title ".toList, " pages".toList) := by decide +kernel
  have hclosed := parse_closed .empty hsplit
  have hopen := parse_closed .empty hsplitOpen
  refine ⟨?_, hopen.2 (by decide) _ (by decide +kernel : readClauses " pages".toList =
    .ok (setMainTable {} ⟨"pages", "pages"⟩))⟩
  have hparse : parse .empty "SELECT title FROM pages WHERE title = 'x'" =
      .ok { select := [⟨"pages", "pages", "title", none, false⟩]
            source := ⟨"pages", "pages"⟩
            conditions := ["title = 'x'"]
            mainAlias := "pages"
            tableOfAlias := .ofList [("pages", "pages")]
            baseFields := .ofList [("pages", { uid := false, pid := false })] } := by
    decide +kernel
  have h := hclosed.1 _ hparse
  exact ⟨_, hparse, h.2.1, h.2.2 (by decide)⟩

/-- The text behind FROM is not looked at: a literal in a condition may stay open. -/
theorem openCondition_accepted :
    parse .empty "SELECT title FROM pages WHERE title = 'x" =
        .ok { select := [⟨"pages", "pages", "title", none, false⟩]
              source := ⟨"pages", "pages"⟩
              conditions := ["title = 'x"]
              mainAlias := "pages"
              tableOfAlias := .ofList [("pages", "pages")]
              baseFields := .ofList [("pages", { uid := false, pid := false })] } ∧
      ¬ Closed "title = 'x".toList := by
  decide +kernel

end Query
end ContentQuery
