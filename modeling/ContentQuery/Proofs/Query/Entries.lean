import ContentQuery.Proofs.Query.Bookkeeping
import ContentQuery.Proofs.Scan.Cuts

/-!
# Closed SELECT lists

A SELECT list is read only if it is closed, and then all that is kept of it is closed: the
expression of each entry and the text behind each alias.  A column without a table in front of it
gets the main alias there, so what is said about it depends on that alias, and the columns of a
wildcard are those of the schema.
-/

namespace ContentQuery

namespace Chars

theorem append_of_splitOnce? {sep : Char} {s a b : List Char} (h : splitOnce? sep s = some (a, b)) :
    s = a ++ sep :: b := by
  induction s generalizing a b with
  | nil => simp [splitOnce?] at h
  | cons c cs ih =>
      rw [splitOnce?] at h
      split at h
      · next hc =>
          cases h
          rw [hc]
          rfl
      · rcases Option.map_eq_some_iff.1 h with ⟨parts, hparts, heq⟩
        cases heq
        rw [List.cons_append, ← ih hparts]

theorem append_of_stripTrailing? {tail s r : List Char} (h : stripTrailing? tail s = some r) :
    s = r ++ tail := by
  rcases Option.map_eq_some_iff.1 h with ⟨front, hfront, rfl⟩
  have hreverse := congrArg List.reverse (append_of_stripLeading? hfront)
  simpa using hreverse

end Chars

open Scan (Closed Starts Stops Ordinary isOrdinary isInert)

/-! ## Entries as they are written -/

/-- The texts of an entry are closed. -/
structure FieldSpec.Closed (spec : FieldSpec) : Prop where
  expression : Scan.Closed spec.expression.toList
  aliasName : ∀ a ∈ spec.aliasName, Scan.Closed a.toList

namespace SelectList

variable {text : List Char}

/-- The piece and the AS in it stand where pieces may start and end. -/
structure Piece.Placed (text : List Char) (p : Piece) : Prop where
  start : Starts text p.start
  aliasWord : ∀ word ∈ p.aliasWord, Stops text word.1 ∧ Starts text word.2

theorem Piece.Placed.closed_spec {p : Piece} (hp : p.Placed text) {stop : Nat}
    (hstop : Stops text stop) : (p.spec text stop).Closed := by
  unfold Piece.spec
  cases hword : p.aliasWord with
  | none =>
      refine ⟨?_, by simp⟩
      simp only [Option.map_none, Option.getD_none, String.toList_ofList]
      exact Scan.closed_trim_iff.2 (Scan.closed_slice hp.start hstop)
  | some word =>
      have hcut := hp.aliasWord word hword
      refine ⟨?_, ?_⟩
      · simp only [Option.map_some, Option.getD_some, String.toList_ofList]
        exact Scan.closed_trim_iff.2 (Scan.closed_slice hp.start hcut.1)
      · intro a ha
        simp only [Option.mem_def] at ha
        split at ha
        · simp at ha
        · cases ha
          rw [String.toList_ofList]
          exact Scan.closed_trim_iff.2 (Scan.closed_slice hcut.2 hstop)

theorem wellFormed_as : Keyword.as.WellFormed := by
  decide

/-- The letters of a keyword that are left to skip stand in plain text and are ordinary. -/
structure Passing (skip : Nat) (s : Scan) (cs : List Char) : Prop where
  plain : skip ≠ 0 → s.mode = .plain
  ordinary : Ordinary (cs.take skip)

theorem passing_zero (s : Scan) (cs : List Char) : Passing 0 s cs :=
  ⟨fun h => absurd rfl h, by simp⟩

/-- The first letter of a keyword is passed, and the others are left to skip. -/
theorem Passing.next {skip : Nat} {s : Scan} {c : Char} {cs : List Char}
    (houtside : s.isOutside c = true)
    (hordinary : Ordinary ((c :: cs).take (skip + 1))) :
    s.step c = s.pass c ∧ Passing skip (s.step c) cs := by
  have hc := hordinary c (by simp)
  refine ⟨Scan.step_of_isOrdinary hc houtside, ?_, fun d hd => hordinary d (by simp [hd])⟩
  exact fun _ => Scan.mode_step_of_isOrdinary hc houtside

theorem Passing.tail {skip : Nat} {s : Scan} {c : Char} {cs : List Char}
    (h : Passing (skip + 1) s (c :: cs)) : s.step c = s.pass c ∧ Passing skip (s.step c) cs :=
  Passing.next (Scan.isOutside_of_plain (h.plain (by simp)) c) h.ordinary

/-- How a piece goes on behind a character: as it was, or with an AS that was found there. -/
def Piece.GoesOn (p p' : Piece) (s : Scan) (cs : List Char) : Prop :=
  p'.start = p.start ∧
    (p'.aliasWord = p.aliasWord ∨
      ∃ n, p'.aliasWord = some (s.position, s.position + (n + 1)) ∧ n + 1 ≤ cs.length ∧
        Ordinary (cs.take (n + 1)) ∧
        ∀ c ∈ cs.head?, s.isTopLevel c = true)

/-- What one character does: it goes on with the piece, or it is a comma that ends the piece. -/
theorem specsFrom_cons {skip : Nat} {s : Scan} {c : Char} {cs : List Char}
    (h : Passing skip s (c :: cs)) (text : List Char) (p : Piece) :
    (∃ skip' p', Passing skip' (s.step c) cs ∧ p.GoesOn p' s (c :: cs) ∧
        specsFrom text skip p s (c :: cs) = specsFrom text skip' p' (s.step c) cs) ∨
      (isOrdinary c = true ∧ s.isTopLevel c = true ∧
        specsFrom text skip p s (c :: cs) =
          (p.spec text s.position ::
              (specsFrom text 0 { start := s.position + 1 } (s.step c) cs).1,
            (specsFrom text 0 { start := s.position + 1 } (s.step c) cs).2)) := by
  cases skip with
  | succ skip =>
      obtain ⟨hpass, hnext⟩ := h.tail
      refine .inl ⟨skip, p, hnext, ⟨rfl, .inl rfl⟩, ?_⟩
      rw [specsFrom, ← hpass]
  | zero =>
      rw [specsFrom]
      split
      · next hcut =>
          rcases hcut with ⟨rfl, htop⟩
          have houtside := (Bool.and_eq_true_iff.1 htop).2
          refine .inr ⟨by decide, htop, ?_⟩
          rw [← Scan.step_of_isOrdinary (by decide) houtside]
      · split
        · next length hfound =>
            split at hfound
            · next htop =>
                have houtside := (Bool.and_eq_true_iff.1 htop).2
                rcases wellFormed_as.ordinary_of_length? hfound with ⟨m, _, hle, hordinary⟩
                obtain ⟨hpass, hnext⟩ := Passing.next houtside hordinary
                refine .inl ⟨length,
                  { p with aliasWord := some (s.position, s.position + (length + 1)) },
                  hnext, ⟨rfl, .inr ⟨length, rfl, ?_⟩⟩, ?_⟩
                · exact ⟨hle, hordinary, by simpa using htop⟩
                · rw [← hpass]
            · cases hfound
        · -- Marks of a piece do not move it.
          refine .inl ⟨0, p.see s c, passing_zero _ _, ?_, rfl⟩
          unfold Piece.see
          split
          · exact ⟨rfl, .inl rfl⟩
          · split <;> exact ⟨rfl, .inl rfl⟩

/-- Looking for the entries leaves the scan where reading leaves it. -/
theorem snd_specsFrom (text : List Char) {cs : List Char} {skip : Nat} {s : Scan}
    (h : Passing skip s cs) (p : Piece) : (specsFrom text skip p s cs).2 = s.read cs := by
  induction cs generalizing skip s p with
  | nil => cases skip <;> rfl
  | cons c cs ih =>
      rcases specsFrom_cons h text p with ⟨skip', p', hpassing, _, hspecs⟩ | ⟨_, _, hspecs⟩
      · rw [hspecs]
        exact ih hpassing p'
      · rw [hspecs]
        exact ih (passing_zero _ _) _

theorem position_read_start (before : List Char) :
    (({} : Scan).read before).position = before.length := by
  rw [Scan.position_read]
  simp

/-- Going on keeps a piece at places where pieces may start and end. -/
theorem Piece.Placed.goesOn {p p' : Piece} (hp : p.Placed text) (hclosed : Closed text)
    {before cs : List Char} (htext : text = before ++ cs)
    (h : p.GoesOn p' (({} : Scan).read before) cs) : p'.Placed text := by
  rcases h with ⟨hstart, hword⟩
  refine ⟨hstart ▸ hp.start, ?_⟩
  rcases hword with hsame | ⟨n, hfound, hle, hordinary, htop⟩
  · rw [hsame]
    exact hp.aliasWord
  · cases cs with
    | nil => simp at hle
    | cons c cs =>
        -- A keyword is found on top of the list only, and there a closed text is settled.
        have hbefore := Scan.isTopLevel_iff.1 (htop c rfl)
        have hsettled := Closed.settled_before (htext ▸ hclosed) hbefore.2 hbefore.1
        rw [hfound, position_read_start]
        rintro word hword
        cases hword
        exact ⟨Scan.stops_of_settled htext hsettled,
          Scan.starts_of_keyword hsettled htext hle hordinary⟩

/-- All entries of a closed text are closed. -/
theorem closed_specsFrom (hclosed : Closed text) {cs : List Char} {skip : Nat}
    {before : List Char} (htext : text = before ++ cs)
    (h : Passing skip (({} : Scan).read before) cs) {p : Piece} (hp : p.Placed text) :
    ∀ spec ∈ (specsFrom text skip p (({} : Scan).read before) cs).1, spec.Closed := by
  induction cs generalizing skip before p with
  | nil =>
      have hspecs : (specsFrom text skip p (({} : Scan).read before) []).1 =
          [p.spec text text.length] := by
        rw [htext, List.append_nil, ← position_read_start]
        cases skip <;> rfl
      intro spec hspec
      rw [hspecs, List.mem_singleton] at hspec
      rw [hspec]
      exact hp.closed_spec hclosed.stops
  | cons c cs ih =>
      have htext' : text = (before ++ [c]) ++ cs := by simp [htext]
      have hread : (({} : Scan).read before).step c = ({} : Scan).read (before ++ [c]) := by
        rw [Scan.read_append]
        rfl
      rcases specsFrom_cons h text p with ⟨skip', p', hpassing, hp', hspecs⟩ | ⟨hc, htop, hspecs⟩
      · rw [hread] at hpassing hspecs
        rw [hspecs]
        exact ih htext' hpassing (hp.goesOn hclosed htext hp')
      · -- The entry ends here, and the next one starts behind the comma.
        rw [Scan.isTopLevel_iff] at htop
        have hsettled := Closed.settled_before (htext ▸ hclosed) htop.2 htop.1
        have hnext : Starts text (before.length + 1) :=
          Scan.starts_of_keyword (n := 0) hsettled htext (by simp) (by simpa using hc)
        intro spec hspec
        rw [hspecs, position_read_start, hread, List.mem_cons] at hspec
        rcases hspec with rfl | hspec
        · exact hp.closed_spec (Scan.stops_of_settled htext hsettled)
        · exact ih htext' (passing_zero _ _) ⟨hnext, by simp⟩ spec hspec

/-- A list is cut into its entries unless something is open or astray at its end. -/
theorem split_eq (text : List Char) :
    split text =
      if (({} : Scan).read text).openQuote?.isSome then
        .error (.unterminatedLiteral (({} : Scan).read text).quoteStart)
      else match (({} : Scan).read text).strayClose with
        | some position => .error (.unbalancedParentheses position)
        | none =>
            if 0 < (({} : Scan).read text).depth then .error (.unbalancedParentheses text.length)
            else .ok ((specsFrom text 0 { start := 0 } {} text).1.filter fun spec =>
              !spec.expression.isEmpty) := by
  rw [← snd_specsFrom (p := { start := 0 }) text (passing_zero {} text)]
  rfl

theorem split_eq_of_closed (h : Closed text) :
    split text = .ok ((specsFrom text 0 { start := 0 } {} text).1.filter fun spec =>
      !spec.expression.isEmpty) := by
  have hsettled := Scan.closed_iff_settled.1 h
  rw [split_eq, hsettled.outside, hsettled.stray, hsettled.depth_eq]
  rfl

/-- Entries are given exactly for a closed text. -/
theorem split_of_closed (h : Closed text) :
    ∃ specs, split text = .ok specs ∧ ∀ spec ∈ specs, spec.Closed := by
  refine ⟨_, split_eq_of_closed h, fun spec hspec => ?_⟩
  have hstart : Piece.Placed text { start := 0 } := ⟨Scan.starts_zero text, by simp⟩
  have htext : text = [] ++ text := rfl
  exact closed_specsFrom h htext (passing_zero _ _) hstart spec (List.mem_filter.1 hspec).1

/-- For any other text the reason is a literal or a parenthesis. -/
theorem split_of_not_closed (h : ¬ Closed text) :
    ∃ position, split text = .error (.unterminatedLiteral position) ∨
      split text = .error (.unbalancedParentheses position) := by
  rw [split_eq]
  split
  · exact ⟨_, .inl rfl⟩
  · next houtside =>
      split
      · exact ⟨_, .inr rfl⟩
      · next hstray =>
          split
          · exact ⟨_, .inr rfl⟩
          · next hdepth =>
              exact absurd ⟨by simpa using houtside, by omega, hstray⟩ h

theorem closed_of_split {specs : List FieldSpec} (h : split text = .ok specs) :
    Closed text ∧ ∀ spec ∈ specs, spec.Closed := by
  by_cases hclosed : Closed text
  · rcases split_of_closed hclosed with ⟨specs', hspecs', hall⟩
    rw [h, Except.ok.injEq] at hspecs'
    subst hspecs'
    exact ⟨hclosed, hall⟩
  · rcases split_of_not_closed hclosed with ⟨position, herror | herror⟩
    · rw [h] at herror
      cases herror
    · rw [h] at herror
      cases herror

/-- DISTINCT and blanks around it are ordinary. -/
theorem closed_splitDistinct : Closed (splitDistinct text).2 ↔ Closed text := by
  unfold splitDistinct
  simp only
  split
  · next length hlength =>
      rw [Keyword.lengthAt?, List.drop_zero] at hlength
      cases htrim : Chars.trim text with
      | nil =>
          rw [List.drop_nil, ← htrim, Scan.closed_trim_iff, Scan.closed_trim_iff]
      | cons c cs =>
          -- Cutting the ordinary word off the front neither opens nor closes anything.
          have hformed : Keyword.distinct.WellFormed := by decide
          rw [htrim] at hlength
          rcases hformed.ordinary_of_length? hlength with ⟨_, _, _, hordinary⟩
          rw [Scan.closed_trim_iff, ← Scan.closed_prepend_iff hordinary, List.take_append_drop, ← htrim,
            Scan.closed_trim_iff]
  · exact Scan.closed_trim_iff

/-! ## Fields -/

/-- Blanks around a dot do not matter. -/
theorem closed_dot {a b : List Char} (h : Closed (a ++ '.' :: b)) :
    Closed (Chars.trim a ++ '.' :: Chars.trim b) := by
  rcases Chars.exists_blanks a with ⟨u, v, hu, hv, ha⟩
  rcases Chars.exists_blanks b with ⟨u', v', hu', hv', hb⟩
  -- Between the trimmed sides stand the dot and blanks, which are inert.
  have htext : a ++ '.' :: b =
      u ++ (Chars.trim a ++ ((v ++ '.' :: u') ++ (Chars.trim b ++ v'))) := by
    conv => lhs; rw [ha, hb]
    simp
  have hmiddle : ∀ c ∈ v ++ '.' :: u', isInert c = true := by
    intro c hc
    rcases List.mem_append.1 hc with hc | hc
    · exact Scan.isInert_of_isBlank (hv c hc)
    · rcases List.mem_cons.1 hc with rfl | hc
      · decide
      · exact Scan.isInert_of_isBlank (hu' c hc)
  have hfront : Ordinary u := fun c hc => Scan.isOrdinary_of_isBlank (hu c hc)
  have hback : Ordinary v' := fun c hc => Scan.isOrdinary_of_isBlank (hv' c hc)
  rw [htext, Scan.closed_prepend_iff hfront] at h
  have hdot : Closed (Chars.trim a ++ (['.'] ++ (Chars.trim b ++ v'))) :=
    h.replace_inert hmiddle (by simp) (by decide) (by simp)
  rw [← List.append_assoc, ← List.append_assoc, Scan.closed_append_iff hback] at hdot
  simpa using hdot

theorem closed_qualified {a b : String} (ha : Closed a.toList) (hb : Closed b.toList) :
    Closed (a ++ "." ++ b).toList := by
  have hdot : Scan.Neutral (['.'] ++ b.toList) := hb.neutral_append (by decide) (by simp)
  simpa using ha.append hdot

variable {q : Query}

/-- An entry without a wildcard is closed as a call, and as a column if the main alias is. -/
theorem closed_fieldOf (q : Query) (calls : Nat) {spec : FieldSpec} (hspec : spec.Closed) :
    ((fieldOf q calls spec).isCall = true → Closed (fieldOf q calls spec).field.toList) ∧
      (Closed q.mainAlias.toList → Closed (fieldOf q calls spec).expression.toList) := by
  unfold fieldOf
  split
  · exact ⟨fun _ => hspec.expression, fun _ => hspec.expression⟩
  · split
    · next aliasName column hdot =>
        refine ⟨by simp, fun _ => ?_⟩
        rcases Option.map_eq_some_iff.1 hdot with ⟨⟨a, b⟩, hparts, heq⟩
        cases heq
        have hexpression := hspec.expression
        rw [Chars.append_of_splitOnce? hparts] at hexpression
        simpa [SelectField.expression, Text.trim] using closed_dot hexpression
    · refine ⟨by simp, fun hmain => ?_⟩
      exact closed_qualified hmain hspec.expression

/-- The mark of a fulltext entry is inert, and so is what replaces it. -/
theorem closed_registerFulltext (q : Query) {f : SelectField} (hcall : f.isCall = false)
    (hf : Closed f.expression.toList) : Closed (registerFulltext q f).2.expression.toList := by
  unfold registerFulltext
  split
  · next index hindex =>
      rcases Option.map_eq_some_iff.1 hindex with ⟨rest, hrest, rfl⟩
      rcases List.exists_of_findSome?_eq_some hrest with ⟨mark, hmark, hstrip⟩
      rcases Option.map_eq_some_iff.1 hstrip with ⟨r, hr, rfl⟩
      have hfield := Chars.append_of_stripLeading? hr
      have hinert : (∀ c ∈ mark.toList, isInert c = true) ∧ mark.toList ≠ [] := by
        simp only [fulltextMarks, List.mem_cons, List.not_mem_nil, or_false] at hmark
        rcases hmark with rfl | rfl <;> decide
      rcases Chars.exists_blanks r with ⟨u, v, hu, hv, hblanks⟩
      -- The mark and the blanks behind it are inert, so another inert text may take their place.
      have hexpression : f.expression.toList =
          (f.tableAlias.toList ++ ['.']) ++ ((mark.toList ++ u) ++ (Chars.trim r ++ v)) := by
        rw [SelectField.expression, if_neg (by simp [hcall])]
        conv => lhs; rw [String.toList_append, String.toList_append, hfield, hblanks]
        simp
      have hmarked : ∀ c ∈ mark.toList ++ u, isInert c = true := by
        intro c hc
        rcases List.mem_append.1 hc with hc | hc
        · exact hinert.1 c hc
        · exact Scan.isInert_of_isBlank (hu c hc)
      rw [hexpression] at hf
      have hplaced := hf.replace_inert (w := "fulltext.".toList) hmarked (by simp [hinert.2])
        (by decide) (by decide)
      have hback : Ordinary v := fun c hc => Scan.isOrdinary_of_isBlank (hv c hc)
      rw [← List.append_assoc, ← List.append_assoc, Scan.closed_append_iff hback] at hplaced
      simpa [SelectField.expression, hcall, Text.trim] using hplaced
  · exact hf

end SelectList

/-! ## Selected fields -/

/-- What a query keeps of its SELECT list is closed: calls in any case, columns if the main alias
and the columns of the schema are. -/
structure Query.EntriesClosed (schema : Schema) (q : Query) : Prop where
  calls : ∀ f ∈ q.select, f.isCall = true → Closed f.field.toList
  fields : Closed q.mainAlias.toList → (∀ table, ∀ c ∈ schema.columns table, Closed c.toList) →
    ∀ f ∈ q.select, Closed f.expression.toList
  aliases : Closed q.mainAlias.toList →
    ∀ e ∈ q.aliasExpressions.entries, Closed e.2.toList

namespace SelectList

variable {text : List Char} {schema : Schema} {q : Query}

theorem closed_addField {f : SelectField} (hq : q.EntriesClosed schema)
    (hcall : f.isCall = true → Closed f.field.toList)
    (hf : Closed q.mainAlias.toList → Closed f.expression.toList) :
    (addField q f).EntriesClosed schema := by
  have hselect := Query.select_addField q f
  have hmain : (addField q f).mainAlias = q.mainAlias := by rw [Query.addField_eq]
  refine ⟨?_, ?_, ?_⟩
  · intro g hg
    rw [hselect, List.mem_append, List.mem_singleton] at hg
    rcases hg with hg | rfl
    · exact hq.calls g hg
    · exact hcall
  · intro halias hcolumns g hg
    rw [hmain] at halias
    rw [hselect, List.mem_append, List.mem_singleton] at hg
    rcases hg with hg | rfl
    · exact hq.fields halias hcolumns g hg
    · exact hf halias
  · intro halias e he
    rw [hmain] at halias
    -- An entry with an alias records its expression, any other one records none.
    rw [Query.aliasExpressions_addField] at he
    cases haliased : f.aliasName with
    | none =>
        rw [haliased] at he
        exact hq.aliases halias e he
    | some name =>
        rw [haliased] at he
        rcases OrderedMap.mem_entries_insert he with he | rfl
        · exact hq.aliases halias e he
        · exact hf halias

/-- A column of the schema, under an alias that is closed if that of the main table is. -/
theorem closed_addColumn (hq : q.EntriesClosed schema) {table aliasName column : String}
    (halias : Closed q.mainAlias.toList → Closed aliasName.toList)
    (hcolumn : column ∈ schema.columns table) :
    (Query.addColumn table aliasName q column).EntriesClosed schema := by
  refine ⟨?_, ?_, hq.aliases⟩
  · intro f hf hcall
    rcases List.mem_append.1 hf with hf | hf
    · exact hq.calls f hf hcall
    · rw [List.mem_singleton] at hf
      subst hf
      cases hcall
  · intro hmain hall f hf
    rcases List.mem_append.1 hf with hf | hf
    · exact hq.fields hmain hall f hf
    · rw [List.mem_singleton] at hf
      subst hf
      exact closed_qualified (halias hmain) (hall table column hcolumn)

theorem closed_expandWildcard (hq : q.EntriesClosed schema) {expression : String}
    (h : Closed expression.toList) : (expandWildcard schema q expression).EntriesClosed schema := by
  -- The columns come one by one, under an alias that does not change on the way.
  have hcolumns : ∀ (table aliasName : String),
      (Closed q.mainAlias.toList → Closed aliasName.toList) → ∀ q' : Query,
        q'.mainAlias = q.mainAlias ∧ q'.EntriesClosed schema →
          ((schema.columns table).foldl (Query.addColumn table aliasName) q').EntriesClosed
            schema := by
    intro table aliasName halias q' hq'
    refine (List.foldlRecOn (motive := fun q' : Query => q'.mainAlias = q.mainAlias ∧
      q'.EntriesClosed schema) _ _ hq' fun q' hq' column hcolumn => ?_).2
    exact ⟨hq'.1, closed_addColumn hq'.2 (hq'.1 ▸ halias) hcolumn⟩
  unfold expandWildcard
  refine hcolumns _ _ ?_ _ ⟨rfl, hq.calls, hq.fields, hq.aliases⟩
  intro hmain
  split
  · next r hr =>
      rcases Option.map_eq_some_iff.1 hr with ⟨front, hfront, rfl⟩
      rw [Chars.append_of_stripTrailing? hfront, Scan.closed_append_iff (by decide)] at h
      simpa [Text.trim, Scan.closed_trim_iff] using h
  · exact hmain

theorem closed_resolve {state : Nat × Query} (hq : state.2.EntriesClosed schema)
    {spec : FieldSpec} (hspec : spec.Closed) :
    (resolve schema state spec).2.EntriesClosed schema := by
  rcases state with ⟨calls, q⟩
  unfold resolve
  simp only
  split
  · exact closed_expandWildcard hq hspec.expression
  · generalize (if spec.isCall = true then calls + 1 else calls) = count
    have hfield := closed_fieldOf q count hspec
    generalize fieldOf q count spec = f at hfield ⊢
    cases hcall : f.isCall with
    | true =>
        simp only [if_true]
        exact closed_addField hq hfield.1 hfield.2
    | false =>
        simp only [Bool.false_eq_true, if_false]
        -- A fulltext entry also registers a placeholder, which is no part of the list.
        have hregistered : (registerFulltext q f).1.EntriesClosed schema ∧
            (registerFulltext q f).1.mainAlias = q.mainAlias := by
          unfold registerFulltext
          split
          · exact ⟨⟨hq.calls, hq.fields, hq.aliases⟩, rfl⟩
          · exact ⟨hq, rfl⟩
        refine closed_addField hregistered.1 ?_ fun hmain => ?_
        · rw [Query.isCall_registerFulltext, hcall]
          exact fun h => by cases h
        · rw [hregistered.2] at hmain
          exact closed_registerFulltext q hcall (hfield.2 hmain)

/-- A list that was read is closed, and the query keeps closed texts of it. -/
theorem closed_of_parse {q' : Query} (h : parse schema text q = (q', .ok ()))
    (hq : q.EntriesClosed schema) : Closed text ∧ q'.EntriesClosed schema := by
  unfold parse at h
  simp only at h
  split at h
  · simp at h
  · split at h
    · next specs hsplit =>
        cases h
        rcases closed_of_split hsplit with ⟨hclosed, hall⟩
        refine ⟨closed_splitDistinct.1 hclosed, ?_⟩
        exact List.foldlRecOn (motive := fun state : Nat × Query => state.2.EntriesClosed schema)
          _ _ ⟨hq.calls, hq.fields, hq.aliases⟩ fun state hstate spec hspec =>
            closed_resolve hstate (hall spec hspec)
    · simp at h

/-- A list that is not closed is refused for a literal or a parenthesis. -/
theorem parse_of_not_closed (h : ¬ Closed text) (schema : Schema) (q : Query) :
    ∃ q' position, parse schema text q = (q', .error (.unterminatedLiteral position)) ∨
      parse schema text q = (q', .error (.unbalancedParentheses position)) := by
  have hlist : ¬ Closed (splitDistinct text).2 := fun hclosed => h (closed_splitDistinct.1 hclosed)
  have hne : (splitDistinct text).2.isEmpty = false := by
    cases hempty : (splitDistinct text).2 with
    | nil => exact absurd (hempty ▸ Scan.closed_nil) hlist
    | cons c cs => rfl
  unfold parse
  simp only [hne, Bool.false_eq_true, if_false]
  rcases split_of_not_closed hlist with ⟨position, herror | herror⟩
  · rw [herror]
    exact ⟨_, position, .inl rfl⟩
  · rw [herror]
    exact ⟨_, position, .inr rfl⟩

end SelectList
end ContentQuery
