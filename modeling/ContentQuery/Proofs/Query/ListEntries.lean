import ContentQuery.Proofs.Query.Accepted
import ContentQuery.Proofs.Query.ListLiterals
import ContentQuery.Proofs.Query.Refusals
import ContentQuery.Proofs.Query.Selections
import ContentQuery.Proofs.Scan.Keywords

/-!
# The entries of a SELECT list

A SELECT list is cut at its top-level commas, and each entry at its last top-level AS.  The entries
with an expression in front of that AS are kept in order, each with the alias behind it; the others
go, whatever text they have.
-/

namespace ContentQuery

open Scan (Moved everywhere lacksSeparator pieces tokens tokensFrom)

namespace SelectList

variable {p : Piece} {s t : Scan}

/-! ## One entry -/

/-- Start and end of the last of some keywords on the top level. -/
def lastTop (found : List Token) : Option (Nat × Nat) :=
  ((found.filter (·.depth == 0)).getLast?).map fun token => (token.start, token.stop)

theorem lastTop_cons (token : Token) (found : List Token) :
    lastTop (token :: found) =
      (lastTop found).or (if token.depth = 0 then some (token.start, token.stop) else none) := by
  by_cases hdepth : token.depth = 0
  · rw [lastTop, List.filter_cons_of_pos (by simpa using hdepth), if_pos hdepth, lastTop]
    cases found.filter (·.depth == 0) with
    | nil => rfl
    | cons next rest =>
        rw [List.getLast?_cons_cons, List.getLast?_cons, Option.map_some]
        rfl
  · rw [lastTop, List.filter_cons_of_neg (by simpa using hdepth), if_neg hdepth, Option.or_none,
      lastTop]

/-- Without a comma on the top level there is one piece, whose AS is the last one there. -/
theorem piecesFrom_entry {cs : List Char} {skip tokenSkip : Nat} (h : Passing tokenSkip s cs)
    (hskip : skip = tokenSkip ∨ skip = 0 ∧ s.depth ≠ 0)
    (hcomma : everywhere (fun s c _ => !(c == ',' && s.isTopLevel c)) s cs = true) :
    ∃ hasCall hasStar, piecesFrom skip p s cs =
      [({ start := p.start, hasCall, hasStar
          aliasWord := (lastTop (tokensFrom [.as] tokenSkip s cs).1).or p.aliasWord },
        (s.read cs).position)] := by
  -- Tokens skip the letters of every AS, a piece only those of one on the top level.
  induction cs generalizing skip tokenSkip s p with
  | nil =>
      refine ⟨p.hasCall, p.hasStar, ?_⟩
      cases skip <;> cases tokenSkip <;> rfl
  | cons c cs ih =>
      rw [everywhere, Bool.and_eq_true] at hcomma
      have hcut : ¬ (c = ',' ∧ s.isTopLevel c = true) := by
        rintro ⟨rfl, htop⟩
        simp [htop] at hcomma
      -- Within parentheses no AS counts, and the character belongs to the piece.
      have hdeep : s.depth ≠ 0 →
          piecesFrom 0 p s (c :: cs) = piecesFrom 0 (p.see s c) (s.step c) cs := by
        intro hdepth
        have htop : ¬ s.isTopLevel c = true := fun htop => hdepth (Scan.isTopLevel_iff.1 htop).1
        exact piecesFrom_cons hcut (if_neg htop)
      have hword : (p.see s c).aliasWord = p.aliasWord ∧ (p.see s c).start = p.start := by
        rw [see_eq]
        exact ⟨rfl, rfl⟩
      cases tokenSkip with
      | succ tokenSkip =>
          obtain ⟨hpass, hnext⟩ := h.tail
          rw [tokensFrom, ← hpass, Scan.read_cons]
          rcases hskip with rfl | ⟨rfl, hdepth⟩
          · rw [piecesFrom, ← hpass]
            exact ih hnext (.inl rfl) hcomma.2
          · have hstep : (s.step c).depth ≠ 0 := by rwa [hpass]
            rw [hdeep hdepth, ← hword.1, ← hword.2]
            exact ih hnext (.inr ⟨rfl, hstep⟩) hcomma.2
      | zero =>
          have hzero : skip = 0 := hskip.elim id And.left
          subst hzero
          cases hfound : Scan.keyword? [.as] s c cs with
          | none =>
              have hnone : (if s.isTopLevel c then Keyword.as.length? s.last (c :: cs) else none) =
                  none := by
                split
                · next htop =>
                    rw [Scan.keyword?, if_pos (Scan.isTopLevel_iff.1 htop).2,
                      Keyword.first?_eq_none_iff] at hfound
                    exact hfound .as (by simp)
                · rfl
              rw [Scan.tokensFrom_of_none hfound, piecesFrom_cons hcut hnone, ← hword.1, ← hword.2,
                Scan.read_cons]
              exact ih (passing_zero _ _) (.inl rfl) hcomma.2
          | some found =>
              obtain ⟨i, n, k, rfl, hk, houtside, hlength, -, hordinary⟩ :=
                Scan.exists_of_keyword? (by decide) hfound
              obtain rfl : k = .as := by simpa using List.mem_of_getElem? hk
              obtain ⟨hpass, hnext⟩ := Passing.next houtside hordinary
              rw [Scan.tokensFrom_of_some hfound, ← hpass, lastTop_cons, Scan.read_cons]
              by_cases hdepth : s.depth = 0
              · have htop : s.isTopLevel c = true := Scan.isTopLevel_iff.2 ⟨hdepth, houtside⟩
                have htaken := ih (p := { p with
                  aliasWord := some (s.position, s.position + (n + 1)) }) hnext (.inl rfl) hcomma.2
                rw [piecesFrom_as hcut (by rw [if_pos htop, hlength]), if_pos hdepth, Option.or_assoc]
                exact htaken
              · have hstep : (s.step c).depth ≠ 0 := by rwa [hpass]
                rw [hdeep hdepth, if_neg hdepth, Option.or_none, ← hword.1, ← hword.2]
                exact ih hnext (.inr ⟨rfl, hstep⟩) hcomma.2

/-- Start and end of the last AS on the top level of an entry. -/
def asOf? (entry : List Char) : Option (Nat × Nat) :=
  lastTop (tokens [.as] entry).1

/-- What stands in front of the last AS of an entry, or the entry without an AS. -/
def expressionOf (entry : List Char) : List Char :=
  match asOf? entry with
  | some (start, _) => Chars.trim (entry.take start)
  | none => Chars.trim entry

/-- What stands behind the last AS of an entry. -/
def aliasTextOf (entry : List Char) : List Char :=
  match asOf? entry with
  | some (_, stop) => Chars.trim (entry.drop stop)
  | none => []

/-- The expression of an entry, and its alias unless that is blank. -/
def textsOf (entry : List Char) : String × Option String :=
  (String.ofList (expressionOf entry),
    if (aliasTextOf entry).isEmpty then none else some (String.ofList (aliasTextOf entry)))

/-- The entries of a list as they are cut, with those that go. -/
def allSpecs (text : List Char) : List FieldSpec :=
  (specsFrom text 0 { start := 0 } {} text).1

/-- An entry by itself is cut at its last AS. -/
theorem allSpecs_entry {entry : List Char} (h : lacksSeparator ',' entry = true) :
    (allSpecs entry).map (fun spec => (spec.expression, spec.aliasName)) = [textsOf entry] := by
  obtain ⟨hasCall, hasStar, hpieces⟩ :=
    piecesFrom_entry (p := { start := 0 }) (passing_zero {} entry) (.inl rfl) h
  -- The piece reaches from the first character to the last one.
  have hall : Chars.slice entry 0 entry.length = entry := by
    rw [Chars.slice, List.take_length, List.drop_zero]
  have hfront : ∀ stop, Chars.slice entry 0 stop = entry.take stop := fun stop => by
    rw [Chars.slice, List.drop_zero]
  have hback : ∀ start, Chars.slice entry start entry.length = entry.drop start := fun start => by
    rw [Chars.slice, List.take_length]
  have has : lastTop (tokensFrom [.as] 0 {} entry).1 = asOf? entry := rfl
  rw [allSpecs, fst_specsFrom, hpieces, position_read_start, List.map_singleton, List.map_singleton,
    has, Option.or_none, textsOf, expressionOf, aliasTextOf, Piece.spec]
  cases asOf? entry with
  | none => simp only [Option.map_none, Option.getD_none, hall]
  | some word => simp only [Option.map_some, Option.getD_some, hfront, hback]

/-- From a scan further on the same pieces are found further on. -/
theorem piecesFrom_moved {n : Nat} (h : Moved n s t) (b : List Char) :
    piecesFrom 0 { start := s.position + n } t b =
      (piecesFrom 0 { start := s.position } s b).map fun piece =>
        (piece.1.shift n, piece.2 + n) := by
  obtain ⟨last, stop, rest, hstart, hpieces⟩ :=
    exists_piecesFrom_moved b 0 { start := s.position } s
  have hlast : last.start = s.position := hstart
  -- A piece that has only begun adds nothing to the one that it continues.
  have hpiece : ∀ {n : Nat} {t : Scan}, Moved n s t →
      piecesFrom 0 { start := s.position + n } t b =
        (last.shift n, stop + n) :: rest.map fun piece => (piece.1.shift n, piece.2 + n) := by
    intro n t h
    have hmoved := hpieces n t { start := last.start + n } h
    rw [Piece.extend_fresh, hlast] at hmoved
    exact hmoved
  have hself : Moved 0 s s := ⟨⟨rfl, rfl, rfl⟩, rfl⟩
  have hshift : ∀ piece : Piece, piece.shift 0 = piece := by
    rintro ⟨start, aliasWord, hasCall, hasStar⟩
    cases aliasWord <;> rfl
  have hsame : (fun piece : Piece × Nat => (piece.1.shift 0, piece.2 + 0)) = id :=
    funext fun piece => congrArg (·, piece.2) (hshift piece.1)
  have hnear : piecesFrom 0 { start := s.position } s b = (last, stop) :: rest := by
    have hzero := hpiece hself
    rwa [hsame, List.map_id, hshift] at hzero
  rw [hpiece h, hnear, List.map_cons]

/-- Behind an entry and a comma a list is cut as one of its own. -/
theorem allSpecs_append_cons {entry : List Char} (hentry : lacksSeparator ',' entry = true)
    (htop : (({} : Scan).read entry).isTopLevel ',' = true) (rest : List Char) :
    allSpecs (entry ++ ',' :: rest) = allSpecs entry ++ allSpecs rest := by
  obtain ⟨front, last, -, hlast, hpieces⟩ :=
    cutInFront (p := { start := 0 }) (passing_zero {} entry) (Nat.zero_le _)
      (Nat.zero_add _) ⟨Nat.zero_le _, by simp⟩
  have hposition : (({} : Scan).read entry).position = entry.length := position_read_start entry
  -- Without a comma the entry is one piece.
  have hself := hpieces [] (Keyword.ends_nil (by simp))
  have hnone : front = [] := by
    obtain ⟨hasCall, hasStar, hone⟩ :=
      piecesFrom_entry (p := { start := 0 }) (passing_zero {} entry) (.inl rfl) hentry
    rw [List.append_nil, hone, piecesFrom] at hself
    have hlength := congrArg List.length hself
    simpa using hlength
  rw [hnone, List.append_nil, List.nil_append, piecesFrom, hposition] at hself
  -- What stands behind the comma is read like a text of its own.
  have hmoved : Moved (entry.length + 1) {} ((({} : Scan).read entry).pass ',') :=
    ⟨⟨rfl, (Scan.isTopLevel_iff.1 htop).1, rfl⟩, by
      show (({} : Scan).read entry).position + 1 = 0 + (entry.length + 1)
      omega⟩
  have hrest := piecesFrom_moved hmoved rest
  have hwhole := hpieces (',' :: rest) (Keyword.ends_cons (by decide) rest)
  rw [hnone, List.nil_append, piecesFrom, if_pos ⟨rfl, htop⟩, hposition] at hwhole
  have hzero : ({} : Scan).position + (entry.length + 1) = entry.length + 1 := Nat.zero_add _
  rw [hzero] at hrest
  rw [allSpecs, allSpecs, allSpecs, fst_specsFrom, fst_specsFrom, fst_specsFrom, hself, hwhole, hrest,
    List.map_cons, List.map_singleton, List.map_map, List.singleton_append,
    Piece.spec_append hlast (Nat.le_refl _)]
  refine congrArg _ (List.map_congr_left fun piece _ => ?_)
  have hshift := Piece.spec_shift (entry ++ [',']) rest piece.1 piece.2
  simpa using hshift

/-- The entries of a list are its pieces between commas, each cut at its last AS. -/
theorem allSpecs_texts (text : List Char) :
    (allSpecs text).map (fun spec => (spec.expression, spec.aliasName)) =
      (pieces ',' {} text).map textsOf := by
  induction text using Scan.pieces_induction ',' with
  | single entry h => rw [allSpecs_entry h, Scan.pieces_of_lacks h, List.map_singleton]
  | cons entry rest h htop ih =>
      rw [allSpecs_append_cons h htop, Scan.pieces_append_cons (by decide) h htop, List.map_append,
        allSpecs_entry h, ih, List.map_cons, List.singleton_append]

/-- What a list is split into: the entries with an expression. -/
theorem split_texts {text : List Char} {specs : List FieldSpec} (h : split text = .ok specs) :
    specs.map (fun spec => (spec.expression, spec.aliasName)) =
      ((pieces ',' {} text).map textsOf).filter fun texts => !texts.1.isEmpty := by
  have hkept := split_eq_of_closed (closed_of_split h).1
  rw [h, Except.ok.injEq] at hkept
  rw [← allSpecs_texts, List.filter_map, hkept]
  rfl

/-! ## Blank lists -/

/-- Nothing is left of a list that is blank or the word DISTINCT. -/
theorem splitDistinct_eq_nil_iff {text : List Char} :
    (splitDistinct text).2 = [] ↔
      Chars.trim text = [] ∨ Keyword.Spells Keyword.distinct.letters (Chars.trim text) := by
  have hformed : Keyword.distinct.WellFormed := by decide
  have hspelling : ∀ {n : Nat}, Keyword.distinct.lengthAt? (Chars.trim text) 0 = some n ↔
      Keyword.BeginsWith Keyword.distinct.letters (Chars.trim text) n :=
    Keyword.spelling?_eq_some_iff hformed.spelled
  unfold splitDistinct
  simp only
  constructor
  · cases hlength : Keyword.distinct.lengthAt? (Chars.trim text) 0 with
    | none => exact .inl
    | some n =>
        obtain ⟨stretch, behind, htext, rfl, hspells, -⟩ := hspelling.1 hlength
        simp only [htext, List.drop_left]
        intro hblank
        rw [Chars.eq_nil_of_trim_append htext hblank, List.append_nil]
        exact .inr hspells
  · rintro (hblank | hspells)
    · rw [hblank]
      rfl
    · have hbegins : Keyword.BeginsWith Keyword.distinct.letters (Chars.trim text)
          (Chars.trim text).length :=
        ⟨Chars.trim text, [], (List.append_nil _).symm, rfl, hspells, by simp⟩
      rw [hspelling.2 hbegins]
      simp only [List.drop_length]
      rfl

/-! ## What is selected -/

section Selected

variable {schema : Schema} {q : Query}

/-- Only a wildcard on a table without known columns selects nothing. -/
theorem fields_selection_eq_nil_iff (calls : Nat) {spec : FieldSpec} :
    (selection schema q calls spec).fields = [] ↔
      spec.isWildcard = true ∧
        schema.columns (q.tableOf (wildcardAlias q spec.expression)) = [] := by
  unfold selection
  split
  · next hwildcard => simp [columnsUnder, hwildcard]
  · next hwildcard =>
      have hsome : ∀ f : SelectField, (selectionOf f).fields ≠ [] := by
        intro f
        unfold selectionOf
        split <;> simp
      simp [hwildcard, hsome]

theorem fields_selections_eq_nil_iff {calls : Nat} {specs : List FieldSpec} :
    (selections schema q calls specs).flatMap Selection.fields = [] ↔
      ∀ spec ∈ specs, spec.isWildcard = true ∧
        schema.columns (q.tableOf (wildcardAlias q spec.expression)) = [] := by
  induction specs generalizing calls with
  | nil => simp [selections]
  | cons spec specs ih =>
      rw [selections, List.flatMap_cons, List.append_eq_nil_iff, ih, fields_selection_eq_nil_iff,
        List.forall_mem_cons]

end Selected

end SelectList

namespace Query

theorem failsBy_readClauses (text : List Char) :
    FailsBy QueryError.IsStructural (readClauses text) :=
  (failsBy_ofTables _).bind fun q => .foldlM failsBy_addClause _ q

/-- A text is refused because nothing is selected if its tables and clauses can be read and nothing
is left of its list. -/
theorem parse_eq_emptySelect_iff {schema : Schema} {text : String} :
    parse schema text = .error .emptySelect ↔
      ∃ list rest q, splitStatement text.toList = .ok (list, rest) ∧ readClauses rest = .ok q ∧
        (SelectList.splitDistinct list).2 = [] := by
  cases hsplit : splitStatement text.toList with
  | error e =>
      have hother := (failsBy_splitStatement _ e hsplit).2
      have hparse : parse schema text = .error e := by
        unfold parse
        rw [hsplit]
        rfl
      simp [hparse, hother]
  | ok parts =>
      obtain ⟨list, rest⟩ := parts
      rw [parse_eq schema hsplit]
      cases hclauses : readClauses rest with
      | error e =>
          have hother := (failsBy_readClauses _ e hclauses).2
          simp [bind, Except.bind, hother, hclauses]
      | ok q =>
          have hlist : (SelectList.parse schema list q).2 = .error .emptySelect ↔
              (SelectList.splitDistinct list).2 = [] := SelectList.parse_eq_emptySelect_iff
          rcases hparsed : SelectList.parse schema list q with ⟨q', outcome⟩
          rw [hparsed] at hlist
          cases outcome <;> simpa [bind, Except.bind, hclauses, hparsed] using hlist

/-- A text is refused because nothing is selected exactly if its tables and clauses can be read and
its list is blank or the word DISTINCT.  The list of an accepted text stands for its entries with an
expression, in their order and with their aliases; nothing is selected exactly if all of them are
wildcards on tables without known columns, and so if there is no such entry. -/
theorem entries_of_parse (schema : Schema) (text : String) :
    (parse schema text = .error .emptySelect ↔
      ∃ list rest q₁, splitStatement text.toList = .ok (list, rest) ∧ readClauses rest = .ok q₁ ∧
        (Chars.trim list = [] ∨ Keyword.Spells Keyword.distinct.letters (Chars.trim list))) ∧
    ∀ q, parse schema text = .ok q →
      ∃ list rest specs, splitStatement text.toList = .ok (list, rest) ∧
        SelectList.split (SelectList.splitDistinct list).2 = .ok specs ∧
        specs.map (fun spec => (spec.expression, spec.aliasName)) =
          ((pieces ',' {} (SelectList.splitDistinct list).2).map SelectList.textsOf).filter
            (fun texts => !texts.1.isEmpty) ∧
        (q.select = [] ↔ ∀ spec ∈ specs, spec.isWildcard = true ∧
          schema.columns (q.tableOf (SelectList.wildcardAlias q spec.expression)) = []) := by
  constructor
  · simp only [parse_eq_emptySelect_iff, SelectList.splitDistinct_eq_nil_iff]
  · intro q hq
    obtain ⟨list, rest, q₀, q₁, hsplit, htables, hclauses, hlist⟩ := parse_eq_ok_iff.1 hq
    obtain ⟨-, specs, hspecs, hentered⟩ := SelectList.parse_eq_ok_iff.1 hlist
    have hnone : q₁.select = [] :=
      congrArg (fun records => records.2.1) (listRecords_of_clauses htables hclauses)
    have hselect : q.select =
        (SelectList.selections schema q₁ 0 specs).flatMap Selection.fields := by
      rw [hentered, SelectList.select_foldl_enter]
      exact congrArg (· ++ _) hnone
    -- The list does not change what an alias stands for.
    have hsame : SelectList.selection schema q = SelectList.selection schema q₁ :=
      SelectList.selection_congr (withoutList_parse hlist)
    refine ⟨list, rest, specs, hsplit, hspecs, SelectList.split_texts hspecs, ?_⟩
    rw [hselect, SelectList.fields_selections_eq_nil_iff]
    simp only [← SelectList.fields_selection_eq_nil_iff 0, hsame]

/-- Lists of a comma and of an alias without an expression are accepted, and nothing is selected;
behind another entry such an alias is dropped. -/
theorem parse_hollow_lists :
    parse .empty "SELECT , FROM pages" = .ok (setMainTable {} ⟨"pages", "pages"⟩) ∧
      parse .empty "SELECT AS x FROM pages" = .ok (setMainTable {} ⟨"pages", "pages"⟩) ∧
      (setMainTable {} ⟨"pages", "pages"⟩).select = [] ∧
      parse .empty "SELECT title, AS x FROM pages" = parse .empty "SELECT title FROM pages" := by
  decide +kernel

end Query
end ContentQuery
