import ContentQuery.Proofs.Query.Written

/-!
# Clauses in any spelling

The clauses of a statement are written behind the list of tables, each with its keyword in any
letter case and any blanks in and around it.  Cutting the text at its clause keywords gives them
back, provided that every text ends where it began, outside literals and parentheses, and shows no
clause keyword there.  A closing parenthesis too many does no harm.
-/

namespace ContentQuery

open Chars (isBlank)
open Keyword (Opens Spells isIdentifierChar)
open Scan (Beside OnTop anyWord lacksKeywords)

/-! ## Written clauses -/

/-- A text that keeps to its clause: it ends outside literals and parentheses, and shows no clause
keyword there. -/
structure Fits (text : List Char) : Prop where
  outside : (({} : Scan).read text).openQuote? = none
  depth : (({} : Scan).read text).depth = 0
  lacks : lacksKeywords openWords text = true

instance (text : List Char) : Decidable (Fits text) :=
  decidable_of_iff
    ((({} : Scan).read text).openQuote? = none ∧ (({} : Scan).read text).depth = 0 ∧
      lacksKeywords openWords text = true)
    ⟨fun h => ⟨h.1, h.2.1, h.2.2⟩, fun h => ⟨h.outside, h.depth, h.lacks⟩⟩

theorem Fits.onTop {text : List Char} (h : Fits text) : OnTop (({} : Scan).read text) :=
  ⟨h.outside, h.depth, Scan.QuotedRight.read (s := {}) trivial text⟩

/-- A text that keeps to its clause has no token on the top level where it begins a new word. -/
theorem Fits.topTokens {text : List Char} (h : Fits text) {s : Scan} (hs : Beside {} s) :
    Scan.topTokens openWords anyWord s text = [] :=
  Scan.topTokens_of_lacks reader_clauses.lawful.formed (fun _ _ hk _ => List.mem_of_getElem? hk) hs
    h.lacks

/-- A clause as written: the keyword between `front` and `back`, and the text. -/
structure WrittenClause where
  clause : Clause
  front : List Char
  keyword : List Char
  back : List Char
  text : List Char
deriving DecidableEq, Repr

namespace WrittenClause

def chars (x : WrittenClause) : List Char :=
  x.front ++ (x.keyword ++ (x.back ++ x.text))

/-- The clause without its spelling. -/
def segment (x : WrittenClause) : Segment :=
  ⟨x.clause, Chars.trim x.text⟩

/-- A keyword that opens the clause stands between blanks. -/
structure Sound (x : WrittenClause) : Prop where
  opener : ∃ entry ∈ Clause.openers, entry.1 = x.clause ∧ Spells entry.2.letters x.keyword
  front : x.front ≠ [] ∧ ∀ c ∈ x.front, isBlank c = true
  back : x.back ≠ [] ∧ ∀ c ∈ x.back, isBlank c = true
  fits : Fits x.text

theorem wellFormed_of_mem_openers : ∀ entry ∈ Clause.openers, entry.2.WellFormed := by
  decide

instance (x : WrittenClause) : Decidable x.Sound :=
  decidable_of_iff
    ((∃ entry ∈ Clause.openers, entry.1 = x.clause ∧
        Keyword.spelling? entry.2.letters x.keyword = some x.keyword.length) ∧
      (x.front ≠ [] ∧ ∀ c ∈ x.front, isBlank c = true) ∧
      (x.back ≠ [] ∧ ∀ c ∈ x.back, isBlank c = true) ∧ Fits x.text) <| by
    have hspells : ∀ entry ∈ Clause.openers, Spells entry.2.letters x.keyword ↔
        Keyword.spelling? entry.2.letters x.keyword = some x.keyword.length := fun entry hentry =>
      Keyword.spells_iff (wellFormed_of_mem_openers entry hentry).spelled
    constructor
    · rintro ⟨⟨entry, hentry, hclause, hspelled⟩, hfront, hback, hfits⟩
      exact ⟨⟨entry, hentry, hclause, (hspells entry hentry).2 hspelled⟩, hfront, hback, hfits⟩
    · rintro ⟨⟨entry, hentry, hclause, hspelled⟩, hfront, hback, hfits⟩
      exact ⟨⟨entry, hentry, hclause, (hspells entry hentry).1 hspelled⟩, hfront, hback, hfits⟩

/-- The keyword of a clause is found at its place in the list of openers. -/
theorem Sound.exists_opens {x : WrittenClause} (hx : x.Sound) :
    ∃ i k, Opens openWords ['J', 'B'] i k ∧ Clause.atIndex i = x.clause ∧
      Spells k.letters x.keyword := by
  obtain ⟨entry, hentry, hclause, hspells⟩ := hx.opener
  have hplaces : ∀ place ∈ Clause.openers.zipIdx,
      Opens openWords ['J', 'B'] place.2 place.1.2 ∧ Clause.atIndex place.2 = place.1.1 := by
    decide
  obtain ⟨i, hi⟩ := List.getElem?_of_mem hentry
  obtain ⟨hopens, hindex⟩ := hplaces (entry, i) (List.mk_mem_zipIdx_iff_getElem?.2 hi)
  exact ⟨i, entry.2, hopens, hindex.trans hclause, hspells⟩

end WrittenClause

/-! ## Cutting what was written -/

/-- A clause written behind a text adds its segment to those of the text. -/
theorem Segment.ofText_append {a : List Char} (ha : OnTop (({} : Scan).read a))
    {x : WrittenClause} (hx : x.Sound) :
    Segment.ofText (a ++ x.chars) = Segment.ofText a ++ [x.segment] ∧
      OnTop (({} : Scan).read (a ++ x.chars)) := by
  obtain ⟨i, k, hopens, hclause, hspells⟩ := hx.exists_opens
  have hlawful := reader_clauses.lawful
  have hformed := hlawful.formed k (List.mem_of_getElem? hopens.place)
  -- Behind the keyword the scan is on the top level, and behind the blanks a new word begins.
  have hkeyword : OnTop (((({} : Scan).read a).read x.front).read x.keyword) :=
    (ha.read_blanks hx.front.2).read (Keyword.isOrdinary_of_spells hformed.spelled hspells)
  have hback := hkeyword.beside_of_blanks hx.back.1 hx.back.2
  have hbegins : ∀ c ∈ (x.back ++ x.text).head?, isIdentifierChar c = false := by
    obtain ⟨b, bs, hbs⟩ := List.exists_cons_of_ne_nil hx.back.1
    have hb := Chars.isIdentifierChar_of_isBlank (hx.back.2 b (by simp [hbs]))
    simpa [hbs] using hb
  have hnone : Scan.topTokens openWords anyWord
      (((({} : Scan).read a).read x.front).read x.keyword) (x.back ++ x.text) = [] := by
    rw [Scan.topTokens_blanks hlawful.formed hx.back.2]
    exact hx.fits.topTokens hback
  refine ⟨?_, ?_⟩
  · rw [Segment.ofText_eq, Segment.ofText_eq, WrittenClause.chars,
      Scan.chunks_spelled hlawful hopens ha hx.front.1 hx.front.2 hspells hbegins hnone,
      List.map_append, List.map_singleton, Chars.trim_blanks_append hx.back.2, Segment.ofChunk,
      Option.elim_some, hclause]
    rfl
  · rw [WrittenClause.chars, Scan.read_append, Scan.read_append, Scan.read_append,
      Scan.read_append]
    exact (hback.read x.text).onTop hx.fits.onTop

/-- Clauses written behind a text add their segments in order. -/
theorem Segment.ofText_append_flatMap {clauses : List WrittenClause}
    (hclauses : ∀ x ∈ clauses, x.Sound) :
    ∀ {a : List Char}, OnTop (({} : Scan).read a) →
      Segment.ofText (a ++ clauses.flatMap WrittenClause.chars) =
        Segment.ofText a ++ clauses.map WrittenClause.segment := by
  induction clauses with
  | nil => simp
  | cons x xs ih =>
      intro a ha
      obtain ⟨hsegments, htop⟩ := Segment.ofText_append ha (hclauses x (by simp))
      have hrest := ih (fun y hy => hclauses y (by simp [hy])) htop
      rw [List.flatMap_cons, ← List.append_assoc, hrest, hsegments, List.append_assoc]
      rfl

/-- Cutting a written text gives the list of tables and the clauses in order, each with its trimmed
text. -/
theorem Segment.ofText_writtenClauses {tables : List Char} (htables : Fits tables)
    {clauses : List WrittenClause} (hclauses : ∀ x ∈ clauses, x.Sound) :
    Segment.ofText (tables ++ clauses.flatMap WrittenClause.chars) =
      ⟨.source, Chars.trim tables⟩ :: clauses.map WrittenClause.segment := by
  have hnone : Scan.topTokens openWords anyWord {} tables = [] :=
    htables.topTokens ⟨rfl, rfl, rfl⟩
  rw [ofText_append_flatMap hclauses htables.onTop, Segment.ofText_eq, Scan.chunks_of_quiet hnone]
  rfl

/-- Three clauses, with clause keywords in a literal and in parentheses. -/
def WrittenClause.mixedCase : List WrittenClause :=
  [⟨.join .left, "\n".toList, "Left\t join".toList, "  ".toList,
      "news AS n ON n.note <> 'order by'".toList⟩,
    ⟨.condition, " ".toList, "wHERE".toList, "\n ".toList,
      "EXISTS (SELECT 1 FROM media LIMIT 1) ".toList⟩,
    ⟨.limit, "\t".toList, "limit".toList, " ".toList, []⟩]

theorem Segment.ofText_writtenClauses_mixedCase :
    Fits " pages AS p )".toList ∧ (∀ x ∈ WrittenClause.mixedCase, x.Sound) ∧
      Segment.ofText
          (" pages AS p )\nLeft\t join  news AS n ON n.note <> 'order by' wHERE\n " ++
            "EXISTS (SELECT 1 FROM media LIMIT 1) \tlimit ").toList =
        [⟨.source, "pages AS p )".toList⟩,
          ⟨.join .left, "news AS n ON n.note <> 'order by'".toList⟩,
          ⟨.condition, "EXISTS (SELECT 1 FROM media LIMIT 1)".toList⟩, ⟨.limit, []⟩] := by
  have htables : Fits " pages AS p )".toList := by decide
  have hclauses : ∀ x ∈ WrittenClause.mixedCase, x.Sound := by decide
  exact ⟨htables, hclauses, Segment.ofText_writtenClauses htables hclauses⟩

end ContentQuery
