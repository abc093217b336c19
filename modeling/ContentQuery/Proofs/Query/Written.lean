import ContentQuery.Proofs.Query.Canonical

/-!
# How the written text of a query reads

Two readers look for keywords in the text behind FROM: one for FROM itself, one for the keywords
that open a clause.  To either of them the names and texts of a canonical query are quiet.  So FROM
is not found again, and the clauses come back as the sections that were written.
-/

namespace ContentQuery

open Keyword (IsWord Lawful Opens Ends isIdentifierChar ends_nil ends_cons)
open Scan (Closed Section Quiet Settled anyWord joined topTokens quiet_name quiet_closed)
open Chars (IsName Solid isNameChar)

/-! ## Readers -/

/-- The first word of a keyword. -/
def Keyword.firstWord (k : Keyword) : List Char :=
  k.letters.takeWhile (· != ' ')

section Names

variable {words : List Keyword} {pick : Nat → Bool}

theorem quiet_word (hwords : ∀ k ∈ words, k.WellFormed)
    (hreserved : ∀ k ∈ words, k.firstWord ∈ Keyword.reserved) {s : String} (hs : IsWord s) :
    Quiet words pick [] s.toList := by
  refine quiet_name hwords hs.1 ?_
  intro k hk heq
  refine hs.2 ?_
  rw [heq]
  exact hreserved k hk

/-- A table with its alias is quiet to readers of other keywords than AS. -/
theorem quiet_ref (hwords : ∀ k ∈ words, k.WellFormed)
    (hreserved : ∀ k ∈ words, k.firstWord ∈ Keyword.reserved)
    (hne : ∀ k ∈ words, Keyword.as.letters ≠ k.firstWord) {ref : TableRef}
    (htable : IsWord ref.table) (halias : IsWord ref.aliasName) :
    Quiet words pick [] ref.chars := by
  have has : Quiet words pick [] Keyword.as.letters := quiet_name hwords (by decide) hne
  exact (quiet_word hwords hreserved htable).spaced hwords
    (has.spaced hwords (quiet_word hwords hreserved halias))

end Names

/-- What a reader looks for: clause keywords that can be told from the words that are written
inside clauses. -/
structure Reader (words : List Keyword) (pick : Nat → Bool) (later : List Char) : Prop where
  lawful : Lawful words later
  later : ')' ∉ later ∧ ',' ∉ later
  reserved : ∀ k ∈ words, k.firstWord ∈ Keyword.reserved
  apart : ∀ k ∈ words, k.firstWord ∉ [Keyword.as.letters, Keyword.on.letters, "AND".toList]
  picks : ∀ i k, words[i]? = some k → pick i = true → k ∈ Keyword.clauses

/-- The keywords that open a clause. -/
def openWords : List Keyword :=
  Clause.openers.map Prod.snd

theorem reader_clauses : Reader openWords anyWord ['J', 'B'] where
  lawful := by decide
  later := by decide
  reserved := by decide
  apart := by decide
  picks := by
    intro i k hk _
    exact List.mem_cons_of_mem _ (List.mem_of_getElem? hk)

theorem reader_source : Reader [.select, .source] (· == 1) [] where
  lawful := by decide
  later := by decide
  reserved := by decide
  apart := by decide
  picks := by
    intro i k hk hpick
    have hi : i = 1 := by simpa using hpick
    subst hi
    cases hk
    exact List.mem_cons_self

namespace Reader

variable {words : List Keyword} {pick : Nat → Bool} {later : List Char}

/-! ## Parts of clauses -/

theorem quiet_between (hr : Reader words pick later) {s : List Char} (hname : IsName s)
    (hupper : s.map Char.toUpper = s)
    (hs : s ∈ [Keyword.as.letters, Keyword.on.letters, "AND".toList]) :
    Quiet words pick [] s := by
  refine quiet_name hr.lawful.formed hname ?_
  intro k hk heq
  refine hr.apart k hk ?_
  rw [Keyword.firstWord, ← heq, hupper]
  exact hs

theorem quiet_ref (hr : Reader words pick later) {ref : TableRef} (htable : IsWord ref.table)
    (halias : IsWord ref.aliasName) : Quiet words pick [] ref.chars := by
  refine ContentQuery.quiet_ref hr.lawful.formed hr.reserved ?_ htable halias
  intro k hk heq
  exact hr.apart k hk (by simp [← heq])

theorem quiet_text (hr : Reader words pick later) {s : String} (hs : ClauseText s) :
    Quiet words pick later (' ' :: s.toList) :=
  quiet_closed hr.lawful hr.picks hs.closed hs.lacks

theorem ends_comma (hr : Reader words pick later) (text : List Char) :
    Ends later (',' :: text) := by
  have hcomma : isIdentifierChar ',' = false := by decide
  have hblank : Chars.isBlank ',' = false := by decide
  have hupper : ',' ∉ later := hr.later.2
  exact ⟨by simpa using hcomma, by simpa [hblank] using hupper⟩

/-- A list of parts behind a blank. -/
theorem quiet_parts (hr : Reader words pick later) {parts : List String}
    (hparts : ∀ part ∈ parts, ClauseText part) (hne : parts ≠ []) :
    Quiet words pick later (' ' :: joined ',' (parts.map String.toList)) := by
  refine Scan.quiet_joined hr.lawful.formed Scan.separates_comma hr.ends_comma
    (by simpa using hne) ?_
  intro _ hpart
  rcases List.mem_map.1 hpart with ⟨part, hmem, rfl⟩
  exact hr.quiet_text (hparts part hmem)

/-- Conditions in parentheses behind a blank. -/
theorem quiet_conjunction (hr : Reader words pick later) {cs : List (List Char)}
    (hcs : ∀ c ∈ cs, Closed c) : Quiet words pick [] (' ' :: Query.conjunction cs) := by
  have hand := hr.quiet_between (s := "AND".toList) (by decide) (by decide) (by simp)
  have hpar : ∀ c, Closed c → Quiet words pick [] ('(' :: (c ++ [')'])) := fun c hc =>
    Scan.quiet_parenthesized hr.lawful hr.later.1 hc
  refine Quiet.cons hr.lawful.formed (by decide) (by decide) ?_
  cases cs with
  | nil => exact Scan.quiet_nil
  | cons c cs =>
      rw [Query.conjunction]
      -- Each further condition stands behind AND, with blanks on either side of it.
      induction cs generalizing c with
      | nil => simpa using hpar c (hcs c (by simp))
      | cons d ds ih =>
          have hrest := ih d fun e he => hcs e (List.mem_cons_of_mem _ he)
          have htext : (c :: d :: ds).tail.flatMap (fun e => " AND ".toList ++ '(' :: (e ++ [')'])) =
              ' ' :: ("AND".toList ++ ' ' :: (('(' :: (d ++ [')'])) ++
                ds.flatMap fun e => " AND ".toList ++ '(' :: (e ++ [')']))) := by
            simp
          rw [List.tail_cons] at htext
          rw [htext]
          exact (hpar c (hcs c (by simp))).spaced hr.lawful.formed
            (hand.spaced hr.lawful.formed hrest)

/-- A number is no word of a keyword. -/
theorem quiet_decimal (hr : Reader words pick later) (n : Nat) :
    Quiet words pick [] (Chars.decimal n) := by
  refine quiet_name hr.lawful.formed (Chars.isName_decimal n) ?_
  intro k hk heq
  rcases (hr.lawful.formed k hk).exists_cons with ⟨letter, letters, hletters, hupper⟩
  cases hdecimal : Chars.decimal n with
  | nil => exact Chars.decimal_ne_nil n hdecimal
  | cons d ds =>
      -- The first digit would be a letter.
      have hdigit := Chars.isDigit_of_mem_decimal (n := n) (c := d) (by simp [hdecimal])
      rw [hletters, hdecimal, List.takeWhile_cons_of_pos
        (by simpa using Keyword.ne_space_of_isUpper hupper)] at heq
      have halpha := Keyword.isAlpha_of_toUpper hupper (List.cons.inj heq).1
      rw [Chars.isDigit_iff] at hdigit
      rw [Chars.isAlpha_iff, Chars.isUpper_iff, Chars.isLower_iff] at halpha
      omega

/-! ## Sections -/

variable {q : Query} {x : Section}

theorem quiet_join (hr : Reader words pick later) {join : Join} (hjoin : join.Canonical) :
    Quiet words pick later join.written.body := by
  have href : Quiet words pick [] (⟨join.table, join.aliasName⟩ : TableRef).chars :=
    hr.quiet_ref hjoin.table hjoin.aliasName
  refine Quiet.cons hr.lawful.formed (by decide) (by decide) ?_
  unfold Join.onChars
  by_cases hempty : join.on = ""
  · simpa [hempty] using href.weaken
  · have hon := hr.quiet_between (s := Keyword.on.letters) (by decide) (by decide) (by simp)
    have htext := hr.quiet_text (hjoin.on hempty).1
    have hend : Ends [] (' ' :: join.on.toList) := ends_cons (by decide) _
    have hbody := href.spaced hr.lawful.formed (hon.append htext hend (by simp))
    simpa [String.isEmpty_iff, hempty] using hbody

theorem of_mem_writtenList {place : Nat} {word : Keyword} {parts : List String}
    (h : x ∈ Query.writtenList place word parts) :
    parts ≠ [] ∧ x = ⟨place, word, ' ' :: joined ',' (parts.map String.toList)⟩ := by
  cases parts with
  | nil => simp [Query.writtenList] at h
  | cons part parts => exact ⟨by simp, by simpa [Query.writtenList] using h⟩

theorem exists_of_mem_writtenCount {place : Nat} {word : Keyword} {number : Option Nat}
    (h : x ∈ Query.writtenCount place word number) :
    ∃ n, x = ⟨place, word, ' ' :: Chars.decimal n⟩ := by
  cases number with
  | none => simp [Query.writtenCount] at h
  | some n => exact ⟨n, by simpa [Query.writtenCount] using h⟩

/-- The kinds of sections in the text of a query. -/
theorem mem_written (hx : x ∈ q.written) :
    (∃ e ∈ q.joins.entries, x = e.2.written) ∨
      x = ⟨3, .condition, ' ' :: Query.conjunction (q.conditions.map String.toList)⟩ ∨
      (q.groupBy ≠ [] ∧ x = ⟨4, .groupBy, ' ' :: joined ',' (q.groupBy.map String.toList)⟩) ∨
      (q.orderBy ≠ [] ∧ x = ⟨5, .orderBy, ' ' :: joined ',' (q.orderBy.map String.toList)⟩) ∨
      ∃ n, x = ⟨6, .limit, ' ' :: Chars.decimal n⟩ ∨ x = ⟨7, .offset, ' ' :: Chars.decimal n⟩ := by
  -- One case for each kind of section, in the order in which they are written.
  simp only [Query.written, List.mem_append] at hx
  rcases hx with ((((hx | hx) | hx) | hx) | hx) | hx
  · rcases List.mem_map.1 hx with ⟨join, hjoin, rfl⟩
    rcases List.mem_map.1 hjoin with ⟨e, he, rfl⟩
    exact .inl ⟨e, he, rfl⟩
  · unfold Query.writtenConditions at hx
    split at hx
    · simp at hx
    · exact .inr (.inl (List.mem_singleton.1 hx))
  · exact .inr (.inr (.inl (of_mem_writtenList hx)))
  · exact .inr (.inr (.inr (.inl (of_mem_writtenList hx))))
  · rcases exists_of_mem_writtenCount hx with ⟨n, hn⟩
    exact .inr (.inr (.inr (.inr ⟨n, .inl hn⟩)))
  · rcases exists_of_mem_writtenCount hx with ⟨n, hn⟩
    exact .inr (.inr (.inr (.inr ⟨n, .inr hn⟩)))

/-- The text behind every keyword begins with a blank and is quiet. -/
theorem quiet_body (hr : Reader words pick later) (hq : q.Canonical) (hx : x ∈ q.written) :
    x.body.head? = some ' ' ∧ Quiet words pick later x.body := by
  have hblank : ∀ {body}, Quiet words pick [] body → Quiet words pick later (' ' :: body) :=
    fun h => (h.weaken).cons hr.lawful.formed (by decide) (by decide)
  rcases mem_written hx with ⟨e, he, rfl⟩ | rfl | ⟨hne, rfl⟩ | ⟨hne, rfl⟩ | ⟨n, rfl | rfl⟩
  · exact ⟨rfl, hr.quiet_join (hq.joins e he)⟩
  · refine ⟨rfl, (hr.quiet_conjunction fun c hc => ?_).weaken⟩
    rcases List.mem_map.1 hc with ⟨c, hmem, rfl⟩
    exact (hq.conditions c hmem).1
  · exact ⟨rfl, hr.quiet_parts (fun part hpart => (hq.groupBy part hpart).toClauseText) hne⟩
  · exact ⟨rfl, hr.quiet_parts (fun part hpart => (hq.orderBy part hpart).toClauseText) hne⟩
  · exact ⟨rfl, hblank (hr.quiet_decimal n)⟩
  · exact ⟨rfl, hblank (hr.quiet_decimal n)⟩

/-- Every section opens with the keyword at its place. -/
theorem place_written (hx : x ∈ q.written) : openWords[x.place]? = some x.word := by
  rcases mem_written hx with ⟨e, _, rfl⟩ | rfl | ⟨_, rfl⟩ | ⟨_, rfl⟩ | ⟨n, rfl | rfl⟩
  · unfold Join.written
    cases e.2.kind <;> rfl
  all_goals rfl

end Reader

/-! ## Clauses -/

variable {q : Query}

theorem sound_written (hq : q.Canonical) : ∀ x ∈ q.written, x.Sound openWords ['J', 'B'] := by
  intro x hx
  -- No clause keyword begins like one that is tried before it.
  have hopens : ∀ entry ∈ openWords.zipIdx, Opens openWords ['J', 'B'] entry.2 entry.1 := by decide
  rcases reader_clauses.quiet_body hq hx with ⟨hhead, hquiet⟩
  refine ⟨hopens (x.word, x.place) (List.mk_mem_zipIdx_iff_getElem?.2 (Reader.place_written hx)), ?_,
    hquiet⟩
  intro c hc
  rw [hhead] at hc
  cases hc
  decide

theorem solid_chars {ref : TableRef} (htable : IsWord ref.table) (halias : IsWord ref.aliasName) :
    Solid ref.chars := by
  have h := htable.1.solid.append halias.1.solid (' ' :: (Keyword.as.letters ++ [' ']))
  simpa [TableRef.chars] using h

/-- The clause of a chunk. -/
def Segment.ofChunk (chunk : Option Nat × List Char) : Segment :=
  ⟨chunk.1.elim .source Clause.atIndex, chunk.2⟩

/-- The clause as which a section comes back. -/
def Segment.ofSection (x : Section) : Segment :=
  ⟨.atIndex x.place, Chars.trim x.body⟩

theorem Segment.cut_eq (text : List Char) (tokens : List Token) :
    ∀ (opener : Option Nat) (start : Nat),
      Segment.cut text (opener.elim .source Clause.atIndex) start tokens =
        (Scan.cutAt text opener start tokens).map Segment.ofChunk := by
  induction tokens with
  | nil => exact fun _ _ => rfl
  | cons t ts ih =>
      intro opener start
      rw [Segment.cut, Scan.cutAt, List.map_cons]
      exact congrArg _ (ih (some t.index) t.stop)

/-- The clauses of a text are its chunks between the clause keywords. -/
theorem Segment.ofText_eq (text : List Char) :
    Segment.ofText text = (Scan.chunks openWords text).map Segment.ofChunk := by
  have htokens : (Scan.tokens openWords text).1.filter (·.depth == 0) =
      topTokens openWords anyWord {} text := by
    simp [topTokens, Scan.tokens, anyWord]
  rw [Segment.ofText, Scan.chunks, ← htokens]
  exact Segment.cut_eq text _ none 0

/-- The clauses of the written text are the main table and the sections. -/
theorem segments_tailChars (hq : q.Canonical) :
    Segment.ofText q.tailChars =
      ⟨.source, q.source.chars⟩ :: q.written.map Segment.ofSection := by
  have hfront : Quiet openWords anyWord [] (' ' :: q.source.chars) :=
    (reader_clauses.quiet_ref hq.table hq.aliasName).cons reader_clauses.lawful.formed
      (by decide) (by decide)
  rcases hfront {} [] Scan.settled_start (ends_nil (by simp)) with ⟨htokens, hsettled⟩
  rw [List.append_nil] at htokens
  have hchunks := (Scan.chunks_sections reader_clauses.lawful (sound_written hq) hsettled).1
  rw [Scan.chunks_of_quiet htokens, (solid_chars hq.table hq.aliasName).trim_space] at hchunks
  rw [Segment.ofText_eq, Query.tailChars, hchunks, List.map_append, List.map_map]
  rfl

/-! ## FROM -/

/-- The single words of the keywords that open a clause. -/
def openNames : List (List Char) :=
  openWords.flatMap fun k => k.letters.splitOn ' '

theorem quiet_letters {k : Keyword} (hk : k ∈ openWords) :
    Quiet [.select, .source] (· == 1) [] k.letters := by
  have hformed := reader_source.lawful.formed
  have hname : ∀ s ∈ openNames, IsName s ∧
      ∀ k' ∈ [Keyword.select, .source], s.map Char.toUpper ≠ k'.firstWord := by decide
  have hquiet : ∀ s ∈ openNames, Quiet [.select, .source] (· == 1) [] s := fun s hs =>
    quiet_name hformed (hname s hs).1 (hname s hs).2
  have hletters : ∀ k ∈ openWords, k.letters ∈ openNames ∨
      ∃ s ∈ openNames, ∃ t ∈ openNames, k.letters = s ++ ' ' :: t := by decide
  rcases hletters k hk with h | ⟨s, hs, t, ht, h⟩
  · exact hquiet _ h
  · rw [h]
    exact (hquiet s hs).spaced hformed (hquiet t ht)

/-- Sections show no FROM, from the last one to the first: keyword and body are quiet, and so is the
rest. -/
theorem quiet_sections (hq : q.Canonical) {sections : List Section}
    (hmem : ∀ x ∈ sections, x ∈ q.written) :
    Ends [] (sections.flatMap Section.text) ∧
      Quiet [.select, .source] (· == 1) [] (sections.flatMap Section.text) := by
  have hformed := reader_source.lawful.formed
  induction sections with
  | nil => exact ⟨ends_nil (by simp), Scan.quiet_nil⟩
  | cons x xs ih =>
      rcases ih fun y hy => hmem y (List.mem_cons_of_mem _ hy) with ⟨hends, hrest⟩
      have hx := hmem x List.mem_cons_self
      rcases reader_source.quiet_body hq hx with ⟨hhead, hbody⟩
      have hletters := quiet_letters (List.mem_of_getElem? (Reader.place_written hx))
      have hspace : isIdentifierChar ' ' = false := by decide
      have hbegin : Ends [] x.body := ends_nil (by simpa [hhead] using hspace)
      have htext : Quiet [.select, .source] (· == 1) [] x.text :=
        (hletters.append hbody hbegin (by simp)).cons hformed (by decide) (by decide)
      exact ⟨ends_cons hspace _, htext.append hrest hends (by simp)⟩

/-- The text behind FROM shows no further FROM. -/
theorem quiet_tailChars (hq : q.Canonical) :
    Quiet [.select, .source] (· == 1) [] q.tailChars := by
  rcases quiet_sections hq fun _ hx => hx with ⟨hends, hrest⟩
  have hfront : Quiet [.select, .source] (· == 1) [] (' ' :: q.source.chars) :=
    (reader_source.quiet_ref hq.table hq.aliasName).cons reader_source.lawful.formed (by decide)
      (by decide)
  exact hfront.append hrest hends (by simp)

end ContentQuery
