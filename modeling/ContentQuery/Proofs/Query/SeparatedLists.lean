import ContentQuery.Proofs.Query.Canonical
import ContentQuery.Proofs.Scan.Cuts

/-!
# Lists that are split and joined again

A list is written with a comma and a blank between its entries, and read by a split at the commas on
the top level.  The split gives entries that are trimmed, not empty and without a comma of their own,
and each of them but the last ends on the top level: only the last may leave a literal or a
parenthesis open.  Every list of this kind comes back when it is joined and split, whatever text it
came from.  A closing parenthesis too many does no harm.
-/

namespace ContentQuery
namespace Scan

variable {separator : Char} {e rest : List Char}

/-! ## Trimmed pieces -/

/-- Blanks in front of a text do not change how it is read. -/
theorem beside_read_blanks {blanks : List Char} (hblanks : ∀ c ∈ blanks, Chars.isBlank c = true) :
    Beside {} (({} : Scan).read blanks) := by
  by_cases hne : blanks = []
  · subst hne
    exact ⟨rfl, rfl, rfl⟩
  · exact settled_start.onTop.beside_of_blanks hne hblanks

/-- Blanks do not lead out of a literal or of parentheses. -/
theorem OnTop.of_read_blanks {s : Scan} (hs : s.QuotedRight) {blanks : List Char}
    (hblanks : ∀ c ∈ blanks, Chars.isBlank c = true) (h : OnTop (s.read blanks)) : OnTop s := by
  by_cases hne : blanks = []
  · subst hne
    exact h
  · obtain ⟨hmode, hdepth, -⟩ :=
      read_inert hs (fun c hc => isInert_of_isBlank (hblanks c hc)) hne
    have hout := h.outside
    refine ⟨?_, hdepth.symm.trans h.depth, hs⟩
    cases hm : s.mode with
    | plain => simp [openQuote?, hm]
    | closing q => simp [openQuote?, hm]
    | quoted q => simp [openQuote?, hmode, hm, Mode.rest] at hout
    | escaped q => simp [openQuote?, hmode, hm, Mode.rest] at hout

/-- A piece that ends on the top level does so without the blanks around it. -/
theorem OnTop.read_trim (h : OnTop (({} : Scan).read e)) :
    OnTop (({} : Scan).read (Chars.trim e)) := by
  obtain ⟨u, v, hu, hv, he⟩ := Chars.exists_blanks e
  rw [he, read_append, read_append] at h
  have hbeside : Beside {} (({} : Scan).read u) := beside_read_blanks hu
  have hinner : OnTop ((({} : Scan).read u).read (Chars.trim e)) :=
    h.of_read_blanks ((quotedRight_read u).read _) hv
  have hback : Beside ((({} : Scan).read u).read (Chars.trim e))
      (({} : Scan).read (Chars.trim e)) := by
    have hread := hbeside.read (Chars.trim e)
    exact ⟨hread.mode.symm, hread.depth.symm, hread.bound.symm⟩
  exact hback.onTop hinner

/-- Trimming brings no separator to the top level. -/
theorem lacksSeparator_trim (h : lacksSeparator separator e = true) :
    lacksSeparator separator (Chars.trim e) = true := by
  obtain ⟨u, v, hu, -, he⟩ := Chars.exists_blanks e
  rw [lacksSeparator, everywhere_iff] at h ⊢
  intro before c behind hsplit
  have hplace := h (u ++ before) c (behind ++ v) (by rw [he, hsplit]; simp)
  rwa [read_append, ((beside_read_blanks hu).read before).isTopLevel] at hplace

/-! ## Splitting piece by piece -/

/-- A text without a separator is one entry, or none if it is blank. -/
theorem splitTopLevel_of_lacks (he : lacksSeparator separator e = true) :
    splitTopLevel separator e = [Chars.trim e].filter (!·.isEmpty) := by
  rw [splitTopLevel, pieces_of_lacks he, List.map_singleton]

/-- The entries on either side of a separator are those of two texts. -/
theorem splitTopLevel_append_cons (hseparator : Keyword.isIdentifierChar separator = false)
    (he : lacksSeparator separator e = true)
    (htop : (({} : Scan).read e).isTopLevel separator = true) (rest : List Char) :
    splitTopLevel separator (e ++ separator :: rest) =
      splitTopLevel separator e ++ splitTopLevel separator rest := by
  rw [splitTopLevel_of_lacks he, splitTopLevel, pieces_append_cons hseparator he htop,
    List.map_cons, ← List.singleton_append, List.filter_append]
  rfl

/-- A space in front of a text is trimmed with the first entry. -/
theorem splitTopLevel_space_cons (hspace : ' ' ≠ separator) (text : List Char) :
    splitTopLevel separator (' ' :: text) = splitTopLevel separator text := by
  have hbeside : Beside {} (({} : Scan).step ' ') := ⟨rfl, rfl, by decide⟩
  have hpieces : pieces separator {} (' ' :: text) = consHead ' ' (pieces separator {} text) := by
    rw [pieces, if_neg (mt And.left hspace), pieces_beside hbeside]
  obtain ⟨first, rest, hfirst⟩ := List.exists_cons_of_ne_nil (pieces_ne_nil separator {} text)
  rw [splitTopLevel, splitTopLevel, hpieces, hfirst, consHead, List.map_cons, List.map_cons,
    Chars.trim_space_cons]

/-! ## What a split gives -/

/-- An entry of a list: trimmed, not empty, and without a separator of its own. -/
structure Entry (separator : Char) (text : List Char) : Prop where
  trimmed : Chars.trim text = text
  filled : text ≠ []
  lacks : lacksSeparator separator text = true

instance (separator : Char) (text : List Char) : Decidable (Entry separator text) :=
  decidable_of_iff
    (Chars.trim text = text ∧ text ≠ [] ∧ lacksSeparator separator text = true)
    ⟨fun h => ⟨h.1, h.2.1, h.2.2⟩, fun h => ⟨h.trimmed, h.filled, h.lacks⟩⟩

/-- The lists that a split can give: the last entry may leave something open, the ones before it end
on the top level. -/
inductive Listed (separator : Char) : List (List Char) → Prop
  | nil : Listed separator []
  | last {e : List Char} : Entry separator e → Listed separator [e]
  | cons {e : List Char} {es : List (List Char)} : Entry separator e →
      OnTop (({} : Scan).read e) → Listed separator es → Listed separator (e :: es)

/-- Trimmed and filtered, a piece is an entry or nothing. -/
theorem splitTopLevel_entry (he : lacksSeparator separator e = true) :
    splitTopLevel separator e = [] ∨
      splitTopLevel separator e = [Chars.trim e] ∧ Entry separator (Chars.trim e) := by
  rw [splitTopLevel_of_lacks he]
  by_cases hblank : Chars.trim e = []
  · exact .inl (by simp [hblank])
  · exact .inr ⟨by simp [hblank], Chars.trim_trim e, hblank, lacksSeparator_trim he⟩

/-- Whatever the text, its entries form such a list. -/
theorem listed_splitTopLevel (hseparator : Keyword.isIdentifierChar separator = false)
    (text : List Char) : Listed separator (splitTopLevel separator text) := by
  induction text using pieces_induction separator with
  | single e he =>
      rcases splitTopLevel_entry he with hnone | ⟨hone, hentry⟩
      · rw [hnone]
        exact .nil
      · rw [hone]
        exact .last hentry
  | cons e rest he htop ih =>
      rw [splitTopLevel_append_cons hseparator he htop]
      rcases splitTopLevel_entry he with hnone | ⟨hone, hentry⟩
      · rw [hnone]
        exact ih
      · -- The piece ends where the separator stands, on the top level.
        have hends : OnTop (({} : Scan).read e) :=
          ⟨openQuote?_of_isOutside (isTopLevel_iff.1 htop).2, (isTopLevel_iff.1 htop).1,
            quotedRight_read e⟩
        rw [hone]
        exact .cons hentry hends.read_trim ih

/-! ## Splitting what was joined -/

theorem Entry.splitTopLevel (h : Entry separator e) : splitTopLevel separator e = [e] := by
  have hfilled : e.isEmpty = false := by simpa using h.filled
  rw [splitTopLevel_of_lacks h.lacks, h.trimmed]
  simp [hfilled]

/-- Parts that all end on the top level form such a list. -/
theorem listed_of_onTop {es : List (List Char)}
    (hparts : ∀ e ∈ es, Entry separator e ∧ OnTop (({} : Scan).read e)) : Listed separator es := by
  induction es with
  | nil => exact .nil
  | cons e es ih =>
      obtain ⟨⟨hentry, hends⟩, hrest⟩ := List.forall_mem_cons.1 hparts
      exact .cons hentry hends (ih hrest)

/-- A list of this kind, joined and split, comes back. -/
theorem Listed.splitTopLevel_joined (hordinary : isOrdinary separator = true)
    (hidentifier : Keyword.isIdentifierChar separator = false) (hspace : ' ' ≠ separator)
    {es : List (List Char)} (h : Listed separator es) :
    splitTopLevel separator (joined separator es) = es := by
  induction h with
  | nil => rfl
  | last he => simpa [joined] using he.splitTopLevel
  | @cons e es he hends _ ih =>
      cases es with
      | nil => simpa [joined] using he.splitTopLevel
      | cons f fs =>
          have htop : (({} : Scan).read e).isTopLevel separator = true :=
            isTopLevel_iff.2 ⟨hends.depth,
              hends.right.isOutside hends.outside (isQuote_of_isOrdinary hordinary)⟩
          have hjoined : joined separator (e :: f :: fs) =
              e ++ separator :: ' ' :: joined separator (f :: fs) := by
            simp [joined]
          rw [hjoined, splitTopLevel_append_cons hidentifier he.lacks htop, he.splitTopLevel,
            splitTopLevel_space_cons hspace, ih]
          rfl

theorem Listed.splitTopLevel_commas {es : List (List Char)} (h : Listed ',' es) :
    splitTopLevel ',' (joined ',' es) = es :=
  h.splitTopLevel_joined (by decide) (by decide) (by decide)

/-- Splitting gives the closed parts of a list back. -/
theorem splitTopLevel_joined {parts : List (List Char)} (hparts : ∀ q ∈ parts, Part ',' q) :
    splitTopLevel ',' (joined ',' parts) = parts := by
  refine (listed_of_onTop fun q hq => ?_).splitTopLevel_commas
  have hpart := hparts q hq
  exact ⟨⟨hpart.solid.trim, hpart.solid.ne_nil, hpart.lacks⟩,
    (closed_iff_settled.1 hpart.closed).onTop⟩

/-- The written form of a list at commas, read again. -/
theorem Listed.splitTopLevel_joinComma {parts : List String}
    (h : Listed ',' (parts.map String.toList)) :
    splitTopLevel ',' (Text.join ", " parts).toList = parts.map String.toList := by
  rw [Query.toList_joinComma]
  exact h.splitTopLevel_commas

/-- The entries of a text, written as a list, are its entries again. -/
theorem splitTopLevel_rejoined (text : List Char) :
    splitTopLevel ',' (Text.join ", " ((splitTopLevel ',' text).map String.ofList)).toList =
      splitTopLevel ',' text := by
  have hback : ((splitTopLevel ',' text).map String.ofList).map String.toList =
      splitTopLevel ',' text := by
    simp [Function.comp_def]
  have hlisted : Listed ',' (splitTopLevel ',' text) := listed_splitTopLevel (by decide) text
  rw [← hback] at hlisted
  exact hlisted.splitTopLevel_joinComma.trans hback

/-- Splitting undoes joining, for parts that close their literals and parentheses, and joining undoes
splitting, for every text. -/
theorem splitTopLevel_join_inverse :
    (∀ parts : List String,
        (∀ part ∈ parts, Entry ',' part.toList ∧
          (({} : Scan).read part.toList).openQuote? = none ∧
            (({} : Scan).read part.toList).depth = 0) →
        splitTopLevel ',' (Text.join ", " parts).toList = parts.map String.toList) ∧
      ∀ text : String,
        splitTopLevel ','
            (Text.join ", " ((splitTopLevel ',' text.toList).map String.ofList)).toList =
          splitTopLevel ',' text.toList := by
  refine ⟨fun parts hparts => Listed.splitTopLevel_joinComma (listed_of_onTop ?_),
    fun text => splitTopLevel_rejoined text.toList⟩
  intro e he
  obtain ⟨part, hpart, rfl⟩ := List.mem_map.1 he
  obtain ⟨hentry, houtside, hdepth⟩ := hparts part hpart
  exact ⟨hentry, houtside, hdepth, quotedRight_read _⟩

/-- Doubled quotes, an escape, commas in calls and in literals, and a parenthesis too many. -/
theorem splitTopLevel_join_inverse_quoted :
    splitTopLevel ',' (Text.join ", " ["'it''s, '", "IF(uid, 'a\\', b', ')')", "x)"]).toList =
      ["'it''s, '", "IF(uid, 'a\\', b', ')')", "x)"].map String.toList :=
  splitTopLevel_join_inverse.1 _ (by decide)

end Scan

/-! ## Grouping and ordering -/

/-- The parts of a GROUP BY clause, written as a clause, are read as the same parts. -/
theorem readGroup_rejoined (text : List Char) :
    readGroup (Text.join ", " (readGroup text)).toList = readGroup text := by
  rw [readGroup, readGroup, Scan.splitTopLevel_rejoined]

/-- The parts of an ORDER BY clause, written as a clause, are read as the same parts, with the same
fields and directions. -/
theorem readOrder_rejoined (text : List Char) :
    readOrder (Text.join ", " (readOrder text).1).toList = readOrder text := by
  rw [readOrder, readOrder, Scan.splitTopLevel_rejoined]

end ContentQuery
