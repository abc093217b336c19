import ContentQuery.Proofs.Scan.Keywords
import ContentQuery.Proofs.Scan.Tokens

/-!
# Top-level keywords of printed text

Printed text is put together from names, keywords and closed texts.  `Scan.topTokens` is what a
reader looks at: the tokens on the top level that it picks by their place in its list of keywords.
A text is `Scan.Quiet` if it has none of them, wherever it stands between other texts.  Names, texts
in parentheses and closed texts without the keywords are quiet, and so is what is made of them.
-/

namespace ContentQuery
namespace Scan

open Keyword (Ends Lawful Opens isIdentifierChar Spells spelling? ends_cons)
open Chars (isBlank isNameChar IsName)

variable {words : List Keyword} {later : List Char} {pick : Nat → Bool} {s : Scan}

/-- The keywords on the top level of a text that `pick` chooses by their place in the list. -/
def topTokens (words : List Keyword) (pick : Nat → Bool) (s : Scan) (text : List Char) :
    List Token :=
  (tokensFrom words 0 s text).1.filter fun t => t.depth == 0 && pick t.index

theorem topTokens_append (hwords : Lawful words later) {b : List Char} (hb : Ends later b)
    (s : Scan) (a : List Char) :
    topTokens words pick s (a ++ b) =
      topTokens words pick s a ++ topTokens words pick (s.read a) b := by
  rw [topTokens, tokensFrom_append hwords hb, List.filter_append]
  rfl

/-! ## Characters that begin no keyword -/

theorem keyword?_eq_none {c : Char} {cs : List Char}
    (h : ∀ k ∈ words, k.length? s.last (c :: cs) = none) : keyword? words s c cs = none := by
  unfold keyword?
  split
  · exact Keyword.first?_eq_none h
  · rfl

theorem topTokens_cons {c : Char} {cs : List Char} (h : keyword? words s c cs = none) :
    topTokens words pick s (c :: cs) = topTokens words pick (s.step c) cs := by
  rw [topTokens, tokensFrom_of_none h]
  rfl

theorem length?_eq_none {k : Keyword} {last : Option Char} {text : List Char}
    (h : last.any isIdentifierChar = false → spelling? k.letters text = none) :
    k.length? last text = none := by
  cases hlast : last.any isIdentifierChar with
  | true => exact Keyword.length?_of_any k hlast
  | false => rw [Keyword.length?_eq k hlast, h hlast]

/-- A keyword begins with a letter. -/
theorem length?_eq_none_of_not_isAlpha {k : Keyword} (hk : k.WellFormed) {c : Char}
    (hc : c.isAlpha = false) (last : Option Char) (cs : List Char) :
    k.length? last (c :: cs) = none := by
  refine length?_eq_none fun _ => ?_
  obtain ⟨letter, letters, hletters, hletter⟩ := hk.exists_cons
  rw [hletters]
  refine Keyword.spelling?_eq_none hletter fun d hd hupper => ?_
  cases hd
  simp [Keyword.isAlpha_of_toUpper hletter hupper] at hc

theorem topTokens_of_not_isAlpha (hwords : ∀ k ∈ words, k.WellFormed) {text : List Char}
    (htext : ∀ c ∈ text, c.isAlpha = false) (s : Scan) (b : List Char) :
    topTokens words pick s (text ++ b) = topTokens words pick (s.read text) b := by
  induction text generalizing s with
  | nil => rfl
  | cons c cs ih =>
      have hnone : keyword? words s c (cs ++ b) = none := keyword?_eq_none fun k hk =>
        length?_eq_none_of_not_isAlpha (hwords k hk) (htext c (by simp)) _ _
      rw [List.cons_append, topTokens_cons hnone]
      exact ih (fun d hd => htext d (by simp [hd])) (s.step c)

/-- A character that is in no name begins no keyword. -/
theorem keyword?_eq_none_of_not_isNameChar (hwords : ∀ k ∈ words, k.WellFormed) {c : Char}
    (hc : isNameChar c = false) (s : Scan) (cs : List Char) : keyword? words s c cs = none :=
  keyword?_eq_none fun k hk =>
    length?_eq_none_of_not_isAlpha (hwords k hk) (Chars.isAlpha_of_not_isNameChar hc) _ _

theorem topTokens_cons_of_not_isNameChar (hwords : ∀ k ∈ words, k.WellFormed) {c : Char}
    (hc : isNameChar c = false) (s : Scan) (cs : List Char) :
    topTokens words pick s (c :: cs) = topTokens words pick (s.step c) cs :=
  topTokens_cons (keyword?_eq_none_of_not_isNameChar hwords hc s cs)

theorem topTokens_blanks (hwords : ∀ k ∈ words, k.WellFormed) {blanks : List Char}
    (hblanks : ∀ c ∈ blanks, isBlank c = true) (s : Scan) (text : List Char) :
    topTokens words pick s (blanks ++ text) = topTokens words pick (s.read blanks) text :=
  topTokens_of_not_isAlpha hwords (fun c hc =>
    Chars.isAlpha_of_not_isNameChar (Chars.isNameChar_of_isBlank (hblanks c hc))) s text

/-- Within a name no keyword begins. -/
theorem topTokens_of_last (b : List Char) {w : List Char}
    (hw : ∀ c ∈ w, isIdentifierChar c = true) {s : Scan}
    (hlast : s.last.any isIdentifierChar = true) :
    topTokens words pick s (w ++ b) = topTokens words pick (s.read w) b := by
  induction w generalizing s with
  | nil => rfl
  | cons c cs ih =>
      have hnone : keyword? words s c (cs ++ b) = none :=
        keyword?_eq_none fun k _ => Keyword.length?_of_any k hlast
      rw [List.cons_append, topTokens_cons hnone, read_cons]
      exact ih (fun d hd => hw d (by simp [hd])) (by simpa using hw c (by simp))

/-- No keyword begins in a name that is the first word of none, nor in what follows the name in one
identifier. -/
theorem topTokens_identifier (hwords : ∀ k ∈ words, k.WellFormed) {name tail b : List Char}
    (hname : IsName name) (htail : ∀ c ∈ tail, isIdentifierChar c = true)
    (hbound : ∀ c ∈ (tail ++ b).head?, isNameChar c = false)
    (hne : ∀ k ∈ words, name.map Char.toUpper ≠ k.letters.takeWhile (· != ' ')) (s : Scan) :
    topTokens words pick s (name ++ tail ++ b) = topTokens words pick (s.read (name ++ tail)) b := by
  cases hcs : name with
  | nil => exact absurd hcs hname.1
  | cons c cs =>
      -- A keyword starts at a name only if its first word is the whole name, and inside the name
      -- it has an identifier character in front of it.
      have hnone : keyword? words s c (cs ++ tail ++ b) = none := by
        refine keyword?_eq_none fun k hk => length?_eq_none fun _ => ?_
        have h := Keyword.spelling?_name hname.2 (hwords k hk).spelled hbound (hne k hk)
        rwa [hcs, ← List.append_assoc] at h
      rw [List.cons_append, List.cons_append, topTokens_cons hnone, read_cons]
      refine topTokens_of_last b ?_ ?_
      · intro d hd
        rcases List.mem_append.1 hd with hd | hd
        · exact Chars.isIdentifierChar_of_isNameChar (hname.2 d (by simp [hcs, hd]))
        · exact htail d hd
      · have hc := Chars.isIdentifierChar_of_isNameChar (hname.2 c (by simp [hcs]))
        simpa using hc

theorem topTokens_name (hwords : ∀ k ∈ words, k.WellFormed) {name b : List Char}
    (hname : IsName name) (hb : ∀ c ∈ b.head?, isNameChar c = false)
    (hne : ∀ k ∈ words, name.map Char.toUpper ≠ k.letters.takeWhile (· != ' ')) (s : Scan) :
    topTokens words pick s (name ++ b) = topTokens words pick (s.read name) b := by
  have h : topTokens words pick s (name ++ [] ++ b) = topTokens words pick (s.read (name ++ [])) b :=
    topTokens_identifier hwords hname (by simp) (by simpa using hb) hne s
  rwa [List.append_nil] at h

/-- Without parentheses every keyword stands on the top level. -/
theorem topTokens_of_isOrdinary (hwords : ∀ k ∈ words, k.WellFormed) (hs : OnTop s)
    {text : List Char} (htext : ∀ c ∈ text, isOrdinary c = true) (hpick : ∀ i, pick i = true) :
    topTokens words pick s text = (tokensFrom words 0 s text).1 := by
  refine List.filter_eq_self.2 fun t ht => ?_
  obtain ⟨before, c, behind, k, rfl, _, _, _, _, hdepth, _⟩ := found_of_mem hwords ht
  have hbefore : OnTop (s.read before) := hs.read fun d hd => htext d (by simp [hd])
  simp [hdepth, hbefore.depth, hpick]

/-! ## Quiet text -/

/-- Wherever the text stands outside literals and parentheses, it has no picked keyword, provided
that what follows continues no name and none of the words that begin with `later`. -/
def Quiet (words : List Keyword) (pick : Nat → Bool) (later text : List Char) : Prop :=
  ∀ s b, Settled 0 s → Ends later b →
    topTokens words pick s (text ++ b) = topTokens words pick (s.read text) b ∧
      Settled 0 (s.read text)

theorem quiet_nil : Quiet words pick later [] :=
  fun _ _ hs _ => ⟨rfl, hs⟩

/-- Quiet texts behind each other: the first one only has to be quiet before the second. -/
theorem Quiet.append {first a b : List Char} (ha : Quiet words pick first a)
    (hb : Quiet words pick later b) (hend : Ends first b) (hfirst : ∀ c ∈ first, c ∈ later) :
    Quiet words pick later (a ++ b) := by
  intro s c hs hc
  have hends : Ends first (b ++ c) :=
    hend.append ⟨hc.1, fun d hd hmem => hc.2 d hd (hfirst _ hmem)⟩
  rcases ha s (b ++ c) hs hends with ⟨htokens, hsettled⟩
  rcases hb (s.read a) c hsettled hc with ⟨htokens', hsettled'⟩
  rw [List.append_assoc, htokens, htokens', read_append]
  exact ⟨rfl, hsettled'⟩

theorem Quiet.weaken {a : List Char} (ha : Quiet words pick [] a) : Quiet words pick later a :=
  fun s b hs hb => ha s b hs hb.weaken

/-- A blank or a comma in front of a quiet text. -/
theorem Quiet.cons (hwords : ∀ k ∈ words, k.WellFormed) {c : Char} (hc : isNameChar c = false)
    (hordinary : isOrdinary c = true) {a : List Char} (ha : Quiet words pick later a) :
    Quiet words pick later (c :: a) := by
  intro s b hs hb
  rcases ha (s.step c) b (hs.step hordinary) hb with ⟨htokens, hsettled⟩
  rw [List.cons_append, topTokens_cons_of_not_isNameChar hwords hc, read_cons]
  exact ⟨htokens, hsettled⟩

/-- Two quiet texts with blanks between them. -/
theorem Quiet.parted (hwords : ∀ k ∈ words, k.WellFormed) {a blanks b : List Char}
    (ha : Quiet words pick [] a) (hne : blanks ≠ []) (hblanks : ∀ c ∈ blanks, isBlank c = true)
    (hb : Quiet words pick later b) : Quiet words pick later (a ++ (blanks ++ b)) := by
  have hend : Ends [] (blanks ++ b) := by
    obtain ⟨d, ds, rfl⟩ := List.exists_cons_of_ne_nil hne
    exact ends_cons (Chars.isIdentifierChar_of_isBlank (hblanks d (by simp))) _
  refine ha.append ?_ hend (by simp)
  clear hend hne
  induction blanks with
  | nil => exact hb
  | cons c cs ih =>
      obtain ⟨hc, hcs⟩ := List.forall_mem_cons.1 hblanks
      exact (ih hcs).cons hwords (Chars.isNameChar_of_isBlank hc) (isOrdinary_of_isBlank hc)

/-- Two quiet texts with a space between them. -/
theorem Quiet.spaced (hwords : ∀ k ∈ words, k.WellFormed) {a b : List Char}
    (ha : Quiet words pick [] a) (hb : Quiet words pick later b) :
    Quiet words pick later (a ++ ' ' :: b) :=
  ha.parted hwords (List.cons_ne_nil ' ' []) (by decide) hb

/-- A name that is not the first word of a keyword, with what may follow it in one identifier. -/
theorem quiet_identifier (hwords : ∀ k ∈ words, k.WellFormed) {name tail : List Char}
    (hname : IsName name) (htail : ∀ c ∈ tail, isIdentifierChar c = true ∧ isOrdinary c = true)
    (hhead : ∀ c ∈ tail.head?, isNameChar c = false)
    (hne : ∀ k ∈ words, name.map Char.toUpper ≠ k.letters.takeWhile (· != ' ')) :
    Quiet words pick later (name ++ tail) := by
  intro s b hs hb
  have hordinary : ∀ c ∈ name ++ tail, isOrdinary c = true := by
    intro c hc
    rcases List.mem_append.1 hc with hc | hc
    · exact isOrdinary_of_isNameChar (hname.2 c hc)
    · exact (htail c hc).2
  refine ⟨topTokens_identifier hwords hname (fun c hc => (htail c hc).1) ?_ hne s,
    hs.read hordinary⟩
  cases tail with
  | nil => exact Keyword.not_isNameChar_of_ends hb
  | cons d ds => exact hhead

theorem quiet_name (hwords : ∀ k ∈ words, k.WellFormed) {name : List Char} (hname : IsName name)
    (hne : ∀ k ∈ words, name.map Char.toUpper ≠ k.letters.takeWhile (· != ' ')) :
    Quiet words pick later name := by
  have h : Quiet words pick later (name ++ []) :=
    quiet_identifier hwords hname (by simp) (by simp) hne
  rwa [List.append_nil] at h

/-! ## Closed text -/

/-- A condition holds everywhere if it holds at every place. -/
theorem everywhere_iff {p : Scan → Char → List Char → Bool} {text : List Char} :
    everywhere p s text = true ↔
      ∀ before c behind, text = before ++ c :: behind → p (s.read before) c behind = true := by
  induction text generalizing s with
  | nil => simp [everywhere]
  | cons d ds ih =>
      rw [everywhere, Bool.and_eq_true, ih]
      constructor
      · rintro ⟨hhead, hrest⟩ before c behind heq
        cases before with
        | nil =>
            cases heq
            exact hhead
        | cons e before =>
            cases heq
            exact hrest before c behind rfl
      · intro h
        refine ⟨h [] d ds rfl, ?_⟩
        rintro before c behind rfl
        exact h (d :: before) c behind rfl

/-- A text without letters has no keywords. -/
theorem lacksKeywords_of_not_isAlpha (hwords : ∀ k ∈ words, k.WellFormed) {text : List Char}
    (htext : ∀ c ∈ text, c.isAlpha = false) : lacksKeywords words text = true := by
  refine everywhere_iff.2 ?_
  rintro before c behind rfl
  have hnone : (words.any fun k =>
      (k.length? (({} : Scan).read before).last (c :: behind)).isSome) = false := by
    rw [List.any_eq_false]
    intro k hk
    simp [length?_eq_none_of_not_isAlpha (hwords k hk) (htext c (by simp))]
  simp [hnone]

/-- A condition on places that sees nothing of position and surroundings holds for a text inside
another one if it holds for the text alone. -/
theorem everywhere_beside {p : Scan → Char → List Char → Bool}
    (hp : ∀ {s t : Scan} (c : Char) (cs : List Char), Beside s t → p t c cs = p s c cs)
    {t : Scan} (h : Beside s t) (text : List Char) : everywhere p t text = everywhere p s text := by
  induction text generalizing s t with
  | nil => rfl
  | cons c cs ih => rw [everywhere, everywhere, hp c cs h, ih (h.step c)]

theorem lacksKeywords_beside {lacking : List Keyword} {t : Scan} (ht : Beside {} t)
    (text : List Char) :
    everywhere (fun s c cs => !(s.isTopLevel c && lacking.any fun k =>
      (k.length? s.last (c :: cs)).isSome)) t text = lacksKeywords lacking text := by
  refine everywhere_beside ?_ ht text
  intro s t c cs h
  simp only [h.isTopLevel, Keyword.length?, h.bound]

/-- The tokens of a text that is read above its fresh scan stand at least as deep. -/
theorem topTokens_of_above {d : Nat} {t : Scan} {text : List Char}
    (hwords : ∀ k ∈ words, k.WellFormed) (h : Above (d + 1) s t)
    (hstray : (s.read text).strayClose = none) : topTokens words pick t text = [] := by
  refine List.filter_eq_nil_iff.2 fun token htoken => ?_
  -- Before the token the text is read one parenthesis deeper than by the scan below.
  rcases found_of_mem hwords htoken with ⟨before, c, behind, k, rfl, _, _, _, _, hdepth, _⟩
  rw [read_append] at hstray
  have habove := (h.read (strayClose_of_read hstray)).depth
  simp [hdepth, habove]

/-- A text that lacks the picked keywords has none where it begins outside a name. -/
theorem topTokens_of_lacks {lacking : List Keyword} {t : Scan} {text : List Char}
    (hwords : ∀ k ∈ words, k.WellFormed)
    (hpick : ∀ i k, words[i]? = some k → pick i = true → k ∈ lacking)
    (ht : Beside {} t) (hlacks : lacksKeywords lacking text = true) :
    topTokens words pick t text = [] := by
  refine List.filter_eq_nil_iff.2 fun token htoken => ?_
  obtain ⟨before, c, behind, k, rfl, hk, houtside, hlength, _, hdepth, _⟩ :=
    found_of_mem hwords htoken
  rw [Bool.and_eq_true]
  rintro ⟨htop, hpicked⟩
  -- The text was said to lack the keyword at the place of the token.
  rw [← lacksKeywords_beside ht, everywhere_iff] at hlacks
  have hplace := hlacks before c behind rfl
  have htopLevel : (t.read before).isTopLevel c = true := by
    rw [isTopLevel, ← hdepth, htop, houtside]
    rfl
  have hany : lacking.any (fun k => (k.length? (t.read before).last (c :: behind)).isSome) =
      true := by
    rw [List.any_eq_true]
    exact ⟨k, hpick _ k hk hpicked, by rw [hlength]; rfl⟩
  simp [htopLevel, hany] at hplace

/-- A text that begins a new word behind a blank stands like a text of its own. -/
theorem above_of_blank {c : Char} (hs : Settled 0 s) (hordinary : isOrdinary c = true)
    (hc : isIdentifierChar c = false) : Above 0 {} (s.step c) :=
  Above.of_settled (hs.step hordinary) (hs.mode_step hordinary) (last_any_step hc s)

/-- A closed text that lacks the picked keywords is quiet behind a blank. -/
theorem quiet_closed {lacking : List Keyword} {text : List Char} (hwords : Lawful words later)
    (hpick : ∀ i k, words[i]? = some k → pick i = true → k ∈ lacking)
    (htext : Closed text) (hlacks : lacksKeywords lacking text = true) :
    Quiet words pick later (' ' :: text) := by
  intro s b hs hb
  have habove := above_of_blank (c := ' ') hs (by decide) (by decide)
  have hlast : (s.step ' ').last.any isIdentifierChar = false := last_any_step (by decide) s
  have hsettled : Settled 0 ((s.step ' ').read text) :=
    (hs.step (by decide)).read_closed (hs.mode_step (by decide)) hlast htext
  refine ⟨?_, hsettled⟩
  rw [List.cons_append, topTokens_cons_of_not_isNameChar hwords.formed (by decide),
    topTokens_append hwords hb, topTokens_of_lacks hwords.formed hpick habove.beside hlacks]
  rfl

/-- A closed text in parentheses is quiet. -/
theorem quiet_parenthesized {text first : List Char} (hwords : Lawful words later)
    (hlater : ')' ∉ later) (htext : Closed text) :
    Quiet words pick first ('(' :: (text ++ [')'])) := by
  intro s b hs _
  rcases hs.step_open with ⟨hopen, hplain⟩
  have hlast : (s.step '(').last.any isIdentifierChar = false := last_any_step (by decide) s
  have habove : Above 1 {} (s.step '(') := Above.of_settled hopen hplain hlast
  have hstray := (closed_iff_settled.1 htext).stray
  have hinner : Settled 1 ((s.step '(').read text) :=
    hopen.read_closed hplain hlast htext
  have hends : Ends later (')' :: b) := by
    refine ⟨by simp; decide, ?_⟩
    simpa [isBlank] using hlater
  refine ⟨?_, ?_⟩
  -- The parentheses begin no keyword, and what stands between them stands too deep.
  · rw [List.cons_append, topTokens_cons_of_not_isNameChar hwords.formed (by decide),
      List.append_assoc, List.singleton_append, topTokens_append hwords hends,
      topTokens_of_above hwords.formed habove hstray, List.nil_append,
      topTokens_cons_of_not_isNameChar hwords.formed (by decide), read_cons, read_append]
    rfl
  · rw [read_cons, read_append]
    exact hinner.step_close

/-! ## Keywords -/

theorem tokensFrom_letters (b : List Char) {letters : List Char}
    (hletters : ∀ c ∈ letters, isOrdinary c = true) {s : Scan} (hmode : s.mode = .plain) :
    tokensFrom words letters.length s (letters ++ b) = tokensFrom words 0 (s.read letters) b := by
  induction letters generalizing s with
  | nil => rfl
  | cons c cs ih =>
      have hc := hletters c (by simp)
      rw [List.length_cons, List.cons_append, tokensFrom_skip hmode hc, read_cons]
      exact ih (fun d hd => hletters d (by simp [hd]))
        (mode_step_of_isOrdinary hc (isOutside_of_plain hmode c))

/-- A spelled keyword outside literals is a token, followed by those of the text behind it. -/
theorem tokensFrom_spelled (hwords : Lawful words later) {i : Nat} {k : Keyword}
    (hk : Opens words later i k) {stretch : List Char} (hspells : Spells k.letters stretch)
    (hright : s.QuotedRight) (houtside : s.openQuote? = none)
    (hlast : s.last.any isIdentifierChar = false) {b : List Char}
    (hb : ∀ c ∈ b.head?, isIdentifierChar c = false) :
    (tokensFrom words 0 s (stretch ++ b)).1 =
      ⟨i, s.position, s.position + stretch.length, s.depth⟩ ::
        (tokensFrom words 0 (s.read stretch) b).1 := by
  have hformed := hwords.formed k (List.mem_of_getElem? hk.place)
  have hordinary := Keyword.isOrdinary_of_spells hformed.spelled hspells
  have hfirst := Keyword.first?_spelled hk.place hwords.formed hk.differs hspells hlast hb
  obtain ⟨c, cs, rfl⟩ := List.exists_cons_of_ne_nil (hformed.ne_nil_of_spells hspells)
  have hc := hordinary c (by simp)
  have hout := hright.isOutside houtside (isQuote_of_isOrdinary hc)
  have hfound : keyword? words s c (cs ++ b) = some (i, cs.length + 1) := by
    rw [keyword?, if_pos hout]
    exact hfirst
  -- The letters behind the first one are passed, as reading passes them.
  rw [List.cons_append, tokensFrom_of_some hfound, ← step_of_isOrdinary hc hout,
    tokensFrom_letters b (fun d hd => hordinary d (by simp [hd])) (mode_step_of_isOrdinary hc hout)]
  rfl

/-- Blanks with a keyword behind them continue nothing that stands before. -/
theorem ends_spelled (hwords : Lawful words later) {i : Nat} {k : Keyword}
    (hk : Opens words later i k) {blanks stretch : List Char} (hne : blanks ≠ [])
    (hblanks : ∀ c ∈ blanks, isBlank c = true) (hspells : Spells k.letters stretch)
    (b : List Char) : Ends later (blanks ++ (stretch ++ b)) := by
  have hformed := hwords.formed k (List.mem_of_getElem? hk.place)
  obtain ⟨letter, letters, hletters, hletter⟩ := hformed.exists_cons
  have hinitial : letter ∉ later := hk.initial letter (by simp [hletters])
  rw [hletters] at hspells
  obtain ⟨c, cs, rfl, hc, -⟩ := hspells.exists_cons hletter
  obtain ⟨d, ds, rfl⟩ := List.exists_cons_of_ne_nil hne
  have hd := Chars.isIdentifierChar_of_isBlank (hblanks d (by simp))
  refine ⟨by simpa using hd, ?_⟩
  rw [(hspells.takeWhile_blanks hletter hblanks b).2]
  simpa [hc] using hinitial

/-- A keyword behind a blank is a token, followed by those of the text behind it. -/
theorem tokensFrom_keyword (hwords : Lawful words later) {i : Nat} {k : Keyword}
    (hk : Opens words later i k) (hs : Settled 0 s)
    (hlast : s.last.any isIdentifierChar = false) {b : List Char}
    (hb : ∀ c ∈ b.head?, isIdentifierChar c = false) :
    (tokensFrom words 0 s (k.letters ++ b)).1 =
        ⟨i, s.position, s.position + k.letters.length, 0⟩ ::
          (tokensFrom words 0 (s.read k.letters) b).1 ∧
      Settled 0 (s.read k.letters) := by
  have hformed := hwords.formed k (List.mem_of_getElem? hk.place)
  have hspells := Keyword.spells_self hformed.spelled
  refine ⟨?_, hs.read (Keyword.isOrdinary_of_spells hformed.spelled hspells)⟩
  rw [tokensFrom_spelled hwords hk hspells hs.right hs.outside hlast hb, hs.depth_eq]

theorem topTokens_keyword (hwords : Lawful words later) {i : Nat} {k : Keyword}
    (hk : Opens words later i k) (hpick : pick i = true) (hs : Settled 0 s)
    (hlast : s.last.any isIdentifierChar = false) {b : List Char}
    (hb : ∀ c ∈ b.head?, isIdentifierChar c = false) :
    topTokens words pick s (k.letters ++ b) =
        ⟨i, s.position, s.position + k.letters.length, 0⟩ ::
          topTokens words pick (s.read k.letters) b ∧
      Settled 0 (s.read k.letters) := by
  rcases tokensFrom_keyword hwords hk hs hlast hb with ⟨htokens, hsettled⟩
  refine ⟨?_, hsettled⟩
  rw [topTokens, htokens, List.filter_cons_of_pos (by simp [hpick])]
  rfl

end Scan
end ContentQuery
