import Mathlib.Data.List.DropRight
import ContentQuery.Proofs.Query.Clauses

/-!
# Row limits of joins

The text of an ON clause may end in a row limit: MAX at its start or behind a blank, and behind more
blanks a number that fits a word.  The end of the text alone decides, so calls of MAX, further ONs
and literals that look like a limit stay in the condition, wherever they stand before that end.
-/

namespace ContentQuery

open Chars (IsDigits IsName Numeral Solid isBlank wordBound)
open Keyword (Spells isIdentifierChar)
open Scan (Quiet anyWord splitAtKeyword)

/-! ## Runs at the end of a text -/

namespace Chars

/-- A run of blanks that separates. -/
def IsBlanks (s : List Char) : Prop :=
  s ≠ [] ∧ ∀ c ∈ s, isBlank c = true

instance (s : List Char) : Decidable (IsBlanks s) :=
  inferInstanceAs (Decidable (_ ∧ _))

/-- At the end of a text a run is what stands behind another kind of character. -/
theorem run_append_end {p : Char → Bool} {front run : List Char} (hrun : ∀ c ∈ run, p c = true)
    (hfront : ∀ c ∈ front.getLast?, p c = false) :
    (front ++ run).rtakeWhile p = run ∧ (front ++ run).rdropWhile p = front := by
  have hreverse : ∀ c ∈ run.reverse, p c = true := fun c hc => hrun c (List.mem_reverse.1 hc)
  have hhead : ∀ c ∈ front.reverse.head?, p c = false := by simpa using hfront
  obtain ⟨htake, hdrop⟩ := run_append hreverse hhead
  constructor
  · rw [List.rtakeWhile, List.reverse_append, htake, List.reverse_reverse]
  · rw [List.rdropWhile, List.reverse_append, hdrop, List.reverse_reverse]

theorem getLast?_append_run {P : Char → Prop} {front run : List Char} (hne : run ≠ [])
    (hrun : ∀ c ∈ run, P c) : ∀ c ∈ (front ++ run).getLast?, P c := by
  intro c hc
  rw [List.getLast?_append_of_ne_nil _ hne] at hc
  exact hrun c (List.mem_of_getLast? hc)

/-- Without a sign a number is its digits. -/
theorem Numeral.isDigits {s : List Char} {n : Nat} (h : Numeral s n)
    (hs : ∀ c ∈ s, c.isDigit = true) : IsDigits s ∧ Nat.ofDigitChars 10 s 0 = n := by
  cases h with
  | digits h => exact ⟨h, rfl⟩
  | signed _ => exact absurd (hs '+' (by simp)) (by decide)

end Chars

/-! ## Spelled words -/

namespace Keyword

variable {letters stretch : List Char}

/-- A single word is spelled by the texts that have its letters as capitals. -/
theorem spells_iff_map (hletters : ∀ letter ∈ letters, letter.isUpper = true) :
    Spells letters stretch ↔ stretch.map Char.toUpper = letters := by
  constructor
  · intro h
    induction h with
    | nil => rfl
    | letter _ hc _ ih => rw [List.map_cons, hc, ih (List.forall_mem_cons.1 hletters).2]
    | space => exact absurd (hletters ' ' (by simp)) (by decide)
  · rintro rfl
    induction stretch with
    | nil => exact .nil
    | cons c cs ih =>
        obtain ⟨hc, hcs⟩ := List.forall_mem_cons.1 hletters
        exact .letter (ne_space_of_isUpper hc) rfl (ih hcs)

theorem isNameChar_of_spells (hletters : ∀ letter ∈ letters, letter.isUpper = true)
    (h : Spells letters stretch) : ∀ c ∈ stretch, Chars.isNameChar c = true := by
  rw [spells_iff_map hletters] at h
  subst h
  exact fun c hc => isNameChar_of_toUpper (hletters _ (List.mem_map_of_mem hc)) rfl

end Keyword

/-! ## Row limits -/

namespace Join

/-- Where the MAX of a row limit begins: at the start, or behind a blank, which goes with it. -/
theorem beforeMax?_eq_some_iff {text condition : List Char} :
    beforeMax? text = some condition ↔
      ∃ front max, text = front ++ max ∧ Spells Keyword.max.letters max ∧
        (∀ c ∈ front.getLast?, isBlank c = true) ∧ front.dropLast = condition := by
  have hletters : ∀ letter ∈ Keyword.max.letters, letter.isUpper = true := by decide
  constructor
  · intro h
    unfold beforeMax? at h
    split at h
    · next x a m before hreverse =>
        have htext : text = before.reverse ++ [m, a, x] := by
          rw [← List.reverse_reverse text, hreverse]
          simp
        split at h
        · next hmax =>
            refine ⟨before.reverse, [m, a, x], htext, (Keyword.spells_iff_map hletters).2 hmax, ?_⟩
            -- Nothing stands in front of MAX, or a blank that is dropped with it.
            cases before with
            | nil => exact ⟨by simp, by simpa using h⟩
            | cons b rest =>
                have hb : isBlank b = true := by
                  by_contra hb
                  simp [hb] at h
                exact ⟨by simpa using hb, by simpa [hb] using h⟩
        · cases h
    · cases h
  · rintro ⟨front, max, rfl, hmax, hblank, rfl⟩
    rw [Keyword.spells_iff_map hletters] at hmax
    obtain ⟨m, a, x, rfl⟩ : ∃ m a x, max = [m, a, x] := by
      have hlength := congrArg List.length hmax
      rw [List.length_map] at hlength
      exact List.length_eq_three.1 (hlength.trans (by decide))
    have hreverse : (front ++ [m, a, x]).reverse = x :: a :: m :: front.reverse := by simp
    unfold beforeMax?
    rw [hreverse]
    simp only [hmax, if_true]
    rcases List.eq_nil_or_concat front with rfl | ⟨rest, b, rfl⟩
    · rfl
    · have hb : isBlank b = true := hblank b (by simp)
      simp [hb]

/-- A text that ends in a row limit: MAX, at the start or behind a blank, and a number behind more
blanks. -/
def EndsInLimit (text front : List Char) (n : Nat) : Prop :=
  ∃ max blanks digits tail, text = front ++ (max ++ (blanks ++ (digits ++ tail))) ∧
    (∀ c ∈ front.getLast?, isBlank c = true) ∧ Spells Keyword.max.letters max ∧
    Chars.IsBlanks blanks ∧ IsDigits digits ∧ Nat.ofDigitChars 10 digits 0 = n ∧ n < wordBound ∧
    ∀ c ∈ tail, isBlank c = true

/-- How a limit is found: blanks, digits and blanks are taken from the end, and MAX is left there. -/
theorem splitRowLimit_of_parts {text body digits before spaced condition : List Char} {n : Nat}
    (hbody : Chars.trimEnd text = body)
    (hdigits : (body.reverse.takeWhile Char.isDigit).reverse = digits)
    (hbefore : (body.reverse.dropWhile Char.isDigit).reverse = before)
    (hspaced : Chars.trimEnd before = spaced) (hword : Chars.word? digits = some n)
    (hcondition : beforeMax? spaced = some condition) (hblanks : spaced.length < before.length) :
    splitRowLimit text = (Chars.trim condition, some n) := by
  subst hbody hdigits hbefore hspaced
  unfold splitRowLimit
  simp only [hword, hcondition, if_pos hblanks]

/-- A row limit is taken off with all that stands behind it. -/
theorem EndsInLimit.splitRowLimit {text front : List Char} {n : Nat}
    (h : EndsInLimit text front n) : splitRowLimit text = (Chars.trim front, some n) := by
  obtain ⟨max, blanks, digits, tail, rfl, hfront, hmax, hblanks, hdigits, hn, hbound, htail⟩ := h
  have hmaxne : max ≠ [] := Keyword.WellFormed.ne_nil_of_spells (k := Keyword.max) (by decide) hmax
  -- Each piece ends with a character that is not in the next one.
  have hdigitEnd : ∀ c ∈ (front ++ max ++ blanks ++ digits).getLast?, isBlank c = false :=
    Chars.getLast?_append_run hdigits.1 fun c hc =>
      Chars.isBlank_of_isNameChar (Chars.isNameChar_iff.2 (.inr (.inl (hdigits.2 c hc))))
  have hblankEnd : ∀ c ∈ (front ++ max ++ blanks).getLast?, c.isDigit = false :=
    Chars.getLast?_append_run hblanks.1 fun c hc => by
      have hname := Chars.isNameChar_of_isBlank (hblanks.2 c hc)
      by_contra hdigit
      simp [Chars.isNameChar_iff.2 (.inr (.inl (by simpa using hdigit)))] at hname
  have hmaxEnd : ∀ c ∈ (front ++ max).getLast?, isBlank c = false :=
    Chars.getLast?_append_run hmaxne fun c hc =>
      Chars.isBlank_of_isNameChar (Keyword.isNameChar_of_spells (by decide) hmax c hc)
  have hbody := (Chars.run_append_end htail hdigitEnd).2
  obtain ⟨htake, hbefore⟩ := Chars.run_append_end hdigits.2 hblankEnd
  have hspaced := (Chars.run_append_end hblanks.2 hmaxEnd).2
  have hword : Chars.word? digits = some n :=
    Chars.word?_eq_some_iff.2 ⟨hn ▸ .digits hdigits, hbound⟩
  have hcondition : beforeMax? (front ++ max) = some front.dropLast :=
    beforeMax?_eq_some_iff.2 ⟨front, max, rfl, hmax, hfront, rfl⟩
  have hlength : (front ++ max).length < (front ++ max ++ blanks).length := by
    have hpositive := List.length_pos_of_ne_nil hblanks.1
    simp only [List.length_append]
    omega
  have hsplit := splitRowLimit_of_parts hbody htake hbefore hspaced hword hcondition hlength
  have htrim : Chars.trim front.dropLast = Chars.trim front := by
    rcases List.eq_nil_or_concat front with rfl | ⟨rest, b, rfl⟩
    · rfl
    · rw [List.concat_eq_append, List.dropLast_concat,
        Chars.trim_append_blanks (by simpa using hfront)]
  rw [htrim] at hsplit
  simpa only [List.append_assoc] using hsplit

/-- What is taken off was a row limit. -/
theorem endsInLimit_of_splitRowLimit {text : List Char} {n : Nat}
    (h : (splitRowLimit text).2 = some n) : ∃ front, EndsInLimit text front n := by
  unfold Join.splitRowLimit at h
  simp only at h
  split at h
  · next limit condition hword hcondition =>
      split at h
      · next hlength =>
          cases h
          obtain ⟨front, max, hspaced, hmax, hfront, -⟩ := beforeMax?_eq_some_iff.1 hcondition
          obtain ⟨hnumeral, hbound⟩ := Chars.word?_eq_some_iff.1 hword
          obtain ⟨hdigits, hn⟩ := hnumeral.isDigits fun c hc => List.mem_rtakeWhile_imp hc
          -- The pieces that were taken from the end are those of the text.
          set body := Chars.trimEnd text with hbody
          set before := (body.reverse.dropWhile Char.isDigit).reverse with hbefore
          set digits := (body.reverse.takeWhile Char.isDigit).reverse
          have htext : body ++ text.rtakeWhile isBlank = text := List.rdropWhile_append_rtakeWhile
          have hcut : before ++ digits = body := List.rdropWhile_append_rtakeWhile
          have hblanks : Chars.trimEnd before ++ before.rtakeWhile isBlank = before :=
            List.rdropWhile_append_rtakeWhile
          have hne : before.rtakeWhile isBlank ≠ [] := by
            intro hnil
            rw [hnil, List.append_nil] at hblanks
            rw [hblanks] at hlength
            exact absurd hlength (Nat.lt_irrefl _)
          refine ⟨front, max, before.rtakeWhile isBlank, digits, text.rtakeWhile isBlank, ?_, hfront,
            hmax, ⟨hne, fun c hc => List.mem_rtakeWhile_imp hc⟩, hdigits, hn, hbound,
            fun c hc => List.mem_rtakeWhile_imp hc⟩
          calc text = (Chars.trimEnd before ++ before.rtakeWhile isBlank ++ digits) ++
                text.rtakeWhile isBlank := by rw [hblanks, hcut, htext]
            _ = front ++ (max ++ (before.rtakeWhile isBlank ++ (digits ++
                text.rtakeWhile isBlank))) := by
              rw [hspaced]
              simp only [List.append_assoc]
      · cases h
  · cases h

/-- No limit is found exactly if the text ends in none. -/
theorem splitRowLimit_eq_none_iff {text : List Char} :
    (splitRowLimit text).2 = none ↔ ∀ front n, ¬EndsInLimit text front n := by
  constructor
  · intro h front n hlimit
    rw [hlimit.splitRowLimit] at h
    cases h
  · intro h
    rw [Option.eq_none_iff_forall_ne_some]
    intro n hlimit
    obtain ⟨front, hends⟩ := endsInLimit_of_splitRowLimit hlimit
    exact h front n hends

end Join

/-! ## Written joins -/

/-- A join as it may be written, with the blanks between its parts and the spelling of AS and ON. -/
structure WrittenJoin where
  table : List Char
  beforeAs : List Char
  as : List Char
  afterAs : List Char
  aliasName : List Char
  beforeOn : List Char
  on : List Char
  afterOn : List Char
  condition : List Char

namespace WrittenJoin

def refChars (w : WrittenJoin) : List Char :=
  w.table ++ (w.beforeAs ++ (w.as ++ (w.afterAs ++ w.aliasName)))

def chars (w : WrittenJoin) : List Char :=
  w.refChars ++ (w.beforeOn ++ (w.on ++ (w.afterOn ++ w.condition)))

/-- The join that is meant, with a row limit or without. -/
def join (w : WrittenJoin) (kind : JoinKind) (rowLimit : Option Nat) : Join where
  kind := kind
  table := String.ofList w.table
  aliasName := String.ofList w.aliasName
  on := String.ofList w.condition
  rowLimit := rowLimit

/-- The table and its alias are words that are not read as AS or ON, and the condition is any text
that is neither blank nor has blanks around it. -/
structure Sound (w : WrittenJoin) : Prop where
  table : IsName w.table
  tableWord : ∀ k ∈ [Keyword.as, Keyword.on], w.table.map Char.toUpper ≠ k.letters
  beforeAs : Chars.IsBlanks w.beforeAs
  as : Spells Keyword.as.letters w.as
  afterAs : Chars.IsBlanks w.afterAs
  aliasName : IsName w.aliasName
  aliasWord : w.aliasName.map Char.toUpper ≠ Keyword.on.letters
  beforeOn : Chars.IsBlanks w.beforeOn
  on : Spells Keyword.on.letters w.on
  afterOn : Chars.IsBlanks w.afterOn
  condition : Solid w.condition

end WrittenJoin

/-- A row limit as it may be written behind a condition. -/
structure WrittenLimit where
  beforeMax : List Char
  max : List Char
  afterMax : List Char
  digits : List Char

namespace WrittenLimit

def chars (x : WrittenLimit) : List Char :=
  x.beforeMax ++ (x.max ++ (x.afterMax ++ x.digits))

structure Sound (x : WrittenLimit) (n : Nat) : Prop where
  beforeMax : Chars.IsBlanks x.beforeMax
  max : Spells Keyword.max.letters x.max
  afterMax : Chars.IsBlanks x.afterMax
  digits : IsDigits x.digits
  value : Nat.ofDigitChars 10 x.digits 0 = n
  fits : n < wordBound

/-- The limits in decimal, with any blanks and in either case. -/
theorem sound_decimal {beforeMax max afterMax : List Char} (hbefore : Chars.IsBlanks beforeMax)
    (hmax : Spells Keyword.max.letters max) (hafter : Chars.IsBlanks afterMax) {n : Nat}
    (hn : n < wordBound) : Sound ⟨beforeMax, max, afterMax, Chars.decimal n⟩ n :=
  have hnumeral := Chars.number?_eq_some_iff.1 (Chars.number?_decimal n)
  have hdigits := hnumeral.isDigits fun _ hc => Chars.isDigit_of_mem_decimal hc
  ⟨hbefore, hmax, hafter, hdigits.1, hdigits.2, hn⟩

/-- A limit behind a condition is a limit of the text. -/
theorem Sound.endsInLimit {x : WrittenLimit} {n : Nat} (hx : x.Sound n) (condition : List Char) :
    Join.EndsInLimit (condition ++ x.chars) (condition ++ x.beforeMax) n := by
  refine ⟨x.max, x.afterMax, x.digits, [], ?_, ?_, hx.max, hx.afterMax, hx.digits, hx.value, hx.fits,
    by simp⟩
  · simp only [chars, List.append_assoc, List.append_nil]
  · exact Chars.getLast?_append_run hx.beforeMax.1 hx.beforeMax.2

end WrittenLimit

namespace WrittenJoin

variable {w : WrittenJoin}

theorem Sound.quiet_table (hw : w.Sound) {words : List Keyword}
    (hwords : ∀ k ∈ words, k ∈ [Keyword.as, Keyword.on]) : Quiet words anyWord [] w.table := by
  have hkeywords : ∀ k ∈ [Keyword.as, Keyword.on],
      k.WellFormed ∧ k.letters.takeWhile (· != ' ') = k.letters := by decide
  refine Scan.quiet_name (fun k hk => (hkeywords k (hwords k hk)).1) hw.table fun k hk => ?_
  rw [(hkeywords k (hwords k hk)).2]
  exact hw.tableWord k (hwords k hk)

/-- No ON stands in front of the one that opens the condition. -/
theorem Sound.quiet_refChars (hw : w.Sound) : Quiet [.on] anyWord [] w.refChars := by
  have hformed : ∀ k ∈ [Keyword.on], k.WellFormed := by decide
  have hletters : ∀ letter ∈ Keyword.as.letters, letter.isUpper = true := by decide
  have has : Quiet [.on] anyWord [] w.as := by
    refine Scan.quiet_name hformed ⟨?_, Keyword.isNameChar_of_spells hletters hw.as⟩ ?_
    · exact Keyword.WellFormed.ne_nil_of_spells (k := Keyword.as) (by decide) hw.as
    · rw [(Keyword.spells_iff_map hletters).1 hw.as]
      decide
  have halias : Quiet [.on] anyWord [] w.aliasName := by
    refine Scan.quiet_name hformed hw.aliasName fun k hk => ?_
    rw [List.mem_singleton.1 hk]
    exact hw.aliasWord
  exact (hw.quiet_table (by simp)).parted hformed hw.beforeAs.1 hw.beforeAs.2
    (has.parted hformed hw.afterAs.1 hw.afterAs.2 halias)

theorem head_of_isBlanks {blanks : List Char} (h : Chars.IsBlanks blanks) (text : List Char) :
    ∀ c ∈ (blanks ++ text).head?, isIdentifierChar c = false := by
  obtain ⟨b, bs, rfl⟩ := List.exists_cons_of_ne_nil h.1
  exact Keyword.head_cons (Chars.isIdentifierChar_of_isBlank (h.2 b (by simp))) _

theorem Sound.ofText_refChars (hw : w.Sound) :
    TableRef.ofText w.refChars = ⟨String.ofList w.table, String.ofList w.aliasName⟩ := by
  have htrim : Chars.trim (w.afterAs ++ w.aliasName) = w.aliasName := by
    rw [Chars.trim_blanks_append hw.afterAs.2, hw.aliasName.trim]
  have h := TableRef.ofText_spelled (hw.quiet_table (by simp)) hw.beforeAs.1 hw.beforeAs.2 hw.as
    (head_of_isBlanks hw.afterAs w.aliasName) (htrim.symm ▸ hw.aliasName.1)
  rwa [hw.table.trim, htrim] at h

/-- Reading a written join leaves the text behind ON to be split. -/
theorem Sound.ofText_append (hw : w.Sound) (kind : JoinKind) {rest : List Char}
    {rowLimit : Option Nat}
    (hrest : Join.splitRowLimit (Chars.trim (w.condition ++ rest)) = (w.condition, rowLimit)) :
    Join.ofText kind (w.chars ++ rest) = w.join kind rowLimit := by
  have hsplit : splitAtKeyword .on (w.chars ++ rest) =
      (Chars.trim w.refChars, some (Chars.trim (w.condition ++ rest))) := by
    have h := splitAtKeyword_spelled (by decide) hw.quiet_refChars hw.beforeOn.1 hw.beforeOn.2 hw.on
      (head_of_isBlanks hw.afterOn (w.condition ++ rest))
    rw [Chars.trim_blanks_append hw.afterOn.2] at h
    simpa only [chars, List.append_assoc] using h
  have hsolid : Solid w.refChars := by
    have h := hw.table.solid.append hw.aliasName.solid (w.beforeAs ++ (w.as ++ w.afterAs))
    simpa only [refChars, List.append_assoc] using h
  rw [Join.ofText, hsplit]
  simp only [hsolid.trim, hw.ofText_refChars, hrest]
  rfl

end WrittenJoin

namespace Join

/-- Row limits are taken off and nothing else is: a join is read with its limit if one is written
behind the condition, and without one if the condition ends in none. -/
theorem ofText_rowLimit {w : WrittenJoin} (hw : w.Sound) (kind : JoinKind) {trailing : List Char}
    (htrailing : ∀ c ∈ trailing, isBlank c = true) :
    (∀ (x : WrittenLimit) (n : Nat), x.Sound n →
        ofText kind (w.chars ++ (x.chars ++ trailing)) = w.join kind (some n)) ∧
      ((∀ front n, ¬EndsInLimit w.condition front n) →
        ofText kind (w.chars ++ trailing) = w.join kind none) := by
  refine ⟨fun x n hx => hw.ofText_append kind ?_, fun hnone => hw.ofText_append kind ?_⟩
  · have hsolid : Solid (w.condition ++ x.chars) := by
      have h := hw.condition.append (Numeral.digits hx.digits).solid
        (x.beforeMax ++ (x.max ++ x.afterMax))
      simpa only [WrittenLimit.chars, List.append_assoc] using h
    rw [← List.append_assoc, Chars.trim_append_blanks htrailing, hsolid.trim,
      (hx.endsInLimit w.condition).splitRowLimit, Chars.trim_append_blanks hx.beforeMax.2,
      hw.condition.trim]
  · rw [Chars.trim_append_blanks htrailing, hw.condition.trim,
      splitRowLimit_of_none (splitRowLimit_eq_none_iff.2 hnone), hw.condition.trim]

end Join

/-- A join with an ON, a call of MAX and a literal that looks like a limit in its condition. -/
def WrittenJoin.stats : WrittenJoin where
  table := "stats".toList
  beforeAs := [' ']
  as := "aS".toList
  afterAs := [' ']
  aliasName := ['s']
  beforeOn := ['\n']
  on := "On".toList
  afterOn := "  ".toList
  condition := "s.id = MAX(m.id) ON ' MAX 3'".toList

theorem WrittenJoin.stats_sound : stats.Sound where
  table := by decide
  tableWord := by decide
  beforeAs := by decide
  as := (Keyword.spells_iff_map (by decide)).2 (by decide)
  afterAs := by decide
  aliasName := by decide
  aliasWord := by decide
  beforeOn := by decide
  on := (Keyword.spells_iff_map (by decide)).2 (by decide)
  afterOn := by decide
  condition := by decide

/-- The greatest limit, and none. -/
theorem Join.ofText_rowLimit_stats :
    ofText .left
        "stats aS s\nOn  s.id = MAX(m.id) ON ' MAX 3'\tmaX  18446744073709551615 ".toList =
        ⟨.left, "stats", "s", "s.id = MAX(m.id) ON ' MAX 3'", some 18446744073709551615⟩ ∧
      ofText .left "stats aS s\nOn  s.id = MAX(m.id) ON ' MAX 3' ".toList =
        ⟨.left, "stats", "s", "s.id = MAX(m.id) ON ' MAX 3'", none⟩ := by
  have hx : WrittenLimit.Sound ⟨['\t'], "maX".toList, "  ".toList, Chars.decimal (2 ^ 64 - 1)⟩
      (2 ^ 64 - 1) :=
    WrittenLimit.sound_decimal (by decide) ((Keyword.spells_iff_map (by decide)).2 (by decide))
      (by decide) (by decide)
  have htrailing : ∀ c ∈ [' '], isBlank c = true := by decide
  have hlimited := (ofText_rowLimit WrittenJoin.stats_sound .left htrailing).1 _ _ hx
  have hplain := (ofText_rowLimit WrittenJoin.stats_sound .left htrailing).2
    (splitRowLimit_eq_none_iff.1 (by decide))
  have htext : "stats aS s\nOn  s.id = MAX(m.id) ON ' MAX 3' ".toList =
      WrittenJoin.stats.chars ++ [' '] := by
    decide
  rw [htext]
  exact ⟨hlimited, hplain⟩

end ContentQuery
