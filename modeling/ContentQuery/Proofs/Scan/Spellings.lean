import ContentQuery.Proofs.Scan.Reading

/-!
# Spellings of keywords

What a keyword looks like in a text: its letters in either case, and a run of blanks for each of its
spaces.  Matching finds exactly the stretches of text that spell the keyword and end on a word
boundary.
-/

namespace ContentQuery
namespace Keyword

open Chars (isBlank isNameChar)

/-! ## Spelling -/

/-- Capital letters with single spaces between words; the end of a word is no space. -/
def wellSpelled : List Char → Bool
  | [] => true
  | c :: cs => (c.isUpper || (c == ' ' && cs.head?.any Char.isUpper)) && wellSpelled cs

/-- A keyword begins with a capital letter and is spelled well. -/
def WellFormed (k : Keyword) : Prop :=
  k.letters.head?.any Char.isUpper = true ∧ wellSpelled k.letters = true

instance (k : Keyword) : Decidable k.WellFormed :=
  inferInstanceAs (Decidable (_ ∧ _))

/-- The keywords of statements. -/
def all : List Keyword :=
  [select, distinct, as, source, innerJoin, leftJoin, rightJoin, on, max, condition, groupBy,
    orderBy, limit, offset]

theorem wellFormed_of_mem_all : ∀ k ∈ all, k.WellFormed := by
  decide

/-! ## Capital letters -/

theorem isAlpha_of_toUpper {c letter : Char} (hletter : letter.isUpper = true)
    (h : c.toUpper = letter) : c.isAlpha = true := by
  unfold Char.toUpper at h
  split at h
  · next hlower => exact Chars.isAlpha_iff.2 (.inr (Chars.isLower_iff.2 hlower))
  · subst h
    exact Chars.isAlpha_iff.2 (.inl hletter)

theorem isNameChar_of_toUpper {c letter : Char} (hletter : letter.isUpper = true)
    (h : c.toUpper = letter) : isNameChar c = true :=
  Chars.isNameChar_iff.2 (.inl (isAlpha_of_toUpper hletter h))

theorem toUpper_of_isUpper {c : Char} (h : c.isUpper = true) : c.toUpper = c := by
  unfold Char.toUpper
  split
  · next hlower =>
      have hupper := Chars.isUpper_iff.1 h
      have hlower' : 97 ≤ c.toNat ∧ c.toNat ≤ 122 := hlower
      omega
  · rfl

theorem ne_space_of_isUpper {c : Char} (h : c.isUpper = true) : c ≠ ' ' := by
  rintro rfl
  exact absurd (Chars.isUpper_iff.1 h) (by decide)

/-- How spelled letters go on: by a capital letter, or by a space and the next word. -/
inductive Spelled : List Char → Prop
  | nil : Spelled []
  | letter {c : Char} {cs : List Char} : c.isUpper = true → Spelled cs → Spelled (c :: cs)
  | space {d : Char} {ds : List Char} : d.isUpper = true → Spelled (d :: ds) →
      Spelled (' ' :: d :: ds)

theorem spelled_iff {letters : List Char} : Spelled letters ↔ wellSpelled letters = true := by
  constructor
  · intro h
    induction h with
    | nil => rfl
    | letter hc _ ih => simp [wellSpelled, hc, ih]
    | space hd _ ih => simp [wellSpelled, hd] at ih ⊢; exact ih
  · intro h
    induction letters with
    | nil => exact .nil
    | cons c cs ih =>
        rw [wellSpelled, Bool.and_eq_true, Bool.or_eq_true, Bool.and_eq_true] at h
        rcases h with ⟨hc | ⟨hspace, hnext⟩, hcs⟩
        · exact .letter hc (ih hcs)
        · rw [beq_iff_eq] at hspace
          subst hspace
          cases cs with
          | nil => simp at hnext
          | cons d ds => exact .space (by simpa using hnext) (ih hcs)

instance (letters : List Char) : Decidable (Spelled letters) :=
  decidable_of_iff _ spelled_iff.symm

theorem WellFormed.spelled {k : Keyword} (h : k.WellFormed) : Spelled k.letters :=
  spelled_iff.2 h.2

theorem WellFormed.exists_cons {k : Keyword} (h : k.WellFormed) :
    ∃ letter letters, k.letters = letter :: letters ∧ letter.isUpper = true := by
  have hbegin := h.1
  cases hletters : k.letters with
  | nil => simp [hletters] at hbegin
  | cons letter letters => exact ⟨letter, letters, rfl, by simpa [hletters] using hbegin⟩

/-! ## One letter -/

theorem spelling?_letter {letter c : Char} {letters cs : List Char}
    (hletter : letter.isUpper = true) (hc : c.toUpper = letter) :
    spelling? (letter :: letters) (c :: cs) = (spelling? letters cs).map (· + 1) := by
  have hne : c ≠ '\x00' := by
    rintro rfl
    have h := isNameChar_of_toUpper hletter hc
    exact absurd h (by decide)
  simp [spelling?, ne_space_of_isUpper hletter, hne, hc]

/-- A text that begins with another letter is no match. -/
theorem spelling?_eq_none {letter : Char} {letters text : List Char}
    (hletter : letter.isUpper = true) (h : ∀ c ∈ text.head?, c.toUpper ≠ letter) :
    spelling? (letter :: letters) text = none := by
  cases text with
  | nil => simp [spelling?, ne_space_of_isUpper hletter]
  | cons c cs =>
      have hc : c.toUpper ≠ letter := h c rfl
      simp [spelling?, ne_space_of_isUpper hletter, hc]

/-- A match begins with a name character. -/
theorem spelling?_eq_none_of_not_isNameChar {letter : Char} {letters text : List Char}
    (hletter : letter.isUpper = true) (h : ∀ c ∈ text.head?, isNameChar c = false) :
    spelling? (letter :: letters) text = none := by
  refine spelling?_eq_none hletter ?_
  intro c hc hupper
  have hname := isNameChar_of_toUpper hletter hupper
  simp [h c hc] at hname

theorem spelling?_space {letters text : List Char} :
    spelling? (' ' :: letters) text =
      if (text.takeWhile isBlank).isEmpty then none
      else (spelling? letters (text.dropWhile isBlank)).map
        (· + (text.takeWhile isBlank).length) := by
  simp [spelling?]

/-! ## Spelled stretches -/

/-- A stretch of text spells the letters of a keyword. -/
inductive Spells : List Char → List Char → Prop
  | nil : Spells [] []
  | letter {letter c : Char} {letters cs : List Char} :
      letter ≠ ' ' → c.toUpper = letter → Spells letters cs → Spells (letter :: letters) (c :: cs)
  | space {letters blanks cs : List Char} :
      blanks ≠ [] → (∀ c ∈ blanks, isBlank c = true) → Spells letters cs →
        Spells (' ' :: letters) (blanks ++ cs)

variable {letters stretch text : List Char}

/-- A spelled word begins with its first letter. -/
theorem Spells.exists_cons {letter : Char} (hletter : letter.isUpper = true)
    (h : Spells (letter :: letters) stretch) :
    ∃ c cs, stretch = c :: cs ∧ c.toUpper = letter ∧ Spells letters cs := by
  cases h with
  | letter _ hc hcs => exact ⟨_, _, rfl, hc, hcs⟩
  | space => exact absurd rfl (ne_space_of_isUpper hletter)

theorem WellFormed.ne_nil_of_spells {k : Keyword} (hk : k.WellFormed)
    (h : Spells k.letters stretch) : stretch ≠ [] := by
  obtain ⟨letter, letters, hletters, hletter⟩ := hk.exists_cons
  rw [hletters] at h
  obtain ⟨c, cs, rfl, -⟩ := h.exists_cons hletter
  exact List.cons_ne_nil c cs

/-- A spelled word begins with no blank. -/
theorem Spells.takeWhile_blanks {letter : Char} (hletter : letter.isUpper = true)
    (h : Spells (letter :: letters) stretch) {blanks : List Char}
    (hblanks : ∀ c ∈ blanks, isBlank c = true) (behind : List Char) :
    (blanks ++ (stretch ++ behind)).takeWhile isBlank = blanks ∧
      (blanks ++ (stretch ++ behind)).dropWhile isBlank = stretch ++ behind := by
  obtain ⟨c, cs, rfl, hc, -⟩ := h.exists_cons hletter
  refine Chars.run_append hblanks ?_
  rintro d hd
  cases hd
  exact Chars.isBlank_of_isNameChar (isNameChar_of_toUpper hletter hc)

/-- The text begins with a stretch of `n` characters that spells the letters and ends on a word
boundary. -/
def BeginsWith (letters text : List Char) (n : Nat) : Prop :=
  ∃ stretch behind, text = stretch ++ behind ∧ stretch.length = n ∧ Spells letters stretch ∧
    ∀ c ∈ behind.head?, isIdentifierChar c = false

section Beginnings

variable {letter c d : Char} {ds cs : List Char} {n : Nat}

theorem beginsWith_nil_iff :
    BeginsWith [] text n ↔ n = 0 ∧ ∀ c ∈ text.head?, isIdentifierChar c = false := by
  constructor
  · rintro ⟨stretch, behind, rfl, rfl, hspells, hbound⟩
    cases hspells
    exact ⟨rfl, hbound⟩
  · rintro ⟨rfl, hbound⟩
    exact ⟨[], text, rfl, rfl, .nil, hbound⟩

theorem not_beginsWith_nil (hletter : letter.isUpper = true) :
    ¬BeginsWith (letter :: letters) [] n := by
  rintro ⟨stretch, behind, hsplit, -, hspells, -⟩
  obtain ⟨c, cs, rfl, -⟩ := hspells.exists_cons hletter
  cases hsplit

/-- A letter takes one character. -/
theorem beginsWith_letter_iff (hletter : letter.isUpper = true) :
    BeginsWith (letter :: letters) (c :: cs) n ↔
      c.toUpper = letter ∧ ∃ m, BeginsWith letters cs m ∧ m + 1 = n := by
  constructor
  · rintro ⟨stretch, behind, hsplit, rfl, hspells, hbound⟩
    obtain ⟨d, ds, rfl, hd, hds⟩ := hspells.exists_cons hletter
    obtain ⟨rfl, rfl⟩ := List.cons.inj hsplit
    exact ⟨hd, ds.length, ⟨ds, behind, rfl, rfl, hds, hbound⟩, rfl⟩
  · rintro ⟨hc, m, ⟨stretch, behind, rfl, rfl, hspells, hbound⟩, rfl⟩
    have hcons := Spells.letter (ne_space_of_isUpper hletter) hc hspells
    exact ⟨c :: stretch, behind, rfl, rfl, hcons, hbound⟩

/-- A space takes all the blanks before the next word. -/
theorem beginsWith_space_iff (hd : d.isUpper = true) :
    BeginsWith (' ' :: d :: ds) text n ↔
      text.takeWhile isBlank ≠ [] ∧ ∃ m, BeginsWith (d :: ds) (text.dropWhile isBlank) m ∧
        m + (text.takeWhile isBlank).length = n := by
  constructor
  · rintro ⟨stretch, behind, rfl, rfl, hspells, hbound⟩
    cases hspells with
    | letter hne _ _ => exact absurd rfl hne
    | @space _ blanks cs hne hblanks hcs =>
        -- The run of blanks ends where the next word begins.
        obtain ⟨htake, hdrop⟩ := hcs.takeWhile_blanks hd hblanks behind
        rw [List.append_assoc, htake, hdrop]
        refine ⟨hne, cs.length, ⟨cs, behind, rfl, rfl, hcs, hbound⟩, ?_⟩
        rw [List.length_append, Nat.add_comm]
  · rintro ⟨hne, m, ⟨stretch, behind, hsplit, rfl, hspells, hbound⟩, rfl⟩
    have hblanks : ∀ c ∈ text.takeWhile isBlank, isBlank c = true :=
      List.all_eq_true.1 List.all_takeWhile
    refine ⟨text.takeWhile isBlank ++ stretch, behind, ?_, ?_, .space hne hblanks hspells, hbound⟩
    · rw [List.append_assoc, ← hsplit, List.takeWhile_append_dropWhile]
    · rw [List.length_append, Nat.add_comm]

end Beginnings

/-- Matching finds the stretch that spells the letters and ends on a word boundary. -/
theorem spelling?_eq_some_iff (hletters : Spelled letters) {n : Nat} :
    spelling? letters text = some n ↔ BeginsWith letters text n := by
  induction hletters generalizing text n with
  | nil =>
      have hbound : text.head?.any isIdentifierChar = false ↔
          ∀ c ∈ text.head?, isIdentifierChar c = false := Option.any_eq_false _ _
      rw [beginsWith_nil_iff, spelling?, ← hbound]
      cases text.head?.any isIdentifierChar <;> simp [eq_comm]
  | @letter letter letters hletter _ ih =>
      cases text with
      | nil =>
          rw [spelling?_eq_none hletter (by simp)]
          simp only [reduceCtorEq, not_beginsWith_nil hletter]
      | cons c cs =>
          rw [beginsWith_letter_iff hletter]
          by_cases hc : c.toUpper = letter
          · rw [spelling?_letter hletter hc, Option.map_eq_some_iff]
            simp only [ih, hc, true_and]
          · rw [spelling?_eq_none hletter (by simpa using hc)]
            simp [hc]
  | space hd _ ih =>
      rw [spelling?_space, beginsWith_space_iff hd]
      by_cases hne : text.takeWhile isBlank = []
      · simp [hne]
      · rw [if_neg (by simpa using hne), Option.map_eq_some_iff]
        simp only [ih, ne_eq, hne, not_false_eq_true, true_and]

/-- A keyword spells itself. -/
theorem spells_self (hletters : Spelled letters) : Spells letters letters := by
  induction hletters with
  | nil => exact .nil
  | letter hletter _ ih =>
      exact .letter (ne_space_of_isUpper hletter) (toUpper_of_isUpper hletter) ih
  | @space d ds _ _ ih =>
      have hblank : ∀ c ∈ [' '], isBlank c = true := by decide
      exact .space (by simp) hblank ih

/-- A scan passes the characters of a spelled keyword. -/
theorem isOrdinary_of_spells (hletters : Spelled letters) (h : Spells letters stretch) :
    ∀ c ∈ stretch, Scan.isOrdinary c = true := by
  induction h with
  | nil => simp
  | letter hne hc _ ih =>
      cases hletters with
      | letter hletter hrest =>
          refine List.forall_mem_cons.2 ⟨?_, ih hrest⟩
          exact Scan.isOrdinary_of_isNameChar (isNameChar_of_toUpper hletter hc)
      | space => exact absurd rfl hne
  | space _ hblanks _ ih =>
      cases hletters with
      | letter hletter _ => exact absurd rfl (ne_space_of_isUpper hletter)
      | space _ hrest =>
          refine List.forall_mem_append.2 ⟨fun c hc => ?_, ih hrest⟩
          exact Scan.isOrdinary_of_isBlank (hblanks c hc)

/-- A stretch is tested for a spelling by matching it to its end. -/
theorem spells_iff (hletters : Spelled letters) :
    Spells letters stretch ↔ spelling? letters stretch = some stretch.length := by
  rw [spelling?_eq_some_iff hletters]
  constructor
  · exact fun h => ⟨stretch, [], by simp, rfl, h, by simp⟩
  · rintro ⟨all, behind, hsplit, hlength, hspells, -⟩
    have hbehind : behind = [] := by
      have hsum := congrArg List.length hsplit
      rw [List.length_append] at hsum
      exact List.length_eq_zero_iff.1 (by omega)
    rwa [hsplit, hbehind, List.append_nil]

end Keyword
end ContentQuery
