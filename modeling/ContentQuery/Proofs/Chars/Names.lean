import ContentQuery.Chars.Blank
import ContentQuery.Chars.Cut
import ContentQuery.Chars.Unsigned
import ContentQuery.Scan.Keyword

/-!
# Trimmed texts, names and decimals

Facts on the character level for everything that is printed and read again: trimming does not see
blanks added at the ends, a name (a word of ASCII letters, digits and underscores) has no character
that a reader gives a meaning of its own, the decimal digits of a number read back, and parts that
were put together with a separator are cut again at it.
-/

namespace ContentQuery

/-! ## Deciding over characters -/

-- A test of the characters of a text looks at these characters, not at all there are.
instance decidableForallMemChars {p : Char → Prop} [DecidablePred p] (s : List Char) :
    Decidable (∀ c ∈ s, p c) :=
  List.decidableBAll p s

instance decidableForallMemChar? {p : Char → Prop} [DecidablePred p] (o : Option Char) :
    Decidable (∀ c ∈ o, p c) :=
  Option.decidableForallMem o

namespace Chars

/-- A run ends where the text goes on with another kind of character. -/
theorem run_append {p : Char → Bool} {run rest : List Char} (hrun : ∀ c ∈ run, p c = true)
    (hrest : ∀ c ∈ rest.head?, p c = false) :
    (run ++ rest).takeWhile p = run ∧ (run ++ rest).dropWhile p = rest := by
  rw [List.takeWhile_append_of_pos hrun, List.dropWhile_append_of_pos hrun]
  cases rest with
  | nil => simp
  | cons c cs => simp [hrest c rfl]

/-! ## Trimming -/

theorem trimEnd_append_blanks {b : List Char} (hb : ∀ c ∈ b, isBlank c = true) (s : List Char) :
    trimEnd (s ++ b) = trimEnd s := by
  have hb' : ∀ c ∈ b.reverse, isBlank c = true := by
    intro c hc
    exact hb c (List.mem_reverse.1 hc)
  simp only [trimEnd, List.reverse_append, List.dropWhile_append_of_pos hb']

theorem trim_blanks_append {b : List Char} (hb : ∀ c ∈ b, isBlank c = true) (s : List Char) :
    trim (b ++ s) = trim s := by
  simp only [trim, trimStart, List.dropWhile_append_of_pos hb]

theorem trim_append_blanks {b : List Char} (hb : ∀ c ∈ b, isBlank c = true) (s : List Char) :
    trim (s ++ b) = trim s := by
  have hnil : b.dropWhile isBlank = [] := by
    have h : (b ++ []).dropWhile isBlank = ([] : List Char).dropWhile isBlank :=
      List.dropWhile_append_of_pos hb
    simpa using h
  simp only [trim, trimStart, List.dropWhile_append]
  -- The blanks behind are met in front only if there is nothing else in the text.
  split
  · next h =>
      rw [List.isEmpty_iff] at h
      rw [h, hnil]
  · exact trimEnd_append_blanks hb _

theorem trim_space_cons (s : List Char) : trim (' ' :: s) = trim s :=
  trim_blanks_append (b := [' ']) (by decide) s

theorem trim_append_space (s : List Char) : trim (s ++ [' ']) = trim s :=
  trim_append_blanks (by decide) s

/-- A text that begins and ends with something other than a blank is trimmed. -/
theorem trim_eq_self {s : List Char} (hhead : ∀ c ∈ s.head?, isBlank c = false)
    (hlast : ∀ c ∈ s.getLast?, isBlank c = false) : trim s = s := by
  have hstart : trimStart s = s := by
    cases s with
    | nil => rfl
    | cons c cs => simp [trimStart, hhead c (by simp)]
  -- The end is trimmed from the front of the reversed text.
  have hrev : s.reverse.dropWhile isBlank = s.reverse := by
    cases hs : s.reverse with
    | nil => rfl
    | cons c cs =>
        have hc : s.getLast? = some c := by
          rw [← List.head?_reverse, hs]
          rfl
        simp [hlast c (by simp [hc])]
  rw [trim, hstart, trimEnd, hrev, List.reverse_reverse]

theorem head_trimStart {s : List Char} : ∀ c ∈ (trimStart s).head?, isBlank c = false := by
  intro c hc
  have h := List.head?_dropWhile_not isBlank s
  rw [trimStart] at hc
  rw [Option.mem_def.1 hc] at h
  simpa using h

theorem getLast_trimEnd {s : List Char} : ∀ c ∈ (trimEnd s).getLast?, isBlank c = false := by
  intro c hc
  rw [trimEnd, List.getLast?_reverse] at hc
  exact head_trimStart (s := s.reverse) c hc

theorem trimEnd_prefix (s : List Char) : trimEnd s <+: s := by
  have h := List.dropWhile_suffix (l := s.reverse) isBlank
  rw [← List.reverse_prefix, List.reverse_reverse] at h
  exact h

theorem head_trim {s : List Char} : ∀ c ∈ (trim s).head?, isBlank c = false := by
  intro c hc
  -- Trimming the end leaves the first character, if it leaves any.
  rcases trimEnd_prefix (trimStart s) with ⟨rest, hrest⟩
  apply head_trimStart (s := s) c
  rw [← hrest]
  cases htrim : trim s with
  | nil => simp [htrim] at hc
  | cons a as =>
      rw [trim] at htrim
      rw [htrim]
      simpa [trim, htrim] using hc

theorem getLast_trim {s : List Char} : ∀ c ∈ (trim s).getLast?, isBlank c = false :=
  getLast_trimEnd

/-- Trimming takes nothing from a trimmed text. -/
theorem trim_trim (s : List Char) : trim (trim s) = trim s :=
  trim_eq_self head_trim getLast_trim

/-- A text that begins and ends with something other than a blank. -/
def Solid (s : List Char) : Prop :=
  s.head?.any (!isBlank ·) = true ∧ s.getLast?.any (!isBlank ·) = true

instance (s : List Char) : Decidable (Solid s) :=
  inferInstanceAs (Decidable (_ ∧ _))

theorem Solid.ne_nil {s : List Char} (hs : Solid s) : s ≠ [] := by
  rintro rfl
  simp [Solid] at hs

theorem Solid.trim {s : List Char} (hs : Solid s) : trim s = s := by
  rcases hs with ⟨hhead, hlast⟩
  refine trim_eq_self ?_ ?_
  · intro c hc
    rw [Option.mem_def.1 hc] at hhead
    simpa using hhead
  · intro c hc
    rw [Option.mem_def.1 hc] at hlast
    simpa using hlast

theorem Solid.trim_space {s : List Char} (hs : Solid s) : Chars.trim (' ' :: s) = s :=
  (trim_space_cons s).trans hs.trim

theorem Solid.trimStart_append {t : List Char} (ht : Solid t) (s rest : List Char) :
    trimStart (s ++ (t ++ rest)) = trimStart s ++ (t ++ rest) := by
  have hself : (t ++ rest).dropWhile isBlank = t ++ rest := by
    cases t with
    | nil => exact absurd rfl ht.ne_nil
    | cons c cs => exact List.dropWhile_cons_of_neg (by simpa using ht.1)
  rw [trimStart, trimStart, List.dropWhile_append]
  split
  · next h => rw [hself, List.isEmpty_iff.1 h, List.nil_append]
  · rfl

theorem Solid.reverse {s : List Char} (hs : Solid s) : Solid s.reverse := by
  rw [Solid, List.head?_reverse, List.getLast?_reverse]
  exact ⟨hs.2, hs.1⟩

/-- Around a text with no blank at its ends the blanks are trimmed on either side. -/
theorem Solid.trim_around {s : List Char} (hs : Solid s) (left right : List Char) :
    Chars.trim (left ++ (s ++ right)) = trimStart left ++ (s ++ trimEnd right) := by
  have hend : ∀ text : List Char, trimEnd text = (trimStart text.reverse).reverse := fun _ => rfl
  rw [Chars.trim, hs.trimStart_append, hend, hend right]
  simp only [List.reverse_append, List.append_assoc, hs.reverse.trimStart_append,
    List.reverse_reverse]

/-- What stands between solid texts does not matter. -/
theorem Solid.append {s t : List Char} (hs : Solid s) (ht : Solid t) (between : List Char) :
    Solid (s ++ (between ++ t)) := by
  constructor
  · cases s with
    | nil => exact absurd rfl hs.ne_nil
    | cons c cs => exact hs.1
  · have hlast : (s ++ (between ++ t)).getLast? = t.getLast? := by
      rw [← List.append_assoc, List.getLast?_append, List.getLast?_eq_some_getLast ht.ne_nil,
        Option.some_or]
    rw [hlast]
    exact ht.2

/-! ## ASCII classes -/

theorem isUpper_iff {c : Char} : c.isUpper = true ↔ 65 ≤ c.toNat ∧ c.toNat ≤ 90 :=
  decide_eq_true_iff

theorem isLower_iff {c : Char} : c.isLower = true ↔ 97 ≤ c.toNat ∧ c.toNat ≤ 122 := by
  refine Bool.and_eq_true_iff.trans (and_congr ?_ ?_)
  · exact decide_eq_true_iff
  · exact decide_eq_true_iff

theorem isDigit_iff {c : Char} : c.isDigit = true ↔ 48 ≤ c.toNat ∧ c.toNat ≤ 57 := by
  refine Bool.and_eq_true_iff.trans (and_congr ?_ ?_)
  · exact decide_eq_true_iff
  · exact decide_eq_true_iff

theorem isAlpha_iff {c : Char} : c.isAlpha = true ↔ c.isUpper = true ∨ c.isLower = true :=
  Bool.or_eq_true_iff

/-! ## Names -/

/-- The ASCII letters, digits and the underscore. -/
def isNameChar (c : Char) : Bool :=
  c.isAlphanum || c == '_'

theorem isNameChar_iff {c : Char} :
    isNameChar c = true ↔ c.isAlpha = true ∨ c.isDigit = true ∨ c = '_' := by
  have halphanum : c.isAlphanum = (c.isAlpha || c.isDigit) := rfl
  rw [isNameChar, halphanum, Bool.or_eq_true, Bool.or_eq_true, beq_iff_eq, or_assoc]

theorem isAlpha_of_not_isNameChar {c : Char} (h : isNameChar c = false) : c.isAlpha = false := by
  cases halpha : c.isAlpha with
  | false => rfl
  | true => simp [isNameChar_iff.2 (.inl halpha)] at h

/-- A word of name characters. -/
def IsName (s : List Char) : Prop :=
  s ≠ [] ∧ ∀ c ∈ s, isNameChar c = true

instance (s : List Char) : Decidable (IsName s) :=
  inferInstanceAs (Decidable (_ ∧ _))

theorem isNameChar_toNat {c : Char} (h : isNameChar c = true) :
    (48 ≤ c.toNat ∧ c.toNat ≤ 57) ∨ (65 ≤ c.toNat ∧ c.toNat ≤ 90) ∨ c.toNat = 95 ∨
      (97 ≤ c.toNat ∧ c.toNat ≤ 122) := by
  rw [isNameChar_iff, isAlpha_iff, isUpper_iff, isLower_iff, isDigit_iff] at h
  rcases h with (h | h) | h | rfl
  · exact .inr (.inl h)
  · exact .inr (.inr (.inr h))
  · exact .inl h
  · exact .inr (.inr (.inl rfl))

theorem isBlank_of_isNameChar {c : Char} (h : isNameChar c = true) : isBlank c = false := by
  have hc := isNameChar_toNat h
  simp only [isBlank, Bool.or_eq_false_iff, Bool.and_eq_false_iff, decide_eq_false_iff_not,
    beq_eq_false_iff_ne]
  omega

theorem isNameChar_of_isBlank {c : Char} (h : isBlank c = true) : isNameChar c = false := by
  cases hname : isNameChar c with
  | false => rfl
  | true => exact absurd h (by simp [isBlank_of_isNameChar hname])

/-- The code points of the blanks. -/
def blankPoints : List Nat :=
  [9, 10, 11, 12, 13, 0x20, 0x85, 0xA0, 0x1680, 0x2000, 0x2001, 0x2002, 0x2003, 0x2004, 0x2005,
    0x2006, 0x2007, 0x2008, 0x2009, 0x200A, 0x2028, 0x2029, 0x202F, 0x205F, 0x3000]

/-- No blank continues an identifier. -/
theorem isIdentifierChar_of_isBlank {c : Char} (h : isBlank c = true) :
    Keyword.isIdentifierChar c = false := by
  have hpoints : ∀ n ∈ blankPoints, Keyword.isIdentifierChar (Char.ofNat n) = false := by
    decide +kernel
  have hmem : c.toNat ∈ blankPoints := by
    simp only [isBlank, Bool.or_eq_true, Bool.and_eq_true, decide_eq_true_eq, beq_iff_eq] at h
    simp only [blankPoints, List.mem_cons, List.not_mem_nil]
    omega
  have hc := hpoints c.toNat hmem
  rwa [Char.ofNat_toNat] at hc

theorem isIdentifierChar_of_isNameChar {c : Char} (h : isNameChar c = true) :
    Keyword.isIdentifierChar c = true := by
  simp only [isNameChar, Bool.or_eq_true] at h
  rcases h with h | h
  · simp [Keyword.isIdentifierChar, isAlphanumeric_of_isAlphanum h]
  · simp [Keyword.isIdentifierChar, h]

/-- A name has no character outside its class. -/
theorem IsName.ne {s : List Char} (hs : IsName s) {c d : Char} (hc : c ∈ s)
    (hd : isNameChar d = false) : c ≠ d := by
  rintro rfl
  simp [hs.2 c hc] at hd

/-- A text without blanks is solid. -/
theorem solid_of_all {s : List Char} (hne : s ≠ []) (hs : ∀ c ∈ s, isBlank c = false) :
    Solid s := by
  constructor
  · rw [List.head?_eq_some_head hne, Option.any_some, hs _ (List.head_mem hne)]
    rfl
  · rw [List.getLast?_eq_some_getLast hne, Option.any_some, hs _ (List.getLast_mem hne)]
    rfl

theorem IsName.solid {s : List Char} (hs : IsName s) : Solid s :=
  solid_of_all hs.1 fun c hc => isBlank_of_isNameChar (hs.2 c hc)

theorem IsName.trim {s : List Char} (hs : IsName s) : trim s = s :=
  hs.solid.trim

/-! ## Decimals -/

theorem digit?_of_isDigit {c : Char} (h : c.isDigit = true) :
    digit? c = some (c.toNat - '0'.toNat) := by
  simp [digit?, h]

theorem digitsValue?_of_isDigit {s : List Char} (hs : ∀ c ∈ s, c.isDigit = true) (value : Nat) :
    digitsValue? value s = some (Nat.ofDigitChars 10 s value) := by
  induction s generalizing value with
  | nil => simp [digitsValue?]
  | cons c cs ih =>
      have hc := hs c (by simp)
      have hcs : ∀ d ∈ cs, d.isDigit = true := fun d hd => hs d (by simp [hd])
      simp only [digitsValue?, digit?_of_isDigit hc, Option.bind_some, ih hcs]
      simp [Nat.ofDigitChars]

theorem isDigit_of_mem_decimal {n : Nat} {c : Char} (h : c ∈ decimal n) : c.isDigit = true :=
  Nat.isDigit_of_mem_toDigits (by decide) (by decide) h

theorem decimal_ne_nil (n : Nat) : decimal n ≠ [] :=
  Nat.toDigits_ne_nil

theorem isName_decimal (n : Nat) : IsName (decimal n) :=
  ⟨decimal_ne_nil n, fun _ hc => isNameChar_iff.2 (.inr (.inl (isDigit_of_mem_decimal hc)))⟩

/-- Without a sign all characters have to be digits. -/
theorem number?_of_head {s : List Char} (hne : s ≠ []) (hsign : ∀ c ∈ s.head?, c ≠ '+') :
    number? s = digitsValue? 0 s := by
  cases s with
  | nil => exact absurd rfl hne
  | cons c cs =>
      have hc : c ≠ '+' := hsign c rfl
      unfold number?
      simp [hc]

/-- The decimal digits of a number read back. -/
theorem number?_decimal (n : Nat) : number? (decimal n) = some n := by
  have hdigits : ∀ c ∈ decimal n, c.isDigit = true := fun c hc => isDigit_of_mem_decimal hc
  have hsign : ∀ c ∈ (decimal n).head?, c ≠ '+' := by
    rintro c hc rfl
    have hsign := isDigit_iff.1 (hdigits '+' (List.mem_of_mem_head? hc))
    exact absurd hsign (by decide)
  calc number? (decimal n)
      = digitsValue? 0 (decimal n) := number?_of_head (decimal_ne_nil n) hsign
    _ = some n := by
        rw [digitsValue?_of_isDigit hdigits, decimal, Nat.ofDigitChars_ten_toDigits]

/-- The decimal digits of a number that fits a word read back. -/
theorem word?_decimal {n : Nat} (hn : n < wordBound) : word? (decimal n) = some n := by
  simp [word?, number?_decimal, hn]

/-! ## Cuts -/

/-- A text is cut at the separator behind a part without one. -/
theorem splitOnce?_append {sep : Char} {a : List Char} (ha : sep ∉ a) (b : List Char) :
    splitOnce? sep (a ++ sep :: b) = some (a, b) := by
  induction a with
  | nil => simp [splitOnce?]
  | cons c cs ih =>
      rw [List.mem_cons, not_or] at ha
      have hc : c ≠ sep := fun h => ha.1 h.symm
      simp [splitOnce?, hc, ih ha.2]

/-! ## Parts put together -/

section Intercalate

variable {α β : Type} {sep : List α} {parts : List (List α)}

/-- What holds of the parts and of the separator, and of two texts put together, holds of all. -/
theorem intercalate_of_append {P : List α → Prop} (happend : ∀ {a b}, P a → P b → P (a ++ b))
    (hsep : P sep) (hne : parts ≠ []) (h : ∀ part ∈ parts, P part) :
    P (sep.intercalate parts) := by
  induction parts with
  | nil => exact absurd rfl hne
  | cons first rest ih =>
      rw [List.forall_mem_cons] at h
      cases rest with
      | nil =>
          rw [List.intercalate_singleton]
          exact h.1
      | cons next rest =>
          rw [List.intercalate_cons_cons]
          exact happend (happend h.1 hsep) (ih (List.cons_ne_nil next rest) h.2)

/-- What is read text by text is read part by part. -/
theorem intercalate_hom {f : List α → List β} (hnil : f [] = [])
    (happend : ∀ a b, f (a ++ b) = f a ++ f b) (sep : List α) (parts : List (List α)) :
    f (sep.intercalate parts) = (f sep).intercalate (parts.map f) := by
  induction parts with
  | nil => exact hnil
  | cons first rest ih =>
      cases rest with
      | nil => simp
      | cons next rest =>
          simp only [List.map_cons, List.intercalate_cons_cons, happend] at ih ⊢
          rw [ih]

theorem nil_intercalate (parts : List (List α)) :
    ([] : List α).intercalate parts = parts.flatten := by
  induction parts with
  | nil => rfl
  | cons first rest ih =>
      cases rest with
      | nil => simp
      | cons next rest =>
          rw [List.intercalate_cons_cons, ih, List.append_nil]
          rfl

theorem isInfix_intercalate {part : List α} (h : part ∈ parts) :
    part <:+: sep.intercalate parts := by
  induction parts with
  | nil => cases h
  | cons first rest ih =>
      cases rest with
      | nil =>
          have hfirst : part = first := List.mem_singleton.1 h
          simp [hfirst]
      | cons next rest =>
          rw [List.intercalate_cons_cons]
          rcases List.mem_cons.1 h with rfl | hmem
          · rw [List.append_assoc]
            exact (List.prefix_append part _).isInfix
          · exact (ih hmem).trans (List.suffix_append _ _).isInfix

end Intercalate

/-- A part between separators is a part of the text. -/
theorem isInfix_of_mem_splitOn {α : Type} [BEq α] [LawfulBEq α] {sep : α} {xs part : List α}
    (h : part ∈ xs.splitOn sep) : part <:+: xs := by
  have hpart : part <:+: [sep].intercalate (xs.splitOn sep) := isInfix_intercalate h
  rwa [List.intercalate_splitOn] at hpart

/-- No part between separators has a separator in it. -/
theorem not_mem_of_mem_splitOn {α : Type} [BEq α] [LawfulBEq α] {sep : α} {xs part : List α}
    (h : part ∈ xs.splitOn sep) : sep ∉ part := by
  induction xs generalizing part with
  | nil =>
      rw [List.splitOn_nil, List.mem_singleton] at h
      simp [h]
  | cons x xs ih =>
      rw [List.splitOn_cons_eq_if_modifyHead] at h
      split at h
      · rcases List.mem_cons.1 h with rfl | h
        · exact List.not_mem_nil
        · exact ih h
      · next hx =>
          cases hparts : xs.splitOn sep with
          | nil => simp [hparts] at h
          | cons first rest =>
              rw [hparts] at h ih
              rcases List.mem_cons.1 h with rfl | h
              · simp only [beq_iff_eq] at hx
                rw [List.mem_cons, not_or]
                exact ⟨Ne.symm hx, ih List.mem_cons_self⟩
              · exact ih (List.mem_cons_of_mem first h)

end Chars
end ContentQuery
