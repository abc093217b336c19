import ContentQuery.Proofs.Query.Refusals
import ContentQuery.Proofs.Scan.Cuts
import ContentQuery.Proofs.Scan.Pieces

/-!
# Row counts

A row count is an unsigned decimal number that fits a machine word, with blanks around it.  The text
of a LIMIT clause is such a count, or an offset and a count with a comma between them.  The reader
takes these texts, and besides them the ones with further commas that have nothing but blanks
between them.
-/

namespace ContentQuery

/-! ## Numbers -/

namespace Chars

/-- A word of ASCII digits. -/
def IsDigits (s : List Char) : Prop :=
  s ≠ [] ∧ ∀ c ∈ s, c.isDigit = true

/-- How a number is written: in digits, of which the first ones may be zeros, with a plus sign in
front of them or none. -/
inductive Numeral : List Char → Nat → Prop
  | digits {s : List Char} (h : IsDigits s) : Numeral s (Nat.ofDigitChars 10 s 0)
  | signed {s : List Char} (h : IsDigits s) : Numeral ('+' :: s) (Nat.ofDigitChars 10 s 0)

theorem digitsValue?_eq_some_iff {s : List Char} {value n : Nat} :
    digitsValue? value s = some n ↔
      (∀ c ∈ s, c.isDigit = true) ∧ Nat.ofDigitChars 10 s value = n := by
  constructor
  · intro h
    have hs : ∀ c ∈ s, c.isDigit = true := by
      induction s generalizing value with
      | nil => simp
      | cons c cs ih =>
          obtain ⟨d, hd, hcs⟩ := Option.bind_eq_some_iff.1 h
          have hc : c.isDigit = true := by
            by_contra hc
            simp [digit?, hc] at hd
          exact List.forall_mem_cons.2 ⟨hc, ih hcs⟩
    rw [digitsValue?_of_isDigit hs, Option.some.injEq] at h
    exact ⟨hs, h⟩
  · rintro ⟨hs, rfl⟩
    exact digitsValue?_of_isDigit hs value

theorem number?_eq_some_iff {s : List Char} {n : Nat} : number? s = some n ↔ Numeral s n := by
  constructor
  · intro h
    cases s with
    | nil => cases h
    | cons c cs =>
        by_cases hsign : c = '+'
        · subst hsign
          cases cs with
          | nil => cases h
          | cons d ds =>
              obtain ⟨hdigits, rfl⟩ := digitsValue?_eq_some_iff.1 h
              exact .signed ⟨by simp, hdigits⟩
        · rw [number?_of_head (by simp) (by simpa using hsign), digitsValue?_eq_some_iff] at h
          obtain ⟨hdigits, rfl⟩ := h
          exact .digits ⟨by simp, hdigits⟩
  · intro h
    cases h with
    | digits h =>
        -- A plus sign is no digit, so the text is read from its first character on.
        have hsign : ∀ c ∈ s.head?, c ≠ '+' := by
          rintro c hc rfl
          exact absurd (h.2 '+' (List.mem_of_mem_head? hc)) (by decide)
        rw [number?_of_head h.1 hsign, digitsValue?_of_isDigit h.2]
    | @signed digits h =>
        obtain ⟨d, ds, rfl⟩ := List.exists_cons_of_ne_nil h.1
        exact digitsValue?_of_isDigit h.2 0

theorem word?_eq_some_iff {s : List Char} {n : Nat} :
    word? s = some n ↔ Numeral s n ∧ n < wordBound := by
  rw [word?, Option.filter_eq_some_iff, number?_eq_some_iff, decide_eq_true_iff]

namespace Numeral

variable {s : List Char} {n : Nat}

theorem ne_nil (h : Numeral s n) : s ≠ [] := by
  cases h with
  | digits h => exact h.1
  | signed h => exact List.cons_ne_nil _ _

theorem mem (h : Numeral s n) : ∀ c ∈ s, c.isDigit = true ∨ c = '+' := by
  cases h with
  | digits h => exact fun c hc => .inl (h.2 c hc)
  | signed h => exact List.forall_mem_cons.2 ⟨.inr rfl, fun c hc => .inl (h.2 c hc)⟩

theorem solid (h : Numeral s n) : Solid s :=
  solid_of_all h.ne_nil fun c hc => by
    rcases h.mem c hc with hdigit | rfl
    · exact isBlank_of_isNameChar (isNameChar_iff.2 (.inr (.inl hdigit)))
    · decide

end Numeral

end Chars

/-! ## One count -/

namespace RowClause

open Chars (Numeral isBlank trim wordBound)

/-- A row count as written: a number that fits a word, with blanks around it. -/
def Counts (part : List Char) (n : Nat) : Prop :=
  ∃ left numeral right, (∀ c ∈ left, isBlank c = true) ∧ (∀ c ∈ right, isBlank c = true) ∧
    Numeral numeral n ∧ n < wordBound ∧ part = left ++ (numeral ++ right)

/-- The blanks around a count do not matter. -/
theorem counts_iff {part : List Char} {n : Nat} :
    Counts part n ↔ Numeral (trim part) n ∧ n < wordBound := by
  constructor
  · rintro ⟨left, numeral, right, hleft, hright, hnumeral, hn, rfl⟩
    rw [Chars.trim_blanks_append hleft, Chars.trim_append_blanks hright, hnumeral.solid.trim]
    exact ⟨hnumeral, hn⟩
  · rintro ⟨hnumeral, hn⟩
    obtain ⟨left, right, hleft, hright, hpart⟩ := Chars.exists_blanks part
    exact ⟨left, trim part, right, hleft, hright, hnumeral, hn, hpart⟩

theorem counts_trim {part : List Char} {n : Nat} : Counts (trim part) n ↔ Counts part n := by
  rw [counts_iff, counts_iff, Chars.trim_trim]

theorem readCount_eq_ok_iff {clause : RowClause} {part : List Char} {n : Nat} :
    clause.readCount part = .ok n ↔ Counts part n := by
  rw [counts_iff, ← Chars.word?_eq_some_iff, readCount]
  cases Chars.word? (trim part) with
  | none => simp
  | some m => simp

namespace Counts

variable {part : List Char} {n : Nat}

/-- A count has a number in it. -/
theorem trim_ne_nil (h : Counts part n) : trim part ≠ [] :=
  (counts_iff.1 h).1.ne_nil

theorem mem (h : Counts part n) :
    ∀ c ∈ part, isBlank c = true ∨ c.isDigit = true ∨ c = '+' := by
  obtain ⟨left, numeral, right, hleft, hright, hnumeral, _, rfl⟩ := h
  intro c hc
  rcases List.mem_append.1 hc with hc | hc
  · exact .inl (hleft c hc)
  · rcases List.mem_append.1 hc with hc | hc
    · exact .inr (hnumeral.mem c hc)
    · exact .inl (hright c hc)

theorem isOrdinary (h : Counts part n) : ∀ c ∈ part, Scan.isOrdinary c = true := by
  intro c hc
  rcases h.mem c hc with hblank | hdigit | rfl
  · exact Scan.isOrdinary_of_isBlank hblank
  · exact Scan.isOrdinary_of_isNameChar (Chars.isNameChar_iff.2 (.inr (.inl hdigit)))
  · decide

theorem comma_not_mem (h : Counts part n) : ',' ∉ part := by
  intro hc
  rcases h.mem ',' hc with h | h | h
  · exact absurd h (by decide)
  · exact absurd h (by decide)
  · exact absurd h (by decide)

end Counts

/-- The decimal digits of a number are a count. -/
theorem counts_decimal {n : Nat} (hn : n < wordBound) : Counts (Chars.decimal n) n := by
  rw [counts_iff, (Chars.isName_decimal n).trim, ← Chars.word?_eq_some_iff]
  exact Chars.word?_decimal hn

theorem readCount_decimal (clause : RowClause) {n : Nat} (hn : n < wordBound) :
    clause.readCount (Chars.decimal n) = .ok n :=
  readCount_eq_ok_iff.2 (counts_decimal hn)

/-! ## Texts of LIMIT clauses -/

/-- The texts of LIMIT clauses with the count and the offset that they stand for: a count, or an
offset and a count with a comma between them. -/
inductive LimitText : List Char → Nat × Option Nat → Prop
  | count {count : List Char} {n : Nat} (hcount : Counts count n) : LimitText count (n, none)
  | range {start count : List Char} {m n : Nat} (hstart : Counts start m)
      (hcount : Counts count n) : LimitText (start ++ ',' :: count) (n, some m)

/-- The same for a text that is cut already. -/
inductive LimitParts : List (List Char) → Nat × Option Nat → Prop
  | count {count : List Char} {n : Nat} (hcount : Counts count n) : LimitParts [count] (n, none)
  | range {start count : List Char} {m n : Nat} (hstart : Counts start m)
      (hcount : Counts count n) : LimitParts [start, count] (n, some m)

section Parts

variable {text : List Char} {parts : List (List Char)} {counts : Nat × Option Nat}

theorem limitText_iff : LimitText text counts ↔ LimitParts (text.splitOn ',') counts := by
  constructor
  · intro h
    cases h with
    | count hcount =>
        rw [List.splitOn_eq_singleton hcount.comma_not_mem]
        exact .count hcount
    | range hstart hcount =>
        rw [List.splitOn_append_cons_self_of_not_mem hstart.comma_not_mem,
          List.splitOn_eq_singleton hcount.comma_not_mem]
        exact .range hstart hcount
  · intro h
    have htext : [','].intercalate (text.splitOn ',') = text := List.intercalate_splitOn ','
    generalize text.splitOn ',' = parts at h htext
    subst htext
    cases h with
    | count hcount => simpa using LimitText.count hcount
    | range hstart hcount => simpa using LimitText.range hstart hcount

theorem limitParts_map_trim : LimitParts (parts.map trim) counts ↔ LimitParts parts counts := by
  constructor
  · intro h
    generalize htrimmed : parts.map trim = trimmed at h
    cases h with
    | count hcount =>
        obtain ⟨part, rfl, rfl⟩ := List.map_eq_singleton_iff.1 htrimmed
        exact .count (counts_trim.1 hcount)
    | range hstart hcount =>
        obtain ⟨first, rest, rfl, rfl, hrest⟩ := List.map_eq_cons_iff.1 htrimmed
        obtain ⟨second, rfl, rfl⟩ := List.map_eq_singleton_iff.1 hrest
        exact .range (counts_trim.1 hstart) (counts_trim.1 hcount)
  · intro h
    cases h with
    | count hcount => exact .count (counts_trim.2 hcount)
    | range hstart hcount => exact .range (counts_trim.2 hstart) (counts_trim.2 hcount)

theorem LimitParts.exists_counts (h : LimitParts parts counts) : ∀ part ∈ parts, ∃ n, Counts part n := by
  cases h with
  | count hcount => simpa using ⟨_, hcount⟩
  | range hstart hcount => simpa using ⟨⟨_, hstart⟩, ⟨_, hcount⟩⟩

theorem readLimit_eq_ok_iff :
    readLimit text = .ok counts ↔ LimitParts (Scan.splitTopLevel ',' text) counts := by
  constructor
  · -- One part is a count, two are a start and a count, and nothing else is read.
    intro h
    unfold readLimit at h
    split at h
    · next count hparts =>
        obtain ⟨n, hn, h⟩ := Query.bind_eq_ok.1 h
        cases h
        rw [hparts]
        exact .count (readCount_eq_ok_iff.1 hn)
    · next start count hparts =>
        obtain ⟨n, hn, h⟩ := Query.bind_eq_ok.1 h
        obtain ⟨m, hm, h⟩ := Query.bind_eq_ok.1 h
        cases h
        rw [hparts]
        exact .range (readCount_eq_ok_iff.1 hm) (readCount_eq_ok_iff.1 hn)
    · cases h
  · intro h
    generalize hparts : Scan.splitTopLevel ',' text = parts at h
    rw [readLimit, hparts]
    cases h with
    | count hcount =>
        simp only [readCount_eq_ok_iff.2 hcount]
        rfl
    | range hstart hcount =>
        simp only [readCount_eq_ok_iff.2 hstart, readCount_eq_ok_iff.2 hcount]
        rfl

end Parts

/-! ## Blank parts -/

/-- The parts between commas that have something other than blanks in them. -/
def filledParts (text : List Char) : List (List Char) :=
  (text.splitOn ',').filter fun part => !(trim part).isEmpty

/-- The text without its blank parts and their commas. -/
def withoutBlankParts (text : List Char) : List Char :=
  [','].intercalate (filledParts text)

section Blank

variable {text : List Char} {parts : List (List Char)} {counts : Nat × Option Nat}

theorem withoutBlankParts_eq_self (h : ∀ part ∈ text.splitOn ',', trim part ≠ []) :
    withoutBlankParts text = text := by
  have hparts : filledParts text = text.splitOn ',' :=
    List.filter_eq_self.2 fun part hpart => by simpa using h part hpart
  rw [withoutBlankParts, hparts, List.intercalate_splitOn]

theorem limitText_withoutBlankParts :
    LimitText (withoutBlankParts text) counts ↔ LimitParts (filledParts text) counts := by
  rw [limitText_iff, withoutBlankParts]
  cases hparts : filledParts text with
  | nil =>
      -- Neither no part at all nor an empty one is a count.
      constructor
      · intro h
        obtain ⟨n, hn⟩ := LimitParts.exists_counts h [] (by simp)
        exact absurd rfl hn.trim_ne_nil
      · intro h
        cases h
  | cons part parts =>
      rw [← hparts, List.splitOn_intercalate]
      · intro part hpart
        exact Chars.not_mem_of_mem_splitOn (List.mem_filter.1 hpart).1
      · simp [hparts]

/-- If the parts that are left are counts, nothing in the text is quoted or in parentheses. -/
theorem isOrdinary_of_limitParts (h : LimitParts ((parts.map trim).filter (!·.isEmpty)) counts) :
    ∀ c ∈ [','].intercalate parts, Scan.isOrdinary c = true := by
  have htrim : ∀ part ∈ parts, ∀ c ∈ trim part, Scan.isOrdinary c = true := by
    intro part hpart c hc
    have hmem : trim part ∈ (parts.map trim).filter (!·.isEmpty) :=
      List.mem_filter.2 ⟨List.mem_map_of_mem hpart, by simpa using List.ne_nil_of_mem hc⟩
    obtain ⟨n, hn⟩ := h.exists_counts _ hmem
    exact hn.isOrdinary c hc
  have hall : ∀ part ∈ parts, ∀ c ∈ part, Scan.isOrdinary c = true := by
    intro part hpart
    obtain ⟨left, right, hleft, hright, heq⟩ := Chars.exists_blanks part
    rw [heq]
    simp only [List.forall_mem_append]
    exact ⟨fun c hc => Scan.isOrdinary_of_isBlank (hleft c hc), htrim part hpart,
      fun c hc => Scan.isOrdinary_of_isBlank (hright c hc)⟩
  by_cases hne : parts = []
  · simp [hne]
  · exact Chars.intercalate_of_append (P := fun s => ∀ c ∈ s, Scan.isOrdinary c = true)
      (fun ha hb => List.forall_mem_append.2 ⟨ha, hb⟩) (by decide) hne hall

theorem splitTopLevel_of_isOrdinary (htext : ∀ c ∈ text, Scan.isOrdinary c = true) :
    Scan.splitTopLevel ',' text = (filledParts text).map trim := by
  have hstart : Scan.OnTop {} := Scan.settled_start.onTop
  rw [Scan.splitTopLevel, Scan.pieces_of_isOrdinary hstart htext, List.filter_map]
  rfl

theorem limitParts_splitTopLevel :
    LimitParts (Scan.splitTopLevel ',' text) counts ↔ LimitParts (filledParts text) counts := by
  rw [← @limitParts_map_trim (filledParts text)]
  constructor
  · intro h
    have htext := isOrdinary_of_limitParts h
    rw [Scan.intercalate_pieces] at htext
    rwa [splitTopLevel_of_isOrdinary htext] at h
  · intro h
    have hparts : LimitParts (((text.splitOn ',').map trim).filter (!·.isEmpty)) counts := by
      rw [List.filter_map]
      exact h
    have htext := isOrdinary_of_limitParts hparts
    rw [List.intercalate_splitOn] at htext
    rwa [splitTopLevel_of_isOrdinary htext]

theorem LimitText.trim_ne_nil (h : LimitText text counts) :
    ∀ part ∈ text.splitOn ',', trim part ≠ [] := by
  intro part hpart
  obtain ⟨n, hn⟩ := (limitText_iff.1 h).exists_counts part hpart
  exact hn.trim_ne_nil

/-- What the text of a LIMIT clause stands for is read. -/
theorem readLimit_of_limitText (h : LimitText text counts) : readLimit text = .ok counts := by
  rw [readLimit_eq_ok_iff, limitParts_splitTopLevel, ← limitText_withoutBlankParts,
    withoutBlankParts_eq_self h.trim_ne_nil]
  exact h

theorem readLimit_decimal {n : Nat} (hn : n < wordBound) :
    readLimit (Chars.decimal n) = .ok (n, none) :=
  readLimit_of_limitText (.count (counts_decimal hn))

end Blank

/-! ## What is read -/

/-- A text is read if it is that of a LIMIT clause, blank parts and their commas apart, and then as
the numbers written there.  So the texts of LIMIT clauses are those that are read and have no blank
part.  Every other text is refused as no row count. -/
theorem readLimit_exact (text : List Char) :
    (∀ counts, readLimit text = .ok counts ↔ LimitText (withoutBlankParts text) counts) ∧
      (∀ counts, LimitText text counts ↔
        readLimit text = .ok counts ∧ ∀ part ∈ text.splitOn ',', trim part ≠ []) ∧
      ∀ e, readLimit text = .error e → ∃ value, e = .invalidLimit .limit value := by
  have hread : ∀ counts, readLimit text = .ok counts ↔
      LimitText (withoutBlankParts text) counts := fun counts => by
    rw [readLimit_eq_ok_iff, limitParts_splitTopLevel, limitText_withoutBlankParts]
  refine ⟨hread, fun counts => ⟨fun h => ⟨readLimit_of_limitText h, h.trim_ne_nil⟩, ?_⟩,
    readLimit_fails text⟩
  rintro ⟨h, hparts⟩
  have htext := (hread counts).1 h
  rwa [withoutBlankParts_eq_self hparts] at htext

/-- A comma in front of the count, behind it, or a second one between offset and count: the text is
that of no LIMIT clause, and is read. -/
theorem readLimit_spareComma :
    (readLimit ",5".toList = .ok (5, none) ∧ ∀ counts, ¬ LimitText ",5".toList counts) ∧
      (readLimit "10,".toList = .ok (10, none) ∧ ∀ counts, ¬ LimitText "10,".toList counts) ∧
      readLimit "1,,2".toList = .ok (2, some 1) ∧ ∀ counts, ¬ LimitText "1,,2".toList counts := by
  have hblank : ∀ text : List Char, [] ∈ text.splitOn ',' → ∀ counts, ¬ LimitText text counts :=
    fun text hmem counts h => h.trim_ne_nil [] hmem rfl
  refine ⟨⟨by decide +kernel, hblank _ (by decide +kernel)⟩,
    ⟨by decide +kernel, hblank _ (by decide +kernel)⟩, by decide +kernel,
    hblank _ (by decide +kernel)⟩

end RowClause
end ContentQuery
