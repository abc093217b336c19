import ContentQuery.Proofs.Scan.Keywords
import ContentQuery.Scan.Token

/-!
# Keyword tokens of composed text

Looking for keywords leaves a scan where reading the text leaves it, a token stands where its
keyword stands by itself, and the tokens of `a ++ b` are those of `a` and then those of `b` if `b`
continues no name and no keyword.
-/

namespace ContentQuery

/-- What a list of keywords is to give for matches to be local: `later` has the initials of all
words of a keyword behind the first one. -/
structure Keyword.Lawful (words : List Keyword) (later : List Char) : Prop where
  formed : ∀ k ∈ words, k.WellFormed
  initials : ∀ k ∈ words, ∀ c ∈ laterInitials k.letters, c ∈ later

/-- The keyword at place `i` is found where it stands, and is no continuation of another one. -/
structure Keyword.Opens (words : List Keyword) (later : List Char) (i : Nat) (k : Keyword) :
    Prop where
  place : words[i]? = some k
  differs : ∀ k' ∈ words.take i, differs k'.letters k.letters = true
  initial : ∀ c ∈ k.letters.head?, c ∉ later

instance (words : List Keyword) (later : List Char) : Decidable (Keyword.Lawful words later) :=
  decidable_of_iff
    ((∀ k ∈ words, k.WellFormed) ∧ ∀ k ∈ words, ∀ c ∈ Keyword.laterInitials k.letters, c ∈ later)
    ⟨fun h => ⟨h.1, h.2⟩, fun h => ⟨h.formed, h.initials⟩⟩

instance (words : List Keyword) (later : List Char) (i : Nat) (k : Keyword) :
    Decidable (Keyword.Opens words later i k) :=
  decidable_of_iff
    (words[i]? = some k ∧ (∀ k' ∈ words.take i, Keyword.differs k'.letters k.letters = true) ∧
      ∀ c ∈ k.letters.head?, c ∉ later)
    ⟨fun h => ⟨h.1, h.2.1, h.2.2⟩, fun h => ⟨h.place, h.differs, h.initial⟩⟩

namespace Scan

open Keyword (Ends Lawful Opens isIdentifierChar spelling?)
open Chars (isBlank isNameChar IsName)

variable {words : List Keyword} {later : List Char} {s : Scan}

/-! ## One step -/

/-- The keyword that a scan finds before a character. -/
def keyword? (words : List Keyword) (s : Scan) (c : Char) (cs : List Char) : Option (Nat × Nat) :=
  if s.isOutside c then Keyword.first? words s.last (c :: cs) else none

theorem tokensFrom_of_none {c : Char} {cs : List Char} (h : keyword? words s c cs = none) :
    tokensFrom words 0 s (c :: cs) = tokensFrom words 0 (s.step c) cs := by
  rw [keyword?] at h
  rw [tokensFrom, h]

theorem tokensFrom_of_some {c : Char} {cs : List Char} {i n : Nat}
    (h : keyword? words s c cs = some (i, n + 1)) :
    tokensFrom words 0 s (c :: cs) =
      (⟨i, s.position, s.position + (n + 1), s.depth⟩ :: (tokensFrom words n (s.pass c) cs).1,
        (tokensFrom words n (s.pass c) cs).2) := by
  rw [keyword?] at h
  rw [tokensFrom, h]

/-- What is found is a keyword of the list, with at least one letter. -/
theorem exists_of_keyword? (hwords : ∀ k ∈ words, k.WellFormed) {c : Char} {cs : List Char}
    {found : Nat × Nat} (h : keyword? words s c cs = some found) :
    ∃ i n k, found = (i, n + 1) ∧ words[i]? = some k ∧ s.isOutside c = true ∧
      k.length? s.last (c :: cs) = some (n + 1) ∧ n + 1 ≤ (c :: cs).length ∧
      ∀ d ∈ (c :: cs).take (n + 1), isOrdinary d = true := by
  rcases found with ⟨i, n⟩
  rw [keyword?] at h
  split at h
  · next houtside =>
      rcases Keyword.exists_of_first? h with ⟨k, hk, hlength⟩
      have hformed := hwords k (List.mem_of_getElem? hk)
      rcases hformed.ordinary_of_length? hlength with ⟨m, rfl, hle, hordinary⟩
      exact ⟨i, m, k, rfl, hk, houtside, hlength, hle, hordinary⟩
  · cases h

/-- A keyword that was found is passed as it would be read. -/
theorem tokensFrom_skip {skip : Nat} {c : Char} {cs : List Char} (hmode : s.mode = .plain)
    (hc : isOrdinary c = true) :
    tokensFrom words (skip + 1) s (c :: cs) = tokensFrom words skip (s.step c) cs := by
  rw [tokensFrom, step_of_isOrdinary hc (isOutside_of_plain hmode c)]

theorem mode_step_of_isOrdinary {c : Char} (hc : isOrdinary c = true)
    (hs : s.isOutside c = true) : (s.step c).mode = .plain := by
  rw [step_of_isOrdinary hc hs]
  rfl

/-! ## The scan behind a text -/

theorem snd_tokensFrom_skip (hwords : ∀ k ∈ words, k.WellFormed) (text : List Char) :
    ∀ (skip : Nat) (s : Scan), (skip ≠ 0 → s.mode = .plain) →
      (∀ c ∈ text.take skip, isOrdinary c = true) →
      (tokensFrom words skip s text).2 = s.read text := by
  -- While letters of a keyword are left to skip, the scan stands in plain text before them.
  induction text with
  | nil =>
      intro skip s _ _
      cases skip <;> rfl
  | cons c cs ih =>
      intro skip s hmode hskip
      cases skip with
      | succ skip =>
          have hc : isOrdinary c = true := hskip c (by simp)
          have hplain := hmode (by simp)
          rw [tokensFrom_skip hplain hc, read_cons]
          exact ih skip (s.step c)
            (fun _ => mode_step_of_isOrdinary hc (isOutside_of_plain hplain c))
            fun d hd => hskip d (by simp [hd])
      | zero =>
          cases hfound : keyword? words s c cs with
          | none =>
              rw [tokensFrom_of_none hfound, read_cons]
              exact ih 0 (s.step c) (fun h => absurd rfl h) (by simp)
          | some found =>
              -- The letters of the keyword are ordinary, so passing them is reading them.
              obtain ⟨i, n, k, rfl, _, houtside, _, _, hordinary⟩ := exists_of_keyword? hwords hfound
              have hc : isOrdinary c = true := hordinary c (by simp)
              rw [tokensFrom_of_some hfound, read_cons, ← step_of_isOrdinary hc houtside]
              exact ih n (s.step c) (fun _ => mode_step_of_isOrdinary hc houtside)
                fun d hd => hordinary d (by simp [hd])

/-- Looking for keywords leaves the scan where reading leaves it. -/
theorem snd_tokensFrom (hwords : ∀ k ∈ words, k.WellFormed) (s : Scan) (text : List Char) :
    (tokensFrom words 0 s text).2 = s.read text :=
  snd_tokensFrom_skip hwords text 0 s (fun h => absurd rfl h) (by simp)

/-! ## Where a token stands -/

/-- A token is what a look before one of the characters of a text finds. -/
def Seen (words : List Keyword) (s : Scan) (text : List Char) (t : Token) : Prop :=
  ∃ before c behind n, text = before ++ c :: behind ∧
    keyword? words (s.read before) c behind = some (t.index, n + 1) ∧
    t.start = (s.read before).position ∧ t.stop = t.start + (n + 1) ∧
    t.depth = (s.read before).depth

theorem Seen.cons {c : Char} {cs : List Char} {t : Token} (h : Seen words (s.step c) cs t) :
    Seen words s (c :: cs) t := by
  rcases h with ⟨before, d, behind, n, hcs, hrest⟩
  exact ⟨c :: before, d, behind, n, by rw [hcs]; rfl, hrest⟩

theorem seen_of_mem_skip (hwords : ∀ k ∈ words, k.WellFormed) (text : List Char) :
    ∀ (skip : Nat) (s : Scan), (skip ≠ 0 → s.mode = .plain) →
      (∀ c ∈ text.take skip, isOrdinary c = true) →
      ∀ t ∈ (tokensFrom words skip s text).1, Seen words s text t := by
  induction text with
  | nil =>
      intro skip s _ _ t ht
      cases skip <;> simp [tokensFrom] at ht
  | cons c cs ih =>
      intro skip s hmode hskip t ht
      cases skip with
      | succ skip =>
          have hc : isOrdinary c = true := hskip c (by simp)
          have hplain := hmode (by simp)
          rw [tokensFrom_skip hplain hc] at ht
          exact (ih skip (s.step c)
            (fun _ => mode_step_of_isOrdinary hc (isOutside_of_plain hplain c))
            (fun d hd => hskip d (by simp [hd])) t ht).cons
      | zero =>
          cases hfound : keyword? words s c cs with
          | none =>
              rw [tokensFrom_of_none hfound] at ht
              exact (ih 0 (s.step c) (fun h => absurd rfl h) (by simp) t ht).cons
          | some found =>
              obtain ⟨i, n, k, rfl, -, houtside, -, -, hordinary⟩ :=
                exists_of_keyword? hwords hfound
              have hc : isOrdinary c = true := hordinary c (by simp)
              rw [tokensFrom_of_some hfound, List.mem_cons] at ht
              -- The token is the one of this place, or it stands behind.
              rcases ht with rfl | ht
              · exact ⟨[], c, cs, n, rfl, hfound, rfl, rfl, rfl⟩
              · rw [← step_of_isOrdinary hc houtside] at ht
                exact (ih n (s.step c) (fun _ => mode_step_of_isOrdinary hc houtside)
                  (fun d hd => hordinary d (by simp [hd])) t ht).cons

theorem seen_of_mem (hwords : ∀ k ∈ words, k.WellFormed) {text : List Char} {t : Token}
    (ht : t ∈ (tokensFrom words 0 s text).1) : Seen words s text t :=
  seen_of_mem_skip hwords text 0 s (fun h => absurd rfl h) (by simp) t ht

/-- A token stands before a character at which a fresh look finds its keyword. -/
def Found (words : List Keyword) (s : Scan) (text : List Char) (t : Token) : Prop :=
  ∃ before c behind k, text = before ++ c :: behind ∧ words[t.index]? = some k ∧
    (s.read before).isOutside c = true ∧
    k.length? (s.read before).last (c :: behind) = some (t.stop - t.start) ∧
    t.start = (s.read before).position ∧ t.depth = (s.read before).depth ∧
    t.start ≤ t.stop ∧ t.stop ≤ s.position + text.length

theorem found_of_mem (hwords : ∀ k ∈ words, k.WellFormed) {text : List Char} {t : Token}
    (ht : t ∈ (tokensFrom words 0 s text).1) : Found words s text t := by
  obtain ⟨before, c, behind, n, htext, hfound, hstart, hstop, hdepth⟩ := seen_of_mem hwords ht
  obtain ⟨i, m, k, heq, hk, houtside, hlength, hle, -⟩ := exists_of_keyword? hwords hfound
  cases heq
  have hsum : t.stop - t.start = n + 1 := by omega
  refine ⟨before, c, behind, k, htext, hk, houtside, hsum ▸ hlength, hstart, hdepth, by omega, ?_⟩
  rw [position_read] at hstart
  rw [htext, List.length_append]
  omega

/-- A token of a text is a stretch of ordinary characters outside literals. -/
theorem exists_of_mem_tokens (hwords : ∀ k ∈ words, k.WellFormed) {text : List Char} {t : Token}
    (ht : t ∈ (tokens words text).1) :
    ∃ before c behind n, text = before ++ c :: behind ∧ t.start = before.length ∧
      t.stop = before.length + (n + 1) ∧ n + 1 ≤ (c :: behind).length ∧
      (∀ d ∈ (c :: behind).take (n + 1), isOrdinary d = true) ∧
      (({} : Scan).read before).isOutside c = true ∧
      t.depth = (({} : Scan).read before).depth := by
  obtain ⟨before, c, behind, k, htext, hk, houtside, hlength, hstart, hdepth, hle, -⟩ :=
    found_of_mem hwords ht
  have hformed := hwords k (List.mem_of_getElem? hk)
  obtain ⟨n, hn, hbound, hordinary⟩ := hformed.ordinary_of_length? hlength
  rw [hn] at hbound hordinary
  have hposition : t.start = before.length := by
    rw [hstart, position_read]
    exact Nat.zero_add _
  exact ⟨before, c, behind, n, htext, hposition, by omega, hbound, hordinary, houtside, hdepth⟩

/-- A token lies within the text. -/
theorem bounds_of_mem (hwords : ∀ k ∈ words, k.WellFormed) {text : List Char} {t : Token}
    (ht : t ∈ (tokensFrom words 0 s text).1) :
    s.position ≤ t.start ∧ t.start ≤ t.stop ∧ t.stop ≤ s.position + text.length := by
  obtain ⟨_, _, _, _, _, _, _, _, hstart, _, hle, hstop⟩ := found_of_mem hwords ht
  rw [position_read] at hstart
  omega

/-! ## Text behind text -/

theorem keyword?_append (hwords : Lawful words later) {b : List Char} (hb : Ends later b)
    (s : Scan) (c : Char) (cs : List Char) :
    keyword? words s c (cs ++ b) = keyword? words s c cs := by
  unfold keyword?
  split
  · refine Keyword.first?_congr ?_
    intro k hk
    unfold Keyword.length?
    split
    · rfl
    · exact Keyword.spelling?_append (hwords.formed k hk).spelled (hwords.initials k hk) hb (c :: cs)
  · rfl

theorem tokensFrom_append_skip (hwords : Lawful words later) {b : List Char} (hb : Ends later b)
    (a : List Char) : ∀ (skip : Nat) (s : Scan), skip ≤ a.length →
      (tokensFrom words skip s (a ++ b)).1 =
        (tokensFrom words skip s a).1 ++
          (tokensFrom words 0 (tokensFrom words skip s a).2 b).1 := by
  induction a with
  | nil =>
      intro skip s hskip
      have hzero : skip = 0 := by simpa using hskip
      subst hzero
      rfl
  | cons c cs ih =>
      intro skip s hskip
      cases skip with
      | succ skip => exact ih skip (s.pass c) (by simpa using hskip)
      | zero =>
          -- What is found here is found with `b` behind the text, too.
          have happend := keyword?_append hwords hb s c cs
          cases hfound : keyword? words s c cs with
          | none =>
              rw [hfound] at happend
              rw [List.cons_append, tokensFrom_of_none happend, tokensFrom_of_none hfound]
              exact ih 0 (s.step c) (Nat.zero_le _)
          | some found =>
              rcases exists_of_keyword? hwords.formed hfound with ⟨i, n, k, rfl, _, _, _, hle, _⟩
              -- The keyword ends within `a`, so the induction goes on with the letters to skip.
              rw [hfound] at happend
              rw [List.cons_append, tokensFrom_of_some happend, tokensFrom_of_some hfound]
              rw [List.length_cons] at hle
              simp only [List.cons_append, ih n (s.pass c) (by omega)]

/-- The tokens of `a ++ b` are those of `a` and then those of `b`. -/
theorem tokensFrom_append (hwords : Lawful words later) {b : List Char} (hb : Ends later b)
    (s : Scan) (a : List Char) :
    (tokensFrom words 0 s (a ++ b)).1 =
      (tokensFrom words 0 s a).1 ++ (tokensFrom words 0 (s.read a) b).1 := by
  rw [tokensFrom_append_skip hwords hb a 0 s (Nat.zero_le _), snd_tokensFrom hwords.formed]

end Scan
end ContentQuery
