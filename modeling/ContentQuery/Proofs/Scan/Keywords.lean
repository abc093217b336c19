import ContentQuery.Proofs.Scan.Spellings

/-!
# Matching keywords in composed text

A keyword is matched against all the text that is left.  This file says when a match sees nothing
of what comes later: `Keyword.Ends` is the condition on the text that follows, and under it a match
in `a ++ b` is a match in `a`.  It also has the matches that printed text is made of: a keyword
matches itself, a name matches no keyword, and keywords that differ do not match each other.  So a
keyword stands at one place in one way only.
-/

namespace ContentQuery
namespace Keyword

open Chars (isBlank isNameChar)

/-- The first letters of the words behind the first one. -/
def laterInitials : List Char → List Char
  | [] => []
  | c :: cs => if c = ' ' then cs.head?.toList ++ laterInitials cs else laterInitials cs

/-- The text `b` continues neither a name nor a keyword whose later words begin with `later`. -/
def Ends (later b : List Char) : Prop :=
  (∀ c ∈ b.head?, isIdentifierChar c = false) ∧
    ∀ c ∈ (b.dropWhile isBlank).head?, c.toUpper ∉ later

/-! ## Text behind a match -/

theorem not_isNameChar_of_ends {later b : List Char} (hb : Ends later b) :
    ∀ c ∈ b.head?, isNameChar c = false := by
  intro c hc
  cases hname : isNameChar c with
  | false => rfl
  | true =>
      have h := hb.1 c hc
      simp [Chars.isIdentifierChar_of_isNameChar hname] at h

theorem Ends.append {later b c : List Char} (hb : Ends later b) (hc : Ends later c) :
    Ends later (b ++ c) := by
  constructor
  · cases b with
    | nil => exact hc.1
    | cons d ds => exact hb.1
  · rw [List.dropWhile_append]
    -- If all of `b` is blank, the next word is the one that `c` begins with.
    split
    · exact hc.2
    · next hrest =>
        cases hds : b.dropWhile isBlank with
        | nil => simp [hds] at hrest
        | cons d ds =>
            have h := hb.2
            rw [hds] at h
            exact h

/-- With nothing later to continue, only the first character counts. -/
theorem ends_nil {b : List Char} (h : ∀ c ∈ b.head?, isIdentifierChar c = false) : Ends [] b :=
  ⟨h, by simp⟩

/-- A character that is in no identifier ends the identifier before it. -/
theorem head_cons {c : Char} (hc : isIdentifierChar c = false) (text : List Char) :
    ∀ d ∈ (c :: text).head?, isIdentifierChar d = false := by
  rintro d hd
  cases hd
  exact hc

theorem ends_cons {c : Char} (hc : isIdentifierChar c = false) (text : List Char) :
    Ends [] (c :: text) :=
  ends_nil (head_cons hc text)

theorem Ends.weaken {later b : List Char} (h : Ends later b) : Ends [] b :=
  ends_nil h.1

/-- A match sees nothing of a text that continues neither names nor keywords. -/
theorem spelling?_append {letters later b : List Char} (hletters : Spelled letters)
    (hlater : ∀ i ∈ laterInitials letters, i ∈ later) (hb : Ends later b) (a : List Char) :
    spelling? letters (a ++ b) = spelling? letters a := by
  induction hletters generalizing a with
  | nil =>
      cases a with
      | nil =>
          have h : b.head?.any isIdentifierChar = false := by
            cases hhead : b.head? with
            | none => rfl
            | some c => simpa using hb.1 c hhead
          simp [spelling?, h]
      | cons c cs => rfl
  | @letter letter letters hletter _ ih =>
      have hsub : ∀ i ∈ laterInitials letters, i ∈ later := by
        intro i hi
        refine hlater i ?_
        rwa [laterInitials, if_neg (ne_space_of_isUpper hletter)]
      cases a with
      | nil =>
          -- A match in `b` would begin with a name character.
          rw [List.nil_append, spelling?_eq_none_of_not_isNameChar hletter
            (not_isNameChar_of_ends hb), spelling?_eq_none hletter (by simp)]
      | cons c cs =>
          by_cases hc : c.toUpper = letter
          · rw [List.cons_append, spelling?_letter hletter hc, spelling?_letter hletter hc,
              ih hsub]
          · have hne : ∀ rest, ∀ e ∈ (c :: rest).head?, e.toUpper ≠ letter := by
              intro rest e he
              cases he
              exact hc
            rw [List.cons_append, spelling?_eq_none hletter (hne _),
              spelling?_eq_none hletter (hne _)]
  | @space d ds hd _ ih =>
      have hsub : ∀ i ∈ laterInitials (d :: ds), i ∈ later := by
        intro i hi
        exact hlater i (by simp [laterInitials] at hi ⊢; exact .inr hi)
      have hinitial : d ∈ later := hlater d (by simp [laterInitials])
      rw [spelling?_space, spelling?_space, List.takeWhile_append, List.dropWhile_append]
      by_cases hblank : (a.dropWhile isBlank).isEmpty = true
      · -- All of `a` is blank: then `b` would have to bring the next word.
        have hnone : spelling? (d :: ds) (b.dropWhile isBlank) = none := by
          refine spelling?_eq_none hd ?_
          rintro c hc rfl
          exact hb.2 c hc hinitial
        have hempty : spelling? (d :: ds) (a.dropWhile isBlank) = none := by
          rw [List.isEmpty_iff.1 hblank]
          exact spelling?_eq_none hd (by simp)
        simp [hblank, hnone, hempty]
      · -- The blanks end within `a`, and the next word is looked for in what `a` has left.
        have hlength : (a.takeWhile isBlank).length ≠ a.length := by
          intro h
          have hsplit : a.takeWhile isBlank ++ a.dropWhile isBlank = a :=
            List.takeWhile_append_dropWhile
          rw [(List.takeWhile_prefix isBlank).eq_of_length h, List.append_right_eq_self] at hsplit
          exact hblank (List.isEmpty_iff.2 hsplit)
        rw [if_neg hlength, if_neg hblank, ih hsub]

/-! ## Matches in printed text -/

/-- A name matches no keyword but the one that it spells. -/
theorem spelling?_name {name letters b : List Char} (hname : ∀ c ∈ name, isNameChar c = true)
    (hletters : Spelled letters) (hb : ∀ c ∈ b.head?, isNameChar c = false)
    (hne : name.map Char.toUpper ≠ letters.takeWhile (· != ' ')) :
    spelling? letters (name ++ b) = none := by
  induction hletters generalizing name with
  | nil =>
      cases name with
      | nil => exact absurd rfl hne
      | cons c cs =>
          have hc := Chars.isIdentifierChar_of_isNameChar (hname c (by simp))
          simp [spelling?, hc]
  | @letter letter letters hletter _ ih =>
      cases name with
      | nil => exact spelling?_eq_none_of_not_isNameChar hletter hb
      | cons c cs =>
          by_cases hc : c.toUpper = letter
          · -- One letter agrees; the rest of the name is not the rest of the word.
            rw [List.cons_append, spelling?_letter hletter hc, Option.map_eq_none_iff]
            refine ih (fun e he => hname e (by simp [he])) ?_
            intro heq
            refine hne ?_
            rw [List.map_cons, List.takeWhile_cons_of_pos (by simpa using ne_space_of_isUpper hletter),
              hc, heq]
          · exact spelling?_eq_none hletter (by simpa using hc)
  | space =>
      cases name with
      | nil => exact absurd rfl hne
      | cons c cs =>
          have hc : isBlank c = false := Chars.isBlank_of_isNameChar (hname c (by simp))
          simp [spelling?, hc]

/-- A keyword matches itself. -/
theorem spelling?_self {letters b : List Char} (hletters : Spelled letters)
    (hb : ∀ c ∈ b.head?, isIdentifierChar c = false) :
    spelling? letters (letters ++ b) = some letters.length :=
  (spelling?_eq_some_iff hletters).2 ⟨letters, b, rfl, rfl, spells_self hletters, hb⟩

/-- Whether two keywords differ before the first one has a space or either one ends. -/
def differs : List Char → List Char → Bool
  | l :: ls, c :: cs => l != ' ' && (c.toUpper != l || differs ls cs)
  | _, _ => false

/-- What spells one keyword is no match of a keyword that differs from it. -/
theorem spelling?_of_spells {other letters stretch : List Char} (hother : Spelled other)
    (hdiffers : differs other letters = true) (hspells : Spells letters stretch)
    (behind : List Char) : spelling? other (stretch ++ behind) = none := by
  induction hother generalizing letters stretch with
  | nil => simp [differs] at hdiffers
  | @letter l ls hl _ ih =>
      cases hspells with
      | nil => simp [differs] at hdiffers
      | @letter letter c letters cs _ hc hcs =>
          by_cases hcl : c.toUpper = l
          · -- One letter agrees; the keywords differ behind it.
            have hletter : letter.toUpper = l := by
              rw [← hc, hcl, toUpper_of_isUpper hl]
            have hrest : differs ls letters = true := by
              simpa [differs, hletter, ne_space_of_isUpper hl] using hdiffers
            rw [List.cons_append, spelling?_letter hl hcl, ih hrest hcs]
            rfl
          · exact spelling?_eq_none hl (by simpa using hcl)
      | @space letters blanks cs hne hblanks _ =>
          -- A blank stands where the other keyword has a letter.
          obtain ⟨b, bs, rfl⟩ := List.exists_cons_of_ne_nil hne
          refine spelling?_eq_none_of_not_isNameChar hl ?_
          rintro c hc
          cases hc
          exact Chars.isNameChar_of_isBlank (hblanks b (by simp))
  | space => cases letters <;> simp [differs] at hdiffers

/-! ## The first keyword of a list -/

variable {words : List Keyword} {last : Option Char}

theorem length?_of_any (k : Keyword) {text : List Char}
    (hlast : last.any isIdentifierChar = true) : k.length? last text = none := by
  simp [length?, hlast]

theorem length?_eq (k : Keyword) {text : List Char}
    (hlast : last.any isIdentifierChar = false) : k.length? last text = spelling? k.letters text := by
  simp [length?, hlast]

/-- A keyword is matched where no name goes on before it, by the stretch that spells it. -/
theorem length?_eq_some_iff {k : Keyword} (hk : k.WellFormed) {last : Option Char} {n : Nat} :
    k.length? last text = some n ↔
      (∀ c ∈ last, isIdentifierChar c = false) ∧ BeginsWith k.letters text n := by
  rw [← spelling?_eq_some_iff hk.spelled]
  cases hbound : last.any isIdentifierChar with
  | true =>
      obtain ⟨c, rfl, hc⟩ := (Option.any_eq_true _ _).1 hbound
      simp [length?_of_any k hbound, hc]
  | false =>
      have hlast := (Option.any_eq_false _ _).1 hbound
      rw [length?_eq k hbound]
      exact ⟨fun h => ⟨hlast, h⟩, And.right⟩

/-- A keyword that is matched has at least one letter, and is made of ordinary characters. -/
theorem WellFormed.ordinary_of_length? {k : Keyword} (hk : k.WellFormed) {c : Char}
    {cs : List Char} {n : Nat} (h : k.length? last (c :: cs) = some n) :
    ∃ m, n = m + 1 ∧ n ≤ (c :: cs).length ∧
      ∀ d ∈ (c :: cs).take n, Scan.isOrdinary d = true := by
  obtain ⟨-, stretch, behind, hsplit, rfl, hspells, -⟩ := (length?_eq_some_iff hk).1 h
  have hpos := List.length_pos_iff.2 (hk.ne_nil_of_spells hspells)
  refine ⟨stretch.length - 1, by omega, ?_, ?_⟩
  · rw [hsplit, List.length_append]
    omega
  · rw [hsplit, List.take_left]
    exact isOrdinary_of_spells hk.spelled hspells

/-- Matching looks at the text and at whether a name ends before it. -/
theorem first?_congr {last' : Option Char} {text text' : List Char}
    (h : ∀ k ∈ words, k.length? last text = k.length? last' text') :
    first? words last text = first? words last' text' := by
  unfold first?
  generalize 0 = start
  induction words generalizing start with
  | nil => rfl
  | cons k ks ih =>
      rw [List.zipIdx_cons, List.findSome?_cons, List.findSome?_cons, h k (by simp),
        ih (fun k' hk' => h k' (by simp [hk'])) (start + 1)]

theorem first?_eq_none_iff {text : List Char} :
    first? words last text = none ↔ ∀ k ∈ words, k.length? last text = none := by
  unfold first?
  rw [List.findSome?_eq_none_iff]
  constructor
  · intro h k hk
    obtain ⟨i, hi⟩ := List.mem_iff_getElem?.1 hk
    simpa using h (k, i) (List.mk_mem_zipIdx_iff_getElem?.2 hi)
  · rintro h ⟨k, i⟩ hk
    simp [h k (List.fst_mem_of_mem_zipIdx hk)]

theorem first?_eq_none {text : List Char} (h : ∀ k ∈ words, k.length? last text = none) :
    first? words last text = none :=
  first?_eq_none_iff.2 h

/-- What is found is the first keyword of the list that matches. -/
theorem first?_eq_some_iff {text : List Char} {i n : Nat} :
    first? words last text = some (i, n) ↔
      ∃ k, words[i]? = some k ∧ k.length? last text = some n ∧
        ∀ j < i, ∀ k', words[j]? = some k' → k'.length? last text = none := by
  have hplace : ∀ j : Nat, words.zipIdx[j]? = (words[j]?).map (·, j) := by
    simp [List.getElem?_zipIdx]
  rw [first?, List.findSome?_eq_some_iff]
  constructor
  · rintro ⟨front, ⟨k, j⟩, back, hsplit, hfound, hnone⟩
    -- The keyword stands behind those in front, which do not match.
    have hfront := hplace front.length
    rw [hsplit, List.getElem?_append_right (Nat.le_refl _), Nat.sub_self] at hfront
    obtain ⟨_, hk, heq⟩ := Option.map_eq_some_iff.1 hfront.symm
    cases heq
    obtain ⟨m, hm, heq⟩ := Option.map_eq_some_iff.1 hfound
    cases heq
    refine ⟨k, hk, hm, ?_⟩
    intro j hj k' hk'
    have hmem : (k', j) ∈ front := by
      have h := hplace j
      rw [hsplit, List.getElem?_append_left hj, hk'] at h
      exact List.mem_of_getElem? h
    simpa using hnone (k', j) hmem
  · rintro ⟨k, hk, hlength, hnone⟩
    have hi : words.zipIdx[i]? = some (k, i) := by
      rw [hplace, hk]
      rfl
    obtain ⟨hlt, hget⟩ := List.getElem?_eq_some_iff.1 hi
    refine ⟨words.zipIdx.take i, (k, i), words.zipIdx.drop (i + 1), ?_, by simp [hlength], ?_⟩
    · rw [← hget, List.getElem_cons_drop, List.take_append_drop]
    · rintro ⟨k', j⟩ hmem
      obtain ⟨m, hm⟩ := List.mem_iff_getElem?.1 hmem
      rw [List.getElem?_take] at hm
      split at hm
      · next hmi =>
          rw [hplace] at hm
          obtain ⟨_, hk', heq⟩ := Option.map_eq_some_iff.1 hm
          cases heq
          simp [hnone j hmi k' hk']
      · cases hm

theorem exists_of_first? {text : List Char} {i n : Nat} (h : first? words last text = some (i, n)) :
    ∃ k, words[i]? = some k ∧ k.length? last text = some n := by
  rcases first?_eq_some_iff.1 h with ⟨k, hk, hlength, -⟩
  exact ⟨k, hk, hlength⟩

/-! ## Keywords in a text -/

/-- A keyword is found where it is spelled if the words tried before it differ from it. -/
theorem first?_spelled {words : List Keyword} {i : Nat} {k : Keyword} (hi : words[i]? = some k)
    (hwords : ∀ k' ∈ words, k'.WellFormed)
    (hdiffers : ∀ k' ∈ words.take i, differs k'.letters k.letters = true)
    (hspells : Spells k.letters stretch) {last : Option Char}
    (hlast : last.any isIdentifierChar = false) {behind : List Char}
    (hbehind : ∀ c ∈ behind.head?, isIdentifierChar c = false) :
    first? words last (stretch ++ behind) = some (i, stretch.length) := by
  refine first?_eq_some_iff.2 ⟨k, hi, ?_, ?_⟩
  · have hmatch : spelling? k.letters (stretch ++ behind) = some stretch.length :=
      (spelling?_eq_some_iff (hwords k (List.mem_of_getElem? hi)).spelled).2
        ⟨stretch, behind, rfl, rfl, hspells, hbehind⟩
    rw [length?_eq k hlast, hmatch]
  · intro j hj k' hk'
    have hmem : k' ∈ words.take i :=
      List.mem_of_getElem? ((List.getElem?_take_of_lt hj).trans hk')
    rw [length?_eq k' hlast]
    exact spelling?_of_spells (hwords k' (List.mem_of_getElem? hk')).spelled (hdiffers k' hmem)
      hspells behind

/-- No match is empty. -/
theorem WellFormed.length?_ne_zero {k : Keyword} (hk : k.WellFormed) (last : Option Char)
    (text : List Char) : k.length? last text ≠ some 0 := by
  intro h
  obtain ⟨-, stretch, behind, -, hlength, hspells, -⟩ := (length?_eq_some_iff hk).1 h
  exact hk.ne_nil_of_spells hspells (List.length_eq_zero_iff.1 hlength)

/-- The keyword stands in the text from `start` to `stop`, between characters that continue no
name. -/
def StandsAt (k : Keyword) (text : List Char) (start stop : Nat) : Prop :=
  ∃ before stretch behind, text = before ++ (stretch ++ behind) ∧ before.length = start ∧
    start + stretch.length = stop ∧ Spells k.letters stretch ∧
    (∀ c ∈ before.getLast?, isIdentifierChar c = false) ∧
    ∀ c ∈ behind.head?, isIdentifierChar c = false

theorem standsAt_iff {k : Keyword} (hk : k.WellFormed) {before rest : List Char} {stop : Nat} :
    k.StandsAt (before ++ rest) before.length stop ↔
      ∃ n, k.length? before.getLast? rest = some n ∧ before.length + n = stop := by
  constructor
  · rintro ⟨front, stretch, behind, hsplit, hlength, rfl, hspells, hlast, hbound⟩
    obtain ⟨rfl, rfl⟩ := List.append_inj hsplit hlength.symm
    exact ⟨stretch.length,
      (length?_eq_some_iff hk).2 ⟨hlast, stretch, behind, rfl, rfl, hspells, hbound⟩, rfl⟩
  · rintro ⟨n, hn, rfl⟩
    obtain ⟨hlast, stretch, behind, rfl, rfl, hspells, hbound⟩ := (length?_eq_some_iff hk).1 hn
    exact ⟨before, stretch, behind, rfl, rfl, rfl, hspells, hlast, hbound⟩

section Places

variable {k : Keyword} {before rest : List Char}

theorem length?_eq_some_iff_standsAt (hk : k.WellFormed) {n : Nat} :
    k.length? before.getLast? rest = some n ↔
      k.StandsAt (before ++ rest) before.length (before.length + n) := by
  rw [standsAt_iff hk]
  constructor
  · exact fun h => ⟨n, h, rfl⟩
  · rintro ⟨m, h, heq⟩
    rwa [Nat.add_left_cancel heq] at h

theorem length?_eq_none_iff_standsAt (hk : k.WellFormed) :
    k.length? before.getLast? rest = none ↔
      ∀ stop, ¬k.StandsAt (before ++ rest) before.length stop := by
  rw [Option.eq_none_iff_forall_ne_some]
  constructor
  · intro h stop hstand
    obtain ⟨n, hn, -⟩ := (standsAt_iff hk).1 hstand
    exact h n hn
  · intro h n hn
    exact h _ ((length?_eq_some_iff_standsAt hk).1 hn)

/-- Where a keyword stands, there is text. -/
theorem StandsAt.lt_length (hk : k.WellFormed) {text : List Char} {start stop : Nat}
    (h : k.StandsAt text start stop) : start < text.length := by
  obtain ⟨before, stretch, behind, rfl, rfl, -, hspells, -⟩ := h
  have hpos := List.length_pos_iff.2 (hk.ne_nil_of_spells hspells)
  rw [List.length_append, List.length_append]
  omega

end Places

end Keyword
end ContentQuery
