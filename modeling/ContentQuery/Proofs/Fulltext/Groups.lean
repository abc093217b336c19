import Mathlib.Data.List.Basic
import ContentQuery.Fulltext.SearchTerms
import ContentQuery.Proofs.Chars.Names

/-!
# Groups of a search string

A search string is cut from left to right into groups and plain characters.  A group is a quoted
phrase, through the next quote, or a bracket group, through the parenthesis that closes it; a quote
or a parenthesis that begins no group is a plain character.

The cut is stated without marks.  Setting groups aside under numbered marks and putting them back is
related to it here: the marked text is read off the pieces, and behind the marks the pieces come back
as they were.
-/

namespace ContentQuery
namespace SearchTerms

/-! ## Groups -/

/-- A text closes the last of `depth` open parentheses at its end, and not before. -/
structure Closes (depth : Nat) (w : List Char) : Prop where
  level : w.count ')' = depth + w.count '('
  before : ∀ front, front <+: w → front ≠ w → front.count ')' < depth + front.count '('

/-- A quoted phrase, or a bracket group in which only parentheses count. -/
inductive IsGroup : List Char → Prop where
  | phrase {w : List Char} (h : '"' ∉ w) : IsGroup ('"' :: (w ++ ['"']))
  | bracket {w : List Char} (h : Closes 1 w) : IsGroup ('(' :: w)

/-- A piece of a search string. -/
inductive Piece where
  | char (c : Char)
  | group (text : List Char)
deriving DecidableEq, Repr

/-- The pieces of a search string, cut from left to right. -/
inductive Cut : List Char → List Piece → Prop where
  | nil : Cut [] []
  | group {g rest : List Char} {ps : List Piece} (hg : IsGroup g) (hrest : Cut rest ps) :
      Cut (g ++ rest) (.group g :: ps)
  | char {c : Char} {rest : List Char} {ps : List Piece}
      (hc : ∀ g, g <+: c :: rest → ¬ IsGroup g) (hrest : Cut rest ps) :
      Cut (c :: rest) (.char c :: ps)

/-! ## Where a group ends -/

theorem closes_zero {w : List Char} : Closes 0 w ↔ w = [] := by
  constructor
  · intro h
    by_contra hne
    exact absurd (h.before [] List.nil_prefix (Ne.symm hne)) (by simp)
  · rintro rfl
    exact ⟨rfl, fun front hfront hne => absurd (List.prefix_nil.1 hfront) hne⟩

/-- The first character moves the depth, and leaves the rest to close. -/
theorem closes_cons {depth depth' : Nat} {c : Char} {w : List Char} (hdepth : 0 < depth)
    (hmoves : depth' + [c].count ')' = depth + [c].count '(') :
    Closes depth (c :: w) ↔ Closes depth' w := by
  -- The first character is counted once, so the levels behind it all shift by what it adds.
  have hcount : ∀ (x : Char) (v : List Char), (c :: v).count x = [c].count x + v.count x :=
    fun x v => by rw [← List.count_append, List.singleton_append]
  have hopens := hcount '('
  have hcloses := hcount ')'
  constructor
  · rintro ⟨hlevel, hbefore⟩
    rw [hopens, hcloses] at hlevel
    refine ⟨by omega, fun front hfront hne => ?_⟩
    have h := hbefore (c :: front) ((List.prefix_cons_inj c).2 hfront) (by simpa using hne)
    rw [hopens front, hcloses front] at h
    omega
  · rintro ⟨hlevel, hbefore⟩
    refine ⟨?_, fun front hfront hne => ?_⟩
    · rw [hopens w, hcloses w]
      omega
    · rcases List.prefix_cons_iff.1 hfront with rfl | ⟨shorter, rfl, hshorter⟩
      · simpa using hdepth
      · have h := hbefore shorter hshorter (by simpa using hne)
        rw [hopens shorter, hcloses shorter]
        omega

theorem bracketLength?_append {depth : Nat} {w : List Char} (hdepth : 0 < depth)
    (h : Closes depth w) (rest : List Char) :
    bracketLength? depth (w ++ rest) = some w.length := by
  induction w generalizing depth with
  | nil =>
      have hlevel := h.level
      simp at hlevel
      omega
  | cons c w ih =>
      rw [List.cons_append]
      unfold bracketLength?
      -- A bracket moves the depth, and the one that would bring it to zero ends the group.
      by_cases hopen : c = '('
      · subst hopen
        have hw := (closes_cons hdepth (show depth + 1 + 0 = depth + 1 from rfl)).1 h
        simp [ih (Nat.succ_pos depth) hw]
      · by_cases hclose : c = ')'
        · subst hclose
          match depth, hdepth with
          | 1, _ =>
              have hw := (closes_cons Nat.one_pos (show 0 + 1 = 1 + 0 from rfl)).1 h
              simp [closes_zero.1 hw]
          | depth + 2, hdepth =>
              have hw := (closes_cons hdepth (show depth + 1 + 1 = depth + 2 + 0 from rfl)).1 h
              simp [ih (Nat.succ_pos depth) hw]
        · have hmoves : depth + [c].count ')' = depth + [c].count '(' := by simp [hopen, hclose]
          simp [hopen, hclose, ih hdepth ((closes_cons hdepth hmoves).1 h)]

theorem exists_of_bracketLength? {depth n : Nat} {cs : List Char} (hdepth : 0 < depth)
    (h : bracketLength? depth cs = some n) :
    ∃ w rest, Closes depth w ∧ cs = w ++ rest ∧ n = w.length := by
  induction cs generalizing depth n with
  | nil => cases h
  | cons c cs ih =>
      -- What closes the rest closes the text with the first character in front of it.
      have hcons : ∀ depth', 0 < depth' → depth' + [c].count ')' = depth + [c].count '(' →
          (bracketLength? depth' cs).map (· + 1) = some n →
          ∃ w rest, Closes depth w ∧ c :: cs = w ++ rest ∧ n = w.length := by
        intro depth' hdepth' hmoves hn
        obtain ⟨m, hm, rfl⟩ := Option.map_eq_some_iff.1 hn
        obtain ⟨w, rest, hw, rfl, rfl⟩ := ih hdepth' hm
        exact ⟨c :: w, rest, (closes_cons hdepth hmoves).2 hw, rfl, rfl⟩
      unfold bracketLength? at h
      by_cases hopen : c = '('
      · rw [if_pos hopen] at h
        subst hopen
        exact hcons (depth + 1) (Nat.succ_pos depth) rfl h
      · rw [if_neg hopen] at h
        by_cases hclose : c = ')'
        · rw [if_pos hclose] at h
          subst hclose
          match depth, hdepth with
          | 1, _ =>
              cases h
              have hlast : Closes 1 [')'] := (closes_cons Nat.one_pos rfl).2 (closes_zero.2 rfl)
              exact ⟨[')'], cs, hlast, rfl, rfl⟩
          | depth + 2, _ => exact hcons (depth + 1) (Nat.succ_pos depth) rfl h
        · rw [if_neg hclose] at h
          exact hcons depth hdepth (by simp [hopen, hclose]) h

theorem phraseLength?_append {w : List Char} (h : '"' ∉ w) (rest : List Char) :
    phraseLength? (w ++ '"' :: rest) = some (w.length + 1) := by
  induction w with
  | nil => simp [phraseLength?]
  | cons c w ih =>
      rw [List.mem_cons, not_or] at h
      simp [phraseLength?, Ne.symm h.1, ih h.2]

theorem exists_of_phraseLength? {n : Nat} {cs : List Char} (h : phraseLength? cs = some n) :
    ∃ w rest, '"' ∉ w ∧ cs = w ++ '"' :: rest ∧ n = w.length + 1 := by
  induction cs generalizing n with
  | nil => cases h
  | cons c cs ih =>
      rw [phraseLength?] at h
      by_cases hc : c = '"'
      · rw [if_pos hc] at h
        cases h
        exact ⟨[], cs, by simp, by rw [hc]; rfl, rfl⟩
      · rw [if_neg hc] at h
        obtain ⟨m, hm, rfl⟩ := Option.map_eq_some_iff.1 h
        obtain ⟨w, rest, hw, rfl, rfl⟩ := ih hm
        refine ⟨c :: w, rest, ?_, rfl, rfl⟩
        rw [List.mem_cons, not_or]
        exact ⟨Ne.symm hc, hw⟩

theorem groupTail?_append {c : Char} {w : List Char} (h : IsGroup (c :: w)) (rest : List Char) :
    groupTail? c (w ++ rest) = some w.length := by
  cases h with
  | phrase h =>
      rw [groupTail?, if_pos rfl, List.append_assoc, List.singleton_append,
        phraseLength?_append h, List.length_append, List.length_singleton]
  | bracket h =>
      rw [groupTail?, if_neg (by decide), if_pos rfl]
      exact bracketLength?_append Nat.one_pos h rest

theorem exists_of_groupTail? {c : Char} {cs : List Char} {n : Nat}
    (h : groupTail? c cs = some n) :
    ∃ w rest, IsGroup (c :: w) ∧ cs = w ++ rest ∧ n = w.length := by
  unfold groupTail? at h
  split at h
  · next hc =>
      obtain ⟨w, rest, hw, rfl, rfl⟩ := exists_of_phraseLength? h
      exact ⟨w ++ ['"'], rest, hc ▸ .phrase hw, by simp, by simp⟩
  · split at h
    · next hc =>
        obtain ⟨w, rest, hw, rfl, rfl⟩ := exists_of_bracketLength? Nat.one_pos h
        exact ⟨w, rest, hc ▸ .bracket hw, rfl, rfl⟩
    · cases h

theorem IsGroup.exists_cons {g : List Char} (h : IsGroup g) : ∃ c w, g = c :: w := by
  cases h with
  | phrase _ => exact ⟨_, _, rfl⟩
  | bracket _ => exact ⟨_, _, rfl⟩

/-- A character begins no group exactly if no tail is found for it. -/
theorem groupTail?_eq_none_iff {c : Char} {cs : List Char} :
    groupTail? c cs = none ↔ ∀ g, g <+: c :: cs → ¬ IsGroup g := by
  constructor
  · rintro hnone g ⟨rest, hrest⟩ hg
    obtain ⟨d, w, rfl⟩ := hg.exists_cons
    obtain ⟨rfl, rfl⟩ := List.cons.inj hrest
    exact absurd (hnone.symm.trans (groupTail?_append hg rest)) (by simp)
  · intro h
    cases htail : groupTail? c cs with
    | none => rfl
    | some n =>
        obtain ⟨w, rest, hg, rfl, -⟩ := exists_of_groupTail? htail
        exact absurd hg (h _ ⟨rest, rfl⟩)

/-! ## The cut as a function -/

/-- The pieces of a text; its first `skip` characters belong to a group that was cut already. -/
def piecesFrom : (skip : Nat) → List Char → List Piece
  | _, [] => []
  | skip + 1, _ :: cs => piecesFrom skip cs
  | 0, c :: cs =>
      match groupTail? c cs with
      | some length => .group (c :: cs.take length) :: piecesFrom length cs
      | none => .char c :: piecesFrom 0 cs

theorem piecesFrom_skip (w rest : List Char) :
    piecesFrom w.length (w ++ rest) = piecesFrom 0 rest := by
  induction w with
  | nil => rfl
  | cons c w ih => exact ih

theorem piecesFrom_group {c : Char} {w : List Char} (h : IsGroup (c :: w)) (rest : List Char) :
    piecesFrom 0 (c :: (w ++ rest)) = .group (c :: w) :: piecesFrom 0 rest := by
  rw [piecesFrom, groupTail?_append h]
  simp only
  rw [piecesFrom_skip, List.take_left]

theorem piecesFrom_char {c : Char} {cs : List Char} (h : groupTail? c cs = none) :
    piecesFrom 0 (c :: cs) = .char c :: piecesFrom 0 cs := by
  rw [piecesFrom, h]

theorem Cut.piecesFrom_eq {s : List Char} {ps : List Piece} (h : Cut s ps) :
    piecesFrom 0 s = ps := by
  induction h with
  | nil => rfl
  | @group g rest ps hg _ ih =>
      obtain ⟨c, w, rfl⟩ := hg.exists_cons
      rw [List.cons_append, piecesFrom_group hg, ih]
  | char hc _ ih => rw [piecesFrom_char (groupTail?_eq_none_iff.2 hc), ih]

/-- Every text has its pieces. -/
theorem cut_piecesFrom (s : List Char) : Cut s (piecesFrom 0 s) := by
  induction hn : s.length using Nat.strongRecOn generalizing s with
  | ind n ih =>
    cases s with
    | nil => exact .nil
    | cons c cs =>
        -- A group is skipped as a whole, so the text behind it is shorter by more than one.
        cases htail : groupTail? c cs with
        | none =>
            rw [piecesFrom_char htail]
            refine .char (groupTail?_eq_none_iff.1 htail) (ih cs.length ?_ cs rfl)
            rw [← hn, List.length_cons]
            exact Nat.lt_succ_self _
        | some length =>
            obtain ⟨w, rest, hg, rfl, -⟩ := exists_of_groupTail? htail
            rw [piecesFrom_group hg]
            refine .group hg (ih rest.length ?_ rest rfl)
            simp only [← hn, List.length_cons, List.length_append]
            omega

/-- A text has no other pieces. -/
theorem cut_iff {s : List Char} {ps : List Piece} : Cut s ps ↔ ps = piecesFrom 0 s :=
  ⟨fun h => h.piecesFrom_eq.symm, fun h => h ▸ cut_piecesFrom s⟩

/-- A piece is a character of the text, or a group. -/
theorem Cut.mem_cases {s : List Char} {ps : List Piece} {p : Piece} (h : Cut s ps) (hp : p ∈ ps) :
    (∃ c ∈ s, p = .char c) ∨ ∃ g, IsGroup g ∧ p = .group g := by
  induction h with
  | nil => cases hp
  | @group g rest ps hg _ ih =>
      rcases List.mem_cons.1 hp with rfl | hp
      · exact .inr ⟨g, hg, rfl⟩
      · exact (ih hp).imp_left fun ⟨c, hc, heq⟩ => ⟨c, List.mem_append_right g hc, heq⟩
  | @char d rest ps _ _ ih =>
      rcases List.mem_cons.1 hp with rfl | hp
      · exact .inl ⟨d, List.mem_cons_self, rfl⟩
      · exact (ih hp).imp_left fun ⟨c, hc, heq⟩ => ⟨c, List.mem_cons_of_mem d hc, heq⟩

/-! ## Marks -/

namespace Piece

def text : Piece → List Char
  | char c => [c]
  | group g => g

def group? : Piece → Option (List Char)
  | char _ => none
  | group g => some g

end Piece

/-- The text that pieces were cut from. -/
def textOf (ps : List Piece) : List Char :=
  ps.flatMap Piece.text

def groupsOf (ps : List Piece) : List (List Char) :=
  ps.filterMap Piece.group?

/-- The text of pieces with a numbered mark for each group; `count` is the first number. -/
def marked : (count : Nat) → List Piece → List Char
  | _, [] => []
  | count, .char c :: ps => c :: marked count ps
  | count, .group _ :: ps => mark :: (Chars.decimal count ++ mark :: marked (count + 1) ps)

/-- Setting groups aside leaves the marked text, and the groups in their order. -/
theorem protectFrom_eq (skip count : Nat) (s : List Char) :
    protectFrom skip count s =
      (marked count (piecesFrom skip s), groupsOf (piecesFrom skip s)) := by
  induction s generalizing skip count with
  | nil => cases skip <;> rfl
  | cons c cs ih =>
      cases skip with
      | succ skip => exact ih skip count
      | zero =>
          rw [protectFrom, piecesFrom]
          cases groupTail? c cs with
          | none =>
              simp only [ih]
              rfl
          | some length =>
              simp only [ih]
              rfl

theorem marked_append (count : Nat) (a b : List Piece) :
    marked count (a ++ b) = marked count a ++ marked (count + (groupsOf a).length) b := by
  induction a generalizing count with
  | nil => rfl
  | cons p a ih =>
      cases p with
      | char c =>
          rw [List.cons_append, marked, ih, marked]
          rfl
      | group g =>
          have hlength : (groupsOf (.group g :: a)).length = (groupsOf a).length + 1 := rfl
          rw [List.cons_append, marked, ih, marked, hlength, Nat.add_assoc, Nat.add_comm 1]
          simp

theorem isDigit_ne_mark {c : Char} (h : c.isDigit = true) : c ≠ mark := by
  rintro rfl
  cases h

theorem mark_not_mem_decimal (n : Nat) : mark ∉ Chars.decimal n :=
  fun h => isDigit_ne_mark (Chars.isDigit_of_mem_decimal h) rfl

/-! ## Groups put back -/

section Restore

variable {groups : List (List Char)}

theorem restore_cons {c : Char} (hc : c ≠ mark) (text : List Char) :
    restore groups (c :: text) = c :: restore groups text := by
  have hbeq : (c == mark) = false := beq_eq_false_iff_ne.2 hc
  rw [restore, restore, List.splitOn_cons_eq_if_modifyHead, hbeq]
  cases hparts : text.splitOn mark with
  | nil => exact absurd hparts (List.splitOn_ne_nil mark text)
  | cons first rest => rfl

/-- A mark is replaced by the group with its number. -/
theorem restore_mark {number : List Char} (hnumber : mark ∉ number) (text : List Char) :
    restore groups (mark :: (number ++ mark :: text)) =
      ((Chars.number? number).bind (groups[·]?)).getD [] ++ restore groups text := by
  have hsplit : (mark :: (number ++ mark :: text)).splitOn mark =
      [] :: number :: text.splitOn mark := by
    have hfirst := List.splitOn_append_cons_self [] (a := mark) (number ++ mark :: text)
    rw [List.nil_append, List.splitOn_append_cons_self_of_not_mem hnumber] at hfirst
    exact hfirst
  rw [restore, restore, hsplit]
  cases hparts : text.splitOn mark with
  | nil => exact absurd hparts (List.splitOn_ne_nil mark text)
  | cons first rest => simp [restorePieces]

/-- Marked pieces without a mark of their own are put together again as they were. -/
theorem restore_marked {count : Nat} {ps : List Piece} (hplain : Piece.char mark ∉ ps)
    (hgroups : groupsOf ps <+: groups.drop count) :
    restore groups (marked count ps) = textOf ps := by
  induction ps generalizing count with
  | nil => rfl
  | cons p ps ih =>
      rw [List.mem_cons, not_or] at hplain
      cases p with
      | char c =>
          have hc : c ≠ mark := fun h => hplain.1 (h ▸ rfl)
          rw [marked, restore_cons hc, ih hplain.2 hgroups]
          rfl
      | group g =>
          obtain ⟨behind, hbehind⟩ := hgroups
          have hdrop : groups.drop count = g :: (groupsOf ps ++ behind) := hbehind.symm
          -- The number behind a mark is the place of its group.
          have hfound : groups[count]? = some g := by
            rw [← List.head?_drop, hdrop]
            rfl
          have hrest : groupsOf ps <+: groups.drop (count + 1) := by
            rw [← List.drop_drop, hdrop]
            exact List.prefix_append _ _
          rw [marked, restore_mark (mark_not_mem_decimal count), Chars.number?_decimal,
            ih hplain.2 hrest]
          simp [hfound, textOf, Piece.text]

end Restore

end SearchTerms
end ContentQuery
