import Mathlib.Data.List.Infix
import ContentQuery.Text

/-!
# Replacing every occurrence

What replacing a pattern does to a text: nothing where the pattern does not occur, and the pattern
itself becomes the new text.  A character that is no part of the pattern cuts the work in two: no
occurrence reaches across it, so each side is replaced on its own.
-/

namespace ContentQuery

/-! ## Character lists -/

namespace Chars

variable {pattern : List Char}

/-- An occurrence at the start of a text ends before a character that is no part of the pattern. -/
theorem prefix_append_cons_iff {c : Char} (hc : c ∉ pattern) (u w : List Char) :
    pattern <+: u ++ c :: w ↔ pattern <+: u := by
  constructor
  · intro h
    rcases List.prefix_or_prefix_of_prefix h (List.prefix_append u (c :: w)) with hshort | hlong
    · exact hshort
    · -- A longer pattern would go on with the character.
      rcases hlong with ⟨rest, rfl⟩
      have hrest : rest <+: c :: w := (List.prefix_append_right_inj u).1 h
      cases rest with
      | nil => simp
      | cons r rest =>
          have hr : r = c := (List.cons_prefix_cons.1 hrest).1
          simp [hr] at hc
  · intro h
    exact h.trans (List.prefix_append u _)

theorem replaceFrom_of_not_infix {s : List Char} (h : ¬ pattern <:+: s) (new : List Char) :
    replaceFrom pattern new 0 s = s := by
  induction s with
  | nil => rfl
  | cons c cs ih =>
      have hhere : pattern.isPrefixOf (c :: cs) = false := by
        apply Bool.eq_false_iff.2
        intro hprefix
        exact h (List.isPrefixOf_iff_prefix.1 hprefix).isInfix
      have hrest : ¬ pattern <:+: cs := fun hlater => h (List.infix_cons hlater)
      simp only [replaceFrom, hhere, Bool.false_eq_true, if_false, ih hrest]

/-- The rest of an occurrence is left out. -/
theorem replaceFrom_length (pattern new s : List Char) : replaceFrom pattern new s.length s = [] := by
  induction s with
  | nil => rfl
  | cons c cs ih => exact ih

theorem replaceFrom_self (hne : pattern ≠ []) (new : List Char) :
    replaceFrom pattern new 0 pattern = new := by
  cases pattern with
  | nil => exact absurd rfl hne
  | cons c cs =>
      have hhere : (c :: cs).isPrefixOf (c :: cs) = true :=
        List.isPrefixOf_iff_prefix.2 List.prefix_rfl
      simp only [replaceFrom, hhere, if_true]
      simpa using replaceFrom_length (c :: cs) new cs

/-- Each side of a character that is no part of the pattern is replaced on its own, also where the
text begins within an occurrence. -/
theorem replaceFrom_append_cons {c : Char} (hne : pattern ≠ []) (hc : c ∉ pattern)
    (new u w : List Char) (skip : Nat) (hskip : skip ≤ u.length) :
    replaceFrom pattern new skip (u ++ c :: w) =
      replaceFrom pattern new skip u ++ c :: replaceFrom pattern new 0 w := by
  induction u generalizing skip with
  | nil =>
      have hskip' : skip = 0 := Nat.le_zero.1 hskip
      have hhere : pattern.isPrefixOf (c :: w) = false := by
        apply Bool.eq_false_iff.2
        intro hprefix
        have hempty := (prefix_append_cons_iff hc [] w).1 (List.isPrefixOf_iff_prefix.1 hprefix)
        exact hne (List.prefix_nil.1 hempty)
      subst hskip'
      simp only [List.nil_append, replaceFrom, hhere, Bool.false_eq_true, if_false]
  | cons a u ih =>
      cases skip with
      | succ skip => exact ih skip (Nat.le_of_succ_le_succ hskip)
      | zero =>
          have hsame : pattern.isPrefixOf (a :: (u ++ c :: w)) = pattern.isPrefixOf (a :: u) := by
            apply Bool.eq_iff_iff.2
            simpa only [List.isPrefixOf_iff_prefix, List.cons_append] using
              prefix_append_cons_iff hc (a :: u) w
          simp only [List.cons_append, replaceFrom, hsame]
          cases hhere : pattern.isPrefixOf (a :: u) with
          | true =>
              -- The occurrence lies in front of the character.
              have hlength := (List.isPrefixOf_iff_prefix.1 hhere).length_le
              have hrest : pattern.length - 1 ≤ u.length := by
                simp only [List.length_cons] at hlength
                omega
              simp only [if_true, ih _ hrest, List.append_assoc]
          | false => simp only [Bool.false_eq_true, if_false, ih 0 (Nat.zero_le _), List.cons_append]

end Chars

/-! ## Strings -/

namespace Text

/-- A pattern stands somewhere in a text. -/
def Occurs (pattern s : String) : Prop :=
  pattern.toList <:+: s.toList

instance (pattern s : String) : Decidable (Occurs pattern s) :=
  inferInstanceAs (Decidable (_ <:+: _))

variable {pattern : String}

theorem replaceAll_eq (hne : pattern ≠ "") (new s : String) :
    replaceAll pattern new s =
      String.ofList (Chars.replaceFrom pattern.toList new.toList 0 s.toList) := by
  have hchars : pattern.toList.isEmpty = false := by
    apply Bool.eq_false_iff.2
    simpa using hne
  simp only [replaceAll, Chars.replaceAll, hchars, Bool.false_eq_true, if_false]

theorem replaceAll_of_not_occurs (hne : pattern ≠ "") {s : String} (h : ¬ Occurs pattern s)
    (new : String) : replaceAll pattern new s = s := by
  rw [replaceAll_eq hne, Chars.replaceFrom_of_not_infix h, String.ofList_toList]

theorem replaceAll_self (hne : pattern ≠ "") (new : String) :
    replaceAll pattern new pattern = new := by
  have hchars : pattern.toList ≠ [] := by simpa using hne
  rw [replaceAll_eq hne, Chars.replaceFrom_self hchars, String.ofList_toList]

/-- Texts around a character that is no part of the pattern are replaced one by one. -/
theorem replaceAll_append {sep : Char} (hne : pattern ≠ "") (hsep : sep ∉ pattern.toList)
    (new u w : String) :
    replaceAll pattern new (u ++ String.singleton sep ++ w) =
      replaceAll pattern new u ++ String.singleton sep ++ replaceAll pattern new w := by
  have hchars : pattern.toList ≠ [] := by simpa using hne
  have htext : (u ++ String.singleton sep ++ w).toList = u.toList ++ sep :: w.toList := by simp
  apply String.toList_injective
  simp only [replaceAll_eq hne, htext, Chars.replaceFrom_append_cons hchars hsep _ _ _ 0
    (Nat.zero_le _), String.toList_ofList, String.toList_append, String.toList_singleton,
    List.append_assoc, List.singleton_append]

/-- What occurs in a text is no longer than it, and as long only if it is the text. -/
theorem Occurs.eq_or_lt {s : String} (h : Occurs pattern s) :
    pattern = s ∨ pattern.utf8ByteSize < s.utf8ByteSize := by
  rcases h with ⟨front, behind, hs⟩
  have htext : s = String.ofList front ++ pattern ++ String.ofList behind := by
    apply String.toList_injective
    simp [← hs]
  have hsize : s.utf8ByteSize =
      (String.ofList front).utf8ByteSize + pattern.utf8ByteSize +
        (String.ofList behind).utf8ByteSize := by
    simp only [htext, String.utf8ByteSize_append]
  by_cases hshort : pattern.utf8ByteSize < s.utf8ByteSize
  · exact .inr hshort
  · have hfront : String.ofList front = "" := String.utf8ByteSize_eq_zero_iff.1 (by omega)
    have hbehind : String.ofList behind = "" := String.utf8ByteSize_eq_zero_iff.1 (by omega)
    exact .inl (by simp [htext, hfront, hbehind])

end Text
end ContentQuery
