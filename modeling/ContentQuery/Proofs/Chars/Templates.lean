import ContentQuery.Chars.Template
import ContentQuery.Proofs.Chars.Names

/-!
# Texts in templates

Filling in a template works from left to right, so a text in front of a template is filled in first.
A text is `Chars.Inert` if that leaves it as it is, whatever the groups: no dollar sign in it begins
a reference.  A text of identifier characters that is not inert comes out shorter than it was, as
long as no long group is put into it and its last dollar sign is not followed by a brace.
-/

namespace ContentQuery
namespace Chars

variable {groups : List (List Char)}

/-! ## Single steps -/

theorem expandFrom_cons {c : Char} (hc : c ≠ '$') (cs : List Char) :
    expandFrom groups 0 (c :: cs) = c :: expandFrom groups 0 cs := by
  rw [expandFrom, if_neg hc]

/-- A reference that was filled in is passed over. -/
theorem expandFrom_skip (w rest : List Char) :
    expandFrom groups w.length (w ++ rest) = expandFrom groups 0 rest := by
  induction w with
  | nil => rfl
  | cons c w ih => rw [List.length_cons, List.cons_append, expandFrom, ih]

theorem expandFrom_reference {text w rest : List Char}
    (h : reference? groups (w ++ rest) = some (text, w.length)) :
    expandFrom groups 0 ('$' :: (w ++ rest)) = text ++ expandFrom groups 0 rest := by
  rw [expandFrom, if_pos rfl, h]
  simp only [expandFrom_skip]

theorem expandFrom_dollar {rest : List Char} (h : reference? groups rest = none) :
    expandFrom groups 0 ('$' :: rest) = '$' :: expandFrom groups 0 rest := by
  rw [expandFrom, if_pos rfl, h]

/-- Characters with which a reference begins behind its dollar sign. -/
def isReferenceChar (c : Char) : Bool :=
  c == '$' || c == '\x7b' || isGroupNameChar c

theorem reference?_eq_none {c : Char} (hc : isReferenceChar c = false) (rest : List Char) :
    reference? groups (c :: rest) = none := by
  simp only [isReferenceChar, Bool.or_eq_false_iff, beq_eq_false_iff_ne] at hc
  obtain ⟨⟨hdollar, hbrace⟩, hname⟩ := hc
  unfold reference?
  split
  · next h => exact absurd (List.cons.inj h).1 hdollar
  · next h => exact absurd (List.cons.inj h).1 hbrace
  · simp [hname]

theorem isGroupNameChar_eq : isGroupNameChar = isNameChar :=
  rfl

/-- A name is read to its end. -/
theorem reference?_name {name rest : List Char} (hname : IsName name)
    (hrest : ∀ c ∈ rest.head?, isNameChar c = false) :
    reference? groups (name ++ rest) = some (groupText groups name, name.length) := by
  obtain ⟨hne, hchars⟩ := hname
  have htake : (name ++ rest).takeWhile isGroupNameChar = name := (run_append hchars hrest).1
  obtain ⟨c, cs, rfl⟩ := List.exists_cons_of_ne_nil hne
  have hc := hchars c (by simp)
  unfold reference?
  split
  · next h =>
      rw [(List.cons.inj h).1] at hc
      exact absurd hc (by decide)
  · next h =>
      rw [(List.cons.inj h).1] at hc
      exact absurd hc (by decide)
  · simp only [htake]
    rfl

/-- The name at the start of a text. -/
theorem exists_name {d : Char} (hd : isNameChar d = true) (ds : List Char) :
    ∃ name rest, d :: ds = name ++ rest ∧ IsName name ∧ ∀ c ∈ rest.head?, isNameChar c = false := by
  refine ⟨(d :: ds).takeWhile isNameChar, (d :: ds).dropWhile isNameChar,
    List.takeWhile_append_dropWhile.symm, ⟨by simp [hd], List.all_eq_true.1 List.all_takeWhile⟩, ?_⟩
  intro c hc
  have h := List.head?_dropWhile_not isNameChar (d :: ds)
  rw [Option.mem_def.1 hc] at h
  simpa using h

/-! ## Inert texts -/

/-- Behind every dollar sign of the text stands a character with which no reference begins. -/
def Inert : List Char → Prop
  | [] => True
  | c :: cs => (c = '$' → cs.head?.any (!isReferenceChar ·) = true) ∧ Inert cs

instance decidableInert : (s : List Char) → Decidable (Inert s)
  | [] => isTrue trivial
  | _ :: cs => @instDecidableAnd _ _ _ (decidableInert cs)

theorem inert_of_ne {s : List Char} (hs : ∀ c ∈ s, c ≠ '$') : Inert s := by
  induction s with
  | nil => trivial
  | cons c cs ih =>
      exact ⟨fun hc => absurd hc (hs c (by simp)), ih fun d hd => hs d (by simp [hd])⟩

/-- An inert text stands for itself. -/
theorem Inert.expandFrom_append {s : List Char} (hs : Inert s) (groups : List (List Char))
    (rest : List Char) : expandFrom groups 0 (s ++ rest) = s ++ expandFrom groups 0 rest := by
  induction s with
  | nil => rfl
  | cons c cs ih =>
      obtain ⟨hdollar, hinert⟩ := hs
      by_cases hc : c = '$'
      · subst hc
        obtain ⟨d, hd, hreference⟩ := (Option.any_eq_true _ _).1 (hdollar rfl)
        obtain ⟨ds, rfl⟩ := List.head?_eq_some_iff.1 hd
        have hnone : reference? groups ((d :: ds) ++ rest) = none :=
          reference?_eq_none (by simpa using hreference) (ds ++ rest)
        rw [List.cons_append, expandFrom_dollar hnone, ih hinert]
        rfl
      · rw [List.cons_append, expandFrom_cons hc, ih hinert]
        rfl

/-! ## Texts that are not inert -/

/-- Filled in before `rest`, with less than `n` characters and no brace among them, the text has at
most one character more than it had, and has that one only if it is inert. -/
def Bounded (groups : List (List Char)) (n : Nat) (rest s : List Char) : Prop :=
  '\x7b' ∉ expandFrom groups 0 (s ++ rest) → (expandFrom groups 0 (s ++ rest)).length < n →
    (expandFrom groups 0 (s ++ rest)).length ≤ s.length + 1 ∧
      ((expandFrom groups 0 (s ++ rest)).length = s.length + 1 → Inert s)

section Bounds

variable {n : Nat} {rest s : List Char}

/-- A character that stands for itself. -/
theorem Bounded.cons (hs : Bounded groups n rest s) {c : Char}
    (hself : expandFrom groups 0 (c :: (s ++ rest)) = c :: expandFrom groups 0 (s ++ rest))
    (hinert : Inert s → Inert (c :: s)) : Bounded groups n rest (c :: s) := by
  intro hbrace hlong
  rw [List.cons_append, hself] at *
  simp only [List.mem_cons, not_or, List.length_cons] at *
  obtain ⟨hle, heq⟩ := hs hbrace.2 (by omega)
  exact ⟨by omega, fun h => hinert (heq (by omega))⟩

/-- A reference in place of which stands at most one character, or a long group. -/
theorem Bounded.append (hs : Bounded groups n rest s) (w text : List Char)
    (htext : expandFrom groups 0 (w ++ (s ++ rest)) = text ++ expandFrom groups 0 (s ++ rest))
    (hw : 2 ≤ w.length) (hlength : n ≤ text.length ∨ text.length ≤ 1) :
    Bounded groups n rest (w ++ s) := by
  intro hbrace hlong
  rw [List.append_assoc, htext] at *
  simp only [List.mem_append, not_or, List.length_append] at *
  obtain ⟨hle, -⟩ := hs hbrace.2 (by omega)
  exact ⟨by omega, fun h => by omega⟩

/-- Texts without a brace are bounded in front of a reference in braces. -/
theorem bounded_of_not_mem {behind : List Char}
    (hgroups : ∀ name, n ≤ (groupText groups name).length ∨ (groupText groups name).length ≤ 1)
    (hrest : (expandFrom groups 0 ('$' :: '\x7b' :: behind)).length ≤ 1) {s : List Char}
    (hs : '\x7b' ∉ s) : Bounded groups n ('$' :: '\x7b' :: behind) s := by
  -- A reference takes several characters at once, so the induction is on the length.
  induction hlength : s.length using Nat.strongRecOn generalizing s with
  | ind m ih =>
    subst hlength
    have hbehind : ∀ {w t : List Char}, w ≠ [] → s = w ++ t →
        Bounded groups n ('$' :: '\x7b' :: behind) t := by
      rintro w t hw rfl
      refine ih t.length ?_ (fun hmem => hs (List.mem_append_right w hmem)) rfl
      have hpos := List.length_pos_iff.2 hw
      rw [List.length_append]
      omega
    cases s with
    | nil => exact fun _ _ => ⟨hrest, fun _ => trivial⟩
    | cons c cs =>
        have hcs := hbehind (w := [c]) (t := cs) (by simp) rfl
        by_cases hc : c = '$'
        · subst hc
          cases cs with
          | nil =>
              -- The dollar sign takes the one of the reference, and the brace is left.
              intro hbrace
              exact absurd (by simp [expandFrom, reference?]) hbrace
          | cons d ds =>
              by_cases hname : isNameChar d = true
              · -- A reference by name ends where the name does.
                obtain ⟨name, t, htext, hword, hbound⟩ := exists_name hname ds
                have hend : ∀ c ∈ (t ++ '$' :: '\x7b' :: behind).head?, isNameChar c = false := by
                  cases t with
                  | nil =>
                      rintro c hc
                      cases hc
                      decide
                  | cons e es => exact hbound
                have ht := hbehind (w := '$' :: name) (t := t) (by simp) (by rw [htext]; rfl)
                have hpos := List.length_pos_iff.2 hword.1
                rw [htext]
                exact ht.append ('$' :: name) (groupText groups name)
                  (expandFrom_reference (reference?_name hword hend))
                  (by rw [List.length_cons]; omega) (hgroups name)
              · by_cases hd : d = '$'
                · subst hd
                  have ht := hbehind (w := ['$', '$']) (t := ds) (by simp) rfl
                  exact ht.append ['$', '$'] ['$'] rfl (Nat.le_refl 2) (.inr (Nat.le_refl 1))
                · have hbrace : d ≠ '\x7b' := by
                    rintro rfl
                    simp at hs
                  have hreference : isReferenceChar d = false := by
                    simp [isReferenceChar, isGroupNameChar_eq, hd, hbrace, hname]
                  refine hcs.cons (expandFrom_dollar (reference?_eq_none hreference _)) ?_
                  exact fun h => ⟨fun _ => by simp [hreference], h⟩
        · exact hcs.cons (expandFrom_cons hc _) fun h => ⟨fun hdollar => absurd hdollar hc, h⟩

end Bounds

end Chars
end ContentQuery
