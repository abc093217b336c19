import ContentQuery.Condition.Rename
import ContentQuery.Proofs.Chars.Templates

/-!
# Conditions carried over to an alias

The relation `Renamed` says that a text becomes another one by putting the alias in place of every
qualifying table name.  It is built up like the conditions of the platform: other characters stay,
and a name stands at a word boundary with a dot behind it.  Replacement then hits exactly the
qualified columns.

Only the plain dot is covered; conditions with backquotes do not arise here.
-/

namespace ContentQuery
namespace Rename

open Chars

/-! ## Renamed texts -/

/-- The texts are equal apart from qualifying names, `table` in the first and `a` in the second;
`last` is the character before them. -/
inductive Renamed (table a : List Char) : Option Char → List Char → List Char → Prop
  | nil {last : Option Char} : Renamed table a last [] []
  | char {last : Option Char} {c : Char} {s t : List Char} :
      c ≠ '.' → c ≠ '`' → Renamed table a (some c) s t → Renamed table a last (c :: s) (c :: t)
  | name {last : Option Char} {s t : List Char} :
      last.any isWordChar = false → Renamed table a (some '.') s t →
        Renamed table a last (table ++ '.' :: s) (a ++ '.' :: t)

theorem isWordChar_of_isNameChar {c : Char} (h : isNameChar c = true) : isWordChar c = true := by
  simp only [isNameChar, Bool.or_eq_true, beq_iff_eq] at h
  rcases h with h | rfl
  · exact isWordChar_of_isAlphanum h
  · decide +kernel

theorem not_mem_of_isName {w : List Char} (hw : IsName w) {d : Char}
    (hd : isNameChar d = false) : d ∉ w :=
  fun h => hw.ne h hd rfl

/-- The first of a kind of character cuts a text in one way. -/
theorem append_cons_inj_of_not_mem {d : Char} {u v r s : List Char} (hu : d ∉ u) (hv : d ∉ v)
    (h : u ++ d :: r = v ++ d :: s) : u = v ∧ r = s := by
  induction u generalizing v with
  | nil =>
      cases v with
      | nil => simpa using h
      | cons c v =>
          have hd : d = c := (List.cons.inj h).1
          exact absurd (by simp [hd]) hv
  | cons c u ih =>
      cases v with
      | nil =>
          have hd : c = d := (List.cons.inj h).1
          exact absurd (by simp [hd]) hu
      | cons b v =>
          rcases List.cons.inj h with ⟨rfl, htail⟩
          have hu' : d ∉ u := fun hmem => hu (List.mem_cons_of_mem _ hmem)
          have hv' : d ∉ v := fun hmem => hv (List.mem_cons_of_mem _ hmem)
          rcases ih hu' hv' htail with ⟨rfl, rfl⟩
          exact ⟨rfl, rfl⟩

namespace Renamed

variable {table a : List Char} {last : Option Char} {s t : List Char}

/-! ## Where names stand -/

/-- Nothing shorter than a name stands before the first dot. -/
theorem length_le_of_dot (h : Renamed table a last s t) (ht : IsName table) {w r : List Char}
    (hw : '.' ∉ w) (hs : s = w ++ '.' :: r) : table.length ≤ w.length := by
  -- Up to the first dot a text is made of single characters and then of one name.
  induction h generalizing w with
  | nil => simp at hs
  | char hdot _ _ ih =>
      cases w with
      | nil => exact absurd (List.cons.inj hs).1 hdot
      | cons c w =>
          have hrest := ih (fun hmem => hw (List.mem_cons_of_mem _ hmem)) (List.cons.inj hs).2
          exact Nat.le_succ_of_le hrest
  | name _ _ _ =>
      have hdot := not_mem_of_isName ht (d := '.') (by decide)
      rcases append_cons_inj_of_not_mem hdot hw hs with ⟨rfl, _⟩
      exact Nat.le_refl _

theorem not_mem_backquote (h : Renamed table a last s t) (ht : IsName table) : '`' ∉ s := by
  induction h with
  | nil => simp
  | char _ hquote _ ih => simp [ih, hquote.symm]
  | name _ _ ih => simp [ih, not_mem_of_isName ht (d := '`') (by decide)]

/-- No match begins at a character that stays. -/
theorem match?_char {c : Char} (h : Renamed table a (some c) s t) (ht : IsName table)
    (last : Option Char) : match? table last (c :: s) = none := by
  -- A match is the name and a separator, a dot or a backquote; the text has no backquote.
  have hbackquote := h.not_mem_backquote ht
  unfold match?
  simp only
  split
  · cases hstrip : stripLeading? table (c :: s) with
    | none => rfl
    | some rest =>
        have happend := append_of_stripLeading? hstrip
        cases htable : table with
        | nil => exact absurd htable ht.1
        | cons b bs =>
            rw [htable, List.cons_append] at happend
            have hs := (List.cons.inj happend).2
            rw [Option.bind_some]
            unfold separator?
            split
            · -- The name would end at a dot that is too near.
              have hbs : '.' ∉ bs := fun hmem =>
                not_mem_of_isName ht (d := '.') (by decide) (by simp [htable, hmem])
              have hlength := h.length_le_of_dot ht hbs hs
              rw [htable, List.length_cons] at hlength
              omega
            · exact absurd (by simp [hs]) hbackquote
            · rfl
  · rfl

/-- A match begins at every name. -/
theorem match?_name (ht : IsName table) (hlast : last.any isWordChar = false) (s : List Char) :
    match? table last (table ++ '.' :: s) = some ['.'] := by
  cases htable : table with
  | nil => exact absurd htable ht.1
  | cons c cs =>
      have hword : isWordChar c = true := isWordChar_of_isNameChar (ht.2 c (by simp [htable]))
      have hboundary : isBoundary last c = true := by
        rw [isBoundary, hlast, hword]
        rfl
      have hstrip : stripLeading? (c :: cs) (c :: cs ++ '.' :: s) = some ('.' :: s) :=
        stripLeading?_append (c :: cs) ('.' :: s)
      rw [List.cons_append] at hstrip ⊢
      simp only [match?, hboundary, if_true, hstrip, Option.bind_some, separator?]

/-! ## Replacement -/

theorem replaceFrom_skip (table template w : List Char) (last : Option Char) (s : List Char) :
    replaceFrom table template w.length last (w ++ s) =
      replaceFrom table template 0 (w.getLast?.or last) s := by
  induction w generalizing last with
  | nil => simp
  | cons c w ih =>
      rw [List.length_cons, List.cons_append, replaceFrom, ih, List.getLast?_cons]
      cases w.getLast? <;> rfl

/-- The template gives an inert alias and the separator. -/
theorem expand_template {a : String} (ha : Inert a.toList) (table separator : List Char) :
    expand [table ++ separator, table, separator] (template a) = a.toList ++ separator := by
  have htemplate : template a = a.toList ++ ['$', '\x7b', '2', '\x7d'] := rfl
  have hreference : reference? [table ++ separator, table, separator] ['\x7b', '2', '\x7d'] =
      some (separator, 3) := rfl
  rw [expand, htemplate, ha.expandFrom_append, expandFrom, if_pos rfl, hreference]
  simp [expandFrom]

/-- A match is replaced, and replacement goes on behind its separator. -/
theorem replaceFrom_match (template : List Char) {separator rest : List Char}
    (hne : table ≠ []) (h : match? table last (table ++ (separator ++ rest)) = some separator) :
    replaceFrom table template 0 last (table ++ (separator ++ rest)) =
      expand [table ++ separator, table, separator] template ++
        replaceFrom table template 0 ((table ++ separator).getLast?.or last) rest := by
  obtain ⟨c, cs, rfl⟩ := List.exists_cons_of_ne_nil hne
  have hskip := replaceFrom_skip (c :: cs) template (cs ++ separator) (some c) rest
  have hcount : (c :: cs).length + separator.length - 1 = (cs ++ separator).length := by
    rw [List.length_cons, List.length_append]
    omega
  have hlast : ((c :: cs) ++ separator).getLast?.or last =
      (cs ++ separator).getLast?.or (some c) := by
    rw [List.cons_append, List.getLast?_cons]
    cases (cs ++ separator).getLast? <;> rfl
  rw [List.append_assoc] at hskip
  rw [List.cons_append] at h ⊢
  rw [replaceFrom, h]
  simp only [hcount, hskip, ← hlast, List.cons_append]

/-- Replacement carries out the renaming. -/
theorem replaceFrom_eq {table a : String} (h : Renamed table.toList a.toList last s t)
    (ht : IsName table.toList) (ha : IsName a.toList) :
    replaceFrom table.toList (template a) 0 last s = t := by
  induction h with
  | nil => rfl
  | char _ _ hrest ih =>
      rw [replaceFrom, hrest.match?_char ht]
      simp only [ih]
  | @name last s t hlast _ ih =>
      -- The match takes name and dot; the template gives the alias and the dot back.
      have hmatch : match? table.toList last (table.toList ++ (['.'] ++ s)) = some ['.'] :=
        match?_name ht hlast s
      have hinert : Inert a.toList := inert_of_ne fun c hc => ha.ne hc (by decide)
      have hreplace := replaceFrom_match (template a) ht.1 hmatch
      rw [expand_template hinert, List.getLast?_append, List.getLast?_singleton, Option.some_or,
        Option.some_or, ih] at hreplace
      simpa using hreplace

theorem tableToAlias_eq {table a s t : String}
    (h : Renamed table.toList a.toList none s.toList t.toList) (ht : IsName table.toList)
    (ha : IsName a.toList) : tableToAlias s table a = t := by
  rw [tableToAlias, h.replaceFrom_eq ht ha, String.ofList_toList]

end Renamed

/-! ## Qualifying names -/

/-- In front of every dot stands the whole word `a`. -/
def QualifiedBy (a s : List Char) : Prop :=
  ∀ front back, s = front ++ '.' :: back →
    ∃ rest, front = rest ++ a ∧ rest.getLast?.any isWordChar = false

/-- Behind a renaming every dot has the name in front of it, which continues no word. -/
theorem Renamed.exists_front {table a s t : List Char} {last : Option Char}
    (h : Renamed table a last s t) (hdot : '.' ∉ a) :
    ∀ front back, t = front ++ '.' :: back →
      ∃ rest, front = rest ++ a ∧ (rest.getLast?.or last).any isWordChar = false := by
  induction h with
  | nil => simp
  | @char last c s t hc _ _ ih =>
      intro front back hsplit
      cases front with
      | nil => exact absurd (List.cons.inj hsplit).1 hc
      | cons b front =>
          rcases List.cons.inj hsplit with ⟨rfl, htail⟩
          rcases ih front back htail with ⟨rest, rfl, hrest⟩
          refine ⟨c :: rest, rfl, ?_⟩
          rw [List.getLast?_cons]
          cases hlast : rest.getLast? <;> simpa [hlast] using hrest
  | @name last s t hlast _ ih =>
      intro front back hsplit
      -- The dot is the one behind the name, or it stands further on.
      rcases List.append_eq_append_iff.1 hsplit with ⟨w, rfl, hw⟩ | ⟨w, rfl, hw⟩
      · cases w with
        | nil => exact ⟨[], by simp, by simpa using hlast⟩
        | cons b w =>
            rcases List.cons.inj hw with ⟨rfl, htail⟩
            rcases ih w back htail with ⟨rest, rfl, hrest⟩
            refine ⟨a ++ '.' :: rest, by simp, ?_⟩
            rw [List.getLast?_append, List.getLast?_cons]
            cases hlast : rest.getLast? <;> simpa [hlast] using hrest
      · cases w with
        | nil => exact ⟨[], by simp, by simpa using hlast⟩
        | cons b w =>
            rcases List.cons.inj hw with ⟨rfl, _⟩
            exact absurd (by simp) hdot

theorem Renamed.qualifiedBy {table a s t : List Char} (h : Renamed table a none s t)
    (ha : IsName a) : QualifiedBy a t := by
  intro front back hsplit
  rcases h.exists_front (not_mem_of_isName ha (by decide)) front back hsplit with
    ⟨rest, hfront, hrest⟩
  exact ⟨rest, hfront, by simpa using hrest⟩

/-! ## Building renamed texts -/

/-- Characters that stay. -/
def IsPlain (w : List Char) : Prop :=
  ∀ c ∈ w, c ≠ '.' ∧ c ≠ '`'

instance (w : List Char) : Decidable (IsPlain w) :=
  inferInstanceAs (Decidable (∀ c ∈ w, _))

theorem isPlain_of_isName {w : List Char} (hw : IsName w) : IsPlain w :=
  fun _ hc => ⟨hw.ne hc (by decide), hw.ne hc (by decide)⟩

/-- The texts are renamed wherever they stand. -/
def Free (table a s t : List Char) : Prop :=
  ∀ last, Renamed table a last s t

/-- The texts are renamed where a word may begin. -/
def Starting (table a s t : List Char) : Prop :=
  ∀ last : Option Char, last.any isWordChar = false → Renamed table a last s t

/-- Parts of renamed texts where a word may begin. -/
def Part (table a p q : List Char) : Prop :=
  ∀ s t, Free table a s t → Starting table a (p ++ s) (q ++ t)

section Building

variable {table a s t w : List Char}

theorem free_nil : Free table a [] [] :=
  fun _ => .nil

theorem Free.starting (h : Free table a s t) : Starting table a s t :=
  fun last _ => h last

theorem Free.append_plain (h : Free table a s t) (hw : IsPlain w) :
    Free table a (w ++ s) (w ++ t) := by
  induction w with
  | nil => exact h
  | cons c w ih =>
      have hc := hw c (by simp)
      exact fun last => .char hc.1 hc.2 (ih (fun d hd => hw d (by simp [hd])) _)

/-- Plain text that ends in no word character. -/
theorem Starting.append_plain (h : Starting table a s t) (hw : IsPlain w) (hne : w ≠ [])
    (hlast : w.getLast?.any isWordChar = false) : Free table a (w ++ s) (w ++ t) := by
  induction w with
  | nil => exact absurd rfl hne
  | cons c w ih =>
      have hc := hw c (by simp)
      intro last
      refine .char hc.1 hc.2 ?_
      -- Only the last character of the plain text is before the name.
      cases hw' : w with
      | nil =>
          rw [hw'] at hlast
          exact h (some c) hlast
      | cons d ds =>
          rw [hw', List.getLast?_cons_cons] at hlast
          rw [← hw'] at hlast ⊢
          exact ih (fun d hd => hw d (by simp [hd])) (by simp [hw']) hlast _

/-- A qualified column. -/
theorem Free.qualified (h : Free table a s t) (hw : IsPlain w) :
    Starting table a (table ++ '.' :: (w ++ s)) (a ++ '.' :: (w ++ t)) :=
  fun _ hlast => .name hlast (h.append_plain hw _)

end Building
end Rename
end ContentQuery
