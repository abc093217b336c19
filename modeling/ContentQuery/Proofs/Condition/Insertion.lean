import ContentQuery.Proofs.Condition.Rename

/-!
# What stands in place of a table name

The relation `Replaced` says that one text is another one with something put in place of every
qualifying name: of the table name where a word begins and a dot follows, possibly after a
backquote.  Renaming fills in a template there, in which the dollar signs of the alias are read as
references.  So the alias itself stands there, for every table and condition, exactly if no dollar
sign of it begins a reference.
-/

namespace ContentQuery
namespace Rename

open Chars

/-! ## Replaced names -/

/-- What may stand between a qualifying name and the column. -/
def separators : List (List Char) :=
  [['.'], ['`', '.']]

/-- The texts are equal apart from the qualifying names `table` of the first one, in place of which
the second one has what is put for their separators; `last` is the character before them. -/
inductive Replaced (table : List Char) (put : List Char → List Char) :
    Option Char → List Char → List Char → Prop
  | nil {last : Option Char} : Replaced table put last [] []
  | keep {last : Option Char} {c : Char} {s t : List Char} :
      ¬(last.any isWordChar = false ∧ ∃ separator ∈ separators, table ++ separator <+: c :: s) →
        Replaced table put (some c) s t → Replaced table put last (c :: s) (c :: t)
  | name {last : Option Char} {separator s t : List Char} :
      last.any isWordChar = false → separator ∈ separators → Replaced table put (some '.') s t →
        Replaced table put last (table ++ (separator ++ s)) (put separator ++ t)

/-- The text begins with a word. -/
def BeginsWord (s : List Char) : Prop :=
  s.head?.any isWordChar = true

instance (s : List Char) : Decidable (BeginsWord s) :=
  inferInstanceAs (Decidable (_ = _))

section Names

variable {table : List Char} {last : Option Char} {separator s t : List Char}

theorem BeginsWord.ne_nil (h : BeginsWord s) : s ≠ [] := by
  rintro rfl
  cases h

theorem separator?_eq_some_iff :
    separator? s = some separator ↔ separator ∈ separators ∧ separator <+: s := by
  constructor
  · intro h
    unfold separator? at h
    split at h
    · cases h
      exact ⟨by decide, _, rfl⟩
    · cases h
      exact ⟨by decide, _, rfl⟩
    · cases h
  · simp only [separators, List.mem_cons, List.not_mem_nil, or_false]
    rintro ⟨rfl | rfl, rest, rfl⟩ <;> rfl

/-- A separator ends in a dot. -/
theorem getLast?_of_mem_separators :
    ∀ separator ∈ separators, separator.getLast? = some '.' := by
  decide

/-- Separators in front of a text are told by their first character. -/
theorem append_inj_of_mem_separators {separator' : List Char} (h : separator ∈ separators)
    (h' : separator' ∈ separators) (heq : separator ++ s = separator' ++ t) :
    separator = separator' ∧ s = t := by
  simp only [separators, List.mem_cons, List.not_mem_nil, or_false] at h h'
  rcases h with rfl | rfl <;> rcases h' with rfl | rfl <;> simp_all

/-- A match is the name of the table where a word begins, with a separator behind it. -/
theorem match?_eq_some_iff (htable : BeginsWord table) :
    match? table last s = some separator ↔
      last.any isWordChar = false ∧ separator ∈ separators ∧ table ++ separator <+: s := by
  have hne := htable.ne_nil
  by_cases hprefix : table <+: s
  · obtain ⟨rest, rfl⟩ := hprefix
    obtain ⟨c, cs, rfl⟩ := List.exists_cons_of_ne_nil hne
    have hc : isWordChar c = true := by simpa [BeginsWord] using htable
    have hboundary : isBoundary last c = !last.any isWordChar := by
      rw [isBoundary, hc]
      cases last.any isWordChar <;> rfl
    have hmatch : match? (c :: cs) last ((c :: cs) ++ rest) =
        if isBoundary last c then separator? rest else none := by
      rw [List.cons_append, match?, ← List.cons_append, stripLeading?_append]
      rfl
    rw [hmatch, hboundary, List.prefix_append_right_inj, ← separator?_eq_some_iff]
    cases last.any isWordChar <;> simp
  · -- Without the name there is neither a match nor a name with a separator.
    have hstrip : stripLeading? table s = none := by
      cases hstrip : stripLeading? table s with
      | none => rfl
      | some rest => exact absurd ⟨rest, (append_of_stripLeading? hstrip).symm⟩ hprefix
    have hnone : match? table last s = none := by
      unfold match?
      split
      · rfl
      · simp [hstrip]
    rw [hnone]
    constructor
    · intro h
      cases h
    · rintro ⟨-, -, h⟩
      exact absurd ((List.prefix_append table separator).trans h) hprefix

/-- Replacement puts the filled in template in place of every qualifying name. -/
theorem replaced_replaceFrom (htable : BeginsWord table) (template : List Char) :
    Replaced table (fun separator => expand [table ++ separator, table, separator] template) last s
      (replaceFrom table template 0 last s) := by
  -- A match takes several characters at once, so the induction is on the length.
  induction hlength : s.length using Nat.strongRecOn generalizing s last with
  | ind n ih =>
    subst hlength
    cases s with
    | nil => exact .nil
    | cons c cs =>
        cases hmatch : match? table last (c :: cs) with
        | none =>
            -- No qualifying name stands here, or it would match.
            rw [replaceFrom, hmatch]
            refine .keep ?_ (ih cs.length (Nat.lt_succ_self _) rfl)
            rintro ⟨hlast, separator, hseparator, hprefix⟩
            rw [(match?_eq_some_iff htable).2 ⟨hlast, hseparator, hprefix⟩] at hmatch
            cases hmatch
        | some separator =>
            obtain ⟨hlast, hseparator, rest, hrest⟩ := (match?_eq_some_iff htable).1 hmatch
            rw [← hrest, List.append_assoc] at hmatch ⊢
            -- Behind the name replacement goes on after the dot.
            have hdot : (table ++ separator).getLast?.or last = some '.' := by
              rw [List.getLast?_append, getLast?_of_mem_separators separator hseparator]
              rfl
            have hshorter : rest.length < (c :: cs).length := by
              have hpos := List.length_pos_iff.2 htable.ne_nil
              rw [← hrest, List.length_append, List.length_append]
              omega
            rw [Renamed.replaceFrom_match template htable.ne_nil hmatch, hdot]
            exact .name hlast hseparator (ih rest.length hshorter rfl)

/-- In place of a name at the start stands what is put there. -/
theorem Replaced.of_name {put : List Char → List Char} (hne : table ≠ [])
    (h : Replaced table put last (table ++ (separator ++ s)) t)
    (hlast : last.any isWordChar = false) (hseparator : separator ∈ separators) :
    ∃ rest, t = put separator ++ rest ∧ Replaced table put (some '.') s rest := by
  generalize htext : table ++ (separator ++ s) = text at h
  cases h with
  | nil => exact absurd (List.append_eq_nil_iff.1 htext).1 hne
  | keep hnot _ =>
      refine absurd ⟨hlast, separator, hseparator, s, ?_⟩ hnot
      rw [← htext, List.append_assoc]
  | name _ hseparator' hrest =>
      obtain ⟨rfl, rfl⟩ := append_inj_of_mem_separators hseparator hseparator'
        (List.append_cancel_left htext)
      exact ⟨_, rfl, hrest⟩

theorem Replaced.eq_nil {put : List Char → List Char} (hne : table ≠ [])
    (h : Replaced table put last [] t) : t = [] := by
  generalize htext : ([] : List Char) = text at h
  cases h with
  | nil => rfl
  | keep => cases htext
  | name => exact absurd (List.append_eq_nil_iff.1 htext.symm).1 hne

/-- What is put in place of a name shows in the text that is the name and a dot. -/
theorem Replaced.put_eq {put put' : List Char → List Char} (hne : table ≠ [])
    (h : Replaced table put none (table ++ ['.']) t)
    (h' : Replaced table put' none (table ++ ['.']) t) : put ['.'] = put' ['.'] := by
  have hput : ∀ {put : List Char → List Char},
      Replaced table put none (table ++ (['.'] ++ [])) t → t = put ['.'] := by
    intro put h
    obtain ⟨rest, ht, hrest⟩ := h.of_name hne rfl (by decide)
    rw [ht, hrest.eq_nil hne, List.append_nil]
  exact (hput h).symm.trans (hput h')

/-- What is put in place of names counts for the separators alone. -/
theorem Replaced.congr {put put' : List Char → List Char}
    (hput : ∀ separator ∈ separators, put separator = put' separator)
    (h : Replaced table put last s t) : Replaced table put' last s t := by
  induction h with
  | nil => exact .nil
  | keep hnot _ ih => exact .keep hnot ih
  | name hlast hseparator _ ih =>
      rw [hput _ hseparator]
      exact .name hlast hseparator ih

end Names

/-! ## Literal aliases -/

/-- What renaming to `a` puts in place of the names. -/
def inserted (table a : String) (separator : List Char) : List Char :=
  expand [table.toList ++ separator, table.toList, separator] (template a)

/-- An inert alias stands in place of the names as it is. -/
theorem inserted_of_inert {a : String} (ha : Inert a.toList) (table : String)
    (separator : List Char) : inserted table a separator = a.toList ++ separator :=
  Renamed.expand_template ha table.toList separator

/-- The groups of a match with a dot are as long as the table name, or no longer than the dot. -/
theorem length_groupText (table name : List Char) :
    table.length ≤ (groupText [table ++ ['.'], table, ['.']] name).length ∨
      (groupText [table ++ ['.'], table, ['.']] name).length ≤ 1 := by
  unfold groupText
  rcases word? name with _ | _ | _ | _ | n <;> simp

/-- An alias that stands literally in place of a longer name is inert. -/
theorem inert_of_inserted {table a : String} (ha : '\x7b' ∉ a.toList)
    (hlong : a.toList.length + 1 < table.toList.length)
    (hinserted : inserted table a ['.'] = a.toList ++ ['.']) : Inert a.toList := by
  have hrest : (expandFrom [table.toList ++ ['.'], table.toList, ['.']] 0
      ['$', '\x7b', '2', '\x7d']).length ≤ 1 := Nat.le_refl 1
  have hbounded := bounded_of_not_mem (length_groupText table.toList) hrest ha
  have hexpand : expandFrom [table.toList ++ ['.'], table.toList, ['.']] 0
      (a.toList ++ ['$', '\x7b', '2', '\x7d']) = a.toList ++ ['.'] := hinserted
  rw [Bounded, hexpand, List.length_append, List.length_singleton] at hbounded
  exact (hbounded (by simp [ha]) hlong).2 rfl

/-- Renaming puts the filled in template in place of every qualifying name.  For an alias of
identifier characters this is the alias itself, whatever the table and the condition, exactly if no
dollar sign of it begins a reference. -/
theorem tableToAlias_literal_iff (a : String) :
    (∀ condition table : String, BeginsWord table.toList →
      Replaced table.toList (inserted table a) none condition.toList
        (tableToAlias condition table a).toList) ∧
    ((∀ c ∈ a.toList, Keyword.isIdentifierChar c = true) →
      ((∀ condition table : String, BeginsWord table.toList →
        Replaced table.toList (a.toList ++ ·) none condition.toList
          (tableToAlias condition table a).toList) ↔ Inert a.toList)) := by
  have hreplaced : ∀ condition table : String, BeginsWord table.toList →
      Replaced table.toList (inserted table a) none condition.toList
        (tableToAlias condition table a).toList := by
    intro condition table htable
    rw [tableToAlias, String.toList_ofList]
    exact replaced_replaceFrom htable (template a)
  refine ⟨hreplaced, fun ha => ⟨fun hliteral => ?_, fun hinert condition table htable => ?_⟩⟩
  · -- A table name longer than the alias tells a reference to it from the alias.
    obtain ⟨table, htable⟩ : ∃ table : String,
        table.toList = 'x' :: List.replicate (a.toList.length + 1) 'x' :=
      ⟨String.ofList _, String.toList_ofList⟩
    have hword : BeginsWord table.toList := by
      have hx : isWordChar 'x' = true := by decide +kernel
      rw [htable]
      exact hx
    have hname := hliteral (String.ofList (table.toList ++ ['.'])) table hword
    have hput := hreplaced (String.ofList (table.toList ++ ['.'])) table hword
    rw [String.toList_ofList] at hname hput
    have hbrace : '\x7b' ∉ a.toList := fun hmem => absurd (ha '\x7b' hmem) (by decide)
    refine inert_of_inserted hbrace ?_ (hput.put_eq hword.ne_nil hname)
    rw [htable, List.length_cons, List.length_replicate]
    exact Nat.lt_succ_self _
  · exact (hreplaced condition table htable).congr fun separator _ =>
      inserted_of_inert hinert table separator

/-- A dollar sign in front of a letter outside ASCII stays. -/
theorem tableToAlias_literal_news :
    (∀ c ∈ "n$é".toList, Keyword.isIdentifierChar c = true) ∧ BeginsWord "news".toList ∧
      Replaced "news".toList ("n$é".toList ++ ·) none "news.hidden=0 AND `news`.pid>0".toList
        "n$é.hidden=0 AND `n$é`.pid>0".toList := by
  have halias : ∀ c ∈ "n$é".toList, Keyword.isIdentifierChar c = true := by decide +kernel
  have htable : BeginsWord "news".toList := by decide +kernel
  have hinert : Inert "n$é".toList := by decide
  have hreplaced := ((tableToAlias_literal_iff "n$é").2 halias).2 hinert
    "news.hidden=0 AND `news`.pid>0" "news" htable
  have hresult : tableToAlias "news.hidden=0 AND `news`.pid>0" "news" "n$é" =
      "n$é.hidden=0 AND `n$é`.pid>0" := by decide +kernel
  exact ⟨halias, htable, hresult ▸ hreplaced⟩

/-- The dollar sign with the letters behind it is read as a reference to a group that does not
exist. -/
theorem tableToAlias_reference :
    (∀ c ∈ "p$x".toList, Keyword.isIdentifierChar c = true ∧ c ≠ '.') ∧
      BeginsWord "pages".toList ∧
      tableToAlias "pages.hidden=0" "pages" "p$x" = "p.hidden=0" ∧
      ¬Replaced "pages".toList ("p$x".toList ++ ·) none "pages.hidden=0".toList
        (tableToAlias "pages.hidden=0" "pages" "p$x").toList := by
  have htable : BeginsWord "pages".toList := by decide +kernel
  have hresult : tableToAlias "pages.hidden=0" "pages" "p$x" = "p.hidden=0" := by decide +kernel
  refine ⟨by decide +kernel, htable, hresult, ?_⟩
  rw [hresult]
  intro h
  have hname : Replaced "pages".toList ("p$x".toList ++ ·) none
      ("pages".toList ++ (['.'] ++ "hidden=0".toList)) "p.hidden=0".toList := h
  obtain ⟨rest, hrest, -⟩ := hname.of_name htable.ne_nil rfl (by decide)
  have hsecond := congrArg (·[1]?) hrest
  simp at hsecond

end Rename
end ContentQuery
