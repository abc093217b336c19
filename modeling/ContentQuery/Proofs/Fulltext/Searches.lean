import ContentQuery.Fulltext.Match
import ContentQuery.Platform.Catalog
import ContentQuery.Proofs.Fulltext.Terms
import ContentQuery.Proofs.Query.Bookkeeping

/-!
# Empty searches

A boolean search is refused as empty exactly if none of its tokens is usable, and otherwise asks for
the terms of the usable ones.  That holds of every search string whose plain characters have no
mark: what a mark encloses is read as the number of a group, and what that leaves is never checked.
-/

namespace ContentQuery
namespace SearchTerms

open Literal (slashChar)

/-! ## Bare terms -/

/-- Nothing, or an operator with nothing behind it. -/
def Bare (term : List Char) : Prop :=
  term = [] ∨ ∃ operator ∈ operators, term = [operator]

theorem slashChar_eq_singleton {c d : Char} (h : slashChar c = [d]) : c = d := by
  unfold slashChar at h
  split at h
  · cases h
  · split at h
    · cases h
    · exact (List.cons.inj h).1

theorem slashChar_ne_nil (c : Char) : slashChar c ≠ [] := by
  unfold slashChar
  split
  · exact List.cons_ne_nil _ _
  · split <;> exact List.cons_ne_nil _ _

theorem bare_of_slashed {text : List Char} (h : Bare (text.flatMap slashChar)) : Bare text := by
  cases text with
  | nil => exact Or.inl rfl
  | cons c cs =>
      rw [List.flatMap_cons] at h
      rcases h with hnil | ⟨operator, hoperator, hone⟩
      · exact absurd (List.append_eq_nil_iff.1 hnil).1 (slashChar_ne_nil c)
      · rcases List.append_eq_singleton_iff.1 hone with ⟨hc, -⟩ | ⟨hc, hcs⟩
        · exact absurd hc (slashChar_ne_nil c)
        · have hrest : cs = [] := by
            cases cs with
            | nil => rfl
            | cons d ds => exact absurd (List.append_eq_nil_iff.1 hcs).1 (slashChar_ne_nil d)
          exact Or.inr ⟨operator, hoperator, by rw [slashChar_eq_singleton hc, hrest]⟩

theorem not_findable_of_bare {text : List Char} (h : Bare text) (minLength : Nat) :
    ¬ (Word.ofText text).Findable minLength := by
  have hword : (Word.ofText text).word = [] := by
    rcases h with rfl | ⟨operator, hoperator, rfl⟩
    · rfl
    · revert operator
      decide
  exact fun hfound => hfound.1 hword

theorem IsGroup.not_bare_append {g : List Char} (h : IsGroup g) (front back : List Char) :
    ¬ Bare (front ++ (g ++ back)) := by
  -- A group begins with a character that is no operator.
  obtain ⟨c, w, rfl, hc⟩ : ∃ c w, g = c :: w ∧ c ∉ operators := by
    cases h with
    | phrase _ => exact ⟨'"', _, rfl, by decide⟩
    | bracket _ => exact ⟨'(', _, rfl, by decide⟩
  have hmem : c ∈ front ++ (c :: w ++ back) := by simp
  rintro (hnil | ⟨operator, hoperator, hone⟩)
  · exact absurd hmem (hnil ▸ List.not_mem_nil)
  · rw [hone, List.mem_singleton] at hmem
    exact hc (hmem ▸ hoperator)

/-- The term for a usable token has more to it than an operator. -/
theorem Usable.not_bare {minLength : Nat} {token : List Piece} (h : Usable minLength token)
    (hgroups : ∀ g, Piece.group g ∈ token → IsGroup g) : ¬ Bare (termOf token) := by
  rw [termOf_eq]
  intro hslashed
  have hbare := bare_of_slashed hslashed
  rcases h with hgroup | hword
  · obtain ⟨g, hg⟩ := List.exists_mem_of_ne_nil _ hgroup
    have hmem := group_mem_of_mem_groupsOf hg
    obtain ⟨front, back, rfl⟩ := List.append_of_mem hmem
    refine (hgroups g hmem).not_bare_append (textOf front) (textOf back) ?_
    simpa [textOf, Piece.text] using hbare
  · exact not_findable_of_bare hbare minLength hword

theorem not_bare_of_mem_termsOf {s : List Char} {ps : List Piece} (hcut : Cut s ps)
    {minLength : Nat} : ∀ term ∈ termsOf minLength ps, ¬ Bare term := by
  intro term hterm
  obtain ⟨token, htoken, rfl⟩ := List.mem_map.1 hterm
  obtain ⟨htoken, husable⟩ := List.mem_filter.1 htoken
  have hpart : token <:+: ps := Chars.isInfix_of_mem_splitOn (List.mem_of_mem_filter htoken)
  refine (of_decide_eq_true husable).not_bare fun g hg => ?_
  rcases hcut.mem_cases (hpart.subset hg) with ⟨_, _, heq⟩ | ⟨g', hgroup, heq⟩
  · cases heq
  · cases heq
    exact hgroup

theorem termsOf_eq_nil_iff {minLength : Nat} {ps : List Piece} :
    termsOf minLength ps = [] ↔ ∀ token ∈ tokens ps, ¬ Usable minLength token := by
  rw [termsOf, List.map_eq_nil_iff, List.filter_eq_nil_iff]
  simp

theorem intercalate_ne_nil {terms : List (List Char)} (hne : terms ≠ [])
    (h : ∀ term ∈ terms, ¬ Bare term) : [' '].intercalate terms ≠ [] := by
  rcases terms with _ | ⟨term, _ | ⟨next, rest⟩⟩
  · exact absurd rfl hne
  · rw [List.intercalate_singleton]
    exact fun hnil => h term List.mem_cons_self (Or.inl hnil)
  · rw [List.intercalate_cons_cons]
    simp

/-- Nothing is processed to nothing but a search without usable tokens. -/
theorem process_isEmpty_iff {search : String} {ps : List Piece} (hcut : Cut search.toList ps)
    (hplain : Piece.char mark ∉ ps) (minLength : Nat) :
    (process minLength search).isEmpty = true ↔ ∀ token ∈ tokens ps, ¬ Usable minLength token := by
  rw [process_eq hcut hplain, String.isEmpty_iff, ← String.toList_inj, String.toList_ofList,
    ← termsOf_eq_nil_iff]
  refine ⟨fun hempty => ?_, fun hempty => by rw [hempty]; rfl⟩
  by_contra hne
  exact intercalate_ne_nil hne (not_bare_of_mem_termsOf hcut) hempty

end SearchTerms

namespace Fulltext

open SearchTerms

/-! ## Refused searches -/

/-- A boolean search in a known index is refused as empty exactly if none of its tokens is usable.
Otherwise the condition asks for the terms of the usable tokens, none of which is bare. -/
theorem emptySearch_iff_unusable {schema : Schema} {s : Search} {columns : String}
    {ps : List Piece} (hindex : (schema.fulltextIndexes s.table).get? s.index = some columns)
    (hboolean : s.natural = false) (hcut : Cut (Percent.decodeSearch s.text).toList ps)
    (hplain : Piece.char mark ∉ ps) (minLength : Nat) :
    (condition schema minLength s = .error .emptySearch ↔
      ∀ token ∈ tokens ps, ¬ Usable minLength token) ∧
    ((∃ token ∈ tokens ps, Usable minLength token) →
      condition schema minLength s = .ok ((if s.negate then "NOT " else "") ++
        "MATCH(" ++ qualify columns s.table s.aliasName ++ ") AGAINST('" ++
        String.ofList ([' '].intercalate (termsOf minLength ps)) ++ "' IN BOOLEAN MODE)") ∧
      ∀ term ∈ termsOf minLength ps, ¬ Bare term) := by
  have hterms : terms minLength s.natural s.text =
      process minLength (Percent.decodeSearch s.text) := by
    rw [terms, hboolean]
    rfl
  -- The condition fails by an empty search exactly when no token has given a term.
  have hempty := process_isEmpty_iff hcut hplain minLength
  rw [condition, hindex]
  simp only [hterms]
  constructor
  · rw [← hempty]
    split
    · next h => simp [h]
    · next h => simp [h]
  · rintro ⟨token, htoken, husable⟩
    have hsome : ¬ (process minLength (Percent.decodeSearch s.text)).isEmpty = true :=
      fun h => hempty.1 h token htoken husable
    refine ⟨?_, not_bare_of_mem_termsOf hcut⟩
    rw [if_neg hsome, hboolean, ← process_eq hcut hplain]
    simp only [String.append_assoc]
    rfl

/-- News that can be searched by their titles and texts. -/
def newsCatalog : Catalog :=
  Catalog.withTable {} "news" { indexes := .ofList [("search", ["title", "bodytext"])] }

def newsSearch (text : String) : Search where
  table := "news"
  aliasName := "n"
  index := "search"
  text := text
  natural := false
  negate := true

/-- A mark in a phrase is a character of the phrase.  Nothing is left of a search for a short word,
a bare operator and a bare wildcard. -/
theorem emptySearch_iff_unusable_news :
    let phrase := newsSearch "%2B%22open%01house%22+of+day*"
    let nothing := newsSearch "of+%2B+*"
    let pieces := fun s : Search => piecesFrom 0 (Percent.decodeSearch s.text).toList
    (newsCatalog.toSchema.fulltextIndexes "news").get? "search" =
        some "news.title,news.bodytext" ∧
      (phrase.natural = false ∧ nothing.natural = false) ∧
      Cut (Percent.decodeSearch phrase.text).toList (pieces phrase) ∧
      Cut (Percent.decodeSearch nothing.text).toList (pieces nothing) ∧
      (Piece.char mark ∉ pieces phrase ∧ Piece.char mark ∉ pieces nothing) ∧
      condition newsCatalog.toSchema 4 phrase = .ok ("NOT MATCH(n.title,n.bodytext) AGAINST('" ++
        "+\\\"open\x01house\\\" day*' IN BOOLEAN MODE)") ∧
      condition newsCatalog.toSchema 4 nothing = .error .emptySearch := by
  intro phrase nothing pieces
  have hindex : (newsCatalog.toSchema.fulltextIndexes "news").get? "search" =
      some "news.title,news.bodytext" := by
    decide +kernel
  have hphrase := cut_piecesFrom (Percent.decodeSearch phrase.text).toList
  have hnothing := cut_piecesFrom (Percent.decodeSearch nothing.text).toList
  have hplain : Piece.char mark ∉ pieces phrase ∧ Piece.char mark ∉ pieces nothing := by
    decide +kernel
  have husable : ∃ token ∈ tokens (pieces phrase), Usable 4 token := by decide +kernel
  have hunusable : ∀ token ∈ tokens (pieces nothing), ¬ Usable 4 token := by decide +kernel
  refine ⟨hindex, ⟨rfl, rfl⟩, hphrase, hnothing, hplain, ?_, ?_⟩
  · rw [((emptySearch_iff_unusable hindex rfl hphrase hplain.1 4).2 husable).1]
    decide +kernel
  · exact (emptySearch_iff_unusable hindex rfl hnothing hplain.2 4).1.2 hunusable

/-- Two marks with a space between them: no token is usable, but the search is not refused. -/
theorem condition_of_lone_marks :
    let s := newsSearch "%01+%01"
    ∃ ps, Cut (Percent.decodeSearch s.text).toList ps ∧
      (∀ token ∈ tokens ps, ¬ Usable 4 token) ∧
      condition newsCatalog.toSchema 4 s =
        .ok "NOT MATCH(n.title,n.bodytext) AGAINST(' ' IN BOOLEAN MODE)" := by
  intro s
  refine ⟨_, cut_piecesFrom _, ?_, ?_⟩
  · decide +kernel
  · decide +kernel

end Fulltext
end ContentQuery
