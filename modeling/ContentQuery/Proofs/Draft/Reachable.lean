import ContentQuery.Proofs.Draft.Growth
import ContentQuery.Proofs.Draft.Reading

/-!
# Reachable drafts

The drafts that come out of any use: texts are read, whether or not they are accepted, requests are
served and counts are set, in any order.  All of them are consistent: what a draft found out fits its
query.
-/

namespace ContentQuery
namespace Draft

/-- Drafts that come out of a use on a platform. -/
inductive Reachable (p : Platform) : Draft → Prop
  | fresh : Reachable p {}
  | parse (text : String) {d : Draft} : Reachable p d → Reachable p (d.parse p text).1
  | serve (request : Request) {d : Draft} : Reachable p d → Reachable p (serve p d request)
  | setLimit (limit : Nat) {d : Draft} : Reachable p d → Reachable p (d.setLimit limit)
  | setOffset (offset : Nat) {d : Draft} : Reachable p d → Reachable p (d.setOffset offset)

/-- What a draft found out fits its query: every result column comes from a selected field, and every
answer is an alias of the query. -/
structure Consistent (d : Draft) : Prop where
  origins : ∀ e ∈ d.origins.entries, d.hasField e.2.tableAlias e.2.field = true
  answers : ∀ e ∈ d.resolved.entries, e.2 ∈ d.query.tableOfAlias.keys

theorem Grows.consistent {d d' : Draft} (h : d.Grows d') (hd : d.Consistent) : d'.Consistent := by
  constructor
  · intro e he
    rcases h.origins e he with he | he
    · exact h.fields _ _ (hd.origins e he)
    · exact he
  · rcases h.resolved with ⟨found, hfound, haliases⟩
    intro e he
    rw [h.tableOfAlias]
    rw [hfound, List.mem_append] at he
    rcases he with he | he
    · exact hd.answers e he
    · exact haliases e he

/-! ## Reading -/

theorem grows_analyzeField (d : Draft) (f : SelectField) : d.Grows (d.analyzeField f) := by
  have horigin : ∀ place, (originOf f place).tableAlias = f.tableAlias ∧
      (originOf f place).field = f.field := by
    intro place
    cases place <;> exact ⟨rfl, rfl⟩
  have hplace := horigin (resultColumn d.query.mainAlias f).2
  have h := d.grows_noteColumn f.table { name := f.field, isCall := f.isCall }
    (resultColumn d.query.mainAlias f).1 _ hplace.2
  rwa [hplace.1] at h

theorem grows_addBaseField (p : Platform) (a field : String) (present : Bool) (d : Draft) :
    d.Grows (addBaseField p a field present d) := by
  rcases addBaseField_cases p a field present d with h | ⟨_, h⟩
  · rw [h]
    exact .refl d
  · rw [h]
    exact d.grows_select _ _ _ _

theorem grows_addBaseFields (p : Platform) (d : Draft) : d.Grows (addBaseFields p d) :=
  grows_foldl (fun d (e : String × BaseFields) =>
    (grows_addBaseField p e.1 "uid" e.2.uid d).trans (grows_addBaseField p e.1 "pid" e.2.pid _)) _ d

theorem grows_warnDuplicates (d : Draft) : d.Grows d.warnDuplicates.1 := by
  unfold warnDuplicates
  split
  · exact .refl d
  · exact d.grows_warn _ _

/-- The entries of the list are noted one by one. -/
theorem consistent_analyze {d : Draft} (hd : d.Consistent) : d.analyze.Consistent := by
  have hlisted := grows_foldl grows_analyzeField d.query.select d
  refine ⟨(hlisted.consistent hd).origins, fun e he => ?_⟩
  have hanswer := (hlisted.consistent hd).answers e he
  rwa [hlisted.tableOfAlias] at hanswer

/-- A fresh draft knows nothing yet. -/
theorem consistent_ofQuery (q : Query) : (ofQuery q).Consistent := by
  constructor <;> intro e he <;> cases he

/-- A text that can be read takes the place of what the draft held, and is completed. -/
theorem grows_parse {p : Platform} {text : String} {q : Query}
    (h : Query.parse p.schema (prepareText text) = .ok q) (d : Draft) :
    (ofQuery q).analyze.Grows (d.parse p text).1 := by
  rw [parse_of_read h]
  split
  · exact .refl _
  · refine .trans ?_ (grows_warnDuplicates _)
    rw [completed]
    split
    · exact .refl _
    · exact grows_addBaseFields p _

theorem consistent_parse {d : Draft} (hd : d.Consistent) (p : Platform) (text : String) :
    (d.parse p text).1.Consistent := by
  cases hq : Query.parse p.schema (prepareText text) with
  | error e =>
      rw [parse_of_error hq]
      exact hd
  | ok q => exact (grows_parse hq d).consistent (consistent_analyze (consistent_ofQuery q))

/-- What was there before reading does not matter to a text that is accepted. -/
theorem parse_fresh {p : Platform} {text warning : String} {d d' : Draft}
    (h : d.parse p text = (d', .ok warning)) : ({} : Draft).parse p text = (d', .ok warning) := by
  rcases exists_of_accepted h with ⟨q, hq, _⟩
  exact (parse_of_read hq {}).trans ((parse_of_read hq d).symm.trans h)

/-! ## Runs -/

theorem Reachable.consistent {p : Platform} {d : Draft} (h : Reachable p d) : d.Consistent := by
  induction h with
  | fresh => constructor <;> intro e he <;> cases he
  | parse text _ ih => exact consistent_parse ih p text
  | serve request _ ih => exact (grows_serve p _ request).consistent ih
  | setLimit limit _ ih => exact ⟨ih.origins, ih.answers⟩
  | setOffset offset _ ih => exact ⟨ih.origins, ih.answers⟩

theorem Reachable.serveAll {p : Platform} {d : Draft} (h : Reachable p d)
    (requests : List Request) : Reachable p (serveAll p requests d) := by
  induction requests generalizing d with
  | nil => exact h
  | cons request requests ih => exact ih (h.serve request)

/-- A draft with an accepted text can be reached, whatever it held before. -/
theorem Reachable.of_parse {p : Platform} {text warning : String} {d d' : Draft}
    (h : d.parse p text = (d', .ok warning)) : Reachable p d' := by
  have hreached := Reachable.fresh.parse (p := p) text
  rwa [parse_fresh h] at hreached

end Draft
end ContentQuery
