import ContentQuery.Proofs.Draft.Aliases
import ContentQuery.Proofs.Query.Refusals

/-!
# What a draft keeps of its past

A text that can be read takes the place of everything that a draft holds, and a text that cannot be
read changes nothing.  So what comes out of a use depends only on the last text that was read and on
what was done since.

A DISTINCT query without a `uid` is read before it is refused: it stands in the draft all the same.
-/

namespace ContentQuery
namespace Draft

variable {p : Platform} {text : String} {q : Query}

/-! ## Reading and refusing -/

/-- What a text is read into does not show in the draft that comes out. -/
theorem parse_of_ok (h : Query.parse p.schema (prepareText text) = .ok q) (d d' : Draft) :
    d.parse p text = d'.parse p text := by
  rw [parse_of_read h, parse_of_read h]

theorem check_of_ok (h : Query.parse p.schema (prepareText text) = .ok q) (d d' : Draft) :
    d.check p text = d'.check p text := by
  rw [check, parse_of_ok h d d', check]

/-- A DISTINCT query that selects no `uid` of its main table. -/
def LacksUid (q : Query) : Prop :=
  q.distinct = true ∧ (ofQuery q).analyze.selectsMainUid = false

instance (q : Query) : Decidable (LacksUid q) :=
  inferInstanceAs (Decidable (_ ∧ _))

/-- A text is refused because it cannot be read, and then the draft stays, or because a DISTINCT
query was read that lacks a `uid`, and then the draft is that of the query. -/
theorem parse_eq_error_iff {d d' : Draft} {e : QueryError} :
    d.parse p text = (d', .error e) ↔
      (Query.parse p.schema (prepareText text) = .error e ∧ d' = d) ∨
        ∃ q, Query.parse p.schema (prepareText text) = .ok q ∧ LacksUid q ∧
          e = .missingUid ∧ d' = (ofQuery q).analyze := by
  -- Either the text is not read at all, or what was read has no uid to offer.
  cases hread : Query.parse p.schema (prepareText text) with
  | error reason =>
      rw [parse_of_error hread]
      simp [eq_comm, and_comm]
  | ok q =>
      rw [parse_of_read hread]
      split
      · next hrefused =>
          rw [Bool.and_eq_true, Bool.not_eq_true'] at hrefused
          have hlacks : LacksUid q := hrefused
          simp [hlacks, eq_comm, and_comm]
      · next haccepted =>
          rw [Bool.and_eq_true, Bool.not_eq_true'] at haccepted
          have hlacks : ¬ LacksUid q := haccepted
          simp [hlacks]

/-! ## Actions that read -/

/-- The text that an action is about to read. -/
def Action.text? : Action → Option String
  | .parse text | .check text => some text
  | .analyze | .addBaseFields | .request _ | .setLimit _ | .setOffset _ => none

/-- Whether an action comes with a text that can be read. -/
def Action.reads (p : Platform) (action : Action) : Bool :=
  action.text?.any fun text => (Query.parse p.schema (prepareText text)).isOk

/-- Whether an action comes with a text that cannot be read. -/
def Action.fails (p : Platform) (action : Action) : Bool :=
  action.text?.any fun text => !(Query.parse p.schema (prepareText text)).isOk

theorem act_of_reads {action : Action} (h : action.reads p = true) (d d' : Draft) :
    act p d action = act p d' action := by
  -- A text that is read leaves nothing of the draft before it.
  have hread : ∀ text, (Query.parse p.schema (prepareText text)).isOk = true →
      d.parse p text = d'.parse p text := by
    intro text hok
    cases hread : Query.parse p.schema (prepareText text) with
    | error e => simp [hread, Except.isOk, Except.toBool] at hok
    | ok q => exact parse_of_ok hread d d'
  cases action with
  | parse text =>
      simp only [Action.reads, Action.text?, Option.any_some] at h
      exact congrArg Prod.fst (hread text h)
  | check text =>
      simp only [Action.reads, Action.text?, Option.any_some] at h
      simp only [act, check, hread text h]
  | analyze | addBaseFields | request _ | setLimit _ | setOffset _ =>
      simp [Action.reads, Action.text?] at h

theorem act_of_fails {action : Action} (h : action.fails p = true) (d : Draft) :
    act p d action = d := by
  have hread : ∀ text, (!(Query.parse p.schema (prepareText text)).isOk) = true →
      ∃ e, d.parse p text = (d, .error e) := by
    intro text hfails
    cases hread : Query.parse p.schema (prepareText text) with
    | error e => exact ⟨e, parse_of_error hread d⟩
    | ok q => simp [hread, Except.isOk, Except.toBool] at hfails
  cases action with
  | parse text =>
      simp only [Action.fails, Action.text?, Option.any_some] at h
      rcases hread text h with ⟨e, he⟩
      simp only [act, he]
  | check text =>
      simp only [Action.fails, Action.text?, Option.any_some] at h
      rcases hread text h with ⟨e, he⟩
      simp only [act, check, he]
  | analyze | addBaseFields | request _ | setLimit _ | setOffset _ =>
      simp [Action.fails, Action.text?] at h

/-! ## Histories -/

theorem actAll_append (actions later : List Action) (d : Draft) :
    actAll p (actions ++ later) d = actAll p later (actAll p actions d) :=
  List.foldl_append

/-- From a text that is read on, two drafts cannot be told apart. -/
theorem actAll_of_reads {action : Action} (h : action.reads p = true)
    (history later : List Action) (d d' : Draft) :
    actAll p (history ++ action :: later) d = actAll p (action :: later) d' := by
  rw [actAll_append]
  exact congrArg (actAll p later) (act_of_reads h _ _)

/-- Texts that cannot be read may be dropped from every history. -/
theorem actAll_filter_fails (actions : List Action) (d : Draft) :
    actAll p (actions.filter (!·.fails p)) d = actAll p actions d := by
  induction actions generalizing d with
  | nil => rfl
  | cons action actions ih =>
      cases hfails : action.fails p with
      | true =>
          have hdropped : (action :: actions).filter (!·.fails p) = actions.filter (!·.fails p) :=
            List.filter_cons_of_neg (by simp [hfails])
          rw [hdropped, ih]
          exact congrArg (actAll p actions) (act_of_fails hfails d).symm
      | false =>
          have hkept : (action :: actions).filter (!·.fails p) =
              action :: actions.filter (!·.fails p) :=
            List.filter_cons_of_pos (by simp [hfails])
          rw [hkept]
          exact ih (act p d action)

/-- The part of a history from the last text that was read on. -/
def recent (p : Platform) : List Action → Option (List Action)
  | [] => none
  | action :: actions =>
      (recent p actions).or (if action.reads p then some (action :: actions) else none)

/-- Only the recent part of a history counts, and a fresh draft is as good as any to start from. -/
theorem actAll_recent {actions later : List Action} (h : recent p actions = some later)
    (d d' : Draft) : actAll p actions d = actAll p later d' := by
  induction actions generalizing d with
  | nil => cases h
  | cons action actions ih =>
      rw [recent] at h
      cases hrest : recent p actions with
      | some rest =>
          rw [hrest, Option.some_or, Option.some.injEq] at h
          subst h
          exact ih hrest (act p d action)
      | none =>
          rw [hrest, Option.none_or] at h
          split at h
          · next hreads =>
              cases h
              exact actAll_of_reads hreads [] actions d d'
          · cases h

/-! ## The past -/

/-- A text that can be read gives the same answer and the same draft in every state that a draft may
have reached, as in a fresh one, and so does everything that is done after it. -/
theorem past_forgotten (h : Query.parse p.schema (prepareText text) = .ok q)
    (history : List Action) (d : Draft) :
    (actAll p history d).parse p text = ({} : Draft).parse p text ∧
      (actAll p history d).check p text = ({} : Draft).check p text ∧
      ∀ later,
        actAll p (history ++ .parse text :: later) d = actAll p (.parse text :: later) {} := by
  have hreads : (Action.parse text).reads p = true := by
    simp [Action.reads, Action.text?, h, Except.isOk, Except.toBool]
  refine ⟨parse_of_ok h _ _, check_of_ok h _ _, fun later => ?_⟩
  exact actAll_of_reads hreads history later d {}

/-- The titles of the pages: read after the news were listed, prepared, ordered and refused a second
text, they come out as from a fresh draft. -/
theorem past_forgotten_titles :
    let p := Catalog.site.platform (.atTime 0) {}
    let history : List Action :=
      [.parse "SELECT title, n.body FROM pages INNER JOIN news AS n ON n.pid = pages.uid",
        .request (.operation .mechanisms), .request (.resolve "news" "list"), .setLimit 5,
        .parse "SELECT title"]
    (actAll p history {}).parse p "SELECT title FROM pages" =
        ({} : Draft).parse p "SELECT title FROM pages" ∧
      (actAll p history {}).check p "SELECT title FROM pages" =
        ({} : Draft).check p "SELECT title FROM pages" ∧
      ∀ later, actAll p (history ++ .parse "SELECT title FROM pages" :: later) {} =
        actAll p (.parse "SELECT title FROM pages" :: later) {} := by
  intro p history
  have hread : Query.parse p.schema (prepareText "SELECT title FROM pages") =
      .ok ((Query.parse p.schema (prepareText "SELECT title FROM pages")).toOption.getD {}) := by
    decide +kernel
  exact past_forgotten hread history {}

/-- Whatever a text is refused for, the draft stays as it was and the text may be dropped from every
history, with one exception: a DISTINCT query that lacks a `uid` has taken the place of the query by
then, and nothing is left of the draft before. -/
theorem refusals_of_use (p : Platform) :
    (∀ d d' text e, d.parse p text = (d', .error e) ↔
      (Query.parse p.schema (prepareText text) = .error e ∧ e.IsTextual ∧ d' = d) ∨
        ∃ q, Query.parse p.schema (prepareText text) = .ok q ∧ LacksUid q ∧
          e = .missingUid ∧ d' = (ofQuery q).analyze) ∧
    ∀ actions d, actAll p (actions.filter (!·.fails p)) d = actAll p actions d := by
  refine ⟨fun d d' text e => ?_, actAll_filter_fails⟩
  rw [parse_eq_error_iff]
  have htextual := Query.failsBy_parse p.schema (prepareText text) e
  constructor
  · rintro (⟨hread, hd⟩ | hlacks)
    · exact .inl ⟨hread, htextual hread, hd⟩
    · exact .inr hlacks
  · rintro (⟨hread, _, hd⟩ | hlacks)
    · exact .inl ⟨hread, hd⟩
    · exact .inr hlacks

/-- Titles are asked for, then different titles without the pages they belong to.  The second text
is refused, but it is the one that is built. -/
theorem refusedTitles_built :
    let p := Catalog.site.platform (.atTime 0) {}
    let before := (({} : Draft).parse p "SELECT title FROM pages").1
    let after := before.parse p "SELECT DISTINCT title FROM pages"
    after.2 = .error .missingUid ∧ after.1 ≠ before ∧
      (before.build p).2 = "SELECT pages.title, pages.uid, pages.pid FROM pages AS pages" ∧
      (after.1.build p).2 = "SELECT DISTINCT pages.title FROM pages AS pages" := by
  decide +kernel

end Draft
end ContentQuery
