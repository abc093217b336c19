import ContentQuery.Proofs.Query.Bookkeeping

/-!
# Why texts are refused

Each stage of reading can refuse a text, and the reason that it gives lies in the text: a keyword, a
table or a list is missing, something is left open, a count is no number.  Whether a DISTINCT query
selects a `uid` is no matter of reading.
-/

namespace ContentQuery

/-- A reason that lies in the text of a statement. -/
def QueryError.IsTextual : QueryError → Prop
  | missingSelect | missingFrom | emptyFrom | emptySelect => True
  | unbalancedParentheses _ | unterminatedLiteral _ | invalidLimit _ _ => True
  | missingUid | unknownTable _ _ | unknownIndex _ _ | emptySearch | unknownOperator _ => False

/-- A reason in the text other than that nothing is selected. -/
def QueryError.IsStructural (e : QueryError) : Prop :=
  e.IsTextual ∧ e ≠ .emptySelect

/-! ## Kinds of errors -/

/-- Whatever error a computation ends in is of the given kind. -/
def FailsBy {α : Type} (kind : QueryError → Prop) (x : Except QueryError α) : Prop :=
  ∀ e, x = .error e → kind e

namespace FailsBy

variable {α β : Type} {kind : QueryError → Prop}

theorem ok (a : α) : FailsBy kind (.ok a : Except QueryError α) := by
  intro e h
  cases h

theorem error {e : QueryError} (he : kind e) : FailsBy kind (.error e : Except QueryError α) := by
  intro e' h
  cases h
  exact he

theorem mono {x : Except QueryError α} {other : QueryError → Prop} (hx : FailsBy kind x)
    (h : ∀ e, kind e → other e) : FailsBy other x :=
  fun e he => h e (hx e he)

theorem bind {x : Except QueryError α} {f : α → Except QueryError β} (hx : FailsBy kind x)
    (hf : ∀ a, FailsBy kind (f a)) : FailsBy kind (x >>= f) := by
  intro e h
  cases x with
  | error e' =>
      cases h
      exact hx e rfl
  | ok a => exact hf a e h

theorem foldlM {f : β → α → Except QueryError β} (hf : ∀ b a, FailsBy kind (f b a)) (xs : List α)
    (b : β) : FailsBy kind (xs.foldlM f b) := by
  induction xs generalizing b with
  | nil => exact ok b
  | cons a xs ih =>
      rw [List.foldlM_cons]
      exact (hf b a).bind ih

end FailsBy

/-! ## Stages of reading

Only a blank SELECT list is a reason to say that nothing is selected.
-/

namespace RowClause

theorem readCount_fails (clause : RowClause) (text : List Char) :
    FailsBy (fun e => ∃ value, e = .invalidLimit clause value) (clause.readCount text) := by
  unfold readCount
  simp only
  split
  · exact .ok _
  · exact .error ⟨_, rfl⟩

theorem readLimit_fails (text : List Char) :
    FailsBy (fun e => ∃ value, e = .invalidLimit .limit value) (readLimit text) := by
  unfold readLimit
  split
  · exact (limit.readCount_fails _).bind fun _ => .ok _
  · exact (limit.readCount_fails _).bind fun _ =>
      (limit.readCount_fails _).bind fun _ => .ok _
  · exact .error ⟨_, rfl⟩

theorem isStructural_invalidLimit {clause : RowClause} {e : QueryError}
    (h : ∃ value, e = .invalidLimit clause value) : e.IsStructural := by
  obtain ⟨value, rfl⟩ := h
  exact ⟨trivial, by simp⟩

end RowClause

namespace SelectList

theorem failsBy_split (text : List Char) : FailsBy QueryError.IsStructural (split text) := by
  unfold split
  simp only
  split
  · exact .error ⟨trivial, by simp⟩
  · split
    · exact .error ⟨trivial, by simp⟩
    · split
      · exact .error ⟨trivial, by simp⟩
      · exact .ok _

theorem failsBy_parse (schema : Schema) (text : List Char) (q : Query) :
    FailsBy QueryError.IsTextual (parse schema text q).2 := by
  have hsplit := failsBy_split (splitDistinct text).2
  unfold parse
  simp only
  split
  · exact .error trivial
  · split
    · exact .ok ()
    · next e he => exact .error (hsplit e he).1

/-- Nothing is selected by a list with nothing behind DISTINCT, and by no other one. -/
theorem parse_eq_emptySelect_iff {schema : Schema} {text : List Char} {q : Query} :
    (parse schema text q).2 = .error .emptySelect ↔ (splitDistinct text).2 = [] := by
  have hsplit := failsBy_split (splitDistinct text).2
  unfold parse
  simp only
  split
  · next hempty => simpa using hempty
  · next hne =>
      have hsome : (splitDistinct text).2 ≠ [] := by simpa using hne
      split
      · simp [hsome]
      · next e he => simp [hsome, (hsplit e he).2]

end SelectList

namespace Query

theorem failsBy_splitStatement (text : List Char) :
    FailsBy QueryError.IsStructural (splitStatement text) := by
  unfold splitStatement
  simp only
  split
  · exact .error ⟨trivial, by simp⟩
  · split
    · exact .error ⟨trivial, by simp⟩
    · exact .ok _

theorem failsBy_ofTables (text : List Char) : FailsBy QueryError.IsStructural (ofTables text) := by
  unfold ofTables
  split
  · exact .error ⟨trivial, by simp⟩
  · exact .ok _

theorem failsBy_addClause (q : Query) (segment : Segment) :
    FailsBy QueryError.IsStructural (addClause q segment) := by
  rcases segment with ⟨clause, text⟩
  cases clause with
  | source => exact .ok _
  | join kind => exact .ok _
  | condition => exact .ok _
  | groupBy => exact .ok _
  | orderBy => exact .ok _
  | limit =>
      exact ((RowClause.readLimit_fails text).mono fun _ =>
        RowClause.isStructural_invalidLimit).bind fun _ => .ok _
  | offset =>
      exact ((RowClause.offset.readCount_fails text).mono fun _ =>
        RowClause.isStructural_invalidLimit).bind fun _ => .ok _

/-- A statement that cannot be read has the reason in its text. -/
theorem failsBy_parse (schema : Schema) (text : String) :
    FailsBy QueryError.IsTextual (parse schema text) := by
  unfold parse
  refine ((failsBy_splitStatement _).mono fun _ => And.left).bind fun (list, rest) => ?_
  refine ((failsBy_ofTables _).mono fun _ => And.left).bind fun q₀ => ?_
  refine ((FailsBy.foldlM failsBy_addClause _ q₀).mono fun _ => And.left).bind fun q₁ => ?_
  -- The list is read for its effect on the query; its error is thrown again.
  have hlist := SelectList.failsBy_parse schema list q₁
  split
  · exact .ok _
  · next e heq =>
      rw [heq] at hlist
      exact .error (hlist e rfl)

end Query
end ContentQuery
