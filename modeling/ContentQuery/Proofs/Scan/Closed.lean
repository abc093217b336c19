import ContentQuery.Proofs.Scan.Reading

/-!
# Closed texts in one another

How closed texts are put together and taken apart.  Two scans that agree on mode, depth and strays
read on alike, whatever is ahead, so a text may be judged at the place where it stands: it is closed
if it is read from plain text and leaves the scan settled.

Texts that cannot begin in the middle of a doubled quote are told apart: a neutral text may stand
directly behind a literal, a closed text only in plain text.
-/

namespace ContentQuery
namespace Scan

variable {d : Nat} {s t u : Scan} {a b text w : List Char}

/-! ## Scans that read on alike -/

/-- The scans stand in the same literal and at the same depth, and both or none has something
astray. -/
structure Alike (s t : Scan) : Prop where
  mode : t.mode = s.mode
  depth : t.depth = s.depth
  stray : t.strayClose = none ↔ s.strayClose = none

namespace Alike

theorem refl (s : Scan) : Alike s s :=
  ⟨rfl, rfl, Iff.rfl⟩

theorem symm (h : Alike s t) : Alike t s :=
  ⟨h.mode.symm, h.depth.symm, h.stray.symm⟩

theorem trans (h : Alike s t) (h' : Alike t u) : Alike s u :=
  ⟨h'.mode.trans h.mode, h'.depth.trans h.depth, h'.stray.trans h.stray⟩

theorem stepPlain (h : Alike s t) (c : Char) : Alike (s.stepPlain c) (t.stepPlain c) := by
  unfold Scan.stepPlain
  split
  · exact ⟨rfl, h.depth, h.stray⟩
  · split
    · exact ⟨rfl, congrArg (· + 1) h.depth, h.stray⟩
    · split
      · rw [h.depth]
        cases s.depth with
        | zero => exact ⟨rfl, rfl, by simp⟩
        | succ n => exact ⟨rfl, rfl, h.stray⟩
      · exact ⟨rfl, h.depth, h.stray⟩

theorem step (h : Alike s t) (c : Char) : Alike (s.step c) (t.step c) := by
  have hsame := isOutside_congr h.mode c
  cases houtside : s.isOutside c with
  | true =>
      have hplain := h.stepPlain c
      rw [← stepMode_of_isOutside houtside,
        ← stepMode_of_isOutside (hsame.trans houtside)] at hplain
      exact ⟨hplain.mode, hplain.depth, hplain.stray⟩
  | false =>
      have hs := step_of_inside houtside
      have ht := step_of_inside (hsame.trans houtside)
      refine ⟨mode_step_congr h.mode c, ?_, ?_⟩
      · rw [ht.1, hs.1, h.depth]
      · rw [ht.2, hs.2, h.stray]

theorem read (h : Alike s t) (text : List Char) : Alike (s.read text) (t.read text) := by
  induction text generalizing s t with
  | nil => exact h
  | cons c cs ih => exact ih (h.step c)

theorem quotedRight (h : Alike s t) (hs : s.QuotedRight) : t.QuotedRight := by
  simpa [QuotedRight, h.mode] using hs

theorem settled (h : Alike s t) (hs : Settled d s) : Settled d t where
  outside := by simpa [openQuote?, h.mode] using hs.outside
  depth_eq := h.depth.trans hs.depth_eq
  stray := h.stray.2 hs.stray
  right := h.quotedRight hs.right

end Alike

/-- In plain text all settled scans of one depth are alike. -/
theorem Settled.alike (hs : Settled d s) (ht : Settled d t) (hsm : s.mode = .plain)
    (htm : t.mode = .plain) : Alike s t where
  mode := htm.trans hsm.symm
  depth := ht.depth_eq.trans hs.depth_eq.symm
  stray := by simp [hs.stray, ht.stray]

/-! ## Closed texts at another place -/

/-- A closed text in plain text leaves the scan settled, whatever character stands before it. -/
theorem Settled.read_plain (hs : Settled d s) (hmode : s.mode = .plain) (htext : Closed text) :
    Settled d (s.read text) := by
  -- The character before decides on keywords only.
  have hforget : Alike { s with last := none } s := ⟨rfl, rfl, Iff.rfl⟩
  have hread : Settled d (({ s with last := none } : Scan).read text) :=
    Settled.read_closed (hforget.symm.settled hs) hmode rfl htext
  exact (hforget.read text).settled hread

/-- Whatever is read from plain text and leaves the scan settled on the top level is closed. -/
theorem closed_of_settled (hs : Settled 0 s) (hmode : s.mode = .plain)
    (h : Settled 0 (s.read text)) : Closed text := by
  have halike : Alike s {} := hs.alike settled_start hmode rfl
  exact closed_iff_settled.2 ((halike.read text).settled h)

theorem closed_nil : Closed [] :=
  closed_iff_settled.2 settled_start

/-- A text of ordinary characters. -/
def Ordinary (text : List Char) : Prop :=
  ∀ c ∈ text, isOrdinary c = true

instance (text : List Char) : Decidable (Ordinary text) :=
  inferInstanceAs (Decidable (∀ c ∈ text, isOrdinary c = true))

@[simp] theorem ordinary_nil : Ordinary [] := by
  simp [Ordinary]

@[simp] theorem ordinary_cons {c : Char} {cs : List Char} :
    Ordinary (c :: cs) ↔ isOrdinary c = true ∧ Ordinary cs :=
  List.forall_mem_cons

theorem ordinary_append_iff : Ordinary (a ++ b) ↔ Ordinary a ∧ Ordinary b :=
  List.forall_mem_append

theorem Ordinary.append (ha : Ordinary a) (hb : Ordinary b) : Ordinary (a ++ b) :=
  ordinary_append_iff.2 ⟨ha, hb⟩

theorem closed_ordinary (hw : Ordinary w) : Closed w :=
  closed_iff_settled.2 (settled_start.read hw)

/-- Behind ordinary characters the scan is back in plain text. -/
theorem Settled.mode_read (hs : Settled d s) (hw : Ordinary w) (hne : w ≠ []) :
    (s.read w).mode = .plain := by
  induction w generalizing s with
  | nil => exact absurd rfl hne
  | cons c cs ih =>
      have hc := hw c (by simp)
      have hcs : Ordinary cs := fun d hd => hw d (by simp [hd])
      cases cs with
      | nil => exact hs.mode_step hc
      | cons e es => exact ih (hs.step hc) hcs (by simp)

/-! ## Neutral texts -/

/-- A text that leaves every settled scan settled, be it directly behind a literal. -/
def Neutral (text : List Char) : Prop :=
  ∀ ⦃d : Nat⦄ ⦃s : Scan⦄, Settled d s → Settled d (s.read text)

theorem neutral_nil : Neutral [] :=
  fun _ _ hs => hs

theorem neutral_ordinary (hw : Ordinary w) : Neutral w :=
  fun _ _ hs => hs.read hw

theorem Neutral.append (ha : Neutral a) (hb : Neutral b) : Neutral (a ++ b) := by
  intro d s hs
  rw [read_append]
  exact hb (ha hs)

theorem neutral_flatMap {α : Type} {xs : List α} {f : α → List Char} (hf : ∀ x ∈ xs, Neutral (f x)) :
    Neutral (xs.flatMap f) := by
  induction xs with
  | nil => exact neutral_nil
  | cons x xs ih =>
      rw [List.flatMap_cons]
      exact (hf x (by simp)).append (ih fun y hy => hf y (by simp [hy]))

/-- Behind ordinary characters any closed text may stand. -/
theorem Closed.neutral_append (ha : Closed a) (hw : Ordinary w) (hne : w ≠ []) :
    Neutral (w ++ a) := by
  intro d s hs
  rw [read_append]
  exact (hs.read hw).read_plain (hs.mode_read hw hne) ha

/-- A closed text in parentheses. -/
theorem Closed.neutral_parenthesized (ha : Closed a) : Neutral ('(' :: (a ++ [')'])) := by
  intro d s hs
  rw [read_cons, read_append]
  exact ((hs.step_open.1).read_plain hs.step_open.2 ha).step_close

theorem Closed.append (ha : Closed a) (hb : Neutral b) : Closed (a ++ b) := by
  rw [closed_iff_settled, read_append]
  exact hb (closed_iff_settled.1 ha)

theorem Neutral.closed (ha : Neutral a) : Closed a :=
  closed_iff_settled.2 (ha settled_start)

/-! ## Literals -/

/-- A text that stays within a single-quoted literal. -/
def Inside (text : List Char) : Prop :=
  ∀ ⦃s : Scan⦄, s.mode = .quoted '\'' → Alike s (s.read text)

theorem inside_nil : Inside [] :=
  fun s _ => .refl s

theorem Inside.append (ha : Inside a) (hb : Inside b) : Inside (a ++ b) := by
  intro s hs
  have hfirst := ha hs
  rw [read_append]
  exact hfirst.trans (hb (hfirst.mode.trans hs))

theorem inside_flatMap {α : Type} {xs : List α} {f : α → List Char}
    (hf : ∀ x ∈ xs, Inside (f x)) : Inside (xs.flatMap f) := by
  induction xs with
  | nil => exact inside_nil
  | cons x xs ih =>
      rw [List.flatMap_cons]
      exact (hf x (by simp)).append (ih fun y hy => hf y (by simp [hy]))

/-- A character without a meaning of its own in the literal. -/
theorem inside_char {c : Char} (hslash : c ≠ '\\') (hquote : c ≠ '\'') : Inside [c] := by
  intro s hs
  have hstep : s.stepMode c = s := by simp [stepMode, hs, hslash, hquote]
  rw [read_cons, read_nil, Scan.step, hstep]
  exact ⟨rfl, rfl, Iff.rfl⟩

/-- Behind a backslash every character is part of the literal. -/
theorem inside_escaped (c : Char) : Inside ['\\', c] := by
  intro s hs
  rw [read_cons, read_cons, read_nil]
  refine ⟨?_, ?_, ?_⟩ <;> simp [Scan.step, stepMode, hs]

theorem Inside.closed_quoted (ha : Inside a) : Closed ('\'' :: (a ++ ['\''])) := by
  have hopen : (({} : Scan).step '\'').mode = .quoted '\'' := rfl
  have hempty : Settled 0 ((({} : Scan).step '\'').step '\'') := ⟨rfl, rfl, rfl, rfl⟩
  -- The closing quote has the effect that it has in an empty literal.
  rw [closed_iff_settled, read_cons, read_append, read_cons, read_nil]
  exact ((ha hopen).step '\'').settled hempty

end Scan
end ContentQuery
