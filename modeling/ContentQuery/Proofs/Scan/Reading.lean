import ContentQuery.Proofs.Chars.Names
import ContentQuery.Scan.Basic

/-!
# Reading a text inside another one

A scan that starts afresh and a scan that comes from other text read a closed text in the same way,
apart from position and depth.  The relation `Scan.Above` says how the two stand to each other, and
`Scan.Settled` is where a scan stands between texts: outside literals, with nothing astray.
-/

namespace ContentQuery
namespace Scan

/-! ## Ordinary characters -/

/-- Characters that a scan takes no notice of outside literals. -/
def isOrdinary (c : Char) : Bool :=
  c != '\'' && c != '"' && c != '(' && c != ')'

def isQuote (c : Char) : Bool :=
  c == '\'' || c == '"'

theorem isQuote_iff {c : Char} : isQuote c = true ↔ c = '\'' ∨ c = '"' := by
  simp [isQuote]

theorem isQuote_of_isOrdinary {c : Char} (h : isOrdinary c = true) : isQuote c = false := by
  simp only [isOrdinary, isQuote, Bool.and_eq_true, bne_iff_ne] at *
  simp [h.1.1.1, h.1.1.2]

theorem isOrdinary_of_isNameChar {c : Char} (h : Chars.isNameChar c = true) :
    isOrdinary c = true := by
  have ne : ∀ d, Chars.isNameChar d = false → c ≠ d := by
    rintro d hd rfl
    simp [h] at hd
  simp [isOrdinary, ne '\'' (by decide), ne '"' (by decide), ne '(' (by decide),
    ne ')' (by decide)]

theorem isOrdinary_of_isBlank {c : Char} (h : Chars.isBlank c = true) : isOrdinary c = true := by
  have ne : ∀ d, Chars.isBlank d = false → c ≠ d := by
    rintro d hd rfl
    simp [h] at hd
  simp [isOrdinary, ne '\'' (by decide), ne '"' (by decide), ne '(' (by decide),
    ne ')' (by decide)]

/-- Outside literals a character is read as in plain text. -/
theorem stepMode_of_isOutside {s : Scan} {c : Char} (hs : s.isOutside c = true) :
    s.stepMode c = s.stepPlain c := by
  cases hm : s.mode with
  | plain => simp [stepMode, hm]
  | quoted q => simp [isOutside, hm] at hs
  | escaped q => simp [isOutside, hm] at hs
  | closing q =>
      have hq : c ≠ q := by simpa [isOutside, hm] using hs
      simp [stepMode, hm, hq]

/-- In plain text a quote opens a literal, and nothing else does. -/
theorem mode_stepPlain (s : Scan) (c : Char) :
    (s.stepPlain c).mode = if isQuote c then .quoted c else .plain := by
  unfold stepPlain
  by_cases hquote : c = '\'' ∨ c = '"'
  · rw [if_pos hquote, if_pos (isQuote_iff.2 hquote)]
  · rw [if_neg hquote, if_neg (mt isQuote_iff.1 hquote)]
    split
    · rfl
    · split
      · split <;> rfl
      · rfl

theorem depth_stepPlain (s : Scan) (c : Char) :
    (s.stepPlain c).depth =
      if c = '(' then s.depth + 1 else if c = ')' then s.depth - 1 else s.depth := by
  unfold stepPlain
  by_cases hquote : c = '\'' ∨ c = '"'
  · rcases hquote with rfl | rfl <;> rfl
  · rw [if_neg hquote]
    split
    · rfl
    · split
      · cases s.depth <;> rfl
      · rfl

/-- The mode that a character leads to within a literal. -/
def modeWithin (mode : Mode) (c : Char) : Mode :=
  match mode with
  | .plain => .plain
  | .quoted quote =>
      if c = '\\' then .escaped quote else if c = quote then .closing quote else .quoted quote
  | .escaped quote | .closing quote => .quoted quote

/-- Within a literal a character changes nothing but the mode. -/
theorem stepMode_of_inside {s : Scan} {c : Char} (hs : s.isOutside c = false) :
    s.stepMode c = { s with mode := modeWithin s.mode c } := by
  unfold stepMode modeWithin
  cases hm : s.mode with
  | plain => simp [isOutside, hm] at hs
  | quoted q =>
      simp only
      split
      · rfl
      · split
        · rfl
        · rw [← hm]
  | escaped q => rfl
  | closing q =>
      have hc : c = q := by simpa [isOutside, hm] using hs
      simp only [if_pos hc]

theorem mode_step_of_isOutside {s : Scan} {c : Char} (hs : s.isOutside c = true) :
    (s.step c).mode = if isQuote c then .quoted c else .plain := by
  rw [← mode_stepPlain s c, ← stepMode_of_isOutside hs]
  rfl

theorem mode_step_of_inside {s : Scan} {c : Char} (hs : s.isOutside c = false) :
    (s.step c).mode = modeWithin s.mode c := by
  rw [step, stepMode_of_inside hs]

theorem depth_step_of_isOutside {s : Scan} {c : Char} (hs : s.isOutside c = true) :
    (s.step c).depth =
      if c = '(' then s.depth + 1 else if c = ')' then s.depth - 1 else s.depth := by
  rw [← depth_stepPlain s c, ← stepMode_of_isOutside hs]
  rfl

/-- Within a literal no parenthesis counts. -/
theorem step_of_inside {s : Scan} {c : Char} (hs : s.isOutside c = false) :
    (s.step c).depth = s.depth ∧ (s.step c).strayClose = s.strayClose := by
  rw [step, stepMode_of_inside hs]
  exact ⟨rfl, rfl⟩

/-- Outside literals an ordinary character is passed. -/
theorem step_of_isOrdinary {s : Scan} {c : Char} (hc : isOrdinary c = true)
    (hs : s.isOutside c = true) : s.step c = s.pass c := by
  simp only [isOrdinary, Bool.and_eq_true, bne_iff_ne] at hc
  rcases hc with ⟨⟨⟨h1, h2⟩, h3⟩, h4⟩
  rw [step, stepMode_of_isOutside hs]
  simp [stepPlain, pass, h1, h2, h3, h4]

theorem isTopLevel_iff {s : Scan} {c : Char} :
    s.isTopLevel c = true ↔ s.depth = 0 ∧ s.isOutside c = true := by
  rw [isTopLevel, Bool.and_eq_true, beq_iff_eq]

theorem isOutside_of_plain {s : Scan} (hs : s.mode = .plain) (c : Char) :
    s.isOutside c = true := by
  simp [isOutside, hs]

theorem openQuote?_of_isOutside {s : Scan} {c : Char} (hs : s.isOutside c = true) :
    s.openQuote? = none := by
  cases hm : s.mode with
  | plain => rw [openQuote?, hm]
  | closing q => rw [openQuote?, hm]
  | quoted q => simp [isOutside, hm] at hs
  | escaped q => simp [isOutside, hm] at hs

/-! ## Position and last character -/

@[simp] theorem position_step (s : Scan) (c : Char) : (s.step c).position = s.position + 1 :=
  rfl

@[simp] theorem last_step (s : Scan) (c : Char) : (s.step c).last = some c :=
  rfl

theorem last_any_step {c : Char} (hc : Keyword.isIdentifierChar c = false) (s : Scan) :
    (s.step c).last.any Keyword.isIdentifierChar = false := by
  rw [last_step]
  simpa using hc

theorem position_read (s : Scan) (text : List Char) :
    (s.read text).position = s.position + text.length := by
  induction text generalizing s with
  | nil => rfl
  | cons c cs ih =>
      rw [read_cons, ih, position_step, List.length_cons]
      omega

/-! ## Quotes that may end a literal -/

/-- A literal that may have ended was opened by a quote. -/
def QuotedRight (s : Scan) : Prop :=
  match s.mode with
  | .plain => True
  | .quoted q | .escaped q | .closing q => isQuote q = true

theorem QuotedRight.step {s : Scan} (hs : s.QuotedRight) (c : Char) : (s.step c).QuotedRight := by
  cases houtside : s.isOutside c with
  | true =>
      rw [QuotedRight, mode_step_of_isOutside houtside]
      cases hquote : isQuote c with
      | true => exact hquote
      | false => trivial
  | false =>
      -- Within a literal the quote is kept.
      rw [QuotedRight, mode_step_of_inside houtside]
      cases hm : s.mode with
      | plain => trivial
      | quoted q =>
          have hq : isQuote q = true := by simpa [QuotedRight, hm] using hs
          by_cases hslash : c = '\\'
          · simpa [modeWithin, hslash] using hq
          · by_cases hc : c = q
            · subst hc
              simpa [modeWithin, hslash] using hq
            · simpa [modeWithin, hslash, hc] using hq
      | escaped q | closing q => simpa [modeWithin, QuotedRight, hm] using hs

theorem QuotedRight.read {s : Scan} (hs : s.QuotedRight) (text : List Char) :
    (s.read text).QuotedRight := by
  induction text generalizing s with
  | nil => exact hs
  | cons c cs ih => exact ih (hs.step c)

/-- Outside literals anything but a quote is read as standing there. -/
theorem QuotedRight.isOutside {s : Scan} (hs : s.QuotedRight) (houtside : s.openQuote? = none)
    {c : Char} (hc : isQuote c = false) : s.isOutside c = true := by
  cases hm : s.mode with
  | plain => simp [Scan.isOutside, hm]
  | quoted q => simp [openQuote?, hm] at houtside
  | escaped q => simp [openQuote?, hm] at houtside
  | closing q =>
      -- Only the same quote again would lead back into the literal.
      have hq : isQuote q = true := by simpa [QuotedRight, hm] using hs
      have hne : c ≠ q := by
        rintro rfl
        simp [hq] at hc
      simp [Scan.isOutside, hm, hne]

/-! ## Steps of like scans -/

section Congruence

variable {s t : Scan}

theorem openQuote?_congr (h : t.mode = s.mode) : t.openQuote? = s.openQuote? := by
  rw [openQuote?, h, openQuote?]

theorem isOutside_congr (h : t.mode = s.mode) (c : Char) : t.isOutside c = s.isOutside c := by
  rw [isOutside, h, isOutside]

/-- Where a scan stands with respect to literals depends on where it stood before. -/
theorem mode_step_congr (h : t.mode = s.mode) (c : Char) : (t.step c).mode = (s.step c).mode := by
  have hsame := isOutside_congr h c
  cases houtside : s.isOutside c with
  | true => rw [mode_step_of_isOutside houtside, mode_step_of_isOutside (hsame.trans houtside)]
  | false => rw [mode_step_of_inside houtside, mode_step_of_inside (hsame.trans houtside), h]

theorem mode_read_congr (h : t.mode = s.mode) (text : List Char) :
    (t.read text).mode = (s.read text).mode := by
  induction text generalizing s t with
  | nil => exact h
  | cons c cs ih => exact ih (mode_step_congr h c)

/-- Of two scans in the same literal the deeper one stays no less deep. -/
theorem depth_step_le (hmode : t.mode = s.mode) (hdepth : s.depth ≤ t.depth) (c : Char) :
    (s.step c).depth ≤ (t.step c).depth := by
  have hsame := isOutside_congr hmode c
  cases houtside : s.isOutside c with
  | true =>
      rw [depth_step_of_isOutside houtside, depth_step_of_isOutside (hsame.trans houtside)]
      split
      · exact Nat.add_le_add_right hdepth 1
      · split
        · exact Nat.sub_le_sub_right hdepth 1
        · exact hdepth
  | false =>
      rw [(step_of_inside houtside).1, (step_of_inside (hsame.trans houtside)).1]
      exact hdepth

theorem depth_read_le (hmode : t.mode = s.mode) (hdepth : s.depth ≤ t.depth) (text : List Char) :
    (s.read text).depth ≤ (t.read text).depth := by
  induction text generalizing s t with
  | nil => exact hdepth
  | cons c cs ih => exact ih (mode_step_congr hmode c) (depth_step_le hmode hdepth c)

/-- The depth, too, depends on what it was before, for scans in the same literal. -/
theorem depth_step_congr (hmode : t.mode = s.mode) (hdepth : t.depth = s.depth) (c : Char) :
    (t.step c).depth = (s.step c).depth :=
  Nat.le_antisymm (depth_step_le hmode.symm (Nat.le_of_eq hdepth) c)
    (depth_step_le hmode (Nat.le_of_eq hdepth.symm) c)

end Congruence

/-! ## Between texts -/

/-- Outside literals at a depth, with no parenthesis astray. -/
structure Settled (depth : Nat) (s : Scan) : Prop where
  outside : s.openQuote? = none
  depth_eq : s.depth = depth
  stray : s.strayClose = none
  right : s.QuotedRight

theorem settled_start : Settled 0 {} :=
  ⟨rfl, rfl, rfl, trivial⟩

namespace Settled

variable {d : Nat} {s : Scan}

/-- Anything but a quote is read as standing outside literals. -/
theorem isOutside (hs : Settled d s) {c : Char} (hc : isQuote c = false) :
    s.isOutside c = true :=
  hs.right.isOutside hs.outside hc

theorem step (hs : Settled d s) {c : Char} (hc : isOrdinary c = true) : Settled d (s.step c) := by
  rw [step_of_isOrdinary hc (hs.isOutside (isQuote_of_isOrdinary hc))]
  exact ⟨rfl, hs.depth_eq, hs.stray, trivial⟩

theorem mode_step (hs : Settled d s) {c : Char} (hc : isOrdinary c = true) :
    (s.step c).mode = .plain := by
  rw [step_of_isOrdinary hc (hs.isOutside (isQuote_of_isOrdinary hc))]
  rfl

theorem read (hs : Settled d s) {text : List Char} (htext : ∀ c ∈ text, isOrdinary c = true) :
    Settled d (s.read text) := by
  induction text generalizing s with
  | nil => exact hs
  | cons c cs ih =>
      exact ih (hs.step (htext c (by simp))) fun b hb => htext b (by simp [hb])

/-- A parenthesis opens the next depth. -/
theorem step_open (hs : Settled d s) :
    Settled (d + 1) (s.step '(') ∧ (s.step '(').mode = .plain := by
  have hplain : s.stepPlain '(' = { s with mode := .plain, depth := s.depth + 1 } := by
    simp [stepPlain]
  rw [Scan.step, stepMode_of_isOutside (hs.isOutside rfl), hplain]
  exact ⟨⟨rfl, by simp [hs.depth_eq], hs.stray, trivial⟩, rfl⟩

/-- A parenthesis closes the present depth. -/
theorem step_close (hs : Settled (d + 1) s) : Settled d (s.step ')') := by
  have hplain : s.stepPlain ')' = { s with mode := .plain, depth := d } := by
    simp [stepPlain, hs.depth_eq]
  rw [Scan.step, stepMode_of_isOutside (hs.isOutside rfl), hplain]
  exact ⟨rfl, rfl, hs.stray, trivial⟩

end Settled

/-- A text is closed if a fresh scan of it ends settled. -/
theorem closed_iff_settled {text : List Char} :
    Closed text ↔ Settled 0 (({} : Scan).read text) := by
  constructor
  · rintro ⟨hout, hdepth, hstray⟩
    exact ⟨hout, hdepth, hstray, QuotedRight.read (s := {}) trivial text⟩
  · intro h
    exact ⟨h.outside, h.depth_eq, h.stray⟩

/-! ## The same text at another place -/

/-- The scan `t` stands `d` parentheses deeper than `s`, and reads on in the same way. -/
structure Above (d : Nat) (s t : Scan) : Prop where
  mode : t.mode = s.mode
  depth : t.depth = s.depth + d
  stray : t.strayClose = none
  bound : t.last.any Keyword.isIdentifierChar = s.last.any Keyword.isIdentifierChar

/-- A parenthesis that is astray stays on record. -/
theorem strayClose_step_ne_none {s : Scan} (hs : s.strayClose ≠ none) (c : Char) :
    (s.step c).strayClose ≠ none := by
  -- The first stray bracket is kept: outside of a literal the marker is only ever set.
  cases houtside : s.isOutside c with
  | true =>
      show (s.stepMode c).strayClose ≠ none
      rw [stepMode_of_isOutside houtside]
      unfold stepPlain
      split
      · exact hs
      · split
        · exact hs
        · split
          · cases s.depth <;> simp [hs]
          · exact hs
  | false =>
      rw [(step_of_inside houtside).2]
      exact hs

theorem strayClose_of_read {s : Scan} {text : List Char} (h : (s.read text).strayClose = none) :
    s.strayClose = none := by
  induction text generalizing s with
  | nil => exact h
  | cons c cs ih =>
      have hstep : (s.step c).strayClose = none := ih h
      cases hs : s.strayClose with
      | none => rfl
      | some position =>
          exact absurd hstep (strayClose_step_ne_none (by simp [hs]) c)

namespace Above

variable {d : Nat} {s t : Scan}

theorem stepPlain {c : Char} (h : Above d s t) (hs : (s.stepPlain c).strayClose = none) :
    (t.stepPlain c).mode = (s.stepPlain c).mode ∧
      (t.stepPlain c).depth = (s.stepPlain c).depth + d ∧ (t.stepPlain c).strayClose = none := by
  have hdepth := h.depth
  unfold Scan.stepPlain at *
  by_cases hq : c = '\'' ∨ c = '"'
  · simp only [if_pos hq]
    exact ⟨trivial, hdepth, h.stray⟩
  · simp only [if_neg hq] at hs ⊢
    by_cases ho : c = '('
    · simp only [if_pos ho]
      refine ⟨trivial, ?_, h.stray⟩
      omega
    · simp only [if_neg ho] at hs ⊢
      by_cases hc : c = ')'
      · simp only [if_pos hc] at hs ⊢
        -- A closing parenthesis on the lowest depth would be astray in `s`.
        cases hsd : s.depth with
        | zero => simp [hsd] at hs
        | succ n =>
            have htd : t.depth = (n + d) + 1 := by omega
            simp [htd, h.stray]
      · simp only [if_neg hc]
        exact ⟨trivial, hdepth, h.stray⟩

theorem step {c : Char} (h : Above d s t) (hs : (s.step c).strayClose = none) :
    Above d (s.step c) (t.step c) := by
  have hsame := isOutside_congr h.mode c
  -- Within a literal nothing counts parentheses, so only plain steps can go astray.
  cases houtside : s.isOutside c with
  | true =>
      have hs' : (s.stepPlain c).strayClose = none := by
        rw [← stepMode_of_isOutside houtside]
        exact hs
      have hplain := h.stepPlain hs'
      rw [← stepMode_of_isOutside houtside,
        ← stepMode_of_isOutside (hsame.trans houtside)] at hplain
      exact ⟨hplain.1, hplain.2.1, hplain.2.2, rfl⟩
  | false =>
      have hs' := step_of_inside houtside
      have ht' := step_of_inside (hsame.trans houtside)
      refine ⟨mode_step_congr h.mode c, ?_, ht'.2.trans h.stray, rfl⟩
      rw [ht'.1, hs'.1, h.depth]

theorem read {text : List Char} (h : Above d s t) (hs : (s.read text).strayClose = none) :
    Above d (s.read text) (t.read text) := by
  -- No parenthesis is astray behind the whole text, so none is after one step.
  induction text generalizing s t with
  | nil => exact h
  | cons c cs ih => exact ih (h.step (strayClose_of_read hs)) hs

/-- A scan behind an ordinary character stands above the fresh scan. -/
theorem of_settled (ht : Settled d t) (hmode : t.mode = .plain)
    (hlast : t.last.any Keyword.isIdentifierChar = false) : Above d {} t :=
  ⟨hmode, by simp [ht.depth_eq], ht.stray, by simp [hlast]⟩

theorem settled (h : Above d s t) {e : Nat} (hs : Settled e s) : Settled (e + d) t := by
  refine ⟨?_, by rw [h.depth, hs.depth_eq], h.stray, ?_⟩
  · simpa [openQuote?, h.mode] using hs.outside
  · simpa [QuotedRight, h.mode] using hs.right

end Above

/-- A closed text leaves the scan as settled as it was. -/
theorem Settled.read_closed {d : Nat} {t : Scan} (ht : Settled d t) (hmode : t.mode = .plain)
    (hlast : t.last.any Keyword.isIdentifierChar = false) {text : List Char}
    (htext : Closed text) : Settled d (t.read text) := by
  have hs := closed_iff_settled.1 htext
  have h := ((Above.of_settled ht hmode hlast).read hs.stray).settled hs
  rwa [Nat.zero_add] at h

/-! ## The same text behind something astray -/

/-- The scans stand in the same literal and at the same depth, both or none behind a name; what went
astray before them does not matter. -/
structure Beside (s t : Scan) : Prop where
  mode : t.mode = s.mode
  depth : t.depth = s.depth
  bound : t.last.any Keyword.isIdentifierChar = s.last.any Keyword.isIdentifierChar

theorem Above.beside {s t : Scan} (h : Above 0 s t) : Beside s t :=
  ⟨h.mode, h.depth, h.bound⟩

namespace Beside

variable {s t : Scan}

theorem isTopLevel (h : Beside s t) (c : Char) : t.isTopLevel c = s.isTopLevel c := by
  rw [Scan.isTopLevel, h.depth, isOutside_congr h.mode, Scan.isTopLevel]

theorem length? (h : Beside s t) (k : Keyword) (text : List Char) :
    k.length? t.last text = k.length? s.last text := by
  simp only [Keyword.length?, h.bound]

theorem pass (h : Beside s t) (c : Char) : Beside (s.pass c) (t.pass c) :=
  ⟨rfl, h.depth, rfl⟩

theorem step (h : Beside s t) (c : Char) : Beside (s.step c) (t.step c) :=
  ⟨mode_step_congr h.mode c, depth_step_congr h.mode h.depth c, rfl⟩

theorem read (h : Beside s t) (text : List Char) : Beside (s.read text) (t.read text) := by
  induction text generalizing s t with
  | nil => exact h
  | cons c cs ih => exact ih (h.step c)

end Beside

/-! ## Parentheses astray -/

/-- Outside literals and parentheses, whatever closed astray before. -/
structure OnTop (s : Scan) : Prop where
  outside : s.openQuote? = none
  depth : s.depth = 0
  right : s.QuotedRight

theorem Settled.onTop {s : Scan} (hs : Settled 0 s) : OnTop s :=
  ⟨hs.outside, hs.depth_eq, hs.right⟩

theorem Beside.onTop {s t : Scan} (h : Beside s t) (hs : OnTop s) : OnTop t := by
  refine ⟨(openQuote?_congr h.mode).trans hs.outside, h.depth.trans hs.depth, ?_⟩
  have hright := hs.right
  unfold QuotedRight at *
  rwa [h.mode]

namespace OnTop

variable {s : Scan}

theorem step (hs : OnTop s) {c : Char} (hc : isOrdinary c = true) :
    OnTop (s.step c) ∧ (s.step c).mode = .plain := by
  rw [step_of_isOrdinary hc (hs.right.isOutside hs.outside (isQuote_of_isOrdinary hc))]
  exact ⟨⟨rfl, hs.depth, trivial⟩, rfl⟩

theorem read (hs : OnTop s) {text : List Char} (htext : ∀ c ∈ text, isOrdinary c = true) :
    OnTop (s.read text) := by
  induction text generalizing s with
  | nil => exact hs
  | cons c cs ih =>
      exact ih (hs.step (htext c (by simp))).1 fun d hd => htext d (by simp [hd])

theorem read_blanks (hs : OnTop s) {blanks : List Char}
    (hblanks : ∀ c ∈ blanks, Chars.isBlank c = true) : OnTop (s.read blanks) :=
  hs.read fun c hc => isOrdinary_of_isBlank (hblanks c hc)

/-- Behind a blank a text is read as one of its own. -/
theorem beside_of_blanks (hs : OnTop s) {blanks : List Char} (hne : blanks ≠ [])
    (hblanks : ∀ c ∈ blanks, Chars.isBlank c = true) : Beside {} (s.read blanks) := by
  obtain ⟨front, c, rfl⟩ := (List.eq_nil_or_concat blanks).resolve_left hne
  have hc := hblanks c (by simp)
  have hfront : OnTop (s.read front) := hs.read_blanks fun d hd => hblanks d (by simp [hd])
  obtain ⟨hstep, hmode⟩ := hfront.step (isOrdinary_of_isBlank hc)
  rw [List.concat_eq_append, read_append]
  exact ⟨hmode, hstep.depth, last_any_step (Chars.isIdentifierChar_of_isBlank hc) _⟩

end OnTop

/-! ## Conditions on every place of a text -/

/-- Whether `p` holds at every place of a text: of the scan before a character, the character and
the text behind it. -/
def everywhere (p : Scan → Char → List Char → Bool) : Scan → List Char → Bool
  | _, [] => true
  | s, c :: cs => p s c cs && everywhere p (s.step c) cs

/-- A separator that stands in a text on no top level. -/
def lacksSeparator (separator : Char) (text : List Char) : Bool :=
  everywhere (fun s c _ => !(c == separator && s.isTopLevel c)) {} text

/-- Keywords that stand in a text on no top level. -/
def lacksKeywords (words : List Keyword) (text : List Char) : Bool :=
  everywhere (fun s c cs => !(s.isTopLevel c && words.any fun k => (k.length? s.last (c :: cs)).isSome))
    {} text

end Scan
end ContentQuery
