import ContentQuery.Proofs.Scan.Keywords
import ContentQuery.Proofs.Scan.Tokens

/-!
# Where keywords are found

Looking for keywords passes over those it finds and reads the rest.  The walk that only reads is the
measure for it: tokens start where the walk stops outside literals, at the depth that the walk has
there, with the first keyword of the list that stands there; and wherever the walk stops before a
keyword outside literals, a token starts or is not yet over.
-/

namespace ContentQuery
namespace Scan

open Keyword (StandsAt isIdentifierChar)

variable {words : List Keyword} {s : Scan} {text : List Char}

/-! ## The plain walk -/

/-- The stops of a walk through a text that does nothing but read, from the start on. -/
def walk (text : List Char) : List Stop :=
  ⟨{}, text⟩ :: strides {} text

theorem eq_stop {p : Stop} (hscan : p.scan = s) (hahead : p.ahead = text) : p = ⟨s, text⟩ := by
  subst hscan hahead
  rfl

/-- A walk stops before a character that is neither escaped nor the second one of a doubled
quote. -/
def stopsBefore (s : Scan) (c : Char) : Bool :=
  match s.mode with
  | .escaped _ => false
  | .closing quote => c != quote
  | .plain | .quoted _ => true

theorem strides_cons_cons (s : Scan) (c d : Char) (cs : List Char) :
    strides s (c :: d :: cs) =
      if (s.step c).stopsBefore d then ⟨s.step c, d :: cs⟩ :: strides (s.step c) (d :: cs)
      else strides (s.step c) (d :: cs) := by
  conv => lhs; unfold strides
  unfold stopsBefore
  cases hmode : (s.step c).mode with
  | plain => simp only [hmode, if_true]
  | quoted quote => simp only [hmode, if_true]
  | escaped quote => simp only [hmode, Bool.false_eq_true, if_false]
  | closing quote => by_cases h : d = quote <;> simp [hmode, h]

/-- Two scans end a text alike: in the same literal, at the same depth, with the same stray. -/
structure EndsAlike (s t : Scan) : Prop where
  depth : t.depth = s.depth
  literal : t.openQuote? = s.openQuote?
  stray : t.strayClose = s.strayClose

/-- Behind its last character a walk stops once more. -/
theorem strides_singleton (s : Scan) (c : Char) :
    ∃ last, strides s [c] = [last] ∧ last.ahead = [] ∧ s.position < last.scan.position ∧
      EndsAlike (s.step c) last.scan := by
  unfold strides
  cases hmode : (s.step c).mode with
  | escaped quote =>
      simp only [hmode]
      refine ⟨_, rfl, rfl, ?_, ⟨rfl, ?_, rfl⟩⟩
      · show s.position < s.position + 1 + 1
        omega
      · simp [openQuote?, hmode]
  | plain | quoted _ | closing _ =>
      simp only [hmode]
      exact ⟨_, rfl, rfl, Nat.lt_succ_self _, ⟨rfl, rfl, rfl⟩⟩

/-- What a walk has passed and what is ahead of it make up the text. -/
theorem le_of_mem_strides {p : Stop} (hp : p ∈ strides s text) :
    s.position + text.length ≤ p.scan.position + p.ahead.length := by
  induction text generalizing s with
  | nil => cases hp
  | cons c cs ih =>
      cases cs with
      | nil =>
          obtain ⟨last, hlast, hahead, hposition, -⟩ := strides_singleton s c
          rw [hlast, List.mem_singleton] at hp
          subst hp
          rw [hahead]
          exact hposition
      | cons d ds =>
          -- A stride may leave a stop out, but passes every character.
          have hrest : p ∈ strides (s.step c) (d :: ds) →
              s.position + (c :: d :: ds).length ≤ p.scan.position + p.ahead.length := by
            intro h
            have hle := ih h
            rw [position_step] at hle
            simp only [List.length_cons] at hle ⊢
            omega
          rw [strides_cons_cons] at hp
          split at hp
          · rcases List.mem_cons.1 hp with rfl | hp
            · show s.position + (ds.length + 1 + 1) ≤ s.position + 1 + (ds.length + 1)
              omega
            · exact hrest hp
          · exact hrest hp

theorem le_of_mem_walk {p : Stop} (hp : p ∈ walk text) :
    text.length ≤ p.scan.position + p.ahead.length := by
  rcases List.mem_cons.1 hp with rfl | hp
  · exact Nat.le_add_left _ _
  · exact Nat.le_trans (Nat.le_add_left _ _) (le_of_mem_strides hp)

/-- The stops with text ahead are the places where the walk stops before the next character. -/
theorem mem_strides_iff {p : Stop} {c : Char} {behind : List Char} (hp : p.ahead = c :: behind) :
    p ∈ strides s text ↔
      ∃ before, before ≠ [] ∧ text = before ++ c :: behind ∧ p.scan = s.read before ∧
        p.scan.stopsBefore c = true := by
  induction text generalizing s with
  | nil => simp [strides]
  | cons d ds ih =>
      cases ds with
      | nil =>
          obtain ⟨last, hlast, hahead, -⟩ := strides_singleton s d
          rw [hlast, List.mem_singleton]
          constructor
          · rintro rfl
            rw [hahead] at hp
            cases hp
          · rintro ⟨before, hne, hsplit, -⟩
            have hlength := congrArg List.length hsplit
            have hpos := List.length_pos_iff.2 hne
            simp only [List.length_append, List.length_cons, List.length_nil] at hlength
            omega
      | cons e es =>
          -- The walk stops behind `d`, or it stops later on.
          have hplaces : (∃ before, before ≠ [] ∧ d :: e :: es = before ++ c :: behind ∧
                p.scan = s.read before ∧ p.scan.stopsBefore c = true) ↔
              (p = ⟨s.step d, e :: es⟩ ∧ (s.step d).stopsBefore e = true) ∨
                p ∈ strides (s.step d) (e :: es) := by
            rw [ih]
            constructor
            · rintro ⟨before, hne, hsplit, hscan, hstop⟩
              obtain ⟨b, bs, rfl⟩ := List.exists_cons_of_ne_nil hne
              obtain ⟨rfl, hrest⟩ := List.cons.inj hsplit
              by_cases hbs : bs = []
              · subst hbs
                obtain ⟨rfl, rfl⟩ := List.cons.inj hrest
                rw [hscan] at hstop
                exact .inl ⟨eq_stop hscan hp, hstop⟩
              · exact .inr ⟨bs, hbs, hrest, hscan, hstop⟩
            · rintro (⟨rfl, hstop⟩ | ⟨before, hne, hrest, hscan, hstop⟩)
              · obtain ⟨rfl, rfl⟩ := List.cons.inj hp
                exact ⟨[d], by simp, rfl, rfl, hstop⟩
              · exact ⟨d :: before, by simp, by rw [hrest]; rfl, hscan, hstop⟩
          rw [hplaces, strides_cons_cons]
          split
          · next hstop => simp [hstop]
          · next hstop => simp [hstop]

/-- Where a walk stops outside literals, the next character is read outside literals. -/
theorem isOutside_iff {c : Char} :
    s.isOutside c = true ↔ s.stopsBefore c = true ∧ s.openQuote? = none := by
  rw [isOutside, stopsBefore, openQuote?]
  cases s.mode <;> simp

/-- The stops of a walk outside literals, with text ahead. -/
theorem mem_walk_iff {p : Stop} {c : Char} {behind : List Char} (hp : p.ahead = c :: behind) :
    p ∈ walk text ∧ p.scan.openQuote? = none ↔
      ∃ before, text = before ++ c :: behind ∧ p.scan = ({} : Scan).read before ∧
        p.scan.isOutside c = true := by
  rw [walk, List.mem_cons, mem_strides_iff hp]
  constructor
  · rintro ⟨rfl | ⟨before, -, hsplit, hscan, hstop⟩, hquote⟩
    · exact ⟨[], hp, rfl, rfl⟩
    · exact ⟨before, hsplit, hscan, isOutside_iff.2 ⟨hstop, hquote⟩⟩
  · rintro ⟨before, hsplit, hscan, houtside⟩
    rw [isOutside_iff] at houtside
    refine ⟨?_, houtside.2⟩
    -- The walk starts at the head of the text, and every later stop is a stride.
    by_cases hbefore : before = []
    · subst hbefore
      exact .inl (eq_stop hscan (hp.trans hsplit.symm))
    · exact .inr ⟨before, hbefore, hsplit, hscan, houtside.1⟩

theorem getLast?_strides (c : Char) (cs : List Char) (s : Scan) :
    ∃ last, (strides s (c :: cs)).getLast? = some last ∧ last.ahead = [] ∧
      EndsAlike (s.read (c :: cs)) last.scan := by
  induction cs generalizing c s with
  | nil =>
      obtain ⟨last, hlast, hahead, -, halike⟩ := strides_singleton s c
      exact ⟨last, by rw [hlast]; rfl, hahead, halike⟩
  | cons d ds ih =>
      obtain ⟨last, hlast, hahead, halike⟩ := ih d (s.step c)
      refine ⟨last, ?_, hahead, halike⟩
      rw [strides_cons_cons]
      split
      · rw [List.getLast?_cons, hlast]
        rfl
      · exact hlast

/-- A walk ends where reading ends. -/
theorem getLast?_walk (text : List Char) :
    ∃ last, (walk text).getLast? = some last ∧ last.ahead = [] ∧
      EndsAlike (({} : Scan).read text) last.scan := by
  cases text with
  | nil => exact ⟨⟨{}, []⟩, rfl, rfl, rfl, rfl, rfl⟩
  | cons c cs =>
      obtain ⟨last, hlast, hahead, halike⟩ := getLast?_strides c cs {}
      refine ⟨last, ?_, hahead, halike⟩
      rw [walk, List.getLast?_cons, hlast]
      rfl

/-! ## Tokens in their order -/

/-- Tokens begin behind the characters that are skipped, and each one behind the one before it. -/
theorem pairwise_tokensFrom (hwords : ∀ k ∈ words, k.WellFormed) (text : List Char) :
    ∀ (skip : Nat) (s : Scan),
      (∀ t ∈ (tokensFrom words skip s text).1, s.position + skip ≤ t.start) ∧
        (tokensFrom words skip s text).1.Pairwise fun t u => t.stop ≤ u.start := by
  induction text with
  | nil =>
      intro skip s
      cases skip <;> simp [tokensFrom]
  | cons c cs ih =>
      intro skip s
      cases skip with
      | succ skip =>
          obtain ⟨hstart, hpairwise⟩ := ih skip (s.pass c)
          refine ⟨?_, hpairwise⟩
          intro t ht
          have hle : s.position + 1 + skip ≤ t.start := hstart t ht
          omega
      | zero =>
          cases hfound : keyword? words s c cs with
          | none =>
              rw [tokensFrom_of_none hfound]
              obtain ⟨hstart, hpairwise⟩ := ih 0 (s.step c)
              refine ⟨?_, hpairwise⟩
              intro t ht
              have hle : s.position + 1 + 0 ≤ t.start := hstart t ht
              omega
          | some found =>
              obtain ⟨i, n, -, rfl, -⟩ := exists_of_keyword? hwords hfound
              rw [tokensFrom_of_some hfound]
              obtain ⟨hstart, hpairwise⟩ := ih n (s.pass c)
              -- The tokens behind begin behind the letters of the one that was found.
              have hbehind : ∀ u ∈ (tokensFrom words n (s.pass c) cs).1,
                  s.position + (n + 1) ≤ u.start := by
                intro u hu
                have hle : s.position + 1 + n ≤ u.start := hstart u hu
                omega
              refine ⟨?_, List.pairwise_cons.2 ⟨hbehind, hpairwise⟩⟩
              intro t ht
              rcases List.mem_cons.1 ht with rfl | ht
              · exact Nat.le_refl _
              · have hle := hbehind t ht
                omega

/-- Where a look finds a keyword, a token starts or is not yet over. -/
theorem exists_token_skip (hwords : ∀ k ∈ words, k.WellFormed) (text : List Char) :
    ∀ (skip : Nat) (s : Scan), (skip ≠ 0 → s.mode = .plain) →
      (∀ c ∈ text.take skip, isOrdinary c = true) →
      ∀ before c behind, text = before ++ c :: behind → skip ≤ before.length →
        keyword? words (s.read before) c behind ≠ none →
        ∃ t ∈ (tokensFrom words skip s text).1,
          t.start ≤ s.position + before.length ∧ s.position + before.length < t.stop := by
  induction text with
  | nil =>
      intro skip s _ _ before c behind hsplit
      cases before <;> cases hsplit
  | cons d ds ih =>
      intro skip s hmode hskip before c behind hsplit hle hlook
      cases before with
      | nil =>
          -- The look is at this place.
          obtain ⟨rfl, rfl⟩ := List.cons.inj hsplit
          have hzero : skip = 0 := by simpa using hle
          subst hzero
          rw [read_nil] at hlook
          obtain ⟨found, hfound⟩ := Option.ne_none_iff_exists'.1 hlook
          obtain ⟨i, n, -, rfl, -⟩ := exists_of_keyword? hwords hfound
          rw [tokensFrom_of_some hfound]
          refine ⟨_, List.mem_cons_self, Nat.le_refl _, ?_⟩
          show s.position + 0 < s.position + (n + 1)
          omega
      | cons b bs =>
          obtain ⟨rfl, hrest⟩ := List.cons.inj hsplit
          have hbehind : ∀ skip, (skip ≠ 0 → (s.step d).mode = .plain) →
              (∀ e ∈ ds.take skip, isOrdinary e = true) → skip ≤ bs.length →
              ∃ t ∈ (tokensFrom words skip (s.step d) ds).1,
                t.start ≤ s.position + (d :: bs).length ∧
                  s.position + (d :: bs).length < t.stop := by
            intro skip hmode hskip hle
            obtain ⟨t, ht, hstart, hstop⟩ :=
              ih skip (s.step d) hmode hskip bs c behind hrest hle hlook
            rw [position_step] at hstart hstop
            refine ⟨t, ht, ?_, ?_⟩ <;> rw [List.length_cons] <;> omega
          cases skip with
          | succ skip =>
              have hd : isOrdinary d = true := hskip d (by simp)
              have hplain := hmode (by simp)
              rw [tokensFrom_skip hplain hd]
              exact hbehind skip
                (fun _ => mode_step_of_isOrdinary hd (isOutside_of_plain hplain d))
                (fun e he => hskip e (by simp [he])) (by simpa using hle)
          | zero =>
              cases hfound : keyword? words s d ds with
              | none =>
                  rw [tokensFrom_of_none hfound]
                  exact hbehind 0 (fun h => absurd rfl h) (by simp) (Nat.zero_le _)
              | some found =>
                  obtain ⟨i, n, k, rfl, -, houtside, -, -, hordinary⟩ :=
                    exists_of_keyword? hwords hfound
                  have hd : isOrdinary d = true := hordinary d (by simp)
                  rw [tokensFrom_of_some hfound]
                  -- The place lies within the keyword found here, or it is looked at later.
                  by_cases hwithin : bs.length < n
                  · refine ⟨_, List.mem_cons_self, Nat.le_add_right _ _, ?_⟩
                    show s.position + (bs.length + 1) < s.position + (n + 1)
                    omega
                  · rw [← step_of_isOrdinary hd houtside]
                    obtain ⟨t, ht, hbounds⟩ := hbehind n
                      (fun _ => mode_step_of_isOrdinary hd houtside)
                      (fun e he => hordinary e (by simp [he])) (by omega)
                    exact ⟨t, List.mem_cons_of_mem _ ht, hbounds⟩

/-! ## What is found -/

/-- The tokens `found` are the keywords of the text outside literals, each the first one of the list
that stands at its place. -/
structure Finds (words : List Keyword) (text : List Char) (found : List Token) : Prop where
  /-- The tokens follow one another. -/
  ordered : found.Pairwise fun t u => t.stop ≤ u.start
  nonempty : ∀ t ∈ found, t.start < t.stop
  /-- A token starts where the walk stops outside literals, at the depth of the walk. -/
  outside : ∀ t ∈ found, ∃ p ∈ walk text,
    p.scan.position = t.start ∧ p.scan.openQuote? = none ∧ p.scan.depth = t.depth
  first : ∀ t ∈ found, ∃ k, words[t.index]? = some k ∧ k.StandsAt text t.start t.stop ∧
    ∀ j < t.index, ∀ k', words[j]? = some k' → ∀ stop, ¬k'.StandsAt text t.start stop
  /-- A keyword before which the walk stops outside literals starts a token, unless an earlier
  token is not yet over. -/
  complete : ∀ p ∈ walk text, p.scan.openQuote? = none →
    ∀ k ∈ words, ∀ stop, k.StandsAt text p.scan.position stop →
      ∃ t ∈ found, t.start = p.scan.position ∨
        (t.start < p.scan.position ∧ p.scan.position < t.stop)

theorem last_read (s : Scan) (text : List Char) :
    (s.read text).last = text.getLast?.or s.last := by
  induction text generalizing s with
  | nil => rfl
  | cons c cs ih =>
      rw [read_cons, ih, last_step, List.getLast?_cons]
      cases cs.getLast? <;> rfl

theorem last_read_start (text : List Char) : (({} : Scan).read text).last = text.getLast? := by
  rw [last_read]
  exact Option.or_none

/-- Behind the start of a text, a look finds the keyword that stands there. -/
theorem keyword?_eq_some_iff (hwords : ∀ k ∈ words, k.WellFormed) {before behind : List Char}
    {c : Char} {i n : Nat} :
    keyword? words (({} : Scan).read before) c behind = some (i, n) ↔
      (({} : Scan).read before).isOutside c = true ∧
        ∃ k, words[i]? = some k ∧
          k.StandsAt (before ++ c :: behind) before.length (before.length + n) ∧
          ∀ j < i, ∀ k', words[j]? = some k' →
            ∀ stop, ¬k'.StandsAt (before ++ c :: behind) before.length stop := by
  have hformed : ∀ {k : Keyword} {j : Nat}, words[j]? = some k → k.WellFormed :=
    fun hk => hwords _ (List.mem_of_getElem? hk)
  -- The first keyword that matches is the first one that stands there.
  have hfirst : Keyword.first? words before.getLast? (c :: behind) = some (i, n) ↔
      ∃ k, words[i]? = some k ∧
        k.StandsAt (before ++ c :: behind) before.length (before.length + n) ∧
        ∀ j < i, ∀ k', words[j]? = some k' →
          ∀ stop, ¬k'.StandsAt (before ++ c :: behind) before.length stop := by
    rw [Keyword.first?_eq_some_iff]
    constructor
    · rintro ⟨k, hk, hlength, hothers⟩
      exact ⟨k, hk, (Keyword.length?_eq_some_iff_standsAt (hformed hk)).1 hlength,
        fun j hj k' hk' => (Keyword.length?_eq_none_iff_standsAt (hformed hk')).1
          (hothers j hj k' hk')⟩
    · rintro ⟨k, hk, hstand, hothers⟩
      exact ⟨k, hk, (Keyword.length?_eq_some_iff_standsAt (hformed hk)).2 hstand,
        fun j hj k' hk' => (Keyword.length?_eq_none_iff_standsAt (hformed hk')).2
          (hothers j hj k' hk')⟩
  rw [keyword?, last_read_start]
  split
  · next houtside => simp [houtside, hfirst]
  · next houtside => simp [houtside]

/-- A look finds something where a keyword of the list stands. -/
theorem keyword?_ne_none (hwords : ∀ k ∈ words, k.WellFormed) {before behind : List Char}
    {c : Char} (houtside : (({} : Scan).read before).isOutside c = true) {k : Keyword}
    (hk : k ∈ words) {stop : Nat} (hstand : k.StandsAt (before ++ c :: behind) before.length stop) :
    keyword? words (({} : Scan).read before) c behind ≠ none := by
  obtain ⟨n, hn, -⟩ := (Keyword.standsAt_iff (hwords k hk)).1 hstand
  rw [keyword?, if_pos houtside, last_read_start]
  intro hnone
  have h := Keyword.first?_eq_none_iff.1 hnone k hk
  rw [hn] at h
  cases h

theorem finds_tokens (hwords : ∀ k ∈ words, k.WellFormed) (text : List Char) :
    Finds words text (tokens words text).1 where
  ordered := (pairwise_tokensFrom hwords text 0 {}).2
  nonempty := by
    intro t ht
    obtain ⟨_, _, _, n, _, _, _, hstop, _⟩ := seen_of_mem hwords ht
    omega
  outside := by
    intro t ht
    obtain ⟨before, c, behind, n, hsplit, hlook, hstart, -, hdepth⟩ := seen_of_mem hwords ht
    obtain ⟨houtside, -⟩ := (keyword?_eq_some_iff hwords).1 hlook
    obtain ⟨hmem, hquote⟩ := (mem_walk_iff (p := ⟨({} : Scan).read before, c :: behind⟩) rfl).2
      ⟨before, hsplit, rfl, houtside⟩
    exact ⟨_, hmem, hstart.symm, hquote, hdepth.symm⟩
  first := by
    intro t ht
    obtain ⟨before, c, behind, n, hsplit, hlook, hstart, hstop, -⟩ := seen_of_mem hwords ht
    obtain ⟨-, k, hk, hstand, hothers⟩ := (keyword?_eq_some_iff hwords).1 hlook
    have hlength : t.start = before.length := by
      rw [hstart, position_read]
      exact Nat.zero_add _
    rw [← hsplit, ← hlength, ← hstop] at hstand
    rw [← hsplit, ← hlength] at hothers
    exact ⟨k, hk, hstand, hothers⟩
  complete := by
    intro p hp hquote k hk stop hstand
    -- Where a keyword stands, the walk has text ahead.
    have hahead : p.ahead ≠ [] := by
      have hlt := hstand.lt_length (hwords k hk)
      have hle := le_of_mem_walk hp
      rw [← List.length_pos_iff]
      omega
    obtain ⟨c, cs, hahead⟩ := List.exists_cons_of_ne_nil hahead
    obtain ⟨before, hsplit, hscan, houtside⟩ := (mem_walk_iff hahead).1 ⟨hp, hquote⟩
    have hposition : p.scan.position = before.length := by
      rw [hscan, position_read]
      exact Nat.zero_add _
    rw [hscan] at houtside
    rw [hposition, hsplit] at hstand
    obtain ⟨t, ht, hstart, hstop⟩ := exists_token_skip hwords text 0 {} (fun h => absurd rfl h)
      (by simp) before c cs hsplit (Nat.zero_le _) (keyword?_ne_none hwords houtside hk hstand)
    have hzero : ({} : Scan).position = 0 := rfl
    refine ⟨t, ht, ?_⟩
    omega

/-- Looking for keywords finds exactly those that the plain walk passes outside literals, and ends
where the walk ends. -/
theorem tokens_exact (hwords : ∀ k ∈ words, k ∈ Keyword.all) (text : List Char) :
    Finds words text (tokens words text).1 ∧
      (∀ k ∈ words, ∀ last rest, k.length? last rest ≠ some 0) ∧
      ∃ last, (walk text).getLast? = some last ∧ last.ahead = [] ∧
        EndsAlike (tokens words text).2 last.scan := by
  have hformed : ∀ k ∈ words, k.WellFormed := fun k hk =>
    Keyword.wellFormed_of_mem_all k (hwords k hk)
  refine ⟨finds_tokens hformed text, fun k hk => (hformed k hk).length?_ne_zero, ?_⟩
  rw [tokens, snd_tokensFrom hformed]
  exact getLast?_walk text

/-- The keyword in parentheses is found at its depth, the one in the literal is not. -/
theorem tokens_exact_extract :
    (∀ k ∈ [Keyword.source, Keyword.groupBy], k ∈ Keyword.all) ∧
      Finds [Keyword.source, Keyword.groupBy]
        "EXTRACT(YEAR FROM tstamp) From tt_content group\n  by ' from '".toList
        [⟨0, 13, 17, 1⟩, ⟨0, 26, 30, 0⟩, ⟨1, 42, 52, 0⟩] := by
  have hwords : ∀ k ∈ [Keyword.source, Keyword.groupBy], k ∈ Keyword.all := by decide
  have hfound : (tokens [Keyword.source, Keyword.groupBy]
      "EXTRACT(YEAR FROM tstamp) From tt_content group\n  by ' from '".toList).1 =
        [⟨0, 13, 17, 1⟩, ⟨0, 26, 30, 0⟩, ⟨1, 42, 52, 0⟩] := by decide +kernel
  refine ⟨hwords, ?_⟩
  rw [← hfound]
  exact (tokens_exact hwords _).1

end Scan
end ContentQuery
