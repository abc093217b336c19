import ContentQuery.OrderedMap

/-!
# Lookup in ordered maps

Lookup after each of the operations, the entries that a change of one value leaves, and the keys of
a map that was filled step by step.
-/

namespace ContentQuery
namespace OrderedMap

variable {α β γ : Type}

/-! ## Entry lists -/

section Entries

variable [DecidableEq α]

theorem lookup_cons_of_ne {a b : α} {v : β} {es : List (α × β)} (h : a ≠ b) :
    ((b, v) :: es).lookup a = es.lookup a := by
  have hab : (a == b) = false := by simpa using h
  rw [List.lookup_cons, hab]

theorem mem_of_lookup {k : α} {v : β} {es : List (α × β)} (h : es.lookup k = some v) :
    (k, v) ∈ es := by
  induction es with
  | nil => simp at h
  | cons e es ih =>
      rcases e with ⟨a, b⟩
      by_cases hk : k = a
      · subst hk
        rw [List.lookup_cons_self, Option.some.injEq] at h
        simp [h]
      · rw [lookup_cons_of_ne hk] at h
        exact List.mem_cons_of_mem _ (ih h)

theorem lookup_eq_none_iff_not_mem {k : α} {es : List (α × β)} :
    es.lookup k = none ↔ k ∉ es.map Prod.fst := by
  induction es with
  | nil => simp
  | cons e es ih =>
      rcases e with ⟨a, b⟩
      by_cases hk : k = a
      · simp [hk]
      · simp [lookup_cons_of_ne hk, ih, hk]

theorem lookup_of_mem {k : α} {v : β} {es : List (α × β)} (hnodup : (es.map Prod.fst).Nodup)
    (h : (k, v) ∈ es) : es.lookup k = some v := by
  induction es with
  | nil => simp at h
  | cons e es ih =>
      rcases e with ⟨a, b⟩
      rw [List.map_cons, List.nodup_cons] at hnodup
      rcases List.mem_cons.1 h with hhead | htail
      · cases hhead
        exact List.lookup_cons_self
      · have hk : k ≠ a := by
          rintro rfl
          exact hnodup.1 (List.mem_map.2 ⟨(k, v), htail, rfl⟩)
        rw [lookup_cons_of_ne hk]
        exact ih hnodup.2 htail

theorem lookup_upsertEntries (k a : α) (f : Option β → β) (es : List (α × β)) :
    (upsertEntries k f es).lookup a = if a = k then some (f (es.lookup k)) else es.lookup a := by
  induction es with
  | nil =>
      by_cases h : a = k
      · simp [upsertEntries, h]
      · simp [upsertEntries, lookup_cons_of_ne h, h]
  | cons e es ih =>
      rcases e with ⟨b, v⟩
      by_cases hb : b = k
      · subst hb
        by_cases ha : a = b
        · simp [upsertEntries, ha]
        · simp [upsertEntries, lookup_cons_of_ne ha, ha]
      · have hkb : k ≠ b := fun h => hb h.symm
        by_cases ha : a = b
        · simp [upsertEntries, hb, ha]
        · simp [upsertEntries, hb, lookup_cons_of_ne ha, lookup_cons_of_ne hkb, ih]

theorem upsertEntries_of_not_mem {k : α} {f : Option β → β} {es : List (α × β)}
    (h : k ∉ es.map Prod.fst) : upsertEntries k f es = es ++ [(k, f none)] := by
  induction es with
  | nil => rfl
  | cons e es ih =>
      rcases e with ⟨b, v⟩
      rw [List.map_cons, List.mem_cons, not_or] at h
      have hb : b ≠ k := fun hb => h.1 hb.symm
      simp [upsertEntries, hb, ih h.2]

theorem map_changed_of_not_mem {k : α} {f : β → β} {es : List (α × β)}
    (h : k ∉ es.map Prod.fst) : es.map (fun e => (e.1, if e.1 = k then f e.2 else e.2)) = es := by
  induction es with
  | nil => rfl
  | cons e es ih =>
      rw [List.map_cons, List.mem_cons, not_or] at h
      have he : e.1 ≠ k := fun he => h.1 he.symm
      rw [List.map_cons, ih h.2, if_neg he]

/-- A change at a key that occurs at most once touches its entry only. -/
theorem upsertEntries_of_mem {k : α} {f : Option β → β} {es : List (α × β)}
    (hnodup : (es.map Prod.fst).Nodup) (h : k ∈ es.map Prod.fst) :
    upsertEntries k f es = es.map fun e => (e.1, if e.1 = k then f (some e.2) else e.2) := by
  induction es with
  | nil => simp at h
  | cons e es ih =>
      rcases e with ⟨b, v⟩
      rw [List.map_cons, List.nodup_cons] at hnodup
      by_cases hb : b = k
      · -- Behind its entry the key does not occur again.
        subst hb
        have hrest := map_changed_of_not_mem (f := fun v => f (some v)) hnodup.1
        simp [upsertEntries, hrest]
      · have hk : k ∈ es.map Prod.fst := by
          rcases List.mem_cons.1 h with h | h
          · exact absurd h.symm hb
          · exact h
        simp [upsertEntries, hb, ih hnodup.2 hk]

end Entries

/-- A list read off the elements where only one of them contributes. -/
theorem flatMap_of_nodup {κ : Type} {key : α → κ} {xs : List α} {f : α → List γ}
    (hnodup : (xs.map key).Nodup) {x : α} (hx : x ∈ xs)
    (hf : ∀ y ∈ xs, key y ≠ key x → f y = []) : xs.flatMap f = f x := by
  induction xs with
  | nil => simp at hx
  | cons y ys ih =>
      rw [List.map_cons, List.nodup_cons] at hnodup
      rw [List.flatMap_cons]
      -- No other element has the key of `x`.
      rcases List.mem_cons.1 hx with rfl | hx
      · have hrest : ys.flatMap f = [] := by
          rw [List.flatMap_eq_nil_iff]
          intro z hz
          refine hf z (by simp [hz]) ?_
          intro hkey
          exact hnodup.1 (List.mem_map.2 ⟨z, hz, hkey⟩)
        rw [hrest, List.append_nil]
      · have hy : f y = [] := by
          refine hf y (by simp) ?_
          intro hkey
          exact hnodup.1 (List.mem_map.2 ⟨x, hx, hkey.symm⟩)
        rw [hy, List.nil_append]
        exact ih hnodup.2 hx fun z hz => hf z (by simp [hz])

/-! ## Entries and keys -/

@[simp] theorem entries_empty : (∅ : OrderedMap α β).entries = [] :=
  rfl

@[simp] theorem keys_empty : (∅ : OrderedMap α β).keys = [] :=
  rfl

theorem eq_of_entries {m n : OrderedMap α β} (h : m.entries = n.entries) : m = n := by
  cases m
  cases n
  cases h
  rfl

theorem mem_keys_of_mem {m : OrderedMap α β} {k : α} {v : β} (h : (k, v) ∈ m.entries) :
    k ∈ m.keys :=
  List.mem_map.2 ⟨(k, v), h, rfl⟩

theorem exists_of_mem_keys {m : OrderedMap α β} {k : α} (h : k ∈ m.keys) :
    ∃ v, (k, v) ∈ m.entries := by
  rcases List.mem_map.1 h with ⟨⟨a, v⟩, he, rfl⟩
  exact ⟨v, he⟩

/-! ## Lookup -/

section Access

variable [DecidableEq α]

@[simp] theorem get?_empty (k : α) : (∅ : OrderedMap α β).get? k = none :=
  rfl

theorem get?_eq_some_iff {m : OrderedMap α β} {k : α} {v : β} :
    m.get? k = some v ↔ (k, v) ∈ m.entries :=
  ⟨mem_of_lookup, lookup_of_mem m.nodup⟩

theorem get?_eq_none_iff {m : OrderedMap α β} {k : α} : m.get? k = none ↔ k ∉ m.keys :=
  lookup_eq_none_iff_not_mem

theorem contains_iff {m : OrderedMap α β} {k : α} : m.contains k = true ↔ k ∈ m.keys := by
  rw [contains, Option.isSome_iff_ne_none, ne_eq, get?_eq_none_iff, Decidable.not_not]

theorem get?_upsert (m : OrderedMap α β) (k a : α) (f : Option β → β) :
    (m.upsert k f).get? a = if a = k then some (f (m.get? k)) else m.get? a :=
  lookup_upsertEntries k a f m.entries

theorem get?_insert (m : OrderedMap α β) (k a : α) (v : β) :
    (m.insert k v).get? a = if a = k then some v else m.get? a :=
  get?_upsert m k a fun _ => v

/-- A value that is there may be inserted again. -/
theorem insert_of_get? {m : OrderedMap α β} {k : α} {v : β} (h : m.get? k = some v) :
    m.insert k v = m := by
  have hkey : k ∈ m.keys := mem_keys_of_mem (get?_eq_some_iff.1 h)
  have hsame : ∀ e ∈ m.entries, (e.1, if e.1 = k then v else e.2) = id e := by
    rintro ⟨a, w⟩ he
    by_cases ha : a = k
    · subst ha
      have hvalue : some w = some v := (get?_eq_some_iff.2 he).symm.trans h
      rw [if_pos rfl, Option.some.inj hvalue]
      rfl
    · rw [if_neg ha]
      rfl
  apply eq_of_entries
  calc (m.insert k v).entries
      = m.entries.map fun e => (e.1, if e.1 = k then v else e.2) :=
        upsertEntries_of_mem m.nodup hkey
    _ = m.entries.map id := List.map_congr_left hsame
    _ = m.entries := List.map_id _

/-- A list read off the entries where only one key contributes. -/
theorem flatMap_entries {m : OrderedMap α β} {k : α} {f : α × β → List γ}
    (hf : ∀ e ∈ m.entries, e.1 ≠ k → f e = []) :
    m.entries.flatMap f = ((m.get? k).map fun v => f (k, v)).getD [] := by
  cases hget : m.get? k with
  | none =>
      rw [Option.map_none, Option.getD_none, List.flatMap_eq_nil_iff]
      intro e he
      refine hf e he ?_
      rintro rfl
      exact get?_eq_none_iff.1 hget (mem_keys_of_mem he)
  | some v =>
      exact flatMap_of_nodup m.nodup (x := (k, v)) (get?_eq_some_iff.1 hget) hf

/-! ## Filled maps -/

theorem keys_insert (m : OrderedMap α β) (k : α) (v : β) :
    (m.insert k v).keys = if k ∈ m.keys then m.keys else m.keys ++ [k] :=
  keys_upsert m k fun _ => v

theorem mem_keys_upsert {m : OrderedMap α β} {k a : α} {f : Option β → β} :
    a ∈ (m.upsert k f).keys ↔ a ∈ m.keys ∨ a = k := by
  rw [keys_upsert]
  split
  · next hk =>
      constructor
      · exact .inl
      · rintro (h | rfl)
        · exact h
        · exact hk
  · simp

/-- Entries that a change leaves are those from before and the one under the key. -/
theorem mem_entries_upsert {m : OrderedMap α β} {k : α} {f : Option β → β} {e : α × β}
    (h : e ∈ (m.upsert k f).entries) : e ∈ m.entries ∨ e = (k, f (m.get? k)) := by
  rw [← get?_eq_some_iff, get?_upsert] at h
  split at h
  · next hk => exact .inr (Prod.ext hk (Option.some.inj h).symm)
  · exact .inl (get?_eq_some_iff.1 h)

theorem mem_entries_insert {m : OrderedMap α β} {k : α} {v : β} {e : α × β}
    (h : e ∈ (m.insert k v).entries) : e ∈ m.entries ∨ e = (k, v) :=
  mem_entries_upsert h

/-- A new key goes to the end. -/
theorem entries_insert_of_not_mem {m : OrderedMap α β} {k : α} {v : β} (h : k ∉ m.keys) :
    (m.insert k v).entries = m.entries ++ [(k, v)] :=
  upsertEntries_of_not_mem h

/-- New keys come in their order behind those that are there. -/
theorem entries_foldl_insert {es : List (α × β)} :
    ∀ {m : OrderedMap α β}, (m.keys ++ es.map Prod.fst).Nodup →
      (es.foldl (fun m e => m.insert e.1 e.2) m).entries = m.entries ++ es := by
  induction es with
  | nil => simp
  | cons e es ih =>
      intro m hnodup
      -- The key is new, so its entry goes to the end and the rest stays new behind it.
      have hnew : e.1 ∉ m.keys := by
        intro hmem
        exact (List.nodup_append.1 hnodup).2.2 e.1 hmem e.1 (by simp) rfl
      have hentries := entries_insert_of_not_mem (v := e.2) hnew
      have hkeys : (m.insert e.1 e.2).keys = m.keys ++ [e.1] := by
        rw [keys_insert, if_neg hnew]
      rw [List.foldl_cons, ih (by simpa [hkeys] using hnodup), hentries]
      simp

theorem mem_keys_foldl_insert {es : List (α × β)} {m : OrderedMap α β} {k : α} :
    k ∈ (es.foldl (fun m e => m.insert e.1 e.2) m).keys ↔ k ∈ m.keys ∨ k ∈ es.map Prod.fst := by
  induction es generalizing m with
  | nil => simp
  | cons e es ih =>
      rw [List.foldl_cons, ih, insert, mem_keys_upsert, List.map_cons, List.mem_cons, or_assoc]

theorem mem_keys_ofList {es : List (α × β)} {k : α} :
    k ∈ (ofList es).keys ↔ k ∈ es.map Prod.fst := by
  rw [ofList, mem_keys_foldl_insert]
  simp [empty, keys]

/-- The entries of a filled map are among the pairs that were inserted. -/
theorem mem_of_mem_ofList {es : List (α × β)} {e : α × β} (h : e ∈ (ofList es).entries) :
    e ∈ es := by
  have hfold : ∀ (es : List (α × β)) (m : OrderedMap α β),
      e ∈ (es.foldl (fun m e => m.insert e.1 e.2) m).entries → e ∈ m.entries ∨ e ∈ es := by
    intro es
    induction es with
    | nil => exact fun _ h => .inl h
    | cons e' es ih =>
        intro m h
        rcases ih _ h with h | h
        · rcases mem_entries_insert h with h | rfl
          · exact .inl h
          · exact .inr (by simp)
        · exact .inr (by simp [h])
  rcases hfold es empty h with h | h
  · cases h
  · exact h

theorem get?_foldl_insert (es : List (α × β)) (m : OrderedMap α β) (k : α) :
    (es.foldl (fun m e => m.insert e.1 e.2) m).get? k = ((ofList es).get? k).or (m.get? k) := by
  induction es generalizing m with
  | nil => rfl
  | cons e es ih =>
      have hfirst : (ofList (e :: es)).get? k =
          ((ofList es).get? k).or ((insert empty e.1 e.2).get? k) := ih _
      have hempty : (empty : OrderedMap α β).get? k = none := rfl
      rw [List.foldl_cons, ih, hfirst, get?_insert, get?_insert, hempty, Option.or_assoc]
      split <;> rfl

/-- A later pair wins the value. -/
theorem get?_ofList_append (xs ys : List (α × β)) (k : α) :
    (ofList (xs ++ ys)).get? k = ((ofList ys).get? k).or ((ofList xs).get? k) := by
  rw [ofList, List.foldl_append, get?_foldl_insert]
  rfl

/-- The last pair with a key gives its value. -/
theorem get?_ofList_eq_some_iff {es : List (α × β)} {k : α} {v : β} :
    (ofList es).get? k = some v ↔
      ∃ before after, es = before ++ (k, v) :: after ∧ k ∉ after.map Prod.fst := by
  have hone : ∀ e : α × β, (ofList [e]).get? k = if k = e.1 then some e.2 else none :=
    fun e => get?_insert empty e.1 k e.2
  have hbehind : ∀ after : List (α × β), (ofList after).get? k = none ↔ k ∉ after.map Prod.fst :=
    fun after => get?_eq_none_iff.trans (not_congr mem_keys_ofList)
  constructor
  · intro h
    induction es with
    | nil => cases h
    | cons e es ih =>
        rw [← List.singleton_append, get?_ofList_append] at h
        cases hrest : (ofList es).get? k with
        | some w =>
            -- The key comes again, so the first pair does not count.
            rw [hrest, Option.some_or] at h
            rcases ih (hrest.trans h) with ⟨before, after, rfl, hlast⟩
            exact ⟨e :: before, after, rfl, hlast⟩
        | none =>
            rw [hrest, Option.none_or, hone] at h
            split at h
            · next hk =>
                refine ⟨[], es, ?_, (hbehind es).1 hrest⟩
                rw [hk, ← Option.some.inj h]
                rfl
            · cases h
  · rintro ⟨before, after, rfl, hlast⟩
    rw [← List.singleton_append, get?_ofList_append, get?_ofList_append, (hbehind after).2 hlast,
      hone]
    simp

/-- Every pair of a list is kept exactly where no key is repeated. -/
theorem entries_ofList_iff {es : List (α × β)} :
    (ofList es).entries = es ↔ (es.map Prod.fst).Nodup := by
  constructor
  · intro h
    have hnodup := (ofList es).nodup
    rwa [h] at hnodup
  · exact fun h => entries_foldl_insert (m := empty) (by simpa [keys, empty] using h)

/-- A map is rebuilt from its entries. -/
theorem foldl_insert_entries (m : OrderedMap α β) :
    m.entries.foldl (fun m e => m.insert e.1 e.2) ∅ = m := by
  have hnodup : ((∅ : OrderedMap α β).keys ++ m.entries.map Prod.fst).Nodup := by
    simpa using m.nodup
  exact eq_of_entries (entries_foldl_insert hnodup)

/-! ## Changed values -/

/-- The sum of a size over the values. -/
def total (m : OrderedMap α β) (size : β → Nat) : Nat :=
  m.values.foldr (fun v sum => size v + sum) 0

/-- A change that adds one to a size, from none on, adds one to the sum of the sizes. -/
theorem total_upsert {k : α} {f : Option β → β} {size : β → Nat} (hnew : size (f none) = 1)
    (hold : ∀ v, size (f (some v)) = size v + 1) (m : OrderedMap α β) :
    (m.upsert k f).total size = m.total size + 1 := by
  have hentries : ∀ es : List (α × β),
      ((upsertEntries k f es).map Prod.snd).foldr (fun v sum => size v + sum) 0 =
        (es.map Prod.snd).foldr (fun v sum => size v + sum) 0 + 1 := by
    intro es
    induction es with
    | nil => simp [upsertEntries, hnew]
    | cons e es ih =>
        rcases e with ⟨a, v⟩
        by_cases ha : a = k
        · simp only [upsertEntries, if_pos ha, List.map_cons, List.foldr_cons, hold]
          omega
        · simp only [upsertEntries, if_neg ha, List.map_cons, List.foldr_cons, ih]
          omega
  exact hentries m.entries

/-- A change of one value leaves the other entries and the order. -/
theorem entries_modify (m : OrderedMap α β) (k : α) (f : β → β) :
    (m.modify k f).entries = m.entries.map fun e => (e.1, if e.1 = k then f e.2 else e.2) := by
  rw [modify]
  split
  · next v hv =>
      have hmem := get?_eq_some_iff.1 hv
      have hentries := upsertEntries_of_mem (f := fun _ => f v) m.nodup (mem_keys_of_mem hmem)
      refine hentries.trans (List.map_congr_left fun e he => ?_)
      -- The entry under the key holds the value that was found.
      by_cases hk : e.1 = k
      · have he' : m.get? e.1 = some e.2 := get?_eq_some_iff.2 he
        rw [hk, hv, Option.some.injEq] at he'
        simp [hk, he']
      · simp [hk]
  · next hnone => exact (map_changed_of_not_mem (get?_eq_none_iff.1 hnone)).symm

@[simp] theorem keys_modify (m : OrderedMap α β) (k : α) (f : β → β) :
    (m.modify k f).keys = m.keys := by
  simp [keys, entries_modify]

theorem get?_modify (m : OrderedMap α β) (k a : α) (f : β → β) :
    (m.modify k f).get? a = if a = k then (m.get? a).map f else m.get? a := by
  rw [modify]
  split
  · next v hv =>
      rw [get?_insert]
      by_cases ha : a = k
      · subst ha
        simp [hv]
      · rw [if_neg ha, if_neg ha]
  · next hnone =>
      by_cases ha : a = k
      · subst ha
        simp [hnone]
      · rw [if_neg ha]

/-- Sets values one after the other; a key that is not there is left out. -/
def assignAll (m : OrderedMap α β) (writes : List (α × β)) : OrderedMap α β :=
  writes.foldl (fun m w => m.modify w.1 fun _ => w.2) m

theorem assignAll_append (m : OrderedMap α β) (ws vs : List (α × β)) :
    m.assignAll (ws ++ vs) = (m.assignAll ws).assignAll vs :=
  List.foldl_append

/-- The last value that was set counts. -/
theorem get?_assignAll (m : OrderedMap α β) (writes : List (α × β)) (k : α) :
    (m.assignAll writes).get? k = (m.get? k).map fun v => (writes.reverse.lookup k).getD v := by
  induction writes generalizing m with
  | nil => simp [assignAll]
  | cons w ws ih =>
      have hfirst := ih (m.modify w.1 fun _ => w.2)
      rw [assignAll, List.foldl_cons, ← assignAll, hfirst, get?_modify, List.reverse_cons,
        List.lookup_append]
      by_cases hk : k = w.1
      · rw [if_pos hk, Option.map_map, hk, List.lookup_cons_self]
        refine Option.map_congr fun v _ => ?_
        cases ws.reverse.lookup w.1 <;> rfl
      · rw [if_neg hk, lookup_cons_of_ne hk, List.lookup_nil, Option.or_none]

theorem lookup_reverse_eq_none {es : List (α × β)} {k : α} (h : k ∉ es.map Prod.fst) :
    es.reverse.lookup k = none := by
  rw [lookup_eq_none_iff_not_mem, List.map_reverse, List.mem_reverse]
  exact h

theorem get?_assignAll_last {m : OrderedMap α β} {k : α} (hk : k ∈ m.keys) (v : β)
    (before : List (α × β)) {later : List (α × β)} (hlater : k ∉ later.map Prod.fst) :
    (m.assignAll (before ++ (k, v) :: later)).get? k = some v := by
  rcases exists_of_mem_keys hk with ⟨old, hold⟩
  rw [get?_assignAll, get?_eq_some_iff.2 hold, Option.map_some, List.reverse_append,
    List.reverse_cons, List.lookup_append, List.lookup_append, lookup_reverse_eq_none hlater,
    List.lookup_cons_self]
  rfl

/-- Values set under other keys do not matter. -/
theorem get?_assignAll_skip (m : OrderedMap α β) {k : α} {own : List (α × β)}
    (hown : k ∉ own.map Prod.fst) (before later : List (α × β)) :
    (m.assignAll (before ++ (own ++ later))).get? k = (m.assignAll (before ++ later)).get? k := by
  simp only [get?_assignAll, List.reverse_append, List.lookup_append, lookup_reverse_eq_none hown,
    Option.or_none]

end Access

end OrderedMap
end ContentQuery
