/-!
# Maps that keep the order of insertion

An `OrderedMap` is a list of key-value pairs with distinct keys.  A new key goes to the end; a key
that is there already keeps its place and gets the new value.  The distinctness is part of the
type, so every operation proves that it keeps it.
-/

namespace ContentQuery

structure OrderedMap (α β : Type) where
  entries : List (α × β)
  nodup : (entries.map Prod.fst).Nodup
deriving DecidableEq, Repr

namespace OrderedMap

variable {α β γ : Type}

/-! ## Entry lists -/

/-- Replaces the value at `k` by what `f` makes of it; a missing key is added at the end. -/
def upsertEntries [DecidableEq α] (k : α) (f : Option β → β) : List (α × β) → List (α × β)
  | [] => [(k, f none)]
  | (a, b) :: rest =>
      if a = k then (a, f (some b)) :: rest else (a, b) :: upsertEntries k f rest

theorem keys_upsertEntries [DecidableEq α] (k : α) (f : Option β → β) (es : List (α × β)) :
    (upsertEntries k f es).map Prod.fst =
      if k ∈ es.map Prod.fst then es.map Prod.fst else es.map Prod.fst ++ [k] := by
  induction es with
  | nil => simp [upsertEntries]
  | cons e es ih =>
      obtain ⟨a, b⟩ := e
      by_cases hak : a = k
      · simp [upsertEntries, hak]
      · have hka : ¬ k = a := fun h => hak h.symm
        simp only [upsertEntries, if_neg hak, List.map_cons, ih, List.mem_cons, hka, false_or]
        split <;> simp

theorem nodup_upsertEntries [DecidableEq α] (k : α) (f : Option β → β) {es : List (α × β)}
    (h : (es.map Prod.fst).Nodup) : ((upsertEntries k f es).map Prod.fst).Nodup := by
  rw [keys_upsertEntries]
  split
  · exact h
  · next hk =>
      rw [List.nodup_append]
      refine ⟨h, by simp, ?_⟩
      intro a ha b hb hab
      rw [List.mem_singleton] at hb
      exact hk (by rw [← hb, ← hab]; exact ha)

/-! ## Maps -/

def empty : OrderedMap α β :=
  ⟨[], List.nodup_nil⟩

instance : EmptyCollection (OrderedMap α β) :=
  ⟨empty⟩

instance : Inhabited (OrderedMap α β) :=
  ⟨empty⟩

def keys (m : OrderedMap α β) : List α :=
  m.entries.map Prod.fst

def values (m : OrderedMap α β) : List β :=
  m.entries.map Prod.snd

def isEmpty (m : OrderedMap α β) : Bool :=
  m.entries.isEmpty

section Access

variable [DecidableEq α]

def get? (m : OrderedMap α β) (k : α) : Option β :=
  m.entries.lookup k

def contains (m : OrderedMap α β) (k : α) : Bool :=
  (m.get? k).isSome

/-- Sets the value at `k` to what `f` makes of the present one, if any. -/
def upsert (m : OrderedMap α β) (k : α) (f : Option β → β) : OrderedMap α β :=
  ⟨upsertEntries k f m.entries, nodup_upsertEntries k f m.nodup⟩

def insert (m : OrderedMap α β) (k : α) (v : β) : OrderedMap α β :=
  m.upsert k fun _ => v

/-- Changes the value at `k`; a map without `k` stays as it is. -/
def modify (m : OrderedMap α β) (k : α) (f : β → β) : OrderedMap α β :=
  match m.get? k with
  | some v => m.insert k (f v)
  | none => m

/-- The first value stays where `k` is present; otherwise `v` is added. -/
def insertNew (m : OrderedMap α β) (k : α) (v : β) : OrderedMap α β :=
  m.upsert k fun old => old.getD v

/-- Collects pairs from left to right; a later pair wins the value, the first keeps the place. -/
def ofList (pairs : List (α × β)) : OrderedMap α β :=
  pairs.foldl (fun m p => m.insert p.1 p.2) empty

end Access

/-- Changes every value and keeps the keys. -/
def mapValues (m : OrderedMap α β) (f : α → β → γ) : OrderedMap α γ :=
  ⟨m.entries.map fun e => (e.1, f e.1 e.2), by
    rw [List.map_map]
    exact m.nodup⟩

@[simp] theorem keys_mapValues (m : OrderedMap α β) (f : α → β → γ) :
    (m.mapValues f).keys = m.keys := by
  simp [keys, mapValues]

theorem keys_upsert [DecidableEq α] (m : OrderedMap α β) (k : α) (f : Option β → β) :
    (m.upsert k f).keys = if k ∈ m.keys then m.keys else m.keys ++ [k] :=
  keys_upsertEntries k f m.entries

end OrderedMap
end ContentQuery
