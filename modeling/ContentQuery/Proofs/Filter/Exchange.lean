import ContentQuery.Filter.Basic

/-!
# Filters in JSON and back

A filter that is written as JSON and read again is the same filter.  Each type of its parts is
written so that its reader gives it back, and this passes on to lists, to values that may be missing,
and to records, whose fields are found under the names that the writer uses.
-/

namespace ContentQuery

/-! ## Writers and readers -/

namespace Json

variable {α : Type} {decode : Json → Option α} {encode : α → Json}

/-- What is written is read back. -/
def Restores (decode : Json → Option α) (encode : α → Json) : Prop :=
  ∀ a, decode (encode a) = some a

theorem Restores.list (h : Restores decode encode) :
    Restores (asList? decode) fun as => .array (as.map encode) := by
  intro as
  rw [asList?, List.mapM_map]
  induction as with
  | nil => rfl
  | cons a as ih =>
      rw [List.mapM_cons, Function.comp_apply, h a, ih]
      rfl

/-- Null stands for a value that is missing, so it may stand for no other one. -/
theorem Restores.option (h : Restores decode encode) (hnull : ∀ a, encode a ≠ .null) :
    Restores (asOption? decode) fun o => (o.map encode).getD .null := by
  rintro (_ | a)
  · rfl
  · show asOption? decode (encode a) = some (some a)
    unfold asOption?
    split
    · next hencode => exact absurd hencode (hnull a)
    · rw [h a]
      rfl

theorem Restores.choice {choose : String → Option α} {name : α → String}
    (h : ∀ a, choose (name a) = some a) : Restores (asChoice? choose) fun a => .string (name a) :=
  h

/-! ### Records -/

variable {keys : List String} {names : List (List String)} {members : List (String × Json)}

/-- A member is found as a field if its key alone is a name of the field. -/
theorem field?_of_mem {m : String × Json} (hm : m ∈ members)
    (hone : (members.map Prod.fst).filter (· ∈ keys) = [m.1]) :
    field? keys members = some (some m.2) := by
  have hmap : (members.filter fun m => m.1 ∈ keys).map Prod.fst = [m.1] := by
    rw [← hone, List.filter_map]
    rfl
  have hkey : m.1 ∈ keys := by
    have hmem : m.1 ∈ (members.map Prod.fst).filter (· ∈ keys) := by simp [hone]
    simpa using (List.mem_filter.1 hmem).2
  have hmember : m ∈ members.filter fun m => m.1 ∈ keys := List.mem_filter.2 ⟨hm, by simpa using hkey⟩
  obtain ⟨found, hfound, -⟩ := List.map_eq_singleton_iff.1 hmap
  rw [hfound, List.mem_singleton] at hmember
  rw [field?, hfound, hmember]

theorem mapM_field? {ms : List (String × Json)} {ns : List (List String)}
    (hmem : ∀ m ∈ ms, m ∈ members)
    (hone : ns.map (fun keys => (members.map Prod.fst).filter (· ∈ keys)) =
      ms.map fun m => [m.1]) :
    ns.mapM (fun k => field? k members) = some (ms.map fun m => some m.2) := by
  induction ms generalizing ns with
  | nil =>
      rw [List.map_nil, List.map_eq_nil_iff] at hone
      subst hone
      rfl
  | cons m ms ih =>
      cases ns with
      | nil => cases hone
      | cons n ns =>
          obtain ⟨hm, hms⟩ := List.forall_mem_cons.1 hmem
          obtain ⟨hn, hns⟩ := List.cons.inj hone
          rw [List.mapM_cons, field?_of_mem hm hn, ih hms hns]
          rfl

/-- An object gives its values as the fields of a record if each of its keys is a name of one field,
in their order. -/
theorem fields?_object
    (hone : names.map (fun keys => (members.map Prod.fst).filter (· ∈ keys)) =
      members.map fun m => [m.1]) :
    fields? names (.object members) = some (members.map fun m => some m.2) :=
  mapM_field? (fun _ hm => hm) hone

end Json

open Json (Restores)

/-! ## Conditions -/

theorem Operator.mem_all (op : Operator) : op ∈ all := by
  cases op with
  | comparison c => cases c <;> decide
  | _ => decide

/-- No two operators share a name, and none has a name with capitals or blanks. -/
theorem Operator.restores : Restores Operator.ofJson? Operator.toJson := by
  have hall : ∀ op ∈ all, (ofText op.name).toOption = some op := by decide
  exact fun op => hall op (mem_all op)

theorem ConditionValue.ofJson_toJson (v : ConditionValue) : ofJson v.toJson = v := by
  cases v with
  | single text => rfl
  | list texts =>
      rw [toJson, ofJson, List.map_map]
      exact congrArg list (List.map_id texts)

theorem Condition.restores : Restores Condition.ofJson? Condition.toJson := by
  intro c
  rw [toJson, ofJson?, Json.fields?_object rfl]
  simp only [List.map_cons, List.map_nil, Option.bind_eq_bind, Option.bind_some, Json.decodeOr,
    Json.asBool?, Operator.restores c.operator, ConditionValue.ofJson_toJson]
  rfl

/-! ## Filters -/

theorem LogicalOperator.ofName?_word (op : LogicalOperator) : ofName? op.word = some op := by
  cases op <;> decide

theorem OrderEngine.ofName?_name (engine : OrderEngine) : ofName? engine.name = some engine := by
  cases engine <;> decide

theorem FilterGroup.restores : Restores FilterGroup.ofJson? FilterGroup.toJson := by
  intro g
  have hconditions := Condition.restores.list g.conditions
  have htext : Restores Json.asText? Json.string := fun _ => rfl
  have hlabel := htext.option (by simp) g.label
  rw [toJson, ofJson?, Json.fields?_object rfl]
  simp only [List.map_cons, List.map_nil, Option.bind_eq_bind, Option.bind_some, Json.decodeOr,
    Json.asText?, Json.asBool?, hconditions, hlabel]
  rfl

theorem FilterOrder.restores : Restores FilterOrder.ofJson? FilterOrder.toJson := by
  intro o
  have hengine := (Restores.choice OrderEngine.ofName?_name).option (by simp) o.engine
  rw [toJson, ofJson?, Json.fields?_object rfl]
  simp only [List.map_cons, List.map_nil, Option.bind_eq_bind, Option.bind_some, Json.decodeOr,
    Json.asText?, hengine]
  rfl

/-- A filter survives JSON. -/
theorem Filter.ofJson?_toJson (f : Filter) : ofJson? f.toJson = some f := by
  have hgroups := FilterGroup.restores.list f.groups
  have horders := FilterOrder.restores.list f.orders
  have hoperator := Restores.choice LogicalOperator.ofName?_word f.operator
  rw [toJson, ofJson?, Json.fields?_object rfl]
  simp only [List.map_cons, List.map_nil, Option.bind_eq_bind, Option.bind_some, Json.decodeOr,
    Json.asText?, hgroups, horders, hoperator]
  rfl

end ContentQuery
