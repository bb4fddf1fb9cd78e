import MinMcp.Core.Json.Compare

/-!
# JSON Schema

`valid schema v`: the value validates against the schema, for the keywords `type`
(a name or a list of names), `enum`, `required`, `properties`, `items`, `anyOf`
and `oneOf`, with the `nullable` of OpenAPI 3.0, which adds `null` to the `type`
beside it. The boolean schemas are `true` and `false`. A keyword that is not in this
list, or whose value is not of the shape it must have, asserts nothing.

* `valid_obj`: an object schema is the conjunction of its keywords.
* `valid_of_property`, `present_of_required`, `member_of_enum`, `object_of_type`:
  what a valid value meets, keyword by keyword.
* `properties_ind`: induction from the property schemas to the schema around them.
-/
namespace MinMcp.Core.Json

/-- The type names of JSON Schema; `integer` is a number without fraction, however
it is written. -/
def hasType (v : Json) (name : String) : Bool :=
  match v with
  | .null => name = "null"
  | .bool _ => name = "boolean"
  | .num n => name = "number" || (name = "integer" && n.value.den = 1)
  | .str _ => name = "string"
  | .arr _ => name = "array"
  | .obj _ => name = "object"

def nullable (es : List (String × Json)) : Bool := es.lookup "nullable" == some (.bool true)

def validType (nullable : Bool) (type v : Json) : Bool :=
  match type with
  | .str name => v.hasType name || (nullable && v.isNull)
  | .arr names => names.any (fun n => n.asStr.any fun name => v.hasType name) || (nullable && v.isNull)
  | _ => true

def validEnum (allowed v : Json) : Bool :=
  match allowed with
  | .arr xs => xs.any fun x => x.sameValue v
  | _ => true

def validRequired (names v : Json) : Bool :=
  match names, v with
  | .arr ns, .obj as => ns.all fun n => n.asStr.all fun name => (as.lookup name).isSome
  | _, _ => true

mutual
def valid : (schema : Json) → (v : Json) → Bool
  | .bool b, _ => b
  | .obj es, v => validKeywords (nullable es) es v
  | .null, _ | .num _, _ | .str _, _ | .arr _, _ => true
termination_by structural s => s
def validKeywords (nullable : Bool) : (es : List (String × Json)) → (v : Json) → Bool
  | [], _ => true
  | (k, s) :: es, v =>
    (if k = "type" then validType nullable s v
      else if k = "enum" then validEnum s v
      else if k = "required" then validRequired s v
      else if k = "properties" then validProperties s v
      else if k = "items" then v.asArray.all fun xs => xs.all fun x => valid s x
      else if k = "anyOf" then validSome s v
      else if k = "oneOf" then validOne s v
      else true) && validKeywords nullable es v
termination_by structural es => es
def validProperties : (properties : Json) → (v : Json) → Bool
  | .obj ps, v => validEntries ps v
  | .null, _ | .bool _, _ | .num _, _ | .str _, _ | .arr _, _ => true
termination_by structural s => s
def validEntries : (ps : List (String × Json)) → (v : Json) → Bool
  | [], _ => true
  | (name, s) :: ps, v => ((v.get name).all fun w => valid s w) && validEntries ps v
termination_by structural ps => ps
def validSome : (branches : Json) → (v : Json) → Bool
  | .arr ss, v => 0 < countValid ss v
  | .null, _ | .bool _, _ | .num _, _ | .str _, _ | .obj _, _ => true
termination_by structural s => s
def validOne : (branches : Json) → (v : Json) → Bool
  | .arr ss, v => countValid ss v = 1
  | .null, _ | .bool _, _ | .num _, _ | .str _, _ | .obj _, _ => true
termination_by structural s => s
/-- The number of branches the value validates against. -/
def countValid : (ss : List Json) → (v : Json) → Nat
  | [], _ => 0
  | s :: ss, v => (if valid s v then 1 else 0) + countValid ss v
termination_by structural ss => ss
end

/-- One keyword of an object schema. -/
def validKeyword (nullable : Bool) (k : String) (s v : Json) : Bool :=
  if k = "type" then validType nullable s v
  else if k = "enum" then validEnum s v
  else if k = "required" then validRequired s v
  else if k = "properties" then validProperties s v
  else if k = "items" then v.asArray.all fun xs => xs.all fun x => valid s x
  else if k = "anyOf" then validSome s v
  else if k = "oneOf" then validOne s v
  else true

theorem validKeywords_eq (nullable : Bool) (es : List (String × Json)) (v : Json) :
    validKeywords nullable es v = es.all fun e => validKeyword nullable e.1 e.2 v := by
  induction es with
  | nil => rfl
  | cons e es ih => rw [validKeywords, ih, List.all_cons, validKeyword]

theorem valid_obj (es : List (String × Json)) (v : Json) :
    valid (.obj es) v = es.all fun e => validKeyword (nullable es) e.1 e.2 v := by
  rw [valid, validKeywords_eq]

theorem validEntries_eq (ps : List (String × Json)) (v : Json) :
    validEntries ps v = ps.all fun e => (v.get e.1).all fun w => valid e.2 w := by
  induction ps with
  | nil => rfl
  | cons e ps ih => rw [validEntries, ih, List.all_cons]

/-- A valid value meets every keyword that can be looked up. -/
theorem validKeyword_of_get {s v kv : Json} {k : String} (h : s.valid v = true)
    (hk : s.get k = some kv) : ∃ nullable, validKeyword nullable k kv v = true := by
  cases s with
  | obj es =>
    rw [valid_obj, List.all_eq_true] at h
    exact ⟨nullable es, h (k, kv) (OrderedMap.mem_of_lookup hk)⟩
  | _ => cases hk

theorem valid_of_property {s v w : Json} {ps : List (String × Json)} {e : String × Json}
    (h : s.valid v = true) (hp : s.get "properties" = some (.obj ps)) (he : e ∈ ps)
    (hw : v.get e.1 = some w) : e.2.valid w = true := by
  obtain ⟨n, hk⟩ := validKeyword_of_get h hp
  have hall : validEntries ps v = true := hk
  rw [validEntries_eq, List.all_eq_true] at hall
  simpa [hw] using hall e he

theorem present_of_required {s : Json} {as : List (String × Json)} {ns : List Json} {name : String}
    (h : s.valid (.obj as) = true) (hr : s.get "required" = some (.arr ns))
    (hn : name ∈ ns.filterMap asStr) : ∃ w, as.lookup name = some w := by
  obtain ⟨n, hk⟩ := validKeyword_of_get h hr
  have hall : (ns.all fun n => n.asStr.all fun name => (as.lookup name).isSome) = true := hk
  obtain ⟨x, hx, hs⟩ := List.mem_filterMap.mp hn
  have := List.all_eq_true.mp hall x hx
  rw [hs] at this
  exact Option.isSome_iff_exists.mp this

theorem member_of_enum {s v : Json} {xs : List Json} (h : s.valid v = true)
    (he : s.get "enum" = some (.arr xs)) : ∃ x ∈ xs, x.sameValue v = true := by
  obtain ⟨n, hk⟩ := validKeyword_of_get h he
  exact List.any_eq_true.mp (show (xs.any fun x => x.sameValue v) = true from hk)

/-- Under `"type": "object"` a valid value that is not `null` is an object. -/
theorem object_of_type {s v : Json} (h : s.valid v = true)
    (ht : s.get "type" = some (.str "object")) (hn : v.isNull = false) : ∃ as, v = .obj as := by
  obtain ⟨n, hk⟩ := validKeyword_of_get h ht
  have hty : (v.hasType "object" || (n && v.isNull)) = true := hk
  rw [hn, Bool.and_false, Bool.or_false] at hty
  cases v with
  | obj as => exact ⟨as, rfl⟩
  | _ => simp [hasType] at hty

/-- Induction over the nesting of object schemas. -/
theorem properties_ind {P : Json → Prop}
    (step : ∀ s, (∀ ps, s.get "properties" = some (.obj ps) → ∀ e ∈ ps, P e.2) → P s) (s : Json) :
    P s := by
  -- the property schemas are two levels down, so the hypothesis also carries one level
  have leaf : ∀ {s : Json}, s.asObject = none → P s := by
    intro s hs
    refine step s fun ps hp => ?_
    rw [get, hs] at hp
    cases hp
  suffices h : P s ∧ ∀ ps, s = .obj ps → ∀ e ∈ ps, P e.2 from h.1
  induction s using Json.ind with
  | obj es ih =>
    refine ⟨step _ fun ps hp => ?_, ?_⟩
    · exact (ih _ (OrderedMap.mem_of_lookup hp)).2 ps rfl
    · rintro ps ⟨⟩ e he
      exact (ih e he).1
  | _ => exact ⟨leaf rfl, fun ps hps => by cases hps⟩

end MinMcp.Core.Json
