import MinMcp.Core.Json.Compare
import MinMcp.Core.Json.ReadWF

/-!
# Pre-flight checks of tool arguments

`preflight_error` and `decode_stringified` of src/surface/preflight.rs: a walk
over the `properties` of an input schema that stops at the first argument that is
missing although required, or outside its `enum`, and the decoding of arguments
that were sent as the JSON text of the object or array they should be.

Both recurse from a schema to its properties, two levels down in the JSON value;
the definitions follow the value (`walkIn` finds the `properties` entry,
`walkProps` runs over it), and `walk_eq` and `decode_eq` give them back in the
shape of the source.
-/
namespace MinMcp.L4.Preflight

open MinMcp.Core

/-- The `required` names of an object schema.
mirrors src/surface/preflight.rs:53-57 -/
def requiredNames (container : Json) : List String :=
  (((container.get "required").bind Json.asArray).map fun a => a.filterMap Json.asStr).getD []

/-- Enum membership: the library's equality, or equal as 64-bit floats.
mirrors src/surface/preflight.rs:121-133 -/
def enumValueMatches (allowed got : Json) : Bool :=
  allowed.eqv got ||
    match allowed.asF64, got.asF64 with
    | some a, some g => a = g
    | _, _ => false

/-- mirrors src/surface/preflight.rs:135-152 -/
def nullAllowed (pschema : Json) : Bool :=
  (pschema.get "nullable").bind Json.asBool == some true ||
  (((pschema.get "type").bind Json.asArray).any fun ts => ts.any fun t => t.asStr == some "null") ||
  (((pschema.get "enum").bind Json.asArray).any fun vs => vs.any Json.isNull)

/-- mirrors src/surface/preflight.rs:5-35 -/
def structuredFieldError (container : Json) (field display reason : String) : Option Json :=
  ((container.get "properties").bind fun ps => ps.get field).map fun prop =>
    let required := ((container.get "required").bind Json.asArray).any
      fun a => a.any fun v => v.asStr == some field
    let allowed := match prop.get "enum" with
      | some e => [("allowed_values", e)]
      | none => []
    let description := match (prop.get "description").bind Json.asStr with
      | some d => [("description", Json.str d)]
      | none => []
    let fix := if (prop.get "enum").isSome then
        "set " ++ display ++ " to one of allowed_values, then retry"
      else "set " ++ display ++ " (see description) in the arguments, then retry"
    .obj ([("error", .str reason), ("field", .str display), ("required", .bool required)] ++
      allowed ++ description ++ [("fix", .str fix)])

/-- The dotted path of a field. -/
def fieldPath (pre name : String) : String := if pre = "" then name else pre ++ "." ++ name

def hasBranches (pschema : Json) : Bool :=
  (pschema.get "anyOf").isSome || (pschema.get "oneOf").isSome

/-- The checks on one property before its nested properties: `some` is the
refusal, `none` goes on.
mirrors src/surface/preflight.rs:62-89 -/
def checkProperty (container args : Json) (pre name : String) (pschema : Json) : Option Json :=
  let missing := structuredFieldError container name (fieldPath pre name) "missing_required_field"
  match args.get name with
  | none => if name ∈ requiredNames container then missing else none
  | some v =>
    if v.isNull then
      if name ∈ requiredNames container ∧ ¬ nullAllowed pschema then missing else none
    else if hasBranches pschema then none
    else match (pschema.get "enum").bind Json.asArray with
      | some en =>
        if en.any fun x => enumValueMatches x v then none
        else structuredFieldError container name (fieldPath pre name) "invalid_enum_value"
      | none => none

/-- The value a property's nested properties are checked against, if the walk
descends.
mirrors src/surface/preflight.rs:73-83,89-93 -/
def descends (args : Json) (name : String) (pschema : Json) : Option Json :=
  match args.get name with
  | none => none
  | some v =>
    if v.isNull ∨ hasBranches pschema ∨ (pschema.get "type").bind Json.asStr ≠ some "object" then none
    else some v

mutual
/-- mirrors src/surface/preflight.rs:51-94 -/
def walk : (container : Json) → (args : Json) → (pre : String) → Option Json
  | .obj es, args, pre => walkIn (.obj es) es args pre
  | .null, _, _ | .bool _, _, _ | .num _, _, _ | .str _, _, _ | .arr _, _, _ => none
termination_by structural c => c
/-- Find the `properties`. -/
def walkIn (container : Json) : (es : List (String × Json)) → Json → String → Option Json
  | [], _, _ => none
  | (k, v) :: es, args, pre =>
    if k = "properties" then walkObject container v args pre else walkIn container es args pre
termination_by structural es => es
def walkObject (container : Json) : (props : Json) → Json → String → Option Json
  | .obj ps, args, pre => walkProps container ps args pre
  | .null, _, _ | .bool _, _, _ | .num _, _, _ | .str _, _, _ | .arr _, _, _ => none
termination_by structural props => props
/-- The loop over the properties. -/
def walkProps (container : Json) : (ps : List (String × Json)) → Json → String → Option Json
  | [], _, _ => none
  | (name, pschema) :: ps, args, pre =>
    match checkProperty container args pre name pschema with
    | some e => some e
    | none =>
      match descends args name pschema with
      | none => walkProps container ps args pre
      | some v =>
        match walk pschema v (fieldPath pre name) with
        | some inner => some inner
        | none => walkProps container ps args pre
termination_by structural ps => ps
end

/-- mirrors src/surface/preflight.rs:43-49 -/
def preflightError (schema args : Json) : Option Json := walk schema args ""

/-- A string for an object- or array-typed property, decoded.
mirrors src/surface/preflight.rs:107-114 -/
def decodeText (declared : Option String) (val : Json) : Json :=
  match val, declared with
  | .str text, some "object" =>
    match JsonReader.read text.toList with
    | some (.obj es) => .obj es
    | _ => val
  | .str text, some "array" =>
    match JsonReader.read text.toList with
    | some (.arr xs) => .arr xs
    | _ => val
  | _, _ => val

mutual
/-- mirrors src/surface/preflight.rs:96-119 -/
def decodeStringified : (schema : Json) → (args : Json) → Json
  | .obj es, args => decodeIn es args
  | .null, args | .bool _, args | .num _, args | .str _, args | .arr _, args => args
termination_by structural s => s
def decodeIn : (es : List (String × Json)) → Json → Json
  | [], args => args
  | (k, v) :: es, args => if k = "properties" then decodeObject v args else decodeIn es args
termination_by structural es => es
def decodeObject : (props : Json) → Json → Json
  | .obj ps, .obj as => .obj (decodeProps ps as)
  | .obj _, args | .null, args | .bool _, args | .num _, args | .str _, args | .arr _, args => args
termination_by structural props => props
def decodeProps : (ps : List (String × Json)) → List (String × Json) → List (String × Json)
  | [], as => as
  | (name, pschema) :: ps, as =>
    match as.lookup name with
    | none => decodeProps ps as
    | some val =>
      let declared := (pschema.get "type").bind Json.asStr
      let val := decodeText declared val
      let val := if declared = some "object" then decodeStringified pschema val else val
      decodeProps ps (OrderedMap.insert name val as)
termination_by structural ps => ps
end

/-! ## The shape of the source -/

theorem walkIn_eq (container : Json) (es : List (String × Json)) (args : Json) (pre : String) :
    walkIn container es args pre =
      match es.lookup "properties" with
      | some (.obj ps) => walkProps container ps args pre
      | _ => none := by
  induction es with
  | nil => rfl
  | cons e es ih =>
    obtain ⟨k, v⟩ := e
    rw [walkIn]
    by_cases hk : k = "properties"
    · subst hk
      rw [if_pos rfl, List.lookup_cons_self]
      cases v <;> rfl
    · rw [if_neg hk, ih, OrderedMap.lookup_cons_of_ne (Ne.symm hk)]

/-- The walk looks up `properties` and runs over them. -/
theorem walk_eq (container args : Json) (pre : String) :
    walk container args pre =
      match (container.get "properties").bind Json.asObject with
      | some ps => walkProps container ps args pre
      | none => none := by
  cases container with
  | obj es =>
    rw [walk, walkIn_eq, Json.get_obj]
    cases es.lookup "properties" with
    | none => rfl
    | some v => cases v <;> rfl
  | _ => rfl

theorem decodeIn_eq (es : List (String × Json)) (args : Json) :
    decodeIn es args =
      match es.lookup "properties" with
      | some props => decodeObject props args
      | none => args := by
  induction es with
  | nil => rfl
  | cons e es ih =>
    obtain ⟨k, v⟩ := e
    rw [decodeIn]
    by_cases hk : k = "properties"
    · subst hk
      rw [if_pos rfl, List.lookup_cons_self]
    · rw [if_neg hk, ih, OrderedMap.lookup_cons_of_ne (Ne.symm hk)]

/-- Decoding looks up `properties` and runs over them. -/
theorem decode_eq (schema args : Json) :
    decodeStringified schema args =
      match (schema.get "properties").bind Json.asObject, args with
      | some ps, .obj as => .obj (decodeProps ps as)
      | _, args => args := by
  cases schema with
  | obj es =>
    rw [decodeStringified, decodeIn_eq, Json.get_obj]
    cases es.lookup "properties" with
    | none => rfl
    | some v => cases v <;> cases args <;> rfl
  | _ => rfl

theorem wf_decodeText {declared : Option String} {val : Json} (h : val.WF) :
    (decodeText declared val).WF := by
  unfold decodeText
  split
  · split
    · next hr => exact JsonReader.wf_read hr
    · exact h
  · split
    · next hr => exact JsonReader.wf_read hr
    · exact h
  · exact h

/-- A relation between arguments and decoded arguments: it holds of a decoded text, and what
holds of a field holds of its object. -/
structure Decoding (R : Json → Json → Prop) : Prop where
  refl : ∀ v, R v v
  trans : ∀ {u v w}, R u v → R v w → R u w
  text : ∀ declared v, R v (decodeText declared v)
  field : ∀ {as : List (String × Json)} {name : String} {v w : Json}, as.lookup name = some v →
    R v w → R (.obj as) (.obj (OrderedMap.insert name w as))

section Decoding

variable {R : Json → Json → Prop}

mutual
theorem Decoding.args (h : Decoding R) : ∀ schema args : Json, R args (decodeStringified schema args)
  | .obj es, args => by rw [decodeStringified]; exact h.entries es args
  | .null, args | .bool _, args | .num _, args | .str _, args | .arr _, args => h.refl args
termination_by structural schema => schema
theorem Decoding.entries (h : Decoding R) : ∀ (es : List (String × Json)) (args : Json), R args (decodeIn es args)
  | [], args => h.refl args
  | (k, v) :: es, args => by
    rw [decodeIn]
    split
    · exact h.object v args
    · exact h.entries es args
termination_by structural es => es
theorem Decoding.object (h : Decoding R) : ∀ props args : Json, R args (decodeObject props args)
  | .obj ps, .obj as => by rw [decodeObject]; exact h.props ps as
  | .obj _, .null | .obj _, .bool _ | .obj _, .num _ | .obj _, .str _ | .obj _, .arr _
  | .null, _ | .bool _, _ | .num _, _ | .str _, _ | .arr _, _ => h.refl _
termination_by structural props => props
theorem Decoding.props (h : Decoding R) : ∀ ps as : List (String × Json), R (.obj as) (.obj (decodeProps ps as))
  | [], as => h.refl _
  | (name, pschema) :: ps, as => by
    rw [decodeProps]
    split
    · exact h.props ps as
    · next val hval =>
      refine h.trans (h.field hval ?_) (h.props ps _)
      split
      · exact h.trans (h.text _ val) (h.args pschema _)
      · exact h.text _ val
termination_by structural ps => ps
end

end Decoding

theorem decoding_wf : Decoding fun v w => v.WF → w.WF where
  refl _ h := h
  trans h h' hu := h' (h hu)
  text _ _ h := wf_decodeText h
  field hl h has := OrderedMap.wf_insert (h (Json.wf_field has hl)) has

theorem wf_decodeStringified (schema : Json) {args : Json} (h : args.WF) :
    (decodeStringified schema args).WF := decoding_wf.args schema args h

end MinMcp.L4.Preflight
