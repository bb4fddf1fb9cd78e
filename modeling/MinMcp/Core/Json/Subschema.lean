import MinMcp.Core.Json.Places

/-!
# The schemas in a schema

A JSON schema holds schemas under three kinds of keywords: in a map of names, alone, and in a
list. A step leads to one of them; the keywords of a step are those that hold schemas, so that a
path of steps never leads through an example or a default.

* `subschema_append`: a path after another.
-/
namespace MinMcp.Core.Subschema

/-- Keywords that hold schemas by name. -/
inductive MapKeyword where
  | properties | patternProperties | definitions | defs | dependentSchemas
  deriving DecidableEq

/-- Keywords that hold one schema. -/
inductive SingleKeyword where
  | items | additionalProperties | not | additionalItems | contains | propertyNames
  | unevaluatedItems | unevaluatedProperties | condition | consequent | alternative
  deriving DecidableEq

/-- Keywords that hold schemas in a list. -/
inductive ListKeyword where
  | anyOf | oneOf | allOf | prefixItems | items
  deriving DecidableEq

def MapKeyword.text : MapKeyword → String
  | .properties => "properties"
  | .patternProperties => "patternProperties"
  | .definitions => "definitions"
  | .defs => "$defs"
  | .dependentSchemas => "dependentSchemas"

def SingleKeyword.text : SingleKeyword → String
  | .items => "items"
  | .additionalProperties => "additionalProperties"
  | .not => "not"
  | .additionalItems => "additionalItems"
  | .contains => "contains"
  | .propertyNames => "propertyNames"
  | .unevaluatedItems => "unevaluatedItems"
  | .unevaluatedProperties => "unevaluatedProperties"
  | .condition => "if"
  | .consequent => "then"
  | .alternative => "else"

def ListKeyword.text : ListKeyword → String
  | .anyOf => "anyOf"
  | .oneOf => "oneOf"
  | .allOf => "allOf"
  | .prefixItems => "prefixItems"
  | .items => "items"

inductive Step where
  | member (kw : MapKeyword) (name : String)
  | single (kw : SingleKeyword)
  | element (kw : ListKeyword) (i : Nat)
  deriving DecidableEq

/-- The step to a property. -/
abbrev Step.property (name : String) : Step := .member .properties name

def Step.places : Step → List Json.Place
  | .member kw name => [.key kw.text, .key name]
  | .single kw => [.key kw.text]
  | .element kw i => [.key kw.text, .index i]

/-- What stands there; a schema, where the document is one. -/
def subschema (v : Json) : List Step → Option Json
  | [] => some v
  | s :: p => (v.locate s.places).bind fun c => subschema c p

/-- The names on the way. -/
def hops (p : List Step) : Nat := p.countP fun s => match s with
  | .member .properties _ => true
  | _ => false

def places (p : List Step) : List Json.Place := p.flatMap Step.places

variable {v : Json} {s : Step} {p : List Step}

theorem subschema_cons (v : Json) (s : Step) (p : List Step) :
    subschema v (s :: p) = (v.locate s.places).bind fun c => subschema c p := rfl

theorem locate_append_bind (v : Json) (ps qs : List Json.Place) :
    v.locate (ps ++ qs) = (v.locate ps).bind fun c => c.locate qs := by
  cases h : v.locate ps with
  | some c => rw [Json.locate_append h, Option.bind_some]
  | none =>
    rw [Option.bind_none]
    induction ps generalizing v with
    | nil => cases h
    | cons p ps ih =>
      show ((v.child p).bind fun c => c.locate (ps ++ qs)) = none
      have h : ((v.child p).bind fun c => c.locate ps) = none := h
      cases hc : v.child p with
      | none => rfl
      | some c =>
        rw [hc, Option.bind_some] at h
        exact ih c h

theorem subschema_eq (v : Json) (p : List Step) : subschema v p = v.locate (places p) := by
  induction p generalizing v with
  | nil => rfl
  | cons s p ih =>
    rw [subschema_cons, places, List.flatMap_cons, locate_append_bind]
    simp only [ih]
    rfl

theorem subschema_append (v : Json) (p q : List Step) :
    subschema v (p ++ q) = (subschema v p).bind fun c => subschema c q := by
  simp only [subschema_eq]
  rw [places, List.flatMap_append, locate_append_bind]
  rfl

theorem hops_cons_property (name : String) (p : List Step) : hops (.property name :: p) = hops p + 1 :=
  List.countP_cons_of_pos rfl

theorem hops_append (p q : List Step) : hops (p ++ q) = hops p + hops q := List.countP_append

theorem wf_subschema {c : Json} (h : v.WF) (hc : subschema v p = some c) : c.WF := by
  rw [subschema_eq] at hc
  exact Json.wf_locate h hc

end MinMcp.Core.Subschema
