import MinMcp.Core.Text.Lines
import MinMcp.Core.Text.Segments
import MinMcp.L4App.Vet

/-!
# The linter

`minmcp lint` reads a tool's name, description and schema and names the rules they break
(src/lint.rs). `lowercase` is the standard library's `to_lowercase`.

* `Reaches`, `mem_nodes`: the object schemas at every depth of a schema.
* `walk_eq`: the pass over a schema counts each of them, and each of its properties, once.
* `lint_sublist`: a tool is charged with a rule once at most.
* `charged_lint`: which schemas are charged with what; and the rules that are about poisoning are
  those of `Vet.poisoning`, which is asked before a tool is served.
-/
namespace MinMcp.L4.Lint

open MinMcp.Core MinMcp.Core.Text MinMcp.L4.Catalogs MinMcp.L4.Vet

/-- mirrors src/lint.rs:28-40 -/
def rules : List (String × String) :=
  [("no_description", "Purpose: no description at all — agents can't tell what the tool does"),
    ("thin_description", "Purpose/Length: description only restates the signature (no behaviour)"),
    ("confusable_descriptions",
      "Ambiguity: shares a summary AND HTTP method with another tool — the agent can't disambiguate"),
    ("params_undescribed", "Parameter Explanation: majority of parameters carry no description"),
    ("untyped_param", "Parameter Explanation: a parameter declares no type/schema (opaque blob)"),
    ("mutating_no_required", "Schema safety: a write/delete op with no required parameters"),
    ("many_required", "Schema fillability: >8 required parameters — hard to call correctly"),
    ("deep_schema", "Schema fillability: nests deeper than 6 levels — hard for an agent to fill"),
    ("hidden_text", "Poisoning: description carries invisible characters (zero-width, or a bidi override)"),
    ("model_directed_instruction", "Poisoning: description instructs the MODEL rather than describing the tool"),
    ("secret_solicitation",
      "Poisoning: description names a local credential file (~/.ssh/id_rsa, .env) a remote tool cannot need")]

def ids : List String := rules.map Prod.fst

/-! ## Descriptions -/

def trim (cs : List Char) : List Char := ((cs.dropWhile isWhitespace).reverse.dropWhile isWhitespace).reverse

def splitWhitespace (cs : List Char) : List (List Char) := (cs.splitOnP isWhitespace).filter fun w => !w.isEmpty

/-- What stands behind the last dash, or everything.
mirrors src/lint.rs:197-200 -/
def humanDesc (description : List Char) : List Char :=
  let d := trim description
  if '—' ∈ d then trim (d.reverse.takeWhile (· ≠ '—')).reverse else d

def httpMethods : List String := ["GET", "POST", "PUT", "PATCH", "DELETE", "HEAD", "OPTIONS"]

/-- mirrors src/lint.rs:213-224 -/
def httpMethod (origin : String) : Option String :=
  httpMethods.find? fun m => m.toList = ((splitWhitespace origin.toList).head?.getD []).map Char.toUpper

/-- mirrors src/lint.rs:206-208 -/
def isMutating (origin : String) : Bool :=
  match httpMethod origin with
  | some m => m ∈ ["POST", "PUT", "PATCH", "DELETE"]
  | none => false

/-- mirrors src/lint.rs:229-233 -/
def confusableKey (lowercase : List Char → List Char) (description : String) : Option (List Char) :=
  let key := [' '].intercalate (splitWhitespace (lowercase (humanDesc description.toList)))
  if 12 ≤ key.length then some key else none

/-! ## Schemas -/

/-- mirrors src/lint.rs:235-242 -/
structure Walk where
  paramTotal : Nat
  paramUndescribed : Nat
  untyped : Bool
  maxRequired : Nat
  maxDepth : Nat
  deriving DecidableEq

def Walk.empty : Walk := ⟨0, 0, false, 0, 0⟩

/-- mirrors src/lint.rs:281-286 -/
def isOpaque (p : Json) : Bool :=
  match p.asObject with
  | some o =>
    !(["type", "properties", "items", "enum", "$ref", "$circular", "$omitted", "allOf", "oneOf"].any fun k =>
        (o.lookup k).isSome) && (p.get "anyOf").isNone
  | none => false

def described (p : Json) : Bool :=
  match (p.get "description").bind Json.asStr with
  | some d => !(trim d.toList).isEmpty
  | none => false

/-- mirrors src/lint.rs:259-270 -/
def Walk.param (w : Walk) (p : Json) : Walk :=
  { w with
    paramTotal := w.paramTotal + 1
    paramUndescribed := if described p then w.paramUndescribed else w.paramUndescribed + 1
    untyped := w.untyped || isOpaque p }

/-- mirrors src/lint.rs:250-255 -/
def Walk.enter (w : Walk) (depth : Nat) (es : List (String × Json)) : Walk :=
  { w with
    maxDepth := max w.maxDepth depth
    maxRequired := match (es.lookup "required").bind Json.asArray with
      | some req => max w.maxRequired req.length
      | none => w.maxRequired }

def properties (es : List (String × Json)) : List (String × Json) :=
  ((es.lookup "properties").bind Json.asObject).getD []

theorem sizeOf_lookup {es : List (String × Json)} {k : String} {v : Json} (h : es.lookup k = some v) :
    sizeOf v < sizeOf es := by
  have hm := List.sizeOf_lt_of_mem (OrderedMap.mem_of_lookup h)
  have : sizeOf (k, v) = 1 + sizeOf k + sizeOf v := rfl
  omega

theorem sizeOf_properties (es : List (String × Json)) : sizeOf (properties es) < 1 + sizeOf es := by
  have hpos : 0 < sizeOf es := by cases es <;> simp +arith
  have hnil : sizeOf ([] : List (String × Json)) < 1 + sizeOf es := by
    simp only [List.nil.sizeOf_spec]
    omega
  unfold properties
  cases hp : es.lookup "properties" with
  | none => exact hnil
  | some v =>
    have := sizeOf_lookup hp
    cases v with
    | obj ps =>
      simp only [Json.obj.sizeOf_spec] at this
      simp only [Option.bind_some, Json.asObject, Option.getD_some]
      omega
    | _ => exact hnil

mutual

/-- mirrors src/lint.rs:248-277 -/
def walk (schema : Json) (depth : Nat) (w : Walk) : Walk :=
  match schema with
  | .obj es =>
    let w := walkProperties (properties es) depth (w.enter depth es)
    match h : es.lookup "items" with
    | some items => walk items (depth + 1) w
    | none => w
  | _ => w
termination_by sizeOf schema
decreasing_by
  · have := sizeOf_properties es
    simp only [Json.obj.sizeOf_spec]
    omega
  · have := sizeOf_lookup h
    simp only [Json.obj.sizeOf_spec]
    omega

def walkProperties (ps : List (String × Json)) (depth : Nat) (w : Walk) : Walk :=
  match ps with
  | [] => w
  | (_, p) :: ps => walkProperties ps depth (walk p (depth + 1) (w.param p))
termination_by sizeOf ps

end

/-! ## A tool -/

def note (on : Bool) (rule : String) : List String := if on then [rule] else []

/-- mirrors src/lint.rs:159-168 -/
def ofDescription (description : List Char) : List String :=
  if (trim description).isEmpty then ["no_description"]
  else note ((splitWhitespace (humanDesc description)).length < 2) "thin_description"

/-- mirrors src/lint.rs:153-192 -/
def lint (lowercase : List Char → List Char) (name description : String) (schema : Json) (mutating : Bool) :
    List String :=
  let w := walk schema 0 .empty
  poisoning lowercase name description ++
    ofDescription description.toList ++
    note (0 < w.paramTotal && w.paramTotal < w.paramUndescribed * 2) "params_undescribed" ++
    note w.untyped "untyped_param" ++
    note (mutating && 0 < w.paramTotal && w.maxRequired = 0) "mutating_no_required" ++
    note (8 < w.maxRequired) "many_required" ++
    note (6 < w.maxDepth) "deep_schema"

/-! ## What the walk counts -/

/-- An object schema at a depth below another: one of its properties is a level down, as are its
items. -/
inductive Reaches : Json → Nat → List (String × Json) → Prop where
  | here {es : List (String × Json)} : Reaches (.obj es) 0 es
  | property {es n : List (String × Json)} {e : String × Json} {d : Nat} (he : e ∈ properties es)
    (h : Reaches e.2 d n) : Reaches (.obj es) (d + 1) n
  | items {es n : List (String × Json)} {items : Json} {d : Nat} (hi : es.lookup "items" = some items)
    (h : Reaches items d n) : Reaches (.obj es) (d + 1) n

mutual

/-- All of them, each once. -/
def nodes (depth : Nat) (schema : Json) : List (Nat × List (String × Json)) :=
  match schema with
  | .obj es =>
    (depth, es) :: (nodesOf depth (properties es) ++
      match h : es.lookup "items" with
      | some items => nodes (depth + 1) items
      | none => [])
  | _ => []
termination_by sizeOf schema
decreasing_by
  · have := sizeOf_properties es
    simp only [Json.obj.sizeOf_spec]
    omega
  · have := sizeOf_lookup h
    simp only [Json.obj.sizeOf_spec]
    omega

def nodesOf (depth : Nat) (ps : List (String × Json)) : List (Nat × List (String × Json)) :=
  match ps with
  | [] => []
  | (_, p) :: ps => nodes (depth + 1) p ++ nodesOf depth ps
termination_by sizeOf ps

end

def required (es : List (String × Json)) : List Json := ((es.lookup "required").bind Json.asArray).getD []

/-- The properties of these objects. -/
def fields (ns : List (Nat × List (String × Json))) : List Json :=
  ns.flatMap fun n => (properties n.2).map Prod.snd

/-- An object and its properties are counted. -/
def Walk.tally (w : Walk) (n : Nat × List (String × Json)) : Walk :=
  (properties n.2).foldl (fun w e => w.param e.2) (w.enter n.1 n.2)

theorem Walk.param_comm (w : Walk) (p q : Json) : (w.param p).param q = (w.param q).param p := by
  simp only [Walk.param, Walk.mk.injEq, true_and, and_true]
  refine ⟨?_, by rw [Bool.or_assoc, Bool.or_comm (isOpaque p), ← Bool.or_assoc]⟩
  split <;> split <;> rfl

theorem Walk.param_foldl (ps : List (String × Json)) (w : Walk) (p : Json) :
    ps.foldl (fun w e => w.param e.2) (w.param p) = (ps.foldl (fun w e => w.param e.2) w).param p := by
  induction ps generalizing w with
  | nil => rfl
  | cons e ps ih => rw [List.foldl_cons, List.foldl_cons, Walk.param_comm, ih]

theorem Walk.tally_param (w : Walk) (p : Json) (n : Nat × List (String × Json)) :
    (w.param p).tally n = (w.tally n).param p := Walk.param_foldl (properties n.2) (w.enter n.1 n.2) p

theorem Walk.tallies_param (ns : List (Nat × List (String × Json))) (w : Walk) (p : Json) :
    ns.foldl Walk.tally (w.param p) = (ns.foldl Walk.tally w).param p := by
  induction ns generalizing w with
  | nil => rfl
  | cons n ns ih => rw [List.foldl_cons, List.foldl_cons, Walk.tally_param, ih]

theorem Walk.tallies_params (ns : List (Nat × List (String × Json))) (ps : List (String × Json)) (w : Walk) :
    ns.foldl Walk.tally (ps.foldl (fun w e => w.param e.2) w) =
      ps.foldl (fun w e => w.param e.2) (ns.foldl Walk.tally w) := by
  induction ps generalizing w with
  | nil => rfl
  | cons e ps ih => rw [List.foldl_cons, ih, Walk.tallies_param, List.foldl_cons]

/-- Induction over the objects of a schema. -/
theorem schema_ind {P : Json → Prop}
    (obj : ∀ es, (∀ e ∈ properties es, P e.2) → (∀ i, es.lookup "items" = some i → P i) → P (.obj es))
    (other : ∀ s, s.asObject = none → P s) (s : Json) : P s := by
  induction hn : sizeOf s using Nat.strong_induction_on generalizing s with
  | _ n ih =>
    cases s with
    | obj es =>
      simp only [Json.obj.sizeOf_spec] at hn
      refine obj es (fun e he => ?_) fun i hi => ?_
      · have hsize := List.sizeOf_lt_of_mem he
        have hps := sizeOf_properties es
        have : sizeOf e = 1 + sizeOf e.1 + sizeOf e.2 := rfl
        exact ih _ (by omega) e.2 rfl
      · have hsize := sizeOf_lookup hi
        exact ih _ (by omega) i rfl
    | _ => exact other _ rfl

theorem walk_other {s : Json} (h : s.asObject = none) (depth : Nat) (w : Walk) : walk s depth w = w := by
  cases s with
  | obj es => cases h
  | _ => rw [walk]; simp

theorem nodes_other {s : Json} (h : s.asObject = none) (depth : Nat) : nodes depth s = [] := by
  cases s with
  | obj es => cases h
  | _ => rw [nodes]; simp

/-- The pass counts every object of the schema once, whatever the order it comes to them in. -/
theorem walk_eq (schema : Json) (depth : Nat) (w : Walk) :
    walk schema depth w = (nodes depth schema).foldl Walk.tally w := by
  induction schema using schema_ind generalizing depth w with
  | obj es hps hitems =>
    have hprops : ∀ (ps : List (String × Json)), (∀ e ∈ ps, e ∈ properties es) → ∀ w,
        walkProperties ps depth w =
          (nodesOf depth ps).foldl Walk.tally (ps.foldl (fun w e => w.param e.2) w) := by
      intro ps
      induction ps with
      | nil =>
        intro _ w
        rw [walkProperties, nodesOf]
        rfl
      | cons e ps ih =>
        intro hsub w
        rw [walkProperties, nodesOf, ih (fun x hx => hsub x (List.mem_cons_of_mem e hx)), List.foldl_append,
          hps e (hsub e List.mem_cons_self), ← Walk.tallies_params]
        rfl
    rw [walk, nodes, hprops _ (fun _ h => h), List.foldl_cons, List.foldl_append]
    split
    · rename_i items hi
      rw [hitems items hi]
      rfl
    · rfl
  | other s hs =>
    rw [walk_other hs, nodes_other hs]
    rfl

/-- The pass comes to all objects there are. -/
theorem mem_nodes {schema : Json} {depth d : Nat} {n : List (String × Json)} :
    (d, n) ∈ nodes depth schema ↔ ∃ i, d = depth + i ∧ Reaches schema i n := by
  induction schema using schema_ind generalizing depth d with
  | obj es hps hitems =>
    have hprops : ∀ (ps : List (String × Json)), (∀ e ∈ ps, e ∈ properties es) →
        ((d, n) ∈ nodesOf depth ps ↔ ∃ e ∈ ps, ∃ i, d = depth + 1 + i ∧ Reaches e.2 i n) := by
      intro ps
      induction ps with
      | nil =>
        intro _
        simp [nodesOf]
      | cons e ps ih =>
        intro hsub
        rw [nodesOf, List.mem_append, hps e (hsub e List.mem_cons_self),
          ih (fun x hx => hsub x (List.mem_cons_of_mem e hx)), List.exists_mem_cons_iff]
    have hit : (d, n) ∈ (match _h : es.lookup "items" with
        | some items => nodes (depth + 1) items
        | none => []) ↔ ∃ items, es.lookup "items" = some items ∧ ∃ i, d = depth + 1 + i ∧ Reaches items i n := by
      split
      · rename_i items hi
        rw [hitems items hi]
        simp [hi]
      · rename_i hi
        simp [hi]
    rw [nodes, List.mem_cons, List.mem_append, hprops _ (fun _ h => h), hit]
    constructor
    · rintro (he | ⟨e, he, i, hd, hr⟩ | ⟨items, hi, i, hd, hr⟩)
      · obtain ⟨rfl, rfl⟩ := Prod.mk.inj he
        exact ⟨0, rfl, .here⟩
      · exact ⟨i + 1, by omega, .property he hr⟩
      · exact ⟨i + 1, by omega, .items hi hr⟩
    · rintro ⟨i, hd, hr⟩
      cases hr with
      | here => exact Or.inl (by rw [hd]; rfl)
      | property he hr => exact Or.inr (Or.inl ⟨_, he, _, by omega, hr⟩)
      | items hi hr => exact Or.inr (Or.inr ⟨_, hi, _, by omega, hr⟩)
  | other s hs =>
    rw [nodes_other hs]
    refine ⟨fun h => absurd h List.not_mem_nil, ?_⟩
    rintro ⟨i, -, hr⟩
    cases hr <;> cases hs

/-! ## What the counts are -/

theorem lt_foldl_max {xs : List Nat} {k m : Nat} : k < xs.foldl max m ↔ k < m ∨ ∃ x ∈ xs, k < x := by
  induction xs generalizing m with
  | nil => simp
  | cons x xs ih =>
    have hmax : k < max m x ↔ k < m ∨ k < x := by omega
    rw [List.foldl_cons, ih, List.exists_mem_cons_iff, hmax, or_assoc]

theorem enter_eq (w : Walk) (depth : Nat) (es : List (String × Json)) :
    w.enter depth es =
      { w with maxDepth := max w.maxDepth depth, maxRequired := max w.maxRequired (required es).length } := by
  unfold Walk.enter required
  cases (es.lookup "required").bind Json.asArray <;> simp

theorem params_eq (ps : List (String × Json)) (w : Walk) :
    ps.foldl (fun w e => w.param e.2) w =
      { w with
        paramTotal := w.paramTotal + ps.length
        paramUndescribed := w.paramUndescribed + (ps.map Prod.snd).countP fun p => !described p
        untyped := w.untyped || (ps.map Prod.snd).any isOpaque } := by
  induction ps generalizing w with
  | nil => simp
  | cons e ps ih =>
    rw [List.foldl_cons, ih]
    cases hd : described e.2 <;> simp [Walk.param, hd, Bool.or_assoc] <;> omega

theorem tallies_eq (ns : List (Nat × List (String × Json))) (w : Walk) :
    ns.foldl Walk.tally w =
      { paramTotal := w.paramTotal + (fields ns).length
        paramUndescribed := w.paramUndescribed + (fields ns).countP fun p => !described p
        untyped := w.untyped || (fields ns).any isOpaque
        maxRequired := (ns.map fun n => (required n.2).length).foldl max w.maxRequired
        maxDepth := (ns.map Prod.fst).foldl max w.maxDepth } := by
  induction ns generalizing w with
  | nil => simp [fields]
  | cons n ns ih =>
    rw [List.foldl_cons, ih, Walk.tally, params_eq, enter_eq]
    simp [fields, Bool.or_assoc, Nat.add_assoc]

theorem mem_fields {schema p : Json} :
    p ∈ fields (nodes 0 schema) ↔ ∃ d n, Reaches schema d n ∧ ∃ e ∈ properties n, e.2 = p := by
  simp only [fields, List.mem_flatMap, List.mem_map]
  constructor
  · rintro ⟨⟨d, n⟩, hn, he⟩
    obtain ⟨i, -, hr⟩ := mem_nodes.mp hn
    exact ⟨i, n, hr, he⟩
  · rintro ⟨d, n, hr, he⟩
    exact ⟨(d, n), mem_nodes.mpr ⟨d, by omega, hr⟩, he⟩

theorem lt_maxDepth {schema : Json} {k : Nat} :
    k < (walk schema 0 .empty).maxDepth ↔ ∃ d n, Reaches schema d n ∧ k < d := by
  rw [walk_eq, tallies_eq, lt_foldl_max]
  simp only [Walk.empty, Nat.not_lt_zero, false_or, List.mem_map, exists_exists_and_eq_and]
  constructor
  · rintro ⟨⟨d, n⟩, hn, hk⟩
    obtain ⟨i, rfl, hr⟩ := mem_nodes.mp hn
    exact ⟨i, n, hr, by simpa using hk⟩
  · rintro ⟨d, n, hr, hk⟩
    exact ⟨(d, n), mem_nodes.mpr ⟨d, by omega, hr⟩, hk⟩

theorem lt_maxRequired {schema : Json} {k : Nat} :
    k < (walk schema 0 .empty).maxRequired ↔ ∃ d n, Reaches schema d n ∧ k < (required n).length := by
  rw [walk_eq, tallies_eq, lt_foldl_max]
  simp only [Walk.empty, Nat.not_lt_zero, false_or, List.mem_map, exists_exists_and_eq_and]
  constructor
  · rintro ⟨⟨d, n⟩, hn, hk⟩
    obtain ⟨i, -, hr⟩ := mem_nodes.mp hn
    exact ⟨i, n, hr, hk⟩
  · rintro ⟨d, n, hr, hk⟩
    exact ⟨(d, n), mem_nodes.mpr ⟨d, by omega, hr⟩, hk⟩

/-! ## What a tool is charged with -/

theorem mem_note {on : Bool} {rule r : String} : r ∈ note on rule ↔ on = true ∧ r = rule := by
  cases on <;> simp [note]

theorem note_sublist (on : Bool) (rule : String) : (note on rule).Sublist [rule] := by
  cases on
  · exact List.nil_sublist _
  · exact List.Sublist.refl _

def poisonRules : List String := ["hidden_text", "model_directed_instruction", "secret_solicitation"]

theorem poisoning_sublist (lowercase : List Char → List Char) (name description : String) :
    (poisoning lowercase name description).Sublist poisonRules := by
  exact ((note_sublist _ "hidden_text").append (note_sublist _ "model_directed_instruction")).append
    (note_sublist _ "secret_solicitation")

theorem ofDescription_sublist (description : List Char) :
    (ofDescription description).Sublist ["no_description", "thin_description"] := by
  unfold ofDescription
  split
  · exact (List.nil_sublist _).cons_cons _
  · exact (note_sublist _ _).cons _

section Tool

variable {lowercase : List Char → List Char} {name description : String} {schema : Json} {mutating : Bool}

theorem lint_sublist : (lint lowercase name description schema mutating).Sublist
    (poisonRules ++ ["no_description", "thin_description", "params_undescribed", "untyped_param",
      "mutating_no_required", "many_required", "deep_schema"]) := by
  exact (((((poisoning_sublist _ _ _).append (ofDescription_sublist _)).append (note_sublist _ _)).append
    (note_sublist _ _)).append (note_sublist _ _)).append (note_sublist _ _) |>.append (note_sublist _ _)

/-- What the schema of a tool is charged with, and what its text is. -/
structure Charged (lowercase : List Char → List Char) (t : ToolDef) (schema : Json) (mutating : Bool)
    (fired : List String) : Prop where
  poisoned : ∀ r ∈ poisonRules, r ∈ fired ↔ r ∈ poisoning lowercase t.name t.description
  undescribed : "params_undescribed" ∈ fired ↔
    (fields (nodes 0 schema)).length < 2 * (fields (nodes 0 schema)).countP fun p => !described p
  untyped : "untyped_param" ∈ fired ↔
    ∃ d n, Reaches schema d n ∧ ∃ e ∈ properties n, isOpaque e.2 = true
  mutating : "mutating_no_required" ∈ fired ↔ mutating = true ∧
    (∃ d n, Reaches schema d n ∧ properties n ≠ []) ∧ ∀ d n, Reaches schema d n → required n = []
  many : "many_required" ∈ fired ↔ ∃ d n, Reaches schema d n ∧ 8 < (required n).length
  deep : "deep_schema" ∈ fired ↔ ∃ d n, Reaches schema d n ∧ 6 < d

theorem mem_lint {r : String} : r ∈ lint lowercase name description schema mutating ↔
    r ∈ poisoning lowercase name description ∨
      r ∈ ofDescription description.toList ∨
      ((fields (nodes 0 schema)).length < 2 * ((fields (nodes 0 schema)).countP fun p => !described p) ∧
        r = "params_undescribed") ∨
      ((∃ d n, Reaches schema d n ∧ ∃ e ∈ properties n, isOpaque e.2 = true) ∧ r = "untyped_param") ∨
      ((mutating = true ∧ (∃ d n, Reaches schema d n ∧ properties n ≠ []) ∧
          ∀ d n, Reaches schema d n → required n = []) ∧ r = "mutating_no_required") ∨
      ((∃ d n, Reaches schema d n ∧ 8 < (required n).length) ∧ r = "many_required") ∨
      (∃ d n, Reaches schema d n ∧ 6 < d) ∧ r = "deep_schema" := by
  have hw := (walk_eq schema 0 .empty).trans (tallies_eq _ _)
  have htotal : (walk schema 0 .empty).paramTotal = (fields (nodes 0 schema)).length := by
    rw [hw]
    exact Nat.zero_add _
  have hundescribed : (walk schema 0 .empty).paramUndescribed =
      (fields (nodes 0 schema)).countP fun p => !described p := by
    rw [hw]
    exact Nat.zero_add _
  have huntyped : (walk schema 0 .empty).untyped = true ↔
      ∃ d n, Reaches schema d n ∧ ∃ e ∈ properties n, isOpaque e.2 = true := by
    rw [hw]
    simp only [Walk.empty, Bool.false_or, List.any_eq_true, mem_fields]
    constructor
    · rintro ⟨p, ⟨d, n, hr, e, he, rfl⟩, hp⟩
      exact ⟨d, n, hr, e, he, hp⟩
    · rintro ⟨d, n, hr, e, he, hp⟩
      exact ⟨e.2, ⟨d, n, hr, e, he, rfl⟩, hp⟩
  have hsome : 0 < (walk schema 0 .empty).paramTotal ↔ ∃ d n, Reaches schema d n ∧ properties n ≠ [] := by
    rw [htotal, List.length_pos_iff_exists_mem]
    simp only [mem_fields]
    constructor
    · rintro ⟨p, d, n, hr, e, he, -⟩
      exact ⟨d, n, hr, List.ne_nil_of_mem he⟩
    · rintro ⟨d, n, hr, hne⟩
      obtain ⟨e, he⟩ := List.exists_mem_of_ne_nil _ hne
      exact ⟨e.2, d, n, hr, e, he, rfl⟩
  have hnone : (walk schema 0 .empty).maxRequired = 0 ↔ ∀ d n, Reaches schema d n → required n = [] := by
    rw [← Nat.le_zero, ← Nat.not_lt, lt_maxRequired]
    constructor
    · intro h d n hr
      by_contra hne
      exact h ⟨d, n, hr, List.length_pos_iff.mpr hne⟩
    · rintro h ⟨d, n, hr, hlt⟩
      rw [h d n hr] at hlt
      exact absurd hlt (Nat.lt_irrefl 0)
  have hcount : (fields (nodes 0 schema)).countP (fun p => !described p) ≤ (fields (nodes 0 schema)).length :=
    List.countP_le_length
  simp only [lint, List.mem_append, mem_note, or_assoc, decide_eq_true_eq, Bool.and_eq_true, huntyped, hsome,
    hnone, lt_maxDepth, lt_maxRequired, hundescribed, and_assoc]
  rw [htotal]
  have hiff : (∃ d n, Reaches schema d n ∧ properties n ≠ []) ∧ (fields (nodes 0 schema)).length <
      ((fields (nodes 0 schema)).countP fun p => !described p) * 2 ↔
      (fields (nodes 0 schema)).length < 2 * ((fields (nodes 0 schema)).countP fun p => !described p) := by
    rw [← hsome, htotal]
    omega
  simp only [← and_assoc, hiff]

theorem charged_lint (t : ToolDef) (c : Bool) : Charged lowercase t schema mutating
    (lint lowercase t.name t.description schema mutating ++ note c "confusable_descriptions") := by
  have hp : ∀ r, r ∉ poisonRules → r ∉ poisoning lowercase t.name t.description :=
    fun r hr h => hr ((poisoning_sublist _ _ _).subset h)
  have hdesc : ∀ r, r ∉ ["no_description", "thin_description"] → r ∉ ofDescription t.description.toList :=
    fun r hr h => hr ((ofDescription_sublist _).subset h)
  have h1 := hp "params_undescribed" (by decide)
  have h2 := hp "untyped_param" (by decide)
  have h3 := hp "mutating_no_required" (by decide)
  have h4 := hp "many_required" (by decide)
  have h5 := hp "deep_schema" (by decide)
  refine ⟨fun r hr => ?_, ?_, ?_, ?_, ?_, ?_⟩
  · have hne : r ∉ ["no_description", "thin_description"] ∧ r ∉ ["params_undescribed", "untyped_param",
        "mutating_no_required", "many_required", "deep_schema", "confusable_descriptions"] := by
      constructor <;> intro he <;> revert r <;> decide
    have h6 := hdesc r hne.1
    simp only [List.mem_cons, List.not_mem_nil, or_false, not_or] at hne
    simp [List.mem_append, mem_note, mem_lint, h6, hne]
  all_goals
    rw [List.mem_append, mem_note, mem_lint]
    simp [hdesc, h1, h2, h3, h4, h5]

end Tool

end MinMcp.L4.Lint
