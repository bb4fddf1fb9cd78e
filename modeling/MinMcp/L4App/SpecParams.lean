import MinMcp.L4App.SpecBody
import MinMcp.Core.Json.Pointer
import Mathlib.Data.List.Nodup

/-!
# The parameters an operation is shown with

`Spec::from_value`, `query_styles` and `build_input_schema` of src/spec.rs. The schema shown for
an operation and the table of how its query parameters are written are built by two walks over
the operation's own `parameters`, with references replaced (`SpecResolve`).

What the specification says of an operation's parameters is `Applies`: they are declared on the
operation or on its path item, where the operation does not declare one of the same name and
location; either list holds parameters and references to parameters. `serialisation` is how the
value of a query parameter is written.

* `Surfaced`: a parameter is shown once, with its flag, and its style is in the table.
* `readEntries_of_list`: the walks see the operation's entries with references replaced, as
  `inline` does.
* `surfaced_iff`, `allSurfaced_iff`: a parameter is surfaced when it stands in the operation's own
  list as it is read.
* `written_surfaced`: so are all that are written in the operation, of one name and location each.
* `style_of_openapi3`, `style_of_swagger2`: when the style in the table is the declared one.
* `path_item_parameter_is_lost`: the parameter of a path item.
-/
namespace MinMcp.L4.OpenApi

open MinMcp.Core

/-! ## The code -/

/-- mirrors src/spec.rs:13 -/
def httpMethods : List String := ["get", "post", "put", "patch", "delete", "head", "options"]

/-- The operations of a document, each with the path item it stands in.
mirrors src/spec.rs:87-119 -/
def operations (root : Json) : List (Json × Operation) :=
  (((root.get "paths").bind Json.asObject).getD []).flatMap fun path =>
    (path.2.asObject.getD []).filterMap fun entry =>
      let m := entry.1.toLower
      if m ∈ httpMethods ∧ entry.2.asObject.isSome then some (path.2, ⟨m, path.1, entry.2⟩) else none

/-- mirrors src/spec.rs:55-60 -/
inductive QueryStyle where
  | repeated
  | delimited (sep : Char)
  | deep
  deriving DecidableEq

/-- mirrors src/spec.rs:148 -/
def swagger2 (root : Json) : Bool := (root.get "swagger").isSome

/-- mirrors src/spec.rs:264-270 -/
def defaultQueryStyle (v2 : Bool) : QueryStyle := if v2 then .delimited ',' else .repeated

/-- mirrors src/spec.rs:386-388 -/
def paramExplode (p : Json) (default : Bool) : Bool := ((p.get "explode").bind Json.asBool).getD default

/-- mirrors src/spec.rs:392-398 -/
def delimitedOrRepeated (p : Json) (sep : Char) : QueryStyle :=
  if paramExplode p false then .repeated else .delimited sep

/-- mirrors src/spec.rs:275-280 -/
def collectionStyle (format : String) : QueryStyle :=
  match format with
  | "multi" => .repeated
  | "ssv" => .delimited ' '
  | "tsv" => .delimited '\t'
  | "pipes" => .delimited '|'
  | _ => .delimited ','

/-- mirrors src/spec.rs:272-298 -/
def queryStyleOf (v2 : Bool) (p : Json) : QueryStyle :=
  match (p.get "collectionFormat").bind Json.asStr with
  | some format => collectionStyle format
  | none =>
    match (p.get "style").bind Json.asStr with
    | some "deepObject" => .deep
    | some "spaceDelimited" => delimitedOrRepeated p ' '
    | some "pipeDelimited" => delimitedOrRepeated p '|'
    | some "form" => if paramExplode p true then .repeated else .delimited ','
    | _ => defaultQueryStyle v2

/-- mirrors src/spec.rs:245-259 -/
def queryStyles (root : Json) (op : Operation) : List (String × QueryStyle) :=
  (params root op true).foldl (fun styles p =>
    if (p.get "in").bind Json.asStr = some "query" then
      match (p.get "name").bind Json.asStr with
      | some name => OrderedMap.insert name (queryStyleOf (swagger2 root) p) styles
      | none => styles
    else styles) []

/-! ## The specification -/

/-- What a value is, references followed. -/
inductive Denotes (root : Json) : Json → Json → Prop
  | self {v : Json} : refOf v = none → Denotes root v v
  | ref {v t u : Json} {r : String} : refOf v = some r → Pointer.target root r = some t →
      Denotes root t u → Denotes root v u

def entries (parameters : Option Json) : List Json := (parameters.bind Json.asArray).getD []

/-- The entries of a path item, which may itself stand elsewhere. -/
def ItemEntry (root item e : Json) : Prop :=
  e ∈ entries (item.get "parameters") ∨
    item.get "parameters" = none ∧ ∃ t, Denotes root item t ∧ e ∈ entries (t.get "parameters")

def paramKey (p : Json) : String × String := (paramName p, paramIn p)

/-- The parameters that apply to an operation. -/
inductive Applies (root item : Json) (op : Operation) : Json → Prop
  | own {e p : Json} : e ∈ entries (op.raw.get "parameters") → Denotes root e p → Applies root item op p
  | inherited {e p : Json} : ItemEntry root item e → Denotes root e p →
      (∀ e' ∈ entries (op.raw.get "parameters"), ∀ q, Denotes root e' q → paramKey q ≠ paramKey p) →
      Applies root item op p

def paramRequired (p : Json) : Bool := ((p.get "required").bind Json.asBool).getD false

/-- How the value of a query parameter is written. -/
inductive Serialisation where
  | style (s : QueryStyle)
  /-- As a text of a media type. -/
  | content
  deriving DecidableEq

/-- Swagger 2 knows `collectionFormat`, OpenAPI 3 knows `content`, and `style` with `explode`. -/
def serialisation (v2 : Bool) (p : Json) : Serialisation :=
  if v2 then .style (collectionStyle (((p.get "collectionFormat").bind Json.asStr).getD "csv"))
  else if (p.get "content").isSome then .content
  else .style <|
    match ((p.get "style").bind Json.asStr).getD "form" with
    | "deepObject" => .deep
    | "spaceDelimited" => delimitedOrRepeated p ' '
    | "pipeDelimited" => delimitedOrRepeated p '|'
    | _ => if paramExplode p true then .repeated else .delimited ','

/-! ## What is shown -/

/-- What a schema says of a group of parameters. -/
def group (schema : Json) (location : String) : Json :=
  (((schema.get "properties").bind fun ps => ps.get (location ++ "_params"))).getD .null

/-- The names shown for a location. -/
def shownNames (schema : Json) (location : String) : List String :=
  OrderedMap.keys ((((group schema location).get "properties").bind Json.asObject).getD [])

def shownRequired (schema : Json) (location : String) : List String :=
  ((((group schema location).get "required").bind Json.asArray).getD []).filterMap Json.asStr

structure Surfaced (root : Json) (op : Operation) (p : Json) : Prop where
  once : (shownNames (toolInputSchema root op) (paramIn p)).count (paramName p) = 1
  required : (shownRequired (toolInputSchema root op) (paramIn p)).count (paramName p) =
    if paramRequired p then 1 else 0
  style : paramIn p = "query" →
    ((queryStyles root op).lookup (paramName p)).map .style = some (serialisation (swagger2 root) p)

/-- Every path and query parameter that applies is surfaced. -/
def AllSurfaced (root item : Json) (op : Operation) : Prop :=
  ∀ p, Applies root item op p → paramIn p = "path" ∨ paramIn p = "query" → Surfaced root op p

/-! ## The entries as they are read -/

def listed (op : Operation) : Json := (op.raw.get "parameters").getD (.arr [])

/-- An entry with its references replaced, as many in a row as are followed in the list. -/
def asRead (root : Json) (op : Operation) (e : Json) : Json :=
  match levels root (listed op) with
  | none => e
  | some limit => inline root limit limit [] e

def readEntries (root : Json) (op : Operation) : List Json := ((asRead root op (listed op)).asArray).getD []

theorem params_eq (root : Json) (op : Operation) : params root op true = readEntries root op := by
  have hread : resolve root (listed op) = asRead root op (listed op) := resolve_eq_inline root (listed op)
  rw [readEntries, ← hread]
  exact rfl

/-- The walks see the operation's entries with references replaced. -/
theorem readEntries_of_list {root : Json} {op : Operation} {es : List Json} (h : listed op = .arr es) :
    readEntries root op = es.map (asRead root op) := by
  unfold readEntries asRead
  rw [h]
  cases levels root (.arr es) with
  | none => simp [Json.asArray]
  | some limit => simp only [inline_arr, Json.asArray, Option.getD_some]

/-! ## The two walks -/

/-- Where a parameter goes that is not skipped. -/
def goesTo (location : String) (p : Json) : Bool := paramName p ≠ "" && paramIn p = location

def Envelope.props (env : Envelope) (location : String) : List (String × Json) :=
  if location = "path" then env.pathProps else env.queryProps

def Envelope.req (env : Envelope) (location : String) : List String :=
  if location = "path" then env.pathReq else env.queryReq

section Walk

variable (root : Json) {location : String}

theorem add_props (hl : location = "path" ∨ location = "query") (env : Envelope) (p : Json) :
    (env.add root true p).props location =
      if goesTo location p then OrderedMap.insert (paramName p) (paramProp p) (env.props location)
      else env.props location := by
  unfold Envelope.add goesTo
  by_cases hn : paramName p = ""
  · simp [hn]
  · simp only [hn, if_false, ne_eq, not_false_eq_true, decide_true, Bool.true_and, decide_eq_true_eq]
    rcases hl with rfl | rfl
    · split
      · next hin => simp [Envelope.props, hin]
      · next hin => simp [Envelope.props, hin]
      · next hin => simp [Envelope.props, hin]
      · next hin => simp [Envelope.props, hin]
      · next hp _ _ _ => rw [if_neg hp]
    · split
      · next hin => simp [Envelope.props, hin]
      · next hin => simp [Envelope.props, hin]
      · next hin => simp [Envelope.props, hin]
      · next hin => simp [Envelope.props, hin]
      · next _ hq _ _ => rw [if_neg hq]

theorem add_req (hl : location = "path" ∨ location = "query") (env : Envelope) (p : Json) :
    (env.add root true p).req location =
      env.req location ++ if goesTo location p ∧ paramRequired p then [paramName p] else [] := by
  unfold Envelope.add goesTo paramRequired
  by_cases hn : paramName p = ""
  · simp [hn]
  · simp only [hn, if_false, ne_eq, not_false_eq_true, decide_true, Bool.true_and, decide_eq_true_eq]
    rcases hl with rfl | rfl
    · split
      · next hin => simp only [Envelope.req, hin, true_and, if_true]; split <;> simp
      · next hin => simp [Envelope.req, hin]
      · next hin => simp [Envelope.req, hin]
      · next hin => simp [Envelope.req, hin]
      · next hp _ _ _ => simp [show paramIn p ≠ "path" from hp]
    · split
      · next hin => simp [Envelope.req, hin]
      · next hin => simp only [Envelope.req, hin, true_and, String.reduceEq, if_false]; split <;> simp
      · next hin => simp [Envelope.req, hin]
      · next hin => simp [Envelope.req, hin]
      · next _ hq _ _ => simp [show paramIn p ≠ "query" from hq]

/-- What the loop has collected: the names of the parameters that go to the location, each once. -/
theorem loop_props (hl : location = "path" ∨ location = "query") (ps : List Json) (env : Envelope)
    (hn : (OrderedMap.keys (env.props location)).Nodup) :
    (OrderedMap.keys ((ps.foldl (Envelope.add root true) env).props location)).Nodup ∧
      ∀ name, name ∈ OrderedMap.keys ((ps.foldl (Envelope.add root true) env).props location) ↔
        name ∈ OrderedMap.keys (env.props location) ∨
          ∃ p ∈ ps, goesTo location p = true ∧ paramName p = name := by
  induction ps generalizing env with
  | nil => simp [hn]
  | cons p ps ih =>
    rw [List.foldl_cons]
    have hadd := add_props root hl env p
    by_cases hg : goesTo location p = true
    · rw [if_pos hg] at hadd
      obtain ⟨hnodup, hmem⟩ := ih (env.add root true p) (hadd ▸ OrderedMap.nodup_insert _ _ hn)
      refine ⟨hnodup, fun name => ?_⟩
      rw [hmem, hadd, OrderedMap.mem_keys_insert, List.exists_mem_cons_iff]
      simp only [hg, true_and, eq_comm (a := name)]
      rw [or_assoc, or_left_comm]
    · rw [if_neg hg] at hadd
      obtain ⟨hnodup, hmem⟩ := ih (env.add root true p) (hadd ▸ hn)
      refine ⟨hnodup, fun name => ?_⟩
      rw [hmem, hadd, List.exists_mem_cons_iff]
      simp [hg]

theorem loop_req (hl : location = "path" ∨ location = "query") (ps : List Json) (env : Envelope) :
    (ps.foldl (Envelope.add root true) env).req location =
      env.req location ++ (ps.filter fun p => goesTo location p && paramRequired p).map paramName := by
  induction ps generalizing env with
  | nil => simp
  | cons p ps ih =>
    rw [List.foldl_cons, ih, add_req root hl, List.append_assoc, List.filter_cons]
    by_cases hg : goesTo location p = true ∧ paramRequired p = true
    · simp [hg]
    · rw [if_neg hg, if_neg (by simpa using hg)]
      rfl

end Walk

/-! ## What is shown, from the entries -/

section Shown

variable (root : Json) (op : Operation) {location : String}

theorem group_eq (hl : location = "path" ∨ location = "query") : ∃ desc,
    group (toolInputSchema root op) location =
      paramObject ((envelope root op true).props location) ((envelope root op true).req location) desc := by
  cases hl with
  | inl h =>
    subst h
    exact ⟨_, rfl⟩
  | inr h =>
    subst h
    exact ⟨_, rfl⟩

theorem shownNames_eq (hl : location = "path" ∨ location = "query") :
    shownNames (toolInputSchema root op) location =
      OrderedMap.keys ((envelope root op true).props location) := by
  obtain ⟨desc, hg⟩ := group_eq root op hl
  unfold shownNames
  rw [hg, paramObject]
  by_cases hp : (envelope root op true).props location = []
  · by_cases hr : (envelope root op true).req location = [] <;> simp [hp, hr, List.lookup_cons]
  · simp [hp, List.lookup_cons, Json.asObject]

theorem filterMap_str (names : List String) : (names.map Json.str).filterMap Json.asStr = names := by
  induction names with
  | nil => rfl
  | cons name names ih => simp only [List.map_cons, List.filterMap_cons, Json.asStr, ih]

theorem shownRequired_eq (hl : location = "path" ∨ location = "query") :
    shownRequired (toolInputSchema root op) location = (envelope root op true).req location := by
  obtain ⟨desc, hg⟩ := group_eq root op hl
  unfold shownRequired
  rw [hg, paramObject]
  by_cases hr : (envelope root op true).req location = []
  · by_cases hp : (envelope root op true).props location = [] <;> simp [hp, hr, List.lookup_cons]
  · by_cases hp : (envelope root op true).props location = [] <;>
      simp only [hp, hr, if_false, if_true, Json.get_obj, List.append_nil, List.cons_append, List.nil_append,
        List.lookup_cons, Option.bind_some, Json.asArray, Option.getD_some, filterMap_str, String.reduceBEq]

end Shown

/-- The style of a name is that of the last entry with it. -/
theorem lookup_styles (v2 : Bool) {name : String} (hn : name ≠ "") (ps : List Json)
    (styles : List (String × QueryStyle)) :
    (ps.foldl (fun styles p =>
      if (p.get "in").bind Json.asStr = some "query" then
        match (p.get "name").bind Json.asStr with
        | some name => OrderedMap.insert name (queryStyleOf v2 p) styles
        | none => styles
      else styles) styles).lookup name =
    (((ps.filter fun p => paramKey p = (name, "query")).getLast?).map (queryStyleOf v2)).or
      (styles.lookup name) := by
  induction ps generalizing styles with
  | nil => rfl
  | cons p ps ih =>
    rw [List.foldl_cons, ih]
    by_cases hk : paramKey p = (name, "query")
    · -- its style is put in, and stays unless an entry behind it has the name
      obtain ⟨hname, hin⟩ := Prod.mk.inj hk
      have hin' : (p.get "in").bind Json.asStr = some "query" := by
        unfold paramIn at hin
        cases h : (p.get "in").bind Json.asStr <;> simp_all
      have hname' : (p.get "name").bind Json.asStr = some name := by
        unfold paramName at hname
        cases h : (p.get "name").bind Json.asStr <;> simp_all
      rw [if_pos hin', hname', List.filter_cons_of_pos (by simpa using hk), List.getLast?_cons]
      simp only [OrderedMap.lookup_insert_self]
      cases (ps.filter fun p => paramKey p = (name, "query")).getLast? <;> rfl
    · rw [List.filter_cons_of_neg (by simpa using hk)]
      congr 1
      split
      · next hin =>
        split
        · next other hother =>
          have hne : name ≠ other := by
            intro he
            exact hk (by simp [paramKey, paramName, paramIn, hin, hother, he])
          rw [OrderedMap.lookup_insert_of_ne hne]
        · rfl
      · rfl

theorem queryStyles_lookup (root : Json) (op : Operation) {name : String} (hn : name ≠ "") :
    (queryStyles root op).lookup name =
      ((((readEntries root op).filter fun e => paramKey e = (name, "query")).getLast?).map
        (queryStyleOf (swagger2 root))) := by
  unfold queryStyles
  rw [lookup_styles _ hn, params_eq]
  simp

/-! ## The condition -/

/-- A parameter stands in the operation's own list as it is read, with its required flag and, for
a query parameter, its style. -/
structure InOwnList (root : Json) (op : Operation) (p : Json) : Prop where
  named : paramName p ≠ ""
  found : ∃ e ∈ readEntries root op, paramKey e = paramKey p
  required : (readEntries root op).countP (fun e => paramKey e = paramKey p ∧ paramRequired e = true) =
    if paramRequired p then 1 else 0
  style : paramIn p = "query" → ∀ e,
    ((readEntries root op).filter fun e => paramKey e = paramKey p).getLast? = some e →
      .style (queryStyleOf (swagger2 root) e) = serialisation (swagger2 root) p

theorem goesTo_eq {p e : Json} (hn : paramName p ≠ "") :
    (goesTo (paramIn p) e = true ∧ paramName e = paramName p) ↔ paramKey e = paramKey p := by
  simp only [goesTo, paramKey, Prod.mk.injEq, Bool.and_eq_true, decide_eq_true_eq]
  constructor
  · intro h
    exact ⟨h.2, h.1.2⟩
  · intro h
    exact ⟨⟨h.1 ▸ hn, h.2⟩, h.1⟩

theorem surfacedOnce_iff (root : Json) (op : Operation) {p : Json}
    (hl : paramIn p = "path" ∨ paramIn p = "query") :
    (shownNames (toolInputSchema root op) (paramIn p)).count (paramName p) = 1 ↔
      paramName p ≠ "" ∧ ∃ e ∈ readEntries root op, paramKey e = paramKey p := by
  have hempty : Envelope.props ⟨[], [], [], [], [], bodySchema root op true⟩ (paramIn p) = [] := by
    simp [Envelope.props]
  obtain ⟨hnodup, hmem⟩ := loop_props root hl (params root op true)
    ⟨[], [], [], [], [], bodySchema root op true⟩
    (by simp [hempty])
  simp only [hempty, OrderedMap.keys_nil, List.not_mem_nil, false_or] at hmem
  rw [shownNames_eq root op hl, envelope]
  constructor
  · intro h
    obtain ⟨e, he, hg, hname⟩ := (hmem (paramName p)).mp (List.count_pos_iff.mp (h ▸ Nat.one_pos))
    have hn : paramName p ≠ "" := by
      intro hn
      simp [goesTo, hname, hn] at hg
    exact ⟨hn, e, params_eq root op ▸ he, (goesTo_eq hn).mp ⟨hg, hname⟩⟩
  · intro ⟨hn, e, he, hk⟩
    exact List.count_eq_one_of_mem hnodup ((hmem _).mpr ⟨e, params_eq root op ▸ he, (goesTo_eq hn).mpr hk⟩)

theorem required_eq (root : Json) (op : Operation) {p : Json} (hl : paramIn p = "path" ∨ paramIn p = "query")
    (hn : paramName p ≠ "") : (shownRequired (toolInputSchema root op) (paramIn p)).count (paramName p) =
      (readEntries root op).countP fun e => paramKey e = paramKey p ∧ paramRequired e = true := by
  have hempty : Envelope.req ⟨[], [], [], [], [], bodySchema root op true⟩ (paramIn p) = [] := by
    simp [Envelope.req]
  rw [shownRequired_eq root op hl, envelope, loop_req root hl, hempty, List.nil_append, params_eq,
    List.count_eq_countP, List.countP_map, List.countP_filter]
  refine List.countP_congr fun e _ => ?_
  simp only [Function.comp, beq_iff_eq, Bool.and_eq_true, decide_eq_true_eq]
  rw [← goesTo_eq hn, and_left_comm, and_assoc]

theorem surfaced_iff (root : Json) (op : Operation) {p : Json}
    (hl : paramIn p = "path" ∨ paramIn p = "query") :
    Surfaced root op p ↔ InOwnList root op p := by
  constructor
  · intro h
    obtain ⟨hn, hfound⟩ := (surfacedOnce_iff root op hl).mp h.once
    refine ⟨hn, hfound, required_eq root op hl hn ▸ h.required, fun hq e he => ?_⟩
    have hs := h.style hq
    rw [queryStyles_lookup root op hn, ← hq] at hs
    simp only [show (paramName p, paramIn p) = paramKey p from rfl, he, Option.map_some] at hs
    exact Option.some.inj hs
  · intro h
    refine ⟨(surfacedOnce_iff root op hl).mpr ⟨h.named, h.found⟩,
      (required_eq root op hl h.named).trans h.required, fun hq => ?_⟩
    obtain ⟨e, he, hk⟩ := h.found
    have hmem : e ∈ (readEntries root op).filter fun e => paramKey e = paramKey p :=
      List.mem_filter.mpr ⟨he, decide_eq_true hk⟩
    obtain ⟨last, hlast⟩ := Option.isSome_iff_exists.mp (List.getLast?_isSome.mpr (List.ne_nil_of_mem hmem))
    rw [queryStyles_lookup root op h.named, ← hq]
    simp only [show (paramName p, paramIn p) = paramKey p from rfl, hlast, Option.map_some,
      h.style hq last hlast]

/-- **Every declared parameter.** For any operation of any document. -/
theorem allSurfaced_iff (root item : Json) (op : Operation) :
    AllSurfaced root item op ↔
      ∀ p, Applies root item op p → paramIn p = "path" ∨ paramIn p = "query" → InOwnList root op p :=
  forall_congr' fun _ => forall_congr' fun _ => forall_congr' fun hl => surfaced_iff root op hl

/-! ## Entries written in the operation itself -/

/-- A parameter that is no reference, and whose fields are none. -/
structure Written (e : Json) : Prop where
  notRef : refOf e = none
  named : paramName e ≠ ""
  plain : ∀ k ∈ ["name", "in", "required", "collectionFormat", "style", "explode"], ∀ w, e.get k = some w →
    w.asObject = none

section Written

variable {root : Json} {op : Operation} {e : Json}

theorem Written.asRead_get (h : Written e) {k : String}
    (hk : k ∈ ["name", "in", "required", "collectionFormat", "style", "explode"]) :
    ((asRead root op e).get k).bind Json.asStr = (e.get k).bind Json.asStr ∧
      ((asRead root op e).get k).bind Json.asBool = (e.get k).bind Json.asBool := by
  unfold asRead
  cases levels root (listed op) with
  | none => exact ⟨rfl, rfl⟩
  | some limit =>
    simp only [inline_get _ _ _ _ h.notRef]
    cases hw : e.get k with
    | none => exact ⟨rfl, rfl⟩
    | some w => exact inline_of_not_obj _ _ _ _ (h.plain k hk w hw)

/-- It is read as it is written. -/
theorem Written.asRead_eq (h : Written e) : paramKey (asRead root op e) = paramKey e ∧
    paramRequired (asRead root op e) = paramRequired e ∧
      ∀ v2, queryStyleOf v2 (asRead root op e) = queryStyleOf v2 e := by
  refine ⟨?_, ?_, fun v2 => ?_⟩
  · simp only [paramKey, paramName, paramIn, (h.asRead_get (k := "name") (by simp)).1,
      (h.asRead_get (k := "in") (by simp)).1]
  · simp only [paramRequired, (h.asRead_get (k := "required") (by simp)).2]
  · unfold queryStyleOf delimitedOrRepeated paramExplode
    rw [(h.asRead_get (k := "collectionFormat") (by simp)).1, (h.asRead_get (k := "style") (by simp)).1,
      (h.asRead_get (k := "explode") (by simp)).2]

/-- What a value that is no reference denotes. -/
theorem denotes_self {v u : Json} (hr : refOf v = none) (h : Denotes root v u) : u = v := by
  cases h with
  | self _ => rfl
  | ref hr' => simp [hr] at hr'

theorem filter_key {es : List Json} (hkeys : (es.map paramKey).Nodup) {p : Json} (hp : p ∈ es) :
    es.filter (fun e => paramKey e = paramKey p) = [p] := by
  induction es with
  | nil => cases hp
  | cons e es ih =>
    rw [List.map_cons, List.nodup_cons, List.mem_map] at hkeys
    rcases List.mem_cons.mp hp with rfl | hp
    · rw [List.filter_cons_of_pos (by simp), List.filter_eq_nil_iff.mpr]
      intro e he
      simp only [decide_eq_true_eq]
      exact fun hk => hkeys.1 ⟨e, he, hk⟩
    · have hne : paramKey e ≠ paramKey p := fun hk => hkeys.1 ⟨p, hp, hk.symm⟩
      rw [List.filter_cons_of_neg (by simpa using hne), ih hkeys.2 hp]

/-- With all parameters written in the operation, one of each name and location. -/
theorem written_surfaced {item : Json} {es : List Json} (hlist : listed op = .arr es)
    (hes : ∀ e ∈ es, Written e) (hkeys : (es.map paramKey).Nodup) (hitem : ∀ e, ¬ ItemEntry root item e)
    (hstyle : ∀ e ∈ es, paramIn e = "query" →
      .style (queryStyleOf (swagger2 root) e) = serialisation (swagger2 root) e) :
    AllSurfaced root item op := by
  have hentries : entries (op.raw.get "parameters") = es := by
    unfold listed at hlist
    cases hp : op.raw.get "parameters" with
    | none =>
      rw [hp] at hlist
      exact Json.arr.inj hlist
    | some v =>
      rw [hp] at hlist
      obtain rfl : v = .arr es := hlist
      rfl
  rw [allSurfaced_iff]
  intro p happ hl
  cases happ with
  | inherited he => exact absurd he (hitem _)
  | @own e _ he hd =>
    rw [hentries] at he
    obtain rfl := denotes_self (hes e he).notRef hd
    obtain ⟨hkey, hreq, hsty⟩ : paramKey (asRead root op p) = paramKey p ∧ _ := (hes p he).asRead_eq
    have hread : (readEntries root op).filter (fun e => paramKey e = paramKey p) = [asRead root op p] := by
      have hfilter : es.filter ((fun e => decide (paramKey e = paramKey p)) ∘ asRead root op) = [p] := by
        rw [← filter_key hkeys he]
        refine List.filter_congr fun e hmem => ?_
        simp only [Function.comp, (hes e hmem).asRead_eq.1]
      rw [readEntries_of_list hlist, List.filter_map, hfilter]
      rfl
    have hcount : (readEntries root op).countP (fun e => paramKey e = paramKey p ∧ paramRequired e = true) =
        ((readEntries root op).filter fun e => paramKey e = paramKey p).countP paramRequired := by
      rw [List.countP_filter]
      refine List.countP_congr fun e _ => ?_
      simp only [decide_eq_true_eq, Bool.and_eq_true]
      exact and_comm
    refine ⟨(hes p he).named, ?_, ?_, ?_⟩
    · exact ⟨asRead root op p, readEntries_of_list hlist ▸ List.mem_map_of_mem he, hkey⟩
    · rw [hcount, hread, ← hreq]
      simp [List.countP_cons]
    · intro hq e hlast
      rw [hread, List.getLast?_singleton] at hlast
      obtain rfl := Option.some.inj hlast
      rw [hsty, hstyle p he hq]

end Written

/-! ## How a query parameter is written -/

/-- With the fields OpenAPI 3 knows, the table has the style, but for a parameter with `content`
and for one that has `explode` without `style`. -/
theorem style_of_openapi3 {p : Json} (hformat : p.get "collectionFormat" = none)
    (hstyle : ∀ s, (p.get "style").bind Json.asStr = some s →
      s ∈ ["form", "spaceDelimited", "pipeDelimited", "deepObject"]) :
    .style (queryStyleOf false p) = serialisation false p ↔
      p.get "content" = none ∧ ((p.get "style").bind Json.asStr = none → paramExplode p true = true) := by
  unfold queryStyleOf serialisation
  cases hc : p.get "content" with
  | some v => simp
  | none =>
    cases hs : (p.get "style").bind Json.asStr with
    | none =>
      rw [hformat]
      show Serialisation.style .repeated = .style (if paramExplode p true then .repeated else .delimited ',') ↔ _
      by_cases he : paramExplode p true = true <;> simp [he]
    | some s =>
      have hmem := hstyle s hs
      simp only [List.mem_cons, List.not_mem_nil, or_false] at hmem
      simp only [hformat, Option.bind_none, Bool.false_eq_true, if_false, Option.isSome_none,
        Option.getD_some, reduceCtorEq, false_implies, and_true, Serialisation.style.injEq, iff_true]
      rcases hmem with rfl | rfl | rfl | rfl <;> rfl

theorem style_of_swagger2 {p : Json} (hstyle : p.get "style" = none) :
    .style (queryStyleOf true p) = serialisation true p := by
  unfold queryStyleOf serialisation
  cases (p.get "collectionFormat").bind Json.asStr with
  | some format => simp
  | none => simp [hstyle, defaultQueryStyle, collectionStyle]

/-! ## A parameter of the path item -/

def widgetId : Json :=
  .obj [("name", .str "id"), ("in", .str "path"), ("required", .bool true),
    ("schema", .obj [("type", .str "string")])]

def getWidget : Operation := ⟨"get", "/widgets/{id}", .obj [("operationId", .str "getWidget")]⟩

def widgetItem : Json := .obj [("parameters", .arr [widgetId]), ("get", getWidget.raw)]

def widgetDocument : Json :=
  .obj [("openapi", .str "3.0.0"), ("paths", .obj [("/widgets/{id}", widgetItem)])]

/-- The parameter of the path is declared for all its operations, and not shown for any. -/
theorem path_item_parameter_is_lost : (widgetItem, getWidget) ∈ operations widgetDocument ∧
    Applies widgetDocument widgetItem getWidget widgetId ∧
      shownNames (toolInputSchema widgetDocument getWidget) "path" = [] ∧
        ¬ AllSurfaced widgetDocument widgetItem getWidget := by
  have happ : Applies widgetDocument widgetItem getWidget widgetId :=
    .inherited (.inl (List.mem_singleton_self _)) (.self rfl) fun e he => by cases he
  have hshown : shownNames (toolInputSchema widgetDocument getWidget) "path" = [] := by decide +kernel
  refine ⟨?_, happ, hshown, fun h => ?_⟩
  · have hlower : "get".toLower = "get" ∧ "parameters".toLower ∉ httpMethods := by decide +kernel
    simp [operations, widgetDocument, widgetItem, getWidget, List.lookup_cons, Json.asObject, hlower,
      httpMethods]
  · have hone := (h widgetId happ (.inl (by decide +kernel))).once
    rw [show paramIn widgetId = "path" by decide +kernel, hshown] at hone
    cases hone

end MinMcp.L4.OpenApi
