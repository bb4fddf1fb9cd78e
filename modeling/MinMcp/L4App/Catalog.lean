import MinMcp.Core.FreshName
import MinMcp.L2Machine.Project

/-!
# The catalog

What the proxy derives from the upstreams' listings (src/surface/catalog.rs): the
tools that pass the filters, patched by their overlays, and the maps keyed by tool
id. A hash map is a list of entries, the last insertion of a key counting; the
order of its entries, and that of a `BTreeMap`, is nobody's promise here.

The configuration's own maps (`fields`, `headers` of an overlay) are lists in the
order the program walks them. What is read from outside is in `Backend` (a spec
upstream's resolved schemas) and `expand` (the value of a secret reference).

* `assemble`: the catalog of a family of listings.
* `Scopes.allowed`: may a caller with these scopes see the tool.
* `addTool_cases`: what one listed tool does to the catalog; `assemble_induction`: what
  each tool keeps, an assembled catalog has.
* `assemble_sound`: what is found under an id has this id and is its upstream's.
-/
namespace MinMcp.L4.Catalogs

open MinMcp.Core MinMcp.L2

/-! ## Configuration -/

/-- mirrors src/config.rs:1371-1377 -/
def patternMatch (pattern value : String) : Bool :=
  match pattern.toList.getLast? with
  | some '*' => pattern.toList.dropLast.isPrefixOf value.toList
  | _ => pattern = value

structure ScopeRule where
  scope : String
  tools : List String

/-- mirrors src/config.rs:732-742 -/
structure Scopes where
  rules : List ScopeRule
  reportOnly : Bool

/-- mirrors src/config.rs:1345-1353 -/
def Scopes.allowed (s : Scopes) (toolId : String) (granted : List String) : Bool :=
  s.rules.isEmpty || s.rules.any fun rule =>
    granted.any (fun g => g = rule.scope) && rule.tools.any (fun p => patternMatch p toolId)

/-- Visibility as enforced.
mirrors src/surface.rs:342-344 -/
def Scopes.visible (s : Scopes) (granted : List String) (toolId : String) : Bool :=
  s.reportOnly || s.allowed toolId granted

/-- The gate of a call; its `would_deny` line is not modelled.
mirrors src/surface.rs:351-359 -/
def Scopes.mayCall (s : Scopes) (granted : List String) (toolId : String) : Bool :=
  if !s.reportOnly then s.allowed toolId granted else true

theorem Scopes.mayCall_eq_visible (s : Scopes) (granted : List String) (toolId : String) :
    s.mayCall granted toolId = s.visible granted toolId := by
  unfold mayCall visible
  cases s.reportOnly <;> rfl

/-- mirrors src/config.rs:748-760 -/
structure Filters where
  includes : List String
  excludes : List String

/-- A bare word names a whole upstream.
mirrors src/config.rs:1379-1386 -/
def filterMatch (pattern upstream toolId : String) : Bool :=
  if !pattern.toList.contains '.' && !pattern.toList.contains '*' then pattern = upstream
  else patternMatch pattern toolId

/-- mirrors src/config.rs:1322-1328 -/
def Filters.passes (f : Filters) (upstream toolId : String) : Bool :=
  (f.includes.isEmpty || f.includes.any fun p => filterMatch p upstream toolId) &&
    !f.excludes.any fun p => filterMatch p upstream toolId

/-- mirrors src/config.rs:522-551 -/
structure FieldSpec where
  description : Option String
  required : Option Bool
  exampleValue : Option Json
  enumValues : Option (List Json)
  ty : Option String
  format : Option String
  hide : Option Bool
  userSupplied : Option String

inductive Mode where
  | passthrough
  | threeTool
  deriving DecidableEq

/-- `binding_policy: strict` makes a binding strong, `warn` weak, unless it says so
itself. -/
inductive BindingStrength where
  | weak
  | strong
  deriving DecidableEq

inductive PoisoningPolicy where
  | off
  | warn
  | strict
  deriving DecidableEq

/-- What the catalog reads of an overlay. -/
structure Overlay where
  tool : String
  binding : Option BindingStrength
  description : Option String
  fields : List (String × FieldSpec)
  headers : List (String × String)

structure Config where
  mode : Mode
  filters : Filters
  scopes : Scopes
  bindingPolicy : BindingStrength
  poisoningPolicy : PoisoningPolicy
  overlays : List Overlay

/-- Validation admits one overlay for a tool.
mirrors src/config.rs:1361-1368 -/
def Config.overlayFor (cfg : Config) (toolId : String) : Option Overlay :=
  cfg.overlays.find? fun o => o.tool = toolId

/-! ## Listings -/

/-- mirrors src/upstream.rs:174-187 -/
structure ToolDef where
  upstreamIdx : Nat
  name : String
  description : String
  inputSchema : Json
  id : String
  readOnly : Option Bool
  extra : List (String × Json)
  deriving DecidableEq

/-- An upstream as the catalog sees it: its name, and the schema a spec upstream
resolves for a tool (none for the other kinds).
mirrors src/backend.rs:112-118, 143-148 -/
structure Backend where
  name : String
  resolvedSchema : String → Option Json

def toolId (upstream name : String) : String := upstream ++ "." ++ name

/-- One entry of a `tools/list` page.
mirrors src/upstream.rs:211-231 -/
def toolDef (upstream : String) (idx : Nat) (t : Json) : ToolDef where
  upstreamIdx := idx
  name := ((t.get "name").bind Json.asStr).getD ""
  description := ((t.get "description").bind Json.asStr).getD ""
  inputSchema := (t.get "inputSchema").getD (.obj [("type", .str "object"), ("properties", .obj [])])
  id := toolId upstream (((t.get "name").bind Json.asStr).getD "")
  readOnly := ((t.get "annotations").bind fun a => a.get "readOnlyHint").bind Json.asBool
  extra := ["title", "annotations", "outputSchema", "icons", "_meta"].filterMap fun k =>
    (t.get k).map fun v => (k, v)

/-- The tools of this upstream. -/
def Listed (upstream : String) (idx : Nat) (tools : List ToolDef) : Prop :=
  ∀ t ∈ tools, t.upstreamIdx = idx ∧ t.id = toolId upstream t.name

theorem listed_toolDefs (upstream : String) (idx : Nat) (page : List Json) :
    Listed upstream idx (page.map (toolDef upstream idx)) := by
  intro t ht
  obtain ⟨j, -, rfl⟩ := List.mem_map.mp ht
  exact ⟨rfl, rfl⟩

/-! ## Overlays -/

/-- mirrors src/surface/patch.rs:76-92 -/
def setRequired (es : List (String × Json)) (field : String) (required : Bool) : List (String × Json) :=
  if required then
    match es.lookup "required" with
    | none => OrderedMap.insert "required" (.arr [.str field]) es
    | some (.arr a) =>
      if a.any (fun v => v.asStr == some field) then es
      else OrderedMap.insert "required" (.arr (a ++ [.str field])) es
    | some _ => es
  else
    match es.lookup "required" with
    | some (.arr a) =>
      let a := a.filter fun v => v.asStr != some field
      if a.isEmpty then OrderedMap.swapRemove "required" es
      else OrderedMap.insert "required" (.arr a) es
    | _ => es

/-- What the patch writes into the field's own schema. -/
def FieldSpec.writes (spec : FieldSpec) : List (String × Json) :=
  (spec.description.map fun d => ("description", Json.str d)).toList ++
    (spec.exampleValue.map fun e => ("example", e)).toList ++
    (spec.enumValues.map fun vs => ("enum", Json.arr vs)).toList ++
    (spec.ty.map fun t => ("type", Json.str t)).toList ++
    (spec.format.map fun f => ("format", Json.str f)).toList

/-- One patch, in the object schema that holds the field.
mirrors src/surface/patch.rs:15-57 -/
def patchField (es : List (String × Json)) (field : String) (spec : FieldSpec) : List (String × Json) :=
  match es.lookup "properties" with
  | some (.obj ps) =>
    match ps.lookup field with
    | none => es
    | some prop =>
      if spec.hide.getD false || spec.userSupplied.isSome then
        setRequired (OrderedMap.insert "properties" (.obj (OrderedMap.swapRemove field ps)) es) field false
      else
        let prop := match prop with
          | .obj fs => .obj (spec.writes.foldl (fun fs w => OrderedMap.insert w.1 w.2 fs) fs)
          | v => v
        let es := OrderedMap.insert "properties" (.obj (OrderedMap.insert field prop ps)) es
        match spec.required with
        | some r => setRequired es field r
        | none => es
  | _ => es

/-- The patch at a path through `properties`; a path that leads nowhere is skipped.
mirrors src/surface/patch.rs:64-72 -/
def patchAt (spec : FieldSpec) : List String → Json → Json
  | [], schema => schema
  | [field], .obj es => .obj (patchField es field spec)
  | s :: rest, .obj es =>
    match es.lookup "properties" with
    | some (.obj ps) =>
      match ps.lookup s with
      | some node =>
        .obj (OrderedMap.insert "properties" (.obj (OrderedMap.insert s (patchAt spec rest node) ps)) es)
      | none => .obj es
    | _ => .obj es
  | _ :: _, v => v

/-- `path.split('.')` without its empty parts. -/
def dottedPath (path : String) : List String :=
  ((path.toList.splitOn '.').filter fun s => !s.isEmpty).map String.ofList

/-- mirrors src/surface/patch.rs:11-60 -/
def applyFieldPatches (schema : Json) (fields : List (String × FieldSpec)) : Json :=
  fields.foldl (fun s f => patchAt f.2 (dottedPath f.1) s) schema

/-- mirrors src/surface/generators.rs:80-88 -/
def fnv1a (s : String) : UInt64 :=
  s.toUTF8.toList.foldl (fun h b => (h ^^^ b.toUInt64) * 0x100000001b3) 0xcbf29ce484222325

/-- `{:016x}`. -/
def hex16 (n : UInt64) : String :=
  let ds := Nat.toDigits 16 n.toNat
  String.ofList (List.replicate (16 - ds.length) '0' ++ ds)

/-- mirrors src/surface/generators.rs:95-97 -/
def toolFingerprint (description : String) (schema : Json) : String :=
  hex16 (fnv1a (description ++ "\x00" ++ schema.render))

/-! ## Exposed names -/

def maxNameLen : Nat := 64

/-- mirrors src/surface/ids.rs:10-15 -/
def sanitizeName (id : String) (reserve : Nat) : String :=
  String.ofList ((id.toList.map fun c =>
    if c.isAlphanum || c = '_' || c = '-' then c else '_').take (maxNameLen - reserve))

/-- The first of `base_2`, `base_3`, … that is free. -/
def freeName (taken : List String) (base : String) : String :=
  (FreshName.search FreshName.numbered taken base (taken.length + 1) 2).getD base

/-- The next tool's name, given those of the tools in front of it.
mirrors src/surface/catalog.rs:200-219 -/
def exposeOne (bares : List String) (exposed : List (String × String)) (t : ToolDef) :
    List (String × String) :=
  let bare := sanitizeName t.name 0
  let name := if bares.count bare = 1 then bare else sanitizeName t.id 0
  let taken := OrderedMap.keys exposed
  let name := if taken.contains name then freeName taken (sanitizeName t.id 4) else name
  OrderedMap.insert name t.id exposed

/-- mirrors src/surface/catalog.rs:190-221 -/
def exposedNames (mode : Mode) (tools : List ToolDef) : List (String × String) :=
  match mode with
  | .passthrough =>
    tools.foldl (exposeOne (tools.map fun t => sanitizeName t.name 0)) []
  | .threeTool => []

/-! ## The catalog -/

/-- mirrors src/surface/catalog.rs:30-63; the search index and the cache of resolved
schemas are not modelled. -/
structure Catalog where
  tools : List ToolDef
  byId : List (String × Nat)
  exposed : List (String × String)
  originSha : List (String × String)
  patchedSchemas : List (String × Json)
  toolHeaders : List (String × List (String × String))
  userSupplied : List (String × List (String × String))
  listings : List (List ToolDef)

/-- mirrors src/surface/catalog.rs:67-69 -/
def Catalog.lookup (cat : Catalog) (toolId : String) : Option ToolDef :=
  (cat.byId.lookup toolId).bind fun i => cat.tools[i]?

/-- mirrors src/surface.rs:463-468 -/
def rawResolved (upstreams : List Backend) (t : ToolDef) : Json :=
  ((upstreams[t.upstreamIdx]?).bind fun b => b.resolvedSchema t.name).getD t.inputSchema

/-- mirrors src/surface.rs:446-458 -/
def resolvedSchema (upstreams : List Backend) (cat : Catalog) (t : ToolDef) : Json :=
  (cat.patchedSchemas.lookup t.id).getD (rawResolved upstreams t)

section Assemble

variable (cfg : Config) (expand : String → Option String)

/-- Every value of an overlay's headers, or nothing when a reference does not
resolve. -/
def expandHeaders : List (String × String) → Option (List (String × String))
  | [] => some []
  | (k, v) :: hs => (expand v).bind fun v => (expandHeaders hs).map fun rest => (k, v) :: rest

/-- The fields that the overlay takes from the agent, with their sources. -/
def suppliedFields (o : Overlay) : List (String × String) :=
  o.fields.filterMap fun f => f.2.userSupplied.map fun s => (f.1, s)

/-- One listed tool; nothing when a header does not resolve.
mirrors src/surface/catalog.rs:87-134 -/
def addTool (up : Backend) (cat : Catalog) (t : ToolDef) : Option Catalog :=
  if cfg.filters.passes up.name t.id then
    let cat := { cat with
      originSha := OrderedMap.insert t.id (toolFingerprint t.description t.inputSchema) cat.originSha }
    match cfg.overlayFor t.id with
    | none => some { cat with
        byId := OrderedMap.insert t.id cat.tools.length cat.byId, tools := cat.tools ++ [t] }
    | some o =>
      (expandHeaders expand o.headers).map fun hs =>
        let schema := applyFieldPatches ((up.resolvedSchema t.name).getD t.inputSchema) o.fields
        { cat with
          patchedSchemas :=
            if o.fields.isEmpty then cat.patchedSchemas
            else OrderedMap.insert t.id schema cat.patchedSchemas
          userSupplied :=
            if (suppliedFields o).isEmpty then cat.userSupplied
            else OrderedMap.insert t.id (suppliedFields o) cat.userSupplied
          toolHeaders :=
            if hs.isEmpty then cat.toolHeaders else OrderedMap.insert t.id hs cat.toolHeaders
          byId := OrderedMap.insert t.id cat.tools.length cat.byId
          tools := cat.tools ++ [{ t with description := o.description.getD t.description }] }
  else some cat

def addListing (up : Backend) (cat : Catalog) : List ToolDef → Option Catalog
  | [] => some cat
  | t :: ts => (addTool cfg expand up cat t).bind fun cat => addListing up cat ts

def addListings (cat : Catalog) : List (Backend × List ToolDef) → Option Catalog
  | [] => some cat
  | (up, ts) :: rest => (addListing cfg expand up cat ts).bind fun cat => addListings cat rest

/-- mirrors src/surface/catalog.rs:74-153 -/
def assemble (upstreams : List Backend) (listings : List (List ToolDef)) : Option Catalog :=
  (addListings cfg expand ⟨[], [], [], [], [], [], [], listings⟩ (upstreams.zip listings)).map fun cat =>
    { cat with exposed := exposedNames cfg.mode cat.tools }

end Assemble

/-! ## Soundness of an assembled catalog -/

/-- The tool is filed under its upstream and its own name. -/
def Owned (upstreams : List Backend) (t : ToolDef) : Prop :=
  ∃ up, upstreams[t.upstreamIdx]? = some up ∧ t.id = toolId up.name t.name

/-- Every listing is its upstream's. -/
def AllListed (upstreams : List Backend) (listings : List (List ToolDef)) : Prop :=
  ∀ i up ts, upstreams[i]? = some up → listings[i]? = some ts → Listed up.name i ts

structure Catalog.Sound (upstreams : List Backend) (cat : Catalog) : Prop where
  owned : ∀ t ∈ cat.tools, Owned upstreams t
  filed : ∀ id i, cat.byId.lookup id = some i → ∃ t, cat.tools[i]? = some t ∧ t.id = id
  known : ∀ t ∈ cat.tools, t.id ∈ OrderedMap.keys cat.byId

theorem Catalog.Sound.lookup {upstreams : List Backend} {cat : Catalog} (h : cat.Sound upstreams)
    {id : String} {t : ToolDef} (ht : cat.lookup id = some t) : t.id = id ∧ Owned upstreams t := by
  unfold Catalog.lookup at ht
  rw [Option.bind_eq_some_iff] at ht
  obtain ⟨i, hi, ht⟩ := ht
  obtain ⟨t', ht', hid⟩ := h.filed id i hi
  rw [ht, Option.some.injEq] at ht'
  exact ⟨ht' ▸ hid, h.owned t (List.mem_of_getElem? ht)⟩

theorem Catalog.Sound.lookup_id {upstreams : List Backend} {cat : Catalog} (h : cat.Sound upstreams)
    {t : ToolDef} (ht : t ∈ cat.tools) : ∃ t' ∈ cat.tools, cat.lookup t.id = some t' ∧ t'.id = t.id := by
  obtain ⟨i, hi⟩ := OrderedMap.lookup_isSome.mpr (h.known t ht)
  obtain ⟨t', ht', hid⟩ := h.filed t.id i hi
  refine ⟨t', List.mem_of_getElem? ht', ?_, hid⟩
  unfold Catalog.lookup
  rw [hi, Option.bind_some, ht']

section Sound

variable {cfg : Config} {expand : String → Option String} {upstreams : List Backend}

/-- A tool as the catalog holds it. -/
def served (cfg : Config) (t : ToolDef) : ToolDef :=
  { t with description := ((cfg.overlayFor t.id).bind Overlay.description).getD t.description }

/-- The tools of one listing that get into the catalog. -/
def servedOf (cfg : Config) (l : Backend × List ToolDef) : List ToolDef :=
  (l.2.filter fun t => cfg.filters.passes l.1.name t.id).map (served cfg)

theorem servedOf_nil (up : Backend) : servedOf cfg (up, []) = [] := rfl

theorem servedOf_cons (up : Backend) (t : ToolDef) (ts : List ToolDef) :
    servedOf cfg (up, t :: ts) =
      (if cfg.filters.passes up.name t.id then [served cfg t] else []) ++ servedOf cfg (up, ts) := by
  unfold servedOf
  split <;> simp_all

/-- What a listed tool that passes the filters changes. -/
structure Added (cfg : Config) (up : Backend) (cat cat' : Catalog) (t : ToolDef) : Prop where
  tools : cat'.tools = cat.tools ++ [served cfg t]
  byId : cat'.byId = OrderedMap.insert t.id cat.tools.length cat.byId
  listings : cat'.listings = cat.listings
  patchedSchemas : cat'.patchedSchemas =
    match cfg.overlayFor t.id with
    | none => cat.patchedSchemas
    | some o =>
      if o.fields.isEmpty then cat.patchedSchemas
      else OrderedMap.insert t.id
        (applyFieldPatches ((up.resolvedSchema t.name).getD t.inputSchema) o.fields) cat.patchedSchemas

/-- A listed tool is filtered out, or added. -/
theorem addTool_cases {up : Backend} {cat cat' : Catalog} {t : ToolDef}
    (ha : addTool cfg expand up cat t = some cat') :
    cfg.filters.passes up.name t.id = false ∧ cat' = cat ∨
      cfg.filters.passes up.name t.id = true ∧ Added cfg up cat cat' t := by
  unfold addTool at ha
  split at ha
  · next hp =>
    refine Or.inr ⟨hp, ?_⟩
    split at ha
    · next ho =>
      obtain rfl := Option.some.inj ha
      have hs : served cfg t = t := by
        unfold served
        rw [ho]
        rfl
      exact ⟨by rw [hs], rfl, rfl, by rw [ho]⟩
    · next o ho =>
      rw [Option.map_eq_some_iff] at ha
      obtain ⟨hs, -, rfl⟩ := ha
      have hs : served cfg t = { t with description := o.description.getD t.description } := by
        unfold served
        rw [ho]
        rfl
      exact ⟨by rw [hs], rfl, rfl, by rw [ho]⟩
  · next hp => exact Or.inl ⟨Bool.eq_false_iff.mpr hp, (Option.some.inj ha).symm⟩

/-! What each listed tool keeps, a listing keeps, and an assembled catalog has. -/

theorem addListing_induction {P : Catalog → Prop} {up : Backend} {ts : List ToolDef}
    (step : ∀ t ∈ ts, ∀ c c', P c → addTool cfg expand up c t = some c' → P c') {cat cat' : Catalog}
    (h : P cat) (ha : addListing cfg expand up cat ts = some cat') : P cat' := by
  induction ts generalizing cat with
  | nil => exact Option.some.inj ha ▸ h
  | cons t ts ih =>
    rw [addListing, Option.bind_eq_some_iff] at ha
    obtain ⟨c, hc, ha⟩ := ha
    rw [List.forall_mem_cons] at step
    exact ih step.2 (step.1 cat c h hc) ha

theorem addListings_induction {P : Catalog → Prop} {ls : List (Backend × List ToolDef)}
    (step : ∀ l ∈ ls, ∀ t ∈ l.2, ∀ c c', P c → addTool cfg expand l.1 c t = some c' → P c')
    {cat cat' : Catalog} (h : P cat) (ha : addListings cfg expand cat ls = some cat') : P cat' := by
  induction ls generalizing cat with
  | nil => exact Option.some.inj ha ▸ h
  | cons l ls ih =>
    rw [addListings, Option.bind_eq_some_iff] at ha
    obtain ⟨c, hc, ha⟩ := ha
    rw [List.forall_mem_cons] at step
    exact ih step.2 (addListing_induction step.1 h hc) ha

theorem assemble_induction {P : Catalog → Prop} {listings : List (List ToolDef)} {cat : Catalog}
    (ha : assemble cfg expand upstreams listings = some cat)
    (start : P ⟨[], [], [], [], [], [], [], listings⟩)
    (step : ∀ l ∈ upstreams.zip listings, ∀ t ∈ l.2, ∀ c c', P c → addTool cfg expand l.1 c t = some c' → P c')
    (expose : ∀ c, P c → P { c with exposed := exposedNames cfg.mode c.tools }) : P cat := by
  unfold assemble at ha
  rw [Option.map_eq_some_iff] at ha
  obtain ⟨c, hc, rfl⟩ := ha
  exact expose c (addListings_induction step start hc)

/-- A tool is added at the end, filed under its id. -/
theorem Catalog.Sound.add {cat cat' : Catalog} (h : cat.Sound upstreams) {t : ToolDef}
    (ht : Owned upstreams t) (htools : cat'.tools = cat.tools ++ [t])
    (hids : cat'.byId = OrderedMap.insert t.id cat.tools.length cat.byId) : cat'.Sound upstreams := by
  refine ⟨?_, ?_, ?_⟩
  · intro u hu
    rw [htools, List.mem_append, List.mem_singleton] at hu
    rcases hu with hu | rfl
    · exact h.owned u hu
    · exact ht
  · intro id i hi
    rw [hids] at hi
    rw [htools]
    by_cases hid : id = t.id
    · rw [hid, OrderedMap.lookup_insert_self, Option.some.injEq] at hi
      exact ⟨t, by rw [← hi, List.getElem?_concat_length], hid.symm⟩
    · rw [OrderedMap.lookup_insert_of_ne hid] at hi
      obtain ⟨u, hu, hui⟩ := h.filed id i hi
      exact ⟨u, by rw [List.getElem?_append_left (List.getElem?_eq_some_iff.mp hu).1, hu], hui⟩
  · intro u hu
    rw [hids, OrderedMap.mem_keys_insert]
    rw [htools, List.mem_append, List.mem_singleton] at hu
    rcases hu with hu | rfl
    · exact Or.inr (h.known u hu)
    · exact Or.inl rfl

theorem addTool_sound {up : Backend} {cat cat' : Catalog} {t : ToolDef} (h : cat.Sound upstreams)
    (ht : Owned upstreams t) (ha : addTool cfg expand up cat t = some cat') : cat'.Sound upstreams := by
  rcases addTool_cases ha with ⟨-, rfl⟩ | ⟨-, hadd⟩
  · exact h
  · have ht' : Owned upstreams (served cfg t) := ht
    exact h.add ht' hadd.tools hadd.byId

theorem AllListed.owned {listings : List (List ToolDef)} (h : AllListed upstreams listings) :
    ∀ l ∈ upstreams.zip listings, ∀ t ∈ l.2, Owned upstreams t := by
  intro l hl t ht
  obtain ⟨i, hi⟩ := List.mem_iff_getElem?.mp hl
  obtain ⟨hup, hts⟩ := List.getElem?_zip_eq_some.mp hi
  obtain ⟨hidx, hid⟩ := h i l.1 l.2 hup hts t ht
  exact ⟨l.1, by rw [hidx, hup], hid⟩

/-- What an assembled catalog finds under an id has this id, its upstream's name in
front of its own. -/
theorem assemble_sound {listings : List (List ToolDef)} {cat : Catalog}
    (h : AllListed upstreams listings) (ha : assemble cfg expand upstreams listings = some cat) :
    cat.Sound upstreams := by
  refine assemble_induction ha ?_ ?_ ?_
  · refine ⟨?_, ?_, ?_⟩
    · intro t ht; cases ht
    · intro id i hi; cases hi
    · intro t ht; cases ht
  · intro l hl t ht c c' hs hc
    exact addTool_sound hs (h.owned l hl t ht) hc
  · intro c hs
    exact ⟨hs.owned, hs.filed, hs.known⟩

theorem addTool_tools {up : Backend} {cat cat' : Catalog} {t : ToolDef}
    (ha : addTool cfg expand up cat t = some cat') :
    cat'.tools = cat.tools ++ if cfg.filters.passes up.name t.id then [served cfg t] else [] := by
  rcases addTool_cases ha with ⟨hp, rfl⟩ | ⟨hp, hadd⟩
  · rw [hp, if_neg (by decide), List.append_nil]
  · rw [if_pos hp, hadd.tools]

theorem addListing_tools {up : Backend} {cat cat' : Catalog} {ts : List ToolDef}
    (ha : addListing cfg expand up cat ts = some cat') :
    cat'.tools = cat.tools ++ servedOf cfg (up, ts) := by
  induction ts generalizing cat with
  | nil => rw [Option.some.inj ha, servedOf_nil, List.append_nil]
  | cons t ts ih =>
    rw [addListing, Option.bind_eq_some_iff] at ha
    obtain ⟨c, hc, ha⟩ := ha
    rw [ih ha, addTool_tools hc, servedOf_cons, List.append_assoc]

theorem addListings_tools {cat cat' : Catalog} {ls : List (Backend × List ToolDef)}
    (ha : addListings cfg expand cat ls = some cat') :
    cat'.tools = cat.tools ++ ls.flatMap (servedOf cfg) := by
  induction ls generalizing cat with
  | nil => rw [Option.some.inj ha, List.flatMap_nil, List.append_nil]
  | cons l ls ih =>
    rw [addListings, Option.bind_eq_some_iff] at ha
    obtain ⟨c, hc, ha⟩ := ha
    rw [ih ha, addListing_tools hc, List.flatMap_cons, List.append_assoc]

/-- The tools of a catalog, upstream by upstream. -/
theorem assemble_tools {listings : List (List ToolDef)} {cat : Catalog}
    (ha : assemble cfg expand upstreams listings = some cat) :
    cat.tools = (upstreams.zip listings).flatMap (servedOf cfg) := by
  unfold assemble at ha
  rw [Option.map_eq_some_iff] at ha
  obtain ⟨c, hc, rfl⟩ := ha
  exact addListings_tools hc

/-- A catalog keeps the listings it was assembled from. -/
theorem assemble_listings {listings : List (List ToolDef)} {cat : Catalog}
    (ha : assemble cfg expand upstreams listings = some cat) : cat.listings = listings := by
  refine assemble_induction (P := fun c => c.listings = listings) ha rfl ?_ ?_
  · intro l _ t _ c c' hl hc
    rcases addTool_cases hc with ⟨-, rfl⟩ | ⟨-, hadd⟩
    · exact hl
    · rw [hadd.listings, hl]
  · intro c hl
    exact hl

end Sound

end MinMcp.L4.Catalogs
