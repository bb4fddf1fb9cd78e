import MinMcp.L4App.Vet

/-!
# The source map

`minmcp://tools` shows a caller where each tool it may see comes from, which overlay
rewrote it, and some counts (src/surface/audit.rs:6-94). The same builder serves
`minmcp map`, for which nothing is filtered.

* `SameVisible`: two catalogs show a caller the same tools, in the same order and
  under the same exposed names.
* `row_eq_iff`: a row differs only in the fingerprint of the tool as listed.
* `sourceMap_eq_iff`: the caller's map is the same exactly when the fingerprints of the
  tools it sees are, and the catalogs expose equally many names in all.
* `count_leaks`: a hidden tool shows in `exposed_by_name`.
-/
namespace MinMcp.L4.SourceMap

open MinMcp.Core MinMcp.L4.Catalogs MinMcp.L4.Vet

inductive Kind where
  | mcp
  | http
  | spec

/-- mirrors src/backend.rs:150-156 -/
def Kind.text : Kind → String
  | .mcp => "mcp"
  | .http => "http"
  | .spec => "spec"

/-- An upstream as the map sees it; `operation` is the method and path behind a tool
of a spec upstream. -/
structure Upstream extends Backend where
  kind : Kind
  operation : String → Option (String × String)

/-- mirrors src/backend.rs:188-197 -/
def Upstream.origin (up : Upstream) (originalName : String) : String :=
  match up.kind with
  | .mcp | .http => originalName
  | .spec =>
    match up.operation originalName with
    | some (method, path) => method.toUpper ++ " " ++ path
    | none => originalName

/-- The configuration and the upstreams. `authoredSha` and `errorHints` are what the map
reads of an overlay and the catalog does not. -/
structure Proxy where
  cfg : Config
  upstreams : List Upstream
  authoredSha : Overlay → Option String
  errorHints : Overlay → Nat

variable (px : Proxy)

def Proxy.backends : List Backend := px.upstreams.map Upstream.toBackend

/-- mirrors src/surface/patch.rs:101-135 -/
def bindingStatus (o : Overlay) (resolved : Option Json) (liveSha : String) : String × List String :=
  match brokenReasons o resolved with
  | [] =>
    match px.authoredSha o with
    | some authored =>
      if authored ≠ liveSha then
        ("changed", [s!"upstream schema drifted since authored ({authored} → {liveSha}); re-verify"])
      else ("ok", [])
    | none => ("ok", [])
  | reasons => ("broken", reasons)

def modeText : Mode → String
  | .passthrough => "passthrough"
  | .threeTool => "three_tool"

def strings (xs : List String) : Json := .arr (xs.map Json.str)

/-- The name an id is exposed under: the map is walked in the order of the names, and the
last one stays. -/
def exposedAs (cat : Catalog) (id : String) : Option String :=
  ((cat.exposed.filter fun e => e.2 = id).map Prod.fst).foldl
    (fun last name => some (last.elim name fun l => if l ≤ name then name else l)) none

def liveSha (cat : Catalog) (id : String) : String := (cat.originSha.lookup id).getD ""

/-- The tools a map is about; `none` is the whole surface. -/
def shown (granted : Option (List String)) (cat : Catalog) : List ToolDef :=
  cat.tools.filter fun t => granted.all fun g => px.cfg.scopes.visible g t.id

/-- Under neither its own name nor its id. -/
def renamed (cat : Catalog) (t : ToolDef) : Bool :=
  (exposedAs cat t.id).any fun n => n ≠ sanitizeName t.name 0 && n ≠ sanitizeName t.id 0

def overlayRow (o : Overlay) (resolved : Json) (sha : String) : Json :=
  .obj [("description", .bool o.description.isSome), ("fields", strings (o.fields.map Prod.fst)),
    ("error_hints", .num (.ofNat (px.errorHints o))),
    ("authored_sha", ((px.authoredSha o).map Json.str).getD .null),
    ("status", .str (bindingStatus px o (some resolved) sha).1),
    ("reasons", strings (bindingStatus px o (some resolved) sha).2)]

/-- Name, kind and origin; a tool of no upstream keeps what its id says. -/
def provenance (t : ToolDef) : String × String × String :=
  match px.upstreams[t.upstreamIdx]? with
  | some b => (b.name, b.kind.text, b.origin t.name)
  | none => (String.ofList (t.id.toList.takeWhile (· ≠ '.')), "unknown", t.name)

def row (t : ToolDef) (exposedAs : Option String) (sha : String) : Json :=
  .obj [("tool_id", .str t.id), ("upstream", .str (provenance px t).1), ("backend", .str (provenance px t).2.1),
    ("origin", .str (provenance px t).2.2), ("exposed_as", (exposedAs.map Json.str).getD .null),
    ("overlay", ((px.cfg.overlayFor t.id).map fun o =>
      overlayRow px o (rawResolved px.backends t) sha).getD .null),
    ("schema_sha", .str sha)]

/-- Overlays whose tool is not there; a caller is shown none. -/
def orphanOverlays (granted : Option (List String)) (cat : Catalog) : List Json :=
  ((px.cfg.overlays.filter fun _ => granted.isNone).filter fun o => (cat.lookup o.tool).isNone).map fun o =>
    .obj [("tool", .str o.tool), ("status", .str (bindingStatus px o none "").1),
      ("reasons", strings (bindingStatus px o none "").2)]

/-- mirrors src/surface/audit.rs:17-94 -/
def sourceMap (granted : Option (List String)) (cat : Catalog) : Json :=
  let tools := (shown px granted cat).map fun t => row px t (exposedAs cat t.id) (liveSha cat t.id)
  .obj [("mode", .str (modeText px.cfg.mode)), ("tool_count", .num (.ofNat tools.length)),
    ("exposed_by_name", .num (.ofNat cat.exposed.length)),
    ("renamed_collisions", .num (.ofNat ((shown px granted cat).countP (renamed cat)))),
    ("overlaid", .num (.ofNat px.cfg.overlays.length)),
    ("orphan_overlays", .arr (orphanOverlays px granted cat)),
    ("tools", .arr tools)]

/-! ## Two catalogs, one view -/

/-- A caller with these scopes sees the same tools, exposed alike. -/
structure SameVisible (granted : List String) (cat cat' : Catalog) : Prop where
  tools : shown px (some granted) cat = shown px (some granted) cat'
  exposed : ∀ t ∈ shown px (some granted) cat, exposedAs cat t.id = exposedAs cat' t.id

theorem ofNat_inj {m n : Nat} : Num.ofNat m = Num.ofNat n ↔ m = n := by
  constructor
  · intro h
    have ht : (Num.ofNat m).text.toList = (Num.ofNat n).text.toList := by rw [h]
    rw [Num.ofNat_text, Num.ofNat_text] at ht
    have hv := congrArg (fun ds => Nat.ofDigitChars 10 ds 0) ht
    simpa using hv
  · intro h
    rw [h]

variable {px}

/-- One tool, one exposed name: the rows differ only in the fingerprint. -/
theorem row_eq_iff (t : ToolDef) (name : Option String) (sha sha' : String) :
    row px t name sha = row px t name sha' ↔ sha = sha' := by
  constructor
  · intro h
    unfold row at h
    simp only [Json.obj.injEq, List.cons.injEq, Prod.mk.injEq, Json.str.injEq, and_true, true_and] at h
    exact h.2
  · intro h
    rw [h]

theorem orphanOverlays_scoped (granted : List String) (cat : Catalog) :
    orphanOverlays px (some granted) cat = [] := by
  unfold orphanOverlays
  simp

theorem SameVisible.renamed {granted : List String} {cat cat' : Catalog}
    (h : SameVisible px granted cat cat') :
    (shown px (some granted) cat).countP (renamed cat) =
      (shown px (some granted) cat').countP (renamed cat') := by
  rw [← h.tools]
  refine List.countP_congr fun t ht => ?_
  unfold SourceMap.renamed
  rw [h.exposed t ht]

/-- The rows agree exactly when the fingerprints do. -/
theorem SameVisible.rows {granted : List String} {cat cat' : Catalog}
    (h : SameVisible px granted cat cat') :
    ((shown px (some granted) cat).map fun t => row px t (exposedAs cat t.id) (liveSha cat t.id)) =
        ((shown px (some granted) cat').map fun t => row px t (exposedAs cat' t.id) (liveSha cat' t.id)) ↔
      ∀ t ∈ shown px (some granted) cat, liveSha cat t.id = liveSha cat' t.id := by
  rw [← h.tools, List.map_inj_left]
  refine forall₂_congr fun t ht => ?_
  rw [h.exposed t ht]
  exact row_eq_iff t _ _ _

/-- **What a caller's map tells.** Of two catalogs that show a caller the same tools, the
maps agree exactly when the tools' fingerprints agree and the numbers of exposed names,
hidden ones counted, are equal. -/
theorem sourceMap_eq_iff {granted : List String} {cat cat' : Catalog}
    (h : SameVisible px granted cat cat') :
    sourceMap px (some granted) cat = sourceMap px (some granted) cat' ↔
      (∀ t ∈ shown px (some granted) cat, liveSha cat t.id = liveSha cat' t.id) ∧
        cat.exposed.length = cat'.exposed.length := by
  have hcount : (shown px (some granted) cat).length = (shown px (some granted) cat').length := by rw [h.tools]
  unfold sourceMap
  simp only [Json.obj.injEq, List.cons.injEq, Prod.mk.injEq, Json.num.injEq, Json.arr.injEq,
    true_and, and_true, ofNat_inj, List.length_map, orphanOverlays_scoped, h.renamed, h.rows, hcount]
  exact and_comm

/-! ## One hidden tool -/

/-- Callers with the scope `read` see `a.one`. -/
def oneShown : Proxy where
  cfg := ⟨.passthrough, ⟨[], []⟩, ⟨[⟨"read", ["a.one"]⟩], false⟩, .weak, .warn, []⟩
  upstreams := [⟨⟨"a", fun _ => none⟩, .mcp, fun _ => none⟩]
  authoredSha _ := none
  errorHints _ := 0

def catalogOf (names : List String) : Catalog :=
  (assemble oneShown.cfg some oneShown.backends
    [names.map fun n => toolDef "a" 0 (.obj [("name", .str n)])]).getD ⟨[], [], [], [], [], [], [], []⟩

theorem sameVisible_more : SameVisible oneShown ["read"] (catalogOf ["one"]) (catalogOf ["one", "two"]) :=
  ⟨by decide +kernel, by decide +kernel⟩

theorem sameVisible_other :
    SameVisible oneShown ["read"] (catalogOf ["one", "two"]) (catalogOf ["one", "three"]) :=
  ⟨by decide +kernel, by decide +kernel⟩

/-- Which tool is hidden does not show. -/
theorem other_hidden_same_map :
    sourceMap oneShown (some ["read"]) (catalogOf ["one", "two"]) =
      sourceMap oneShown (some ["read"]) (catalogOf ["one", "three"]) :=
  (sourceMap_eq_iff sameVisible_other).mpr ⟨by decide +kernel, by decide +kernel⟩

/-- That a tool is hidden does, in `exposed_by_name`. -/
theorem count_leaks :
    SameVisible oneShown ["read"] (catalogOf ["one"]) (catalogOf ["one", "two"]) ∧
      sourceMap oneShown (some ["read"]) (catalogOf ["one"]) ≠
        sourceMap oneShown (some ["read"]) (catalogOf ["one", "two"]) := by
  refine ⟨sameVisible_more, fun h => ?_⟩
  have hcount : ((sourceMap oneShown (some ["read"]) (catalogOf ["one"])).get "exposed_by_name" =
      (sourceMap oneShown (some ["read"]) (catalogOf ["one", "two"])).get "exposed_by_name") := by rw [h]
  revert hcount
  decide +kernel

end MinMcp.L4.SourceMap
