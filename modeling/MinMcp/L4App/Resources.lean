import MinMcp.L4App.SourceMap

/-!
# Resources and prompts

The other things an upstream lists are passed through: its resources under their URI,
its prompts as `upstream.name` (src/surface/resources.rs). They are no tools, so what a
caller may see of them is decided by `upstream_visible`: some tool of the upstream in
the catalog is visible, or the catalog has none of its tools.

`Answers` is what the upstreams say. Every request to one of them is a `Sent`; a spec
upstream has neither resources nor prompts and is asked nothing. A merged listing may
take several pages, all of the same upstream. `pretty` prints a map over lines.

* `handle_sent`: whatever is sent goes to an upstream visible to the caller.
* `upstreamVisible_iff`: visible are those with a tool the caller may see, those that
  list no tool, and those all of whose tools the filters took out.
* `side_doors_iff`: the side doors follow the tools exactly when there is none of the
  last kind.
* `filtered_out_is_asked`: an upstream with one tool, which is excluded.
-/
namespace MinMcp.L4.Resources

open MinMcp.Core MinMcp.L4.Catalogs MinMcp.L4.SourceMap
open MinMcp.L4.Vet (quoted)

inductive Sent where
  | list (idx : Nat) (method : String)
  | read (idx : Nat) (uri : String)
  | prompt (idx : Nat) (name : String) (arguments : Json)

/-- The upstream it goes to. -/
def Sent.to : Sent → Nat
  | .list idx _ => idx
  | .read idx _ => idx
  | .prompt idx _ _ => idx

/-- What the upstreams answer; a listing that fails ends with the pages before it. -/
structure Answers where
  list : Nat → String → List Json
  read : Nat → String → Except String Json
  prompt : Nat → String → Json → Except String Json

/-- Resource URIs and the upstreams they are read from. -/
abbrev Table := List (String × Nat)

structure Reply where
  result : Except String Json
  table : Table
  sent : List Sent

def sourceMapUri : String := "minmcp://tools"

def sourceMapResource : Json :=
  .obj [("uri", .str sourceMapUri), ("name", .str "uncompressed-tools"), ("title", .str "min-mcp source map"),
    ("description", .str ("Every tool behind this minified surface, mapped to its origin (METHOD /path or " ++
      "upstream tool name), overlay/binding status, and schema fingerprint.")),
    ("mimeType", .str "application/json")]

/-- mirrors src/surface/resources.rs:14-18 -/
def unknownResource (uri : String) : String := s!"unknown resource uri {quoted uri} — list resources first"

def uris (rs : List Json) : List String := rs.filterMap fun r => (r.get "uri").bind Json.asStr

/-- The URIs of a listing lead to the upstream that listed them; the last one counts.
mirrors src/surface/resources.rs:54-62 -/
def learn (idx : Nat) (rs : List Json) (origin : Table) : Table :=
  (uris rs).foldl (fun o uri => OrderedMap.insert uri idx o) origin

section Handlers

variable (px : SourceMap.Proxy) (pretty : Json → String) (granted : List String) (cat : Catalog)
  (ans : Answers)

/-- mirrors src/surface/resources.rs:32-41 -/
def upstreamVisible (idx : Nat) : Bool :=
  let own := cat.tools.filter fun t => t.upstreamIdx = idx
  own.any (fun t => px.cfg.scopes.visible granted t.id) || own.isEmpty

/-- mirrors src/backend.rs:161-167 -/
def listPassthrough (method : String) (up : Upstream × Nat) : List Json × List Sent :=
  match up.1.kind with
  | .mcp | .http => (ans.list up.2 method, [.list up.2 method])
  | .spec => ([], [])

def visibleUpstreams : List (Upstream × Nat) :=
  px.upstreams.zipIdx.filter fun up => upstreamVisible px granted cat up.2

/-- mirrors src/surface/resources.rs:46-77 -/
def listResources (table : Table) : Reply :=
  let asked := (visibleUpstreams px granted cat).map fun up => (up.2, listPassthrough ans "resources/list" up)
  { result := .ok (.obj [("resources", .arr (asked.flatMap (fun a => a.2.1) ++ [sourceMapResource]))])
    table := OrderedMap.extend table (asked.foldl (fun o a => learn a.1 a.2.1 o) [])
    sent := asked.flatMap fun a => a.2.2 }

/-- mirrors src/surface/resources.rs:105-108, src/backend.rs:169-175 -/
def readFrom (idx : Nat) (uri : String) : Except String Json × List Sent :=
  if upstreamVisible px granted cat idx then
    match (px.upstreams[idx]?).map Upstream.kind with
    | none => (.error "index out of bounds", [])
    | some .spec => (.error "spec upstream has no resources", [])
    | some _ => (ans.read idx uri, [.read idx uri])
  else (.error (unknownResource uri), [])

/-- mirrors src/surface/resources.rs:83-109 -/
def readResource (table : Table) (uri : String) : Reply :=
  if uri = sourceMapUri then
    { result := .ok (.obj [("contents", .arr [.obj [("uri", .str sourceMapUri),
      ("mimeType", .str "application/json"),
        ("text", .str (pretty (sourceMap px (some granted) cat)))]])])
      table, sent := [] }
  else
    match table.lookup uri with
    | some idx =>
      let r := readFrom px granted cat ans idx uri
      ⟨r.1, table, r.2⟩
    | none =>
      let listed := listResources px granted cat ans table
      match listed.table.lookup uri with
      | none => ⟨.error (unknownResource uri), listed.table, listed.sent⟩
      | some idx =>
        let r := readFrom px granted cat ans idx uri
        ⟨r.1, listed.table, listed.sent ++ r.2⟩

def nameSpaced (upstream : String) (p : Json) : Json :=
  match (p.get "name").bind Json.asStr, p with
  | some name, .obj es => .obj (OrderedMap.insert "name" (.str (upstream ++ "." ++ name)) es)
  | _, _ => p

/-- mirrors src/surface/resources.rs:113-130 -/
def listPrompts (table : Table) : Reply :=
  let asked := (visibleUpstreams px granted cat).map fun up =>
    (up.1.name, listPassthrough ans "prompts/list" up)
  { result := .ok (.obj [("prompts", .arr (asked.flatMap fun a => a.2.1.map (nameSpaced a.1)))])
    table, sent := asked.flatMap fun a => a.2.2 }

/-- What follows `upstream.` in a prompt's name. -/
def barePrompt (upstream name : String) : Option (List Char) :=
  if upstream.toList.isPrefixOf name.toList then
    match name.toList.drop upstream.toList.length with
    | '.' :: bare => some bare
    | _ => none
  else none

/-- The longest upstream name that fits, the first of them.
mirrors src/surface/resources.rs:138-149 -/
def bestUpstream (name : String) : Option (Nat × String × String) :=
  px.upstreams.zipIdx.foldl (fun best up =>
    match barePrompt up.1.name name with
    | none => best
    | some bare =>
      if up.1.name = "" || bare = [] || !upstreamVisible px granted cat up.2 then best
      else if best.all fun b => b.2.1.utf8ByteSize < up.1.name.utf8ByteSize then
        some (up.2, up.1.name, String.ofList bare)
      else best) none

/-- mirrors src/surface/resources.rs:137-155, src/backend.rs:177-183 -/
def getPrompt (table : Table) (name : String) (arguments : Json) : Reply :=
  match bestUpstream px granted cat name with
  | none => ⟨.error s!"unknown prompt {quoted name} — prompt names are \"upstream.name\"", table, []⟩
  | some (idx, _, bare) =>
    match (px.upstreams[idx]?).map Upstream.kind with
    | none => ⟨.error "index out of bounds", table, []⟩
    | some .spec => ⟨.error "spec upstream has no prompts", table, []⟩
    | some _ => ⟨ans.prompt idx bare arguments, table, [.prompt idx bare arguments]⟩

inductive Request where
  | listResources
  | readResource (uri : String)
  | listPrompts
  | getPrompt (name : String) (arguments : Json)

def handle (table : Table) : Request → Reply
  | .listResources => listResources px granted cat ans table
  | .readResource uri => readResource px pretty granted cat ans table uri
  | .listPrompts => listPrompts px granted cat ans table
  | .getPrompt name arguments => getPrompt px granted cat ans table name arguments

end Handlers

/-! ## Who is asked -/

section Sent

variable {px : SourceMap.Proxy} {pretty : Json → String} {granted : List String} {cat : Catalog}
  {ans : Answers}

/-- Visible to the caller, and not a spec upstream. -/
def MayAsk (px : SourceMap.Proxy) (granted : List String) (cat : Catalog) (idx : Nat) : Prop :=
  upstreamVisible px granted cat idx = true ∧ ∃ up, px.upstreams[idx]? = some up ∧ up.kind ≠ .spec

theorem mem_visibleUpstreams {up : Upstream} {idx : Nat} :
    (up, idx) ∈ visibleUpstreams px granted cat ↔
      px.upstreams[idx]? = some up ∧ upstreamVisible px granted cat idx = true := by
  unfold visibleUpstreams
  rw [List.mem_filter, List.mem_zipIdx_iff_getElem?]

theorem listPassthrough_sent {method : String} {up : Upstream × Nat} {s : Sent}
    (hs : s ∈ (listPassthrough ans method up).2) : s.to = up.2 ∧ up.1.kind ≠ .spec := by
  unfold listPassthrough at hs
  cases hk : up.1.kind with
  | mcp | http =>
    rw [hk] at hs
    obtain rfl := List.mem_singleton.mp hs
    exact ⟨rfl, by simp⟩
  | spec =>
    rw [hk] at hs
    cases hs

theorem mayAsk_of_visible {method : String} {up : Upstream × Nat}
    (hup : up ∈ visibleUpstreams px granted cat)
    {s : Sent} (hs : s ∈ (listPassthrough ans method up).2) : MayAsk px granted cat s.to := by
  obtain ⟨hto, hk⟩ := listPassthrough_sent hs
  obtain ⟨hget, hv⟩ := mem_visibleUpstreams.mp hup
  rw [hto]
  exact ⟨hv, up.1, hget, hk⟩

theorem listResources_sent {table : Table} {s : Sent}
    (hs : s ∈ (listResources px granted cat ans table).sent) :
    MayAsk px granted cat s.to := by
  obtain ⟨a, ha, hs⟩ := List.mem_flatMap.mp hs
  obtain ⟨up, hup, rfl⟩ := List.mem_map.mp ha
  exact mayAsk_of_visible hup hs

theorem listPrompts_sent {table : Table} {s : Sent} (hs : s ∈ (listPrompts px granted cat ans table).sent) :
    MayAsk px granted cat s.to := by
  obtain ⟨a, ha, hs⟩ := List.mem_flatMap.mp hs
  obtain ⟨up, hup, rfl⟩ := List.mem_map.mp ha
  exact mayAsk_of_visible hup hs

theorem kind_of_map {idx : Nat} {k : Kind} (h : (px.upstreams[idx]?).map Upstream.kind = some k)
    (hk : k ≠ .spec) : ∃ up, px.upstreams[idx]? = some up ∧ up.kind ≠ .spec := by
  obtain ⟨up, hup, rfl⟩ := Option.map_eq_some_iff.mp h
  exact ⟨up, hup, hk⟩

theorem readFrom_sent {idx : Nat} {uri : String} {s : Sent}
    (hs : s ∈ (readFrom px granted cat ans idx uri).2) :
    s = .read idx uri ∧ MayAsk px granted cat idx := by
  unfold readFrom at hs
  split at hs
  · next hv =>
    split at hs
    · cases hs
    · cases hs
    · next k hk hkind => exact ⟨List.mem_singleton.mp hs, hv, kind_of_map hkind hk⟩
  · cases hs

theorem readResource_sent {table : Table} {uri : String} {s : Sent}
    (hs : s ∈ (readResource px pretty granted cat ans table uri).sent) : MayAsk px granted cat s.to := by
  unfold readResource at hs
  split at hs
  · cases hs
  · split at hs
    · obtain ⟨rfl, hm⟩ := readFrom_sent hs
      exact hm
    · dsimp only at hs
      split at hs
      · dsimp only at hs
        exact listResources_sent hs
      · rcases List.mem_append.mp hs with hs | hs
        · exact listResources_sent hs
        · obtain ⟨rfl, hm⟩ := readFrom_sent hs
          exact hm

/-- The best fit is taken among the visible upstreams. -/
theorem bestUpstream_visible {name : String} {b : Nat × String × String}
    (hb : bestUpstream px granted cat name = some b) : upstreamVisible px granted cat b.1 = true := by
  unfold bestUpstream at hb
  refine List.foldlRecOn px.upstreams.zipIdx _ (motive := fun best =>
    ∀ b, best = some b → upstreamVisible px granted cat b.1 = true) (fun b hb => by cases hb) ?_ b hb
  intro best ih up _ b hb
  split at hb
  · exact ih b hb
  · split at hb
    · exact ih b hb
    · next hfit =>
      split at hb
      · obtain rfl := Option.some.inj hb
        simp only [Bool.or_eq_true, Bool.not_eq_true', not_or, Bool.not_eq_false] at hfit
        exact hfit.2
      · exact ih b hb

theorem getPrompt_sent {table : Table} {name : String} {arguments : Json} {s : Sent}
    (hs : s ∈ (getPrompt px granted cat ans table name arguments).sent) : MayAsk px granted cat s.to := by
  unfold getPrompt at hs
  split at hs
  · cases hs
  · next idx fit bare hb =>
    split at hs
    · cases hs
    · cases hs
    · next k hk hkind =>
      obtain rfl := List.mem_singleton.mp hs
      exact ⟨bestUpstream_visible hb, kind_of_map hkind hk⟩

/-- **Who is asked.** Every request goes to an upstream that is visible to the caller. -/
theorem handle_sent {table : Table} {r : Request} {s : Sent}
    (hs : s ∈ (handle px pretty granted cat ans table r).sent) : MayAsk px granted cat s.to := by
  cases r with
  | listResources => exact listResources_sent hs
  | readResource uri => exact readResource_sent hs
  | listPrompts => exact listPrompts_sent hs
  | getPrompt name arguments => exact getPrompt_sent hs

/-- Listing asks all of them. -/
theorem listResources_asks {table : Table} {idx : Nat} (hm : MayAsk px granted cat idx) :
    Sent.list idx "resources/list" ∈ (listResources px granted cat ans table).sent := by
  obtain ⟨hv, up, hup, hk⟩ := hm
  refine List.mem_flatMap.mpr ⟨_, List.mem_map_of_mem (mem_visibleUpstreams.mpr ⟨hup, hv⟩), ?_⟩
  unfold listPassthrough
  cases hkind : up.kind with
  | mcp | http => exact List.mem_singleton_self _
  | spec => exact absurd hkind hk

end Sent

/-! ## What is visible -/

section Visible

variable {px : SourceMap.Proxy} {pretty : Json → String} {granted : List String} {cat : Catalog}
variable {expand : String → Option String} {listings : List (List ToolDef)}

/-- The upstream lists nothing, or a tool that passes the filters and the caller may see. -/
def ByTools (cfg : Config) (granted : List String) (up : Backend) (ts : List ToolDef) : Prop :=
  ts = [] ∨ ∃ t ∈ ts, cfg.filters.passes up.name t.id = true ∧ cfg.scopes.visible granted t.id = true

/-- The upstream lists tools, and the filters took all of them out. -/
def FilteredOut (cfg : Config) (up : Backend) (ts : List ToolDef) : Prop :=
  ts ≠ [] ∧ ∀ t ∈ ts, cfg.filters.passes up.name t.id = false

def listing (listings : List (List ToolDef)) (idx : Nat) : List ToolDef := (listings[idx]?).getD []

theorem ByTools.not_filteredOut {cfg : Config} {up : Backend} {ts : List ToolDef}
    (h : ByTools cfg granted up ts) :
    ¬ FilteredOut cfg up ts := by
  intro hf
  rcases h with h | ⟨t, ht, hp, -⟩
  · exact hf.1 h
  · rw [hf.2 t ht] at hp
    cases hp

/-- The catalog's tools of an upstream are those it lists that pass. -/
theorem mem_own (hl : AllListed px.backends listings)
    (ha : assemble px.cfg expand px.backends listings = some cat)
    {idx : Nat} {up : Upstream} (hup : px.upstreams[idx]? = some up) (t : ToolDef) :
    t ∈ cat.tools ∧ t.upstreamIdx = idx ↔ t ∈ servedOf px.cfg (up.toBackend, listing listings idx) := by
  have hbackend : px.backends[idx]? = some up.toBackend := by
    unfold SourceMap.Proxy.backends
    rw [List.getElem?_map, hup, Option.map_some]
  have hown : ∀ j l, (px.backends.zip listings)[j]? = some l → ∀ t ∈ servedOf px.cfg l, t.upstreamIdx = j := by
    intro j l hj t ht
    obtain ⟨hb, hts⟩ := List.getElem?_zip_eq_some.mp hj
    obtain ⟨t', ht', rfl⟩ := List.mem_map.mp ht
    exact (hl j l.1 l.2 hb hts t' (List.mem_filter.mp ht').1).1
  rw [assemble_tools ha, List.mem_flatMap]
  constructor
  · rintro ⟨⟨l, hmem, ht⟩, rfl⟩
    obtain ⟨j, hj⟩ := List.mem_iff_getElem?.mp hmem
    obtain ⟨hb, hts⟩ := List.getElem?_zip_eq_some.mp hj
    rw [hown j l hj t ht] at hbackend ⊢
    unfold listing
    rw [hts, Option.getD_some, ← Option.some.inj (hb.symm.trans hbackend)]
    exact ht
  · intro ht
    unfold listing at ht
    cases hts : listings[idx]? with
    | none =>
      rw [hts] at ht
      cases ht
    | some ts =>
      rw [hts, Option.getD_some] at ht
      have hj : (px.backends.zip listings)[idx]? = some (up.toBackend, ts) :=
        List.getElem?_zip_eq_some.mpr ⟨hbackend, hts⟩
      exact ⟨⟨_, List.mem_of_getElem? hj, ht⟩, hown idx _ hj t ht⟩

theorem upstreamVisible_iff (hl : AllListed px.backends listings)
    (ha : assemble px.cfg expand px.backends listings = some cat) {idx : Nat} {up : Upstream}
    (hup : px.upstreams[idx]? = some up) :
    upstreamVisible px granted cat idx = true ↔
      ByTools px.cfg granted up.toBackend (listing listings idx) ∨
        FilteredOut px.cfg up.toBackend (listing listings idx) := by
  have hown := mem_own hl ha hup
  have hserved : ∀ t, t ∈ servedOf px.cfg (up.toBackend, listing listings idx) ↔
      ∃ t' ∈ listing listings idx, px.cfg.filters.passes up.name t'.id = true ∧ served px.cfg t' = t := by
    intro t
    simp only [servedOf, List.mem_map, List.mem_filter, and_assoc]
  unfold upstreamVisible
  simp only [Bool.or_eq_true, List.any_eq_true, List.mem_filter, decide_eq_true_eq, List.isEmpty_iff,
    List.filter_eq_nil_iff]
  constructor
  · rintro (⟨t, ht, hv⟩ | hnone)
    · obtain ⟨t', ht', hp, rfl⟩ := (hserved t).mp ((hown t).mp ht)
      exact Or.inl (Or.inr ⟨t', ht', hp, hv⟩)
    · by_cases hempty : listing listings idx = []
      · exact Or.inl (Or.inl hempty)
      · refine Or.inr ⟨hempty, fun t ht => ?_⟩
        by_contra hp
        rw [Bool.not_eq_false] at hp
        obtain ⟨hin, hidx⟩ := (hown _).mpr ((hserved _).mpr ⟨t, ht, hp, rfl⟩)
        exact hnone _ hin hidx
  · rintro ((hempty | ⟨t, ht, hp, hv⟩) | ⟨-, hall⟩)
    · refine Or.inr fun t ht hidx => ?_
      obtain ⟨t', ht', -⟩ := (hserved t).mp ((hown t).mp ⟨ht, hidx⟩)
      rw [hempty] at ht'
      cases ht'
    · exact Or.inl ⟨_, (hown _).mpr ((hserved _).mpr ⟨t, ht, hp, rfl⟩), hv⟩
    · refine Or.inr fun t ht hidx => ?_
      obtain ⟨t', ht', hp, -⟩ := (hserved t).mp ((hown t).mp ⟨ht, hidx⟩)
      rw [hall t' ht'] at hp
      cases hp

/-- The request goes only where the caller may use a tool, or where there are none. -/
def FollowsTools (px : SourceMap.Proxy) (granted : List String) (listings : List (List ToolDef))
    (sent : List Sent) : Prop :=
  ∀ s ∈ sent, ∃ up, px.upstreams[s.to]? = some up ∧
    ByTools px.cfg granted up.toBackend (listing listings s.to)

/-- **Side doors.** All requests for resources and prompts, whatever is in the table and
the upstreams answer, follow the tools exactly when no MCP upstream has all its tools
filtered out. -/
theorem side_doors_iff (hl : AllListed px.backends listings)
    (ha : assemble px.cfg expand px.backends listings = some cat) :
    (∀ ans table r, FollowsTools px granted listings (handle px pretty granted cat ans table r).sent) ↔
      ∀ idx up, px.upstreams[idx]? = some up → up.kind ≠ .spec →
        ¬ FilteredOut px.cfg up.toBackend (listing listings idx) := by
  constructor
  · intro h idx up hup hk hf
    have hm : MayAsk px granted cat idx := ⟨(upstreamVisible_iff hl ha hup).mpr (Or.inr hf), up, hup, hk⟩
    let silent : Answers := ⟨fun _ _ => [], fun _ _ => .error "", fun _ _ _ => .error ""⟩
    obtain ⟨up', hup', hby⟩ := h silent [] .listResources _ (listResources_asks hm)
    obtain rfl : up' = up := Option.some.inj (hup'.symm.trans hup)
    exact hby.not_filteredOut hf
  · intro h ans table r s hs
    obtain ⟨hv, up, hup, hk⟩ := handle_sent hs
    refine ⟨up, hup, ?_⟩
    exact ((upstreamVisible_iff hl ha hup).mp hv).resolve_right (h s.to up hup hk)

end Visible

/-! ## An excluded tool -/

/-- One MCP upstream `a`, its tool `a.x` excluded or not. -/
def oneDoor (excludes : List String) : SourceMap.Proxy where
  cfg := ⟨.threeTool, ⟨[], excludes⟩, ⟨[], false⟩, .weak, .warn, []⟩
  upstreams := [⟨⟨"a", fun _ => none⟩, .mcp, fun _ => none⟩]
  authoredSha _ := none
  errorHints _ := 0

def doorListing : List (List ToolDef) := [[toolDef "a" 0 (.obj [("name", .str "x")])]]

theorem oneDoor_listed (excludes : List String) : AllListed (oneDoor excludes).backends doorListing := by
  intro i up ts hup hts
  match i with
  | 0 =>
    obtain rfl := Option.some.inj hup
    obtain rfl := Option.some.inj hts
    exact listed_toolDefs "a" 0 [.obj [("name", .str "x")]]
  | i + 1 => cases hup

/-- Nothing is filtered: the side doors follow the tools. -/
theorem oneDoor_follows : ∃ cat,
    assemble (oneDoor []).cfg some (oneDoor []).backends doorListing = some cat ∧
    ∀ ans table r, FollowsTools (oneDoor []) [] doorListing
      (handle (oneDoor []) Json.render [] cat ans table r).sent := by
  have htotal : ∀ v : String, (some v).isSome := fun _ => rfl
  obtain ⟨cat, hcat⟩ := Vet.assemble_isSome (oneDoor []).cfg htotal (oneDoor []).backends doorListing
  refine ⟨cat, hcat, (side_doors_iff (oneDoor_listed []) hcat).mpr ?_⟩
  intro idx up hup _ hf
  match idx with
  | 0 =>
    obtain rfl := Option.some.inj hup
    have hp := hf.2 _ List.mem_cons_self
    revert hp
    decide +kernel
  | idx + 1 => cases hup

/-- The only tool is excluded, and the upstream's resources are still asked for. -/
theorem filtered_out_is_asked :
    ∃ cat, assemble (oneDoor ["a.x"]).cfg some (oneDoor ["a.x"]).backends doorListing = some cat ∧
      ∃ ans table r, ¬ FollowsTools (oneDoor ["a.x"]) [] doorListing
        (handle (oneDoor ["a.x"]) Json.render [] cat ans table r).sent := by
  have htotal : ∀ v : String, (some v).isSome := fun _ => rfl
  obtain ⟨cat, hcat⟩ := Vet.assemble_isSome (oneDoor ["a.x"]).cfg htotal (oneDoor ["a.x"]).backends doorListing
  have hf : FilteredOut (oneDoor ["a.x"]).cfg ⟨"a", fun _ => none⟩ (listing doorListing 0) := by
    refine ⟨by decide, fun t ht => ?_⟩
    obtain rfl := List.mem_singleton.mp ht
    decide +kernel
  have hm : MayAsk (oneDoor ["a.x"]) [] cat 0 :=
    ⟨(upstreamVisible_iff (oneDoor_listed _) hcat rfl).mpr (Or.inr hf), _, rfl, fun hk => by cases hk⟩
  refine ⟨cat, hcat, ⟨fun _ _ => [], fun _ _ => .error "", fun _ _ _ => .error ""⟩, [],
    .listResources, fun h => ?_⟩
  obtain ⟨up, hup, hby⟩ := h _ (listResources_asks hm)
  obtain rfl := Option.some.inj hup
  exact hby.not_filteredOut hf

end MinMcp.L4.Resources
