import MinMcp.L4App.Catalog
import MinMcp.Core.Text.Debug

/-!
# Tool ids

A tool is filed under `upstream.tool`. Validation refuses two upstreams of one name
(src/config.rs:1196-1204), since every per-tool map is keyed by this id and the last
entry wins; it does not look for a dot in a name.

* `Routes`: different tools have different ids, and each id leads to the upstream
  that listed it.
* `id_eq_cases`: two ids agree only when one upstream's name is the other's with a
  dot and more behind it, and the shorter one's tool is named to match.
* `routes_iff`: the catalog routes exactly when no such pair is listed and passes
  the filters.
* `dotted_upstream_takes_over`: `a` and `a.b` in one configuration.
-/
namespace MinMcp.L4.ToolIds

open MinMcp.Core MinMcp.Core.Text MinMcp.L4.Catalogs

/-- mirrors src/config.rs:46-140, the fields validation reads -/
structure UpstreamConfig where
  name : String
  command : Option String
  url : Option String
  spec : Option String
  baseUrl : Option String
  authEnv : Option String
  apiKey : Option String

def debugName (s : String) : String := String.ofList (debugStr s.toList)

/-- The checks of one upstream.
mirrors src/config.rs:1205-1228 -/
def checkUpstream (up : UpstreamConfig) : Except String Unit :=
  match [up.command.isSome, up.url.isSome, up.spec.isSome].count true with
  | 0 => .error (s!"upstream {debugName up.name} needs exactly one of `command` (MCP server subprocess), " ++
      "`url` (remote MCP server), or `spec` (OpenAPI document)")
  | 1 =>
    if up.spec.isSome && up.baseUrl.isNone then
      .error s!"spec upstream {debugName up.name} needs `base_url`"
    else if up.authEnv.isSome && up.apiKey.isSome then
      .error (s!"upstream {debugName up.name} sets both `auth_env` and `api_key`; use one (api_key takes a " ++
        "${…} reference, auth_env names an env var)")
    else .ok ()
  | _ => .error (s!"upstream {debugName up.name} sets more than one of `command`, `url`, and `spec`; an " ++
      "upstream is exactly one kind — split it into separate upstreams")

/-- The loop over the upstreams, with the names seen so far; the other checks read
nothing of them.
mirrors src/config.rs:1193-1231 -/
def validate (seen : List String) : List UpstreamConfig → Except String Unit
  | [] => .ok ()
  | up :: ups =>
    if up.name ∈ seen then
      .error (s!"duplicate upstream name {debugName up.name}: tool ids are namespaced by upstream name, " ++
        "so duplicates would silently route one upstream's calls to the other. Rename one of them.")
    else (checkUpstream up).bind fun _ => validate (up.name :: seen) ups

/-- The upstreams that were connected, in the order of the configuration; those
filtered out and the optional ones that failed are left out.
mirrors src/surface.rs:144-178 -/
def Connected (ups : List UpstreamConfig) (upstreams : List Backend) : Prop :=
  (upstreams.map Backend.name).Sublist (ups.map UpstreamConfig.name)

/-- Tools of different upstreams or names have different ids, and under its id each
tool's upstream and name are found. -/
def Routes (cat : Catalog) : Prop :=
  (∀ t ∈ cat.tools, ∀ t' ∈ cat.tools, t.id = t'.id → t.upstreamIdx = t'.upstreamIdx ∧ t.name = t'.name) ∧
    ∀ t ∈ cat.tools, ∃ t', cat.lookup t.id = some t' ∧ t'.upstreamIdx = t.upstreamIdx ∧ t'.name = t.name

/-- An upstream `u.r` lists `n` and the upstream `u` lists `r.n`, and both pass the
filters. -/
def Collide (cfg : Config) (upstreams : List Backend) (listings : List (List ToolDef)) : Prop :=
  ∃ (i j : Nat) (ui uj : Backend) (ti tj : ToolDef) (r : String), upstreams[i]? = some ui ∧
    upstreams[j]? = some uj ∧
    (∃ ts, listings[i]? = some ts ∧ ti ∈ ts) ∧ (∃ ts, listings[j]? = some ts ∧ tj ∈ ts) ∧
    uj.name = ui.name ++ "." ++ r ∧ ti.name = r ++ "." ++ tj.name ∧
    cfg.filters.passes ui.name ti.id = true ∧ cfg.filters.passes uj.name tj.id = true

/-! ## Ids -/

theorem toolId_toList (u n : String) : (toolId u n).toList = u.toList ++ '.' :: n.toList := by
  unfold toolId
  rw [String.toList_append, String.toList_append, List.append_assoc]
  rfl

/-- One id, two tools: of one upstream and name, or of nested names. -/
theorem id_eq_cases {u v m n : String} (h : toolId u m = toolId v n) :
    (u = v ∧ m = n) ∨ (∃ r, v = u ++ "." ++ r ∧ m = r ++ "." ++ n) ∨
      ∃ r, u = v ++ "." ++ r ∧ n = r ++ "." ++ m := by
  -- a dot behind one name is inside the other, or in the same place
  have side : ∀ {u v m n : String} (c : List Char), v.toList = u.toList ++ c →
      '.' :: m.toList = c ++ '.' :: n.toList →
      (u = v ∧ m = n) ∨ ∃ r, v = u ++ "." ++ r ∧ m = r ++ "." ++ n := by
    intro u v m n c hv hm
    cases c with
    | nil =>
      rw [List.append_nil] at hv
      rw [List.nil_append, List.cons.injEq] at hm
      exact Or.inl ⟨(String.toList_inj.mp hv).symm, String.toList_inj.mp hm.2⟩
    | cons d r =>
      rw [List.cons_append, List.cons.injEq] at hm
      obtain ⟨rfl, hm⟩ := hm
      refine Or.inr ⟨String.ofList r, ?_, ?_⟩
      · apply String.toList_inj.mp
        simp only [hv, String.toList_append, String.toList_ofList, List.append_assoc]
        rfl
      · apply String.toList_inj.mp
        simp only [hm, String.toList_append, String.toList_ofList, List.append_assoc]
        rfl
  have hl := congrArg String.toList h
  rw [toolId_toList, toolId_toList, List.append_eq_append_iff] at hl
  rcases hl with ⟨c, hv, hm⟩ | ⟨c, hu, hn⟩
  · rcases side c hv hm with h | h
    · exact Or.inl h
    · exact Or.inr (Or.inl h)
  · rcases side c hu hn with ⟨hvu, hnm⟩ | h
    · exact Or.inl ⟨hvu.symm, hnm.symm⟩
    · exact Or.inr (Or.inr h)

theorem id_nested (u r n : String) : toolId u (r ++ "." ++ n) = toolId (u ++ "." ++ r) n := by
  apply String.toList_inj.mp
  rw [toolId_toList, toolId_toList]
  simp only [String.toList_append, List.append_assoc]
  rfl

/-! ## Validation -/

theorem validate_nodup {seen : List String} {ups : List UpstreamConfig}
    (h : validate seen ups = .ok ()) :
    (ups.map UpstreamConfig.name).Nodup ∧ ∀ up ∈ ups, up.name ∉ seen := by
  induction ups generalizing seen with
  | nil => exact ⟨List.nodup_nil, by intro up hup; cases hup⟩
  | cons up ups ih =>
    rw [validate] at h
    split at h
    · cases h
    · next hseen =>
      cases hc : checkUpstream up with
      | error e => rw [hc] at h; cases h
      | ok u =>
        rw [hc] at h
        obtain ⟨hn, hfresh⟩ := ih h
        rw [List.map_cons, List.nodup_cons, List.forall_mem_cons]
        refine ⟨⟨?_, hn⟩, hseen, fun w hw hm => hfresh w hw (List.mem_cons_of_mem _ hm)⟩
        intro hm
        obtain ⟨w, hw, he⟩ := List.mem_map.mp hm
        exact hfresh w hw (he ▸ List.mem_cons_self)

/-- Connected upstreams of different places have different names. -/
theorem name_inj {ups : List UpstreamConfig} {upstreams : List Backend} (hv : validate [] ups = .ok ())
    (hc : Connected ups upstreams) {i j : Nat} {u v : Backend} (hi : upstreams[i]? = some u)
    (hj : upstreams[j]? = some v) (h : u.name = v.name) : i = j := by
  have hn := hc.nodup (validate_nodup hv).1
  have hmi : (upstreams.map Backend.name)[i]? = some u.name := by rw [List.getElem?_map, hi]; rfl
  have hmj : (upstreams.map Backend.name)[j]? = some u.name := by rw [List.getElem?_map, hj, h]; rfl
  obtain ⟨hlt, -⟩ := List.getElem?_eq_some_iff.mp hmi
  exact (List.getElem?_inj hlt hn).mp (hmi.trans hmj.symm)

/-! ## Routing -/

section Routing

variable {cfg : Config} {expand : String → Option String} {upstreams : List Backend}
  {listings : List (List ToolDef)} {cat : Catalog}

theorem mem_tools (ha : assemble cfg expand upstreams listings = some cat) {t : ToolDef} :
    t ∈ cat.tools ↔ ∃ (i : Nat) (up : Backend) (ts : List ToolDef) (l : ToolDef),
      upstreams[i]? = some up ∧ listings[i]? = some ts ∧ l ∈ ts ∧
        cfg.filters.passes up.name l.id = true ∧ t = served cfg l := by
  rw [assemble_tools ha, List.mem_flatMap]
  constructor
  · intro ⟨⟨up, ts⟩, hm, ht⟩
    obtain ⟨i, hi⟩ := List.mem_iff_getElem?.mp hm
    obtain ⟨hup, hts⟩ := List.getElem?_zip_eq_some.mp hi
    obtain ⟨l, hl, rfl⟩ := List.mem_map.mp ht
    obtain ⟨hl, hp⟩ := List.mem_filter.mp hl
    exact ⟨i, up, ts, l, hup, hts, hl, hp, rfl⟩
  · rintro ⟨i, up, ts, l, hup, hts, hl, hp, rfl⟩
    refine ⟨(up, ts), List.mem_iff_getElem?.mpr ⟨i, List.getElem?_zip_eq_some.mpr ⟨hup, hts⟩⟩, ?_⟩
    exact List.mem_map.mpr ⟨l, List.mem_filter.mpr ⟨hl, hp⟩, rfl⟩

/-- A nested pair of tools has one id, and only one of them is found under it. -/
theorem not_routes_of_collide (hl : AllListed upstreams listings)
    (ha : assemble cfg expand upstreams listings = some cat) (h : Collide cfg upstreams listings) :
    ¬ Routes cat := by
  obtain ⟨i, j, ui, uj, ti, tj, r, hi, hj, ⟨tsi, hli, hti⟩, ⟨tsj, hlj, htj⟩, hname, hsplit, hpi, hpj⟩ := h
  rintro ⟨hinj, -⟩
  obtain ⟨hidx, hid⟩ := hl i ui tsi hi hli ti hti
  obtain ⟨hidx', hid'⟩ := hl j uj tsj hj hlj tj htj
  have hids : ti.id = tj.id := by rw [hid, hid', hname, hsplit, id_nested]
  have hmi := (mem_tools ha).mpr ⟨i, ui, tsi, ti, hi, hli, hti, hpi, rfl⟩
  have hmj := (mem_tools ha).mpr ⟨j, uj, tsj, tj, hj, hlj, htj, hpj, rfl⟩
  obtain ⟨-, hnames⟩ := hinj _ hmi _ hmj hids
  -- the longer name is no other's name
  have hlen := congrArg (fun s => s.toList.length) (hsplit.symm.trans hnames)
  simp only [served, String.toList_append, List.length_append] at hlen
  have hdot : ".".toList.length = 1 := by decide
  omega

theorem routes_of_not_collide {ups : List UpstreamConfig} (hv : validate [] ups = .ok ())
    (hc : Connected ups upstreams) (hl : AllListed upstreams listings)
    (ha : assemble cfg expand upstreams listings = some cat) (h : ¬ Collide cfg upstreams listings) :
    Routes cat := by
  have hsound := assemble_sound hl ha
  have hinj : ∀ t ∈ cat.tools, ∀ t' ∈ cat.tools, t.id = t'.id →
      t.upstreamIdx = t'.upstreamIdx ∧ t.name = t'.name := by
    intro t ht t' ht' he
    obtain ⟨i, ui, tsi, li, hi, hli, hmi, hpi, rfl⟩ := (mem_tools ha).mp ht
    obtain ⟨j, uj, tsj, lj, hj, hlj, hmj, hpj, rfl⟩ := (mem_tools ha).mp ht'
    obtain ⟨hidx, hid⟩ := hl i ui tsi hi hli li hmi
    obtain ⟨hidx', hid'⟩ := hl j uj tsj hj hlj lj hmj
    have hids : toolId ui.name li.name = toolId uj.name lj.name := by
      rw [← hid, ← hid']
      exact he
    rcases id_eq_cases hids with ⟨hu, hn⟩ | ⟨r, hu, hn⟩ | ⟨r, hu, hn⟩
    · have hij := name_inj hv hc hi hj hu
      exact ⟨hidx.trans (hij.trans hidx'.symm), hn⟩
    · exact absurd ⟨i, j, ui, uj, li, lj, r, hi, hj, ⟨tsi, hli, hmi⟩, ⟨tsj, hlj, hmj⟩, hu, hn, hpi, hpj⟩ h
    · exact absurd ⟨j, i, uj, ui, lj, li, r, hj, hi, ⟨tsj, hlj, hmj⟩, ⟨tsi, hli, hmi⟩, hu, hn, hpj, hpi⟩ h
  refine ⟨hinj, fun t ht => ?_⟩
  obtain ⟨t', hm, hlookup, hid⟩ := hsound.lookup_id ht
  obtain ⟨hidx, hname⟩ := hinj t' hm t ht hid
  exact ⟨t', hlookup, hidx, hname⟩

end Routing

/-- **Routing.** For upstreams that validation accepts, whatever they list: ids are
told apart and lead back exactly when no two names nest around a dot. -/
theorem routes_iff (ups : List UpstreamConfig) (cfg : Config) (expand : String → Option String)
    (upstreams : List Backend) (listings : List (List ToolDef)) (cat : Catalog)
    (hv : validate [] ups = .ok ()) (hc : Connected ups upstreams)
    (hl : AllListed upstreams listings) (ha : assemble cfg expand upstreams listings = some cat) :
    Routes cat ↔ ¬ Collide cfg upstreams listings :=
  ⟨fun hr h => not_routes_of_collide hl ha h hr, routes_of_not_collide hv hc hl ha⟩

/-! ## Two configurations -/

def openConfig : Config where
  mode := .threeTool
  filters := ⟨[], []⟩
  scopes := ⟨[], false⟩
  bindingPolicy := .weak
  poisoningPolicy := .warn
  overlays := []

def commandUpstream (name : String) : UpstreamConfig := ⟨name, some "serve", none, none, none, none, none⟩

def listedTool (upstream : String) (idx : Nat) (name : String) : ToolDef :=
  toolDef upstream idx (.obj [("name", .str name)])

theorem listed_two (u v m n : String) :
    AllListed [⟨u, fun _ => none⟩, ⟨v, fun _ => none⟩] [[listedTool u 0 m], [listedTool v 1 n]] := by
  intro i up ts hup hts t ht
  match i with
  | 0 =>
    obtain rfl := Option.some.inj hup
    obtain rfl := Option.some.inj hts
    obtain rfl := List.mem_singleton.mp ht
    exact ⟨rfl, rfl⟩
  | 1 =>
    obtain rfl := Option.some.inj hup
    obtain rfl := Option.some.inj hts
    obtain rfl := List.mem_singleton.mp ht
    exact ⟨rfl, rfl⟩
  | i + 2 => cases hup

/-- `crm` lists `get` and `erp` lists `get`: neither name holds the other. -/
theorem crm_and_erp_route :
    ∃ cat, assemble openConfig some [⟨"crm", fun _ => none⟩, ⟨"erp", fun _ => none⟩]
        [[listedTool "crm" 0 "get"], [listedTool "erp" 1 "get"]] = some cat ∧ Routes cat := by
  have hs : (assemble openConfig some [⟨"crm", fun _ => none⟩, ⟨"erp", fun _ => none⟩]
      [[listedTool "crm" 0 "get"], [listedTool "erp" 1 "get"]]).isSome = true := by decide +kernel
  obtain ⟨cat, ha⟩ := Option.isSome_iff_exists.mp hs
  have hc : Connected [commandUpstream "crm", commandUpstream "erp"]
      [⟨"crm", fun _ => none⟩, ⟨"erp", fun _ => none⟩] := List.Sublist.refl _
  refine ⟨cat, ha, (routes_iff [commandUpstream "crm", commandUpstream "erp"] openConfig some _ _ cat
    (by decide +kernel) hc (listed_two "crm" "erp" "get" "get") ha).mpr ?_⟩
  rintro ⟨i, j, ui, uj, ti, tj, r, hi, hj, -, -, hname, -⟩
  have hlen : ∀ (k : Nat) (u : Backend),
      ([⟨"crm", fun _ => none⟩, ⟨"erp", fun _ => none⟩] : List Backend)[k]? = some u →
        u.name.toList.length = 3 := by
    intro k u hu
    match k with
    | 0 => obtain rfl := Option.some.inj hu; decide
    | 1 => obtain rfl := Option.some.inj hu; decide
    | k + 2 => cases hu
  have he := congrArg (fun s => s.toList.length) hname
  simp only [String.toList_append, List.length_append, hlen i ui hi, hlen j uj hj] at he
  have hdot : ".".toList.length = 1 := by decide
  omega

/-- Validation accepts `a` beside `a.b`. When `a` lists `b.c` and `a.b` lists `c`, the
one id `a.b.c` leads to the second. -/
theorem dotted_upstream_takes_over :
    validate [] [commandUpstream "a", commandUpstream "a.b"] = .ok () ∧
      ∃ cat, assemble openConfig some [⟨"a", fun _ => none⟩, ⟨"a.b", fun _ => none⟩]
          [[listedTool "a" 0 "b.c"], [listedTool "a.b" 1 "c"]] = some cat ∧
        (cat.lookup "a.b.c").map ToolDef.upstreamIdx = some 1 ∧ ¬ Routes cat := by
  refine ⟨by decide +kernel, ?_⟩
  have hs : ((assemble openConfig some [⟨"a", fun _ => none⟩, ⟨"a.b", fun _ => none⟩]
      [[listedTool "a" 0 "b.c"], [listedTool "a.b" 1 "c"]]).bind fun cat =>
        (cat.lookup "a.b.c").map ToolDef.upstreamIdx) = some 1 := by decide +kernel
  obtain ⟨cat, ha, hlookup⟩ := Option.bind_eq_some_iff.mp hs
  refine ⟨cat, ha, hlookup, not_routes_of_collide (listed_two "a" "a.b" "b.c" "c") ha ?_⟩
  exact ⟨0, 1, _, _, listedTool "a" 0 "b.c", listedTool "a.b" 1 "c", "b", rfl, rfl,
    ⟨_, rfl, List.mem_singleton.mpr rfl⟩, ⟨_, rfl, List.mem_singleton.mpr rfl⟩,
    by decide +kernel, by decide +kernel, rfl, rfl⟩

end MinMcp.L4.ToolIds
