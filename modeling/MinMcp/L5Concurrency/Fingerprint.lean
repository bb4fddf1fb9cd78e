import MinMcp.Core.Json.Injective
import MinMcp.L4App.ExposedNames
import MinMcp.L4App.Workflow
import MinMcp.L5Concurrency.ReadCache
import MinMcp.L5Concurrency.Reindex

/-!
# What the fingerprint of a listing covers

A re-list is taken for no change when `listing_fingerprint` is the old one
(src/surface/catalog.rs:222-229, 298). It covers id, description and input schema of
each tool, in any order. What clients and policies read of a catalog is in `declared`
(src/surface.rs:484-503), `policy` (src/surface/cache.rs:67-76, src/surface/dispatch.rs:150-156)
and `effect` (src/surface/workflow.rs:59-64).

FNV is taken to be injective on the texts it is fed here. Listings may repeat an id; then
the last tool counts.

* `fed_inj`: the fed text determines description and schema.
* `lookup_relisted`: under each id the two catalogs have the same tool, or the last ones
  of the two listings.
* `same_text`: these have one text if the id is listed once.
* `same_observable_iff`: with one fingerprint, the catalogs are observed alike exactly
  when the fields outside of it agree (`Agree`).
* `read_only_is_not_covered`: two listings that differ in a `readOnlyHint`.
-/
namespace MinMcp.L5.Fingerprint

open MinMcp.Core MinMcp.L4.Catalogs MinMcp.L4.Vet
open MinMcp.L5.Reindex (listingFingerprint)
open MinMcp.L5.ReadCache (cacheAllowed)
open MinMcp.L4.Workflows (Effect)

/-- `reshapes` says whether an overlay changes what the tool returns. -/
structure Proxy where
  cfg : Config
  upstreams : List Backend
  reshapes : String → Bool
  caching : ReadCache.Config

/-! ## What is observed -/

section Observed

variable (px : Proxy) (cat : Catalog)

/-- mirrors src/surface.rs:488-498 -/
def definition (name id : String) (t : ToolDef) : Json :=
  let fields := OrderedMap.extend
    [("name", .str name), ("description", .str t.description),
      ("inputSchema", resolvedSchema px.upstreams cat t)]
    t.extra
  .obj (if px.reshapes id then OrderedMap.swapRemove "outputSchema" fields else fields)

/-- The tool an exposed name leads to, and its definition in the caller's list.
mirrors src/surface.rs:484-487 -/
def declared (granted : List String) (name : String) : Option (String × Json) :=
  (cat.exposed.lookup name).bind fun id =>
    ((cat.lookup id).filter fun _ => px.cfg.scopes.visible granted id).map fun t =>
      (id, definition px cat name id t)

structure Policy where
  cacheable : Bool
  isRead : Bool
  deriving DecidableEq

/-- mirrors src/surface/dispatch.rs:150-156 -/
def policy (id : String) : Option Policy :=
  (cat.lookup id).map fun t =>
    let cacheable := cacheAllowed px.caching id t.readOnly
    ⟨cacheable, t.readOnly = some true || cacheable⟩

/-- mirrors src/surface/workflow.rs:59-64 -/
def effect (id : String) : Effect :=
  if (cat.lookup id).bind ToolDef.readOnly = some true then .read else .write

end Observed

/-- Both catalogs list, classify and treat everything alike; a definition is compared
field by field. -/
structure SameObservable (px : Proxy) (cat cat' : Catalog) : Prop where
  listed : ∀ granted name key, (declared px cat granted name).map (fun d => (d.1, d.2.get key)) =
    (declared px cat' granted name).map fun d => (d.1, d.2.get key)
  policies : ∀ id, policy px cat id = policy px cat' id
  effects : ∀ id, effect cat id = effect cat' id

/-! ## The fed text -/

def fed (t : ToolDef) : String := t.description ++ "\x00" ++ t.inputSchema.render

/-- Two texts that are split at their last `a`. -/
theorem split_last {a : Char} {x y u v : List Char} (hu : a ∉ u) (hv : a ∉ v)
    (h : x ++ a :: u = y ++ a :: v) :
    x = y ∧ u = v := by
  have hnil : ∀ {c u v : List Char}, a ∉ u → a :: u = c ++ a :: v → c = [] := by
    intro c u v hu h
    cases c with
    | nil => rfl
    | cons d c =>
      have hmem : a ∈ c ++ a :: v := List.mem_append_right _ List.mem_cons_self
      exact absurd ((List.cons.inj h).2 ▸ hmem) hu
  rcases List.append_eq_append_iff.mp h with ⟨c, rfl, hc⟩ | ⟨c, rfl, hc⟩
  · obtain rfl := hnil hu hc
    exact ⟨(List.append_nil x).symm, (List.cons.inj hc).2⟩
  · obtain rfl := hnil hv hc
    exact ⟨List.append_nil y, (List.cons.inj hc).2.symm⟩

/-- Description and schema can be told apart in the text. -/
theorem fed_inj {t u : ToolDef} (h : fed t = fed u) :
    t.description = u.description ∧ t.inputSchema = u.inputSchema := by
  have hl := congrArg String.toList h
  have hz : "\x00".toList = ['\x00'] := rfl
  simp only [fed, String.toList_append, Json.render_toList, hz, List.append_assoc, List.singleton_append] at hl
  obtain ⟨hd, hs⟩ := split_last (Json.control_notMem_print (by decide) _)
    (Json.control_notMem_print (by decide) _) hl
  exact ⟨String.toList_inj.mp hd, Json.print_injective hs⟩

/-- The value of a hexadecimal text. -/
def hexNat (cs : List Char) (n : Nat) : Nat :=
  cs.foldl (fun n c => 16 * n + (JsonReader.hexValue c).getD 0) n

theorem hexNat_toDigits (n : Nat) : hexNat (Nat.toDigits 16 n) 0 = n := by
  have hdigit : ∀ {m}, m < 16 → ∀ k, hexNat [m.digitChar] k = 16 * k + m := by
    intro m hm k
    have hv : JsonReader.hexValue m.digitChar = some m := JsonReader.hexValue_hexDigit hm
    simp [hexNat, hv]
  induction n using Nat.base_induction 16 (by decide) with
  | single m hm => rw [Nat.toDigits_of_lt_base hm, hdigit hm]; omega
  | digit m k hk hm ih =>
    rw [← Nat.toDigits_append_toDigits (by decide) hm hk, hexNat, List.foldl_append]
    change hexNat (Nat.toDigits 16 k) (hexNat (Nat.toDigits 16 m) 0) = 16 * m + k
    rw [ih, Nat.toDigits_of_lt_base hk, hdigit hk]

theorem hex16_injective {m n : UInt64} (h : hex16 m = hex16 n) : m = n := by
  have hzero : ∀ k, hexNat (List.replicate k '0') 0 = 0 := by
    intro k
    induction k with
    | zero => rfl
    | succ k ih => exact ih
  have hvalue : ∀ n : UInt64, hexNat (hex16 n).toList 0 = n.toNat := by
    intro n
    unfold hex16
    rw [String.toList_ofList, hexNat, List.foldl_append]
    change hexNat (Nat.toDigits 16 n.toNat) (hexNat (List.replicate _ '0') 0) = n.toNat
    rw [hzero, hexNat_toDigits]
  have hv := hvalue m
  rw [h, hvalue n] at hv
  exact UInt64.toNat_inj.mp hv.symm

/-! ## Two listings with one fingerprint -/

/-- One upstream's listing before and after. -/
structure Relist where
  listings : List (List ToolDef)
  idx : Nat
  up : Backend
  old : List ToolDef
  new : List ToolDef

/-- mirrors src/upstream.rs:187-191 -/
def forwardedFields : List String := ["title", "annotations", "outputSchema", "icons", "_meta"]

/-- The catalogs of the two, from listings as the listing code builds them. -/
structure Relist.Serves (r : Relist) (px : Proxy) (expand : String → Option String)
    (cat cat' : Catalog) : Prop where
  upstream : px.upstreams[r.idx]? = some r.up
  inside : r.idx < r.listings.length
  listed : AllListed px.upstreams (r.listings.set r.idx r.old)
  relisted : AllListed px.upstreams (r.listings.set r.idx r.new)
  plain : ∀ t ∈ r.old ++ r.new, ∀ e ∈ t.extra, e.1 ∈ forwardedFields
  before : assemble px.cfg expand px.upstreams (r.listings.set r.idx r.old) = some cat
  after : assemble px.cfg expand px.upstreams (r.listings.set r.idx r.new) = some cat'

/-- FNV tells the texts of these tools apart. -/
def Relist.Hashed (r : Relist) : Prop :=
  ∀ t ∈ r.old, ∀ u ∈ r.new, fnv1a (fed t) = fnv1a (fed u) → fed t = fed u

def Repeated (tools : List ToolDef) (id : String) : Prop := 1 < tools.countP fun t => t.id = id

theorem zip_set {α β : Type} {us : List α} {ls : List β} {i : Nat} {u : α} (hu : us[i]? = some u)
    (hi : i < ls.length) : ∃ xs ys, ∀ l, us.zip (ls.set i l) = xs ++ (u, l) :: ys := by
  induction i generalizing us ls with
  | zero =>
    obtain ⟨u', us, rfl⟩ := List.exists_cons_of_ne_nil (l := us) (by rintro rfl; cases hu)
    obtain ⟨l', ls, rfl⟩ := List.exists_cons_of_ne_nil (l := ls) (by rintro rfl; cases hi)
    obtain rfl := Option.some.inj hu
    exact ⟨[], us.zip ls, fun l => rfl⟩
  | succ i ih =>
    obtain ⟨u', us, rfl⟩ := List.exists_cons_of_ne_nil (l := us) (by rintro rfl; cases hu)
    obtain ⟨l', ls, rfl⟩ := List.exists_cons_of_ne_nil (l := ls) (by rintro rfl; cases hi)
    have hu' : us[i]? = some u := hu
    obtain ⟨xs, ys, h⟩ := ih hu' (Nat.lt_of_succ_lt_succ hi)
    exact ⟨(u', l') :: xs, ys, fun l => by rw [List.set_cons_succ, List.zip_cons_cons, h l, List.cons_append]⟩

section Relisted

variable {px : Proxy} {expand : String → Option String} {cat cat' : Catalog} {r : Relist}

theorem fingerprint_perm {ts us : List ToolDef} (h : listingFingerprint ts = listingFingerprint us) :
    (ts.map fun t => (t.id, toolFingerprint t.description t.inputSchema)).Perm
      (us.map fun t => (t.id, toolFingerprint t.description t.inputSchema)) := by
  unfold listingFingerprint at h
  have hp := List.mergeSort_perm
    (ts.map fun t => (t.id, toolFingerprint t.description t.inputSchema)) Reindex.pairLe
  rw [h] at hp
  exact hp.symm.trans (List.mergeSort_perm _ _)

/-- Each tool of one listing has a tool of its id and fingerprint in the other. -/
theorem fingerprint_mem {ts us : List ToolDef} (h : listingFingerprint ts = listingFingerprint us)
    {t : ToolDef}
    (ht : t ∈ ts) : ∃ u ∈ us, u.id = t.id ∧
      toolFingerprint u.description u.inputSchema = toolFingerprint t.description t.inputSchema := by
  have hm := (fingerprint_perm h).mem_iff.mp (List.mem_map_of_mem ht)
  obtain ⟨u, hu, he⟩ := List.mem_map.mp hm
  exact ⟨u, hu, congrArg Prod.fst he, congrArg Prod.snd he⟩

/-- A tool served under an id is a listed one, its description replaced by the overlay's. -/
theorem named_served {cfg : Config} {up : Backend} {ts : List ToolDef} {id : String} {t : ToolDef}
    (h : named id (servedOf cfg (up, ts)) = some t) :
    ∃ u ∈ ts, u.id = id ∧ cfg.filters.passes up.name id = true ∧ t = served cfg u := by
  have hm := List.mem_of_getLast? h
  obtain ⟨hs, hid⟩ := List.mem_filter.mp hm
  obtain ⟨u, hu, rfl⟩ := List.mem_map.mp hs
  obtain ⟨hu, hp⟩ := List.mem_filter.mp hu
  have hui : u.id = id := of_decide_eq_true hid
  exact ⟨u, hu, hui, hui ▸ hp, rfl⟩

theorem named_plain {cfg : Config} {up : Backend} {ts : List ToolDef} {id : String} {t : ToolDef}
    (hp : ∀ u ∈ ts, ∀ e ∈ u.extra, e.1 ∈ forwardedFields) (h : named id (servedOf cfg (up, ts)) = some t) :
    ∀ e ∈ t.extra, e.1 ∈ forwardedFields := by
  obtain ⟨u, hu, -, -, rfl⟩ := named_served h
  exact hp u hu

theorem named_served_isSome {cfg : Config} {up : Backend} {ts : List ToolDef} {u : ToolDef} (hu : u ∈ ts)
    (hp : cfg.filters.passes up.name u.id = true) : ∃ t, named u.id (servedOf cfg (up, ts)) = some t := by
  have hm : served cfg u ∈ (servedOf cfg (up, ts)).filter fun t => t.id = u.id :=
    List.mem_filter.mpr ⟨List.mem_map_of_mem (List.mem_filter.mpr ⟨hu, hp⟩), decide_eq_true rfl⟩
  exact ⟨_, List.getLast?_eq_some_getLast (List.ne_nil_of_mem hm)⟩

theorem named_served_none {cfg : Config} {up : Backend} {ts us : List ToolDef}
    (h : listingFingerprint ts = listingFingerprint us) {id : String}
    (hn : named id (servedOf cfg (up, ts)) = none) : named id (servedOf cfg (up, us)) = none := by
  cases hs : named id (servedOf cfg (up, us)) with
  | none => rfl
  | some t =>
    obtain ⟨u, hu, rfl, hp, -⟩ := named_served hs
    obtain ⟨w, hw, hid, -⟩ := fingerprint_mem h.symm hu
    have hp' : cfg.filters.passes up.name w.id = true := hid ▸ hp
    obtain ⟨t', ht'⟩ := named_served_isSome hw hp'
    rw [hid, hn] at ht'
    cases ht'

/-- **Lookup.** Under an id both catalogs have the same tool, or the last ones of the two
listings. -/
theorem lookup_relisted (h : r.Serves px expand cat cat')
    (hf : listingFingerprint r.old = listingFingerprint r.new)
    (id : String) : cat.lookup id = cat'.lookup id ∨ ∃ t t', cat.lookup id = some t ∧ cat'.lookup id = some t' ∧
      named id (servedOf px.cfg (r.up, r.old)) = some t ∧
      named id (servedOf px.cfg (r.up, r.new)) = some t' := by
  obtain ⟨xs, ys, hzip⟩ := zip_set h.upstream h.inside
  have hlookup : ∀ ts c, assemble px.cfg expand px.upstreams (r.listings.set r.idx ts) = some c →
      c.lookup id = (named id (ys.flatMap (servedOf px.cfg))).or
        ((named id (servedOf px.cfg (r.up, ts))).or (named id (xs.flatMap (servedOf px.cfg)))) := by
    intro ts c ha
    rw [lookup_eq ha, assemble_tools ha, hzip, List.flatMap_append, List.flatMap_cons, named_append,
      named_append,
      Option.or_assoc]
  rw [hlookup _ _ h.before, hlookup _ _ h.after]
  cases named id (ys.flatMap (servedOf px.cfg)) with
  | some t => exact Or.inl rfl
  | none =>
    cases hold : named id (servedOf px.cfg (r.up, r.old)) with
    | none => exact Or.inl (by rw [named_served_none hf hold])
    | some t =>
      cases hnew : named id (servedOf px.cfg (r.up, r.new)) with
      | none =>
        rw [named_served_none hf.symm hnew] at hold
        cases hold
      | some t' => exact Or.inr ⟨t, t', rfl, rfl, rfl, rfl⟩

theorem eq_of_not_repeated {ts : List ToolDef} {id : String} (h : ¬ Repeated ts id) {t u : ToolDef}
    (ht : t ∈ ts)
    (hu : u ∈ ts) (hti : t.id = id) (hui : u.id = id) : t = u := by
  unfold Repeated at h
  rw [List.countP_eq_length_filter] at h
  have hmt : t ∈ ts.filter fun t => t.id = id := List.mem_filter.mpr ⟨ht, decide_eq_true hti⟩
  have hmu : u ∈ ts.filter fun t => t.id = id := List.mem_filter.mpr ⟨hu, decide_eq_true hui⟩
  have hlen : (ts.filter fun t => t.id = id).length = 1 := by
    have := List.length_pos_of_mem hmt
    omega
  obtain ⟨w, hw⟩ := List.length_eq_one_iff.mp hlen
  rw [hw, List.mem_singleton] at hmt hmu
  rw [hmt, hmu]

/-- What the definition shows beside name and forwarded fields is read from these. -/
structure SameText (t t' : ToolDef) : Prop where
  idx : t.upstreamIdx = t'.upstreamIdx
  id : t.id = t'.id
  name : t.name = t'.name
  description : t.description = t'.description
  schema : t.inputSchema = t'.inputSchema

/-- **One text.** An id that is listed once has one description and schema. -/
theorem same_text (h : r.Serves px expand cat cat')
    (hf : listingFingerprint r.old = listingFingerprint r.new)
    (hh : r.Hashed) {id : String} (hr : ¬ Repeated r.old id) {t t' : ToolDef}
    (ht : named id (servedOf px.cfg (r.up, r.old)) = some t)
    (ht' : named id (servedOf px.cfg (r.up, r.new)) = some t') :
    SameText t t' := by
  obtain ⟨u, hu, hui, -, rfl⟩ := named_served ht
  obtain ⟨u', hu', hui', -, rfl⟩ := named_served ht'
  obtain ⟨w, hw, hwi, hfp⟩ := fingerprint_mem hf.symm hu'
  obtain rfl : w = u := eq_of_not_repeated hr hw hu (hwi.trans hui') hui
  obtain ⟨hd, hs⟩ := fed_inj (hh w hw u' hu' (hex16_injective hfp))
  obtain ⟨hidx, hid⟩ := h.listed r.idx r.up r.old h.upstream (List.getElem?_set_self h.inside) w hw
  obtain ⟨hidx', hid'⟩ := h.relisted r.idx r.up r.new h.upstream (List.getElem?_set_self h.inside) u' hu'
  have hname : w.name = u'.name := by
    rw [hid, hid'] at hwi
    unfold toolId at hwi
    have hl := congrArg String.toList hwi
    simp only [String.toList_append] at hl
    exact String.toList_inj.mp (List.append_cancel_left hl)
  refine ⟨hidx.trans hidx'.symm, hwi, hname, ?_, hs⟩
  unfold served
  rw [hwi, hd]

end Relisted

/-! ## The schema a tool is shown with -/

section Schema

variable {cfg : Config} {expand : String → Option String} {upstreams : List Backend}

/-- The schema with the overlay's field patches, where it has any. -/
def patched (cfg : Config) (upstreams : List Backend) (t : ToolDef) : Option Json :=
  (cfg.overlayFor t.id).bind fun o =>
    if o.fields.isEmpty then none else some (applyFieldPatches (rawResolved upstreams t) o.fields)

def schemaOf (cfg : Config) (upstreams : List Backend) (t : ToolDef) : Json :=
  (patched cfg upstreams t).getD (rawResolved upstreams t)

/-- The patched schemas are those of the tools the ids lead to. -/
structure Patched (cfg : Config) (upstreams : List Backend) (cat : Catalog) : Prop where
  found : ∀ id t, cat.lookup id = some t → cat.patchedSchemas.lookup id = patched cfg upstreams t
  unpatched : ∀ id, (∀ o, cfg.overlayFor id = some o → o.fields.isEmpty = true) →
    cat.patchedSchemas.lookup id = none

theorem patched_eq_none {t : ToolDef} (h : ∀ o, cfg.overlayFor t.id = some o → o.fields.isEmpty = true) :
    patched cfg upstreams t = none := by
  unfold patched
  cases ho : cfg.overlayFor t.id with
  | none => rfl
  | some o => rw [Option.bind_some, if_pos (h o ho)]

/-- A tool is added at the end, its patched schema, if it has one, under its id. -/
theorem Patched.add {cat cat' : Catalog} {t : ToolDef} (h : Patched cfg upstreams cat) (hf : Filed cat)
    (hf' : Filed cat') (htools : cat'.tools = cat.tools ++ [t])
    (hp : cat'.patchedSchemas = (patched cfg upstreams t).elim cat.patchedSchemas fun s =>
      OrderedMap.insert t.id s cat.patchedSchemas) : Patched cfg upstreams cat' := by
  have hother : ∀ {id}, id ≠ t.id → cat'.patchedSchemas.lookup id = cat.patchedSchemas.lookup id := by
    intro id hid
    rw [hp]
    cases patched cfg upstreams t with
    | none => rfl
    | some s => exact OrderedMap.lookup_insert_of_ne hid s _
  have hself : cat'.patchedSchemas.lookup t.id =
      (patched cfg upstreams t).or (cat.patchedSchemas.lookup t.id) := by
    rw [hp]
    cases patched cfg upstreams t with
    | none => rfl
    | some s => exact OrderedMap.lookup_insert_self t.id s _
  have hnone : patched cfg upstreams t = none → cat.patchedSchemas.lookup t.id = none := by
    intro hn
    refine h.unpatched t.id fun o ho => ?_
    unfold patched at hn
    rw [ho, Option.bind_some] at hn
    by_contra hne
    rw [if_neg hne] at hn
    cases hn
  refine ⟨fun id u hu => ?_, fun id hun => ?_⟩
  · rw [hf'.last, htools, named_append] at hu
    by_cases hid : id = t.id
    · obtain rfl : t = u := by simpa [named, hid] using hu
      rw [hid, hself]
      cases hpt : patched cfg upstreams t with
      | none => rw [hnone hpt, Option.none_or]
      | some s => rfl
    · have hnot : named id [t] = none := by simp [named, Ne.symm hid]
      rw [hnot, Option.none_or, ← hf.last] at hu
      rw [hother hid]
      exact h.found id u hu
  · by_cases hid : id = t.id
    · rw [hid] at hun ⊢
      rw [hself, patched_eq_none hun, Option.none_or]
      exact h.unpatched _ hun
    · rw [hother hid]
      exact h.unpatched id hun

theorem addTool_patched {up : Backend} {cat cat' : Catalog} {t : ToolDef} (hf : Filed cat)
    (h : Patched cfg upstreams cat) (hup : upstreams[t.upstreamIdx]? = some up)
    (ha : addTool cfg expand up cat t = some cat') : Patched cfg upstreams cat' := by
  have hf' := addTool_filed hf ha
  have hraw : rawResolved upstreams t = (up.resolvedSchema t.name).getD t.inputSchema := by
    unfold rawResolved
    rw [hup, Option.bind_some]
  rcases addTool_cases ha with ⟨-, rfl⟩ | ⟨-, hadd⟩
  · exact h
  · refine h.add hf hf' hadd.tools ?_
    have hp : patched cfg upstreams (served cfg t) = patched cfg upstreams t := rfl
    rw [hadd.patchedSchemas, hp]
    unfold patched
    cases cfg.overlayFor t.id with
    | none => rfl
    | some o =>
      rw [Option.bind_some, hraw]
      by_cases he : o.fields.isEmpty = true
      · simp only [if_pos he]
        rfl
      · simp only [if_neg he]
        rfl

/-- A tool is shown with its own schema, patched. -/
theorem resolvedSchema_eq {listings : List (List ToolDef)} {cat : Catalog}
    (hl : AllListed upstreams listings)
    (ha : assemble cfg expand upstreams listings = some cat) {id : String} {t : ToolDef}
    (ht : cat.lookup id = some t) : resolvedSchema upstreams cat t = schemaOf cfg upstreams t := by
  have hid : t.id = id := ((assemble_sound hl ha).lookup ht).1
  have hp : Filed cat ∧ Patched cfg upstreams cat := by
    refine assemble_induction (P := fun c => Filed c ∧ Patched cfg upstreams c) ha ?_ ?_ ?_
    · refine ⟨filed_empty, ?_, fun _ _ => rfl⟩
      intro id t h
      cases h
    · intro l hm t ht c c' ⟨hf, hp⟩ hc
      obtain ⟨i, hi⟩ := List.mem_iff_getElem?.mp hm
      obtain ⟨hup, hts⟩ := List.getElem?_zip_eq_some.mp hi
      have hidx := (hl i l.1 l.2 hup hts t ht).1
      exact ⟨addTool_filed hf hc, addTool_patched hf hp (hidx ▸ hup) hc⟩
    · intro c ⟨hf, hp⟩
      exact ⟨⟨hf.inside, hf.last⟩, ⟨hp.found, hp.unpatched⟩⟩
  unfold resolvedSchema schemaOf
  rw [hid, hp.2.found id t ht]

end Schema

/-! ## Exposed names -/

section Exposed

variable {cfg : Config} {expand : String → Option String} {upstreams : List Backend}
  {listings : List (List ToolDef)} {cat : Catalog}

theorem assemble_exposed (ha : assemble cfg expand upstreams listings = some cat) :
    cat.exposed = exposedNames cfg.mode cat.tools := by
  unfold assemble at ha
  rw [Option.map_eq_some_iff] at ha
  obtain ⟨c, -, rfl⟩ := ha
  rfl

theorem lookup_isSome {t : ToolDef} (ha : assemble cfg expand upstreams listings = some cat)
    (ht : t ∈ cat.tools) : ∃ u, cat.lookup t.id = some u := by
  have hm : t ∈ cat.tools.filter fun u => u.id = t.id := List.mem_filter.mpr ⟨ht, decide_eq_true rfl⟩
  rw [lookup_eq ha]
  exact ⟨_, List.getLast?_eq_some_getLast (List.ne_nil_of_mem hm)⟩

/-- A declared name leads to a tool. -/
theorem exposed_known (ha : assemble cfg expand upstreams listings = some cat) {name id : String}
    (h : cat.exposed.lookup name = some id) : ∃ t, cat.lookup id = some t := by
  rw [assemble_exposed ha] at h
  cases hm : cfg.mode with
  | threeTool =>
    rw [hm] at h
    cases h
  | passthrough =>
    rw [hm] at h
    have hid : id ∈ (L4.Exposed.names cat.tools).map Prod.snd :=
      List.mem_map_of_mem (OrderedMap.mem_of_lookup h)
    rw [L4.Exposed.exposed_snd] at hid
    obtain ⟨t, ht, rfl⟩ := List.mem_map.mp hid
    exact lookup_isSome ha ht

/-- In passthrough mode every tool has a name. -/
theorem exposed_of_lookup (ha : assemble cfg expand upstreams listings = some cat)
    (hm : cfg.mode = .passthrough)
    {id : String} {t : ToolDef} (ht : cat.lookup id = some t) : ∃ name, cat.exposed.lookup name = some id := by
  rw [lookup_eq ha] at ht
  obtain ⟨hin, hid⟩ := List.mem_filter.mp (List.mem_of_getLast? ht)
  have hsnd : t.id ∈ (L4.Exposed.names cat.tools).map Prod.snd := by
    rw [L4.Exposed.exposed_snd]
    exact List.mem_map_of_mem hin
  obtain ⟨e, he, hei⟩ := List.mem_map.mp hsnd
  refine ⟨e.1, ?_⟩
  rw [assemble_exposed ha, hm, ← of_decide_eq_true hid, ← hei]
  exact OrderedMap.lookup_of_mem (L4.Exposed.nodup_exposed cat.tools) he

end Exposed

/-! ## Observed alike -/

/-- What passthrough forwards of the fields the fingerprint leaves out. -/
def forwarded (px : Proxy) (id : String) (t : ToolDef) (key : String) : Option Json :=
  if key = "outputSchema" ∧ px.reshapes id = true then none else t.extra.reverse.lookup key

/-- Some caller may see it. -/
def Seen (px : Proxy) (id : String) : Prop := ∃ granted, px.cfg.scopes.visible granted id = true

/-- The two catalogs agree where the fingerprint does not look. -/
structure Agree (px : Proxy) (old : List ToolDef) (cat cat' : Catalog) : Prop where
  names : ∀ id, Seen px id → ∀ name, cat.exposed.lookup name = some id ↔ cat'.exposed.lookup name = some id
  readOnly : ∀ id t t', cat.lookup id = some t → cat'.lookup id = some t' →
    (t.readOnly = some true ↔ t'.readOnly = some true)
  extras : px.cfg.mode = .passthrough → ∀ id t t', Seen px id → cat.lookup id = some t →
    cat'.lookup id = some t' →
    ∀ key, forwarded px id t key = forwarded px id t' key
  repeated : px.cfg.mode = .passthrough → ∀ id t t', Seen px id → cat.lookup id = some t →
    cat'.lookup id = some t' →
    Repeated old id → t.description = t'.description ∧
      schemaOf px.cfg px.upstreams t = schemaOf px.cfg px.upstreams t'

section Definitions

variable {px : Proxy} {cat : Catalog}

theorem declared_eq_some {granted : List String} {name id : String} {d : Json} :
    declared px cat granted name = some (id, d) ↔ cat.exposed.lookup name = some id ∧
      px.cfg.scopes.visible granted id = true ∧
        ∃ t, cat.lookup id = some t ∧ d = definition px cat name id t := by
  unfold declared
  simp only [Option.bind_eq_some_iff, Option.map_eq_some_iff, Option.filter_eq_some_iff, Prod.mk.injEq]
  constructor
  · rintro ⟨id', he, t, ⟨ht, hv⟩, rfl, rfl⟩
    exact ⟨he, hv, t, ht, rfl⟩
  · rintro ⟨he, hv, t, ht, rfl⟩
    exact ⟨id, he, t, ⟨ht, hv⟩, rfl, rfl⟩

/-- The fields of a definition. -/
theorem definition_get (name id : String) (t : ToolDef) (key : String) :
    (definition px cat name id t).get key =
      (forwarded px id t key).or (List.lookup key [("name", .str name), ("description", .str t.description),
        ("inputSchema", resolvedSchema px.upstreams cat t)]) := by
  have hbase : (OrderedMap.keys [("name", Json.str name), ("description", Json.str t.description),
      ("inputSchema", resolvedSchema px.upstreams cat t)]).Nodup := by
    show (["name", "description", "inputSchema"] : List String).Nodup
    decide
  have hn := OrderedMap.nodup_extend hbase t.extra
  unfold definition forwarded
  change List.lookup key _ = _
  by_cases hr : px.reshapes id = true
  · rw [if_pos hr]
    by_cases hk : key = "outputSchema"
    · rw [hk, OrderedMap.lookup_swapRemove_self hn, if_pos ⟨rfl, hr⟩]
      rfl
    · rw [OrderedMap.lookup_swapRemove_of_ne hk hn, OrderedMap.lookup_extend, if_neg fun h => hk h.1]
  · rw [if_neg hr, OrderedMap.lookup_extend, if_neg fun h => hr h.2]

theorem forwarded_base {id : String} {t : ToolDef} (hp : ∀ e ∈ t.extra, e.1 ∈ forwardedFields)
    {key : String}
    (hk : key ∉ forwardedFields) : forwarded px id t key = none := by
  unfold forwarded
  split
  · rfl
  · refine OrderedMap.lookup_eq_none.mpr fun hmem => hk ?_
    obtain ⟨e, he, rfl⟩ := List.mem_map.mp hmem
    exact hp e (List.mem_reverse.mp he)

end Definitions

theorem SameText.schemaOf {px : Proxy} {t t' : ToolDef} (h : SameText t t') :
    schemaOf px.cfg px.upstreams t = schemaOf px.cfg px.upstreams t' := by
  have hraw : rawResolved px.upstreams t = rawResolved px.upstreams t' := by
    unfold rawResolved
    rw [h.idx, h.name, h.schema]
  unfold Fingerprint.schemaOf patched
  rw [h.id, hraw]

section Same

variable {px : Proxy} {expand : String → Option String} {cat cat' : Catalog} {r : Relist}

/-- Under an id the two catalogs have tools that fit together, or neither has one. -/
theorem lookup_both (h : r.Serves px expand cat cat')
    (hf : listingFingerprint r.old = listingFingerprint r.new)
    {id : String} {t : ToolDef} (ht : cat.lookup id = some t) : ∃ t', cat'.lookup id = some t' := by
  rcases lookup_relisted h hf id with he | ⟨u, u', -, hu', -, -⟩
  · exact ⟨t, he ▸ ht⟩
  · exact ⟨u', hu'⟩

theorem lookup_both' (h : r.Serves px expand cat cat')
    (hf : listingFingerprint r.old = listingFingerprint r.new)
    {id : String} {t' : ToolDef} (ht' : cat'.lookup id = some t') : ∃ t, cat.lookup id = some t := by
  rcases lookup_relisted h hf id with he | ⟨u, u', hu, -, -, -⟩
  · exact ⟨t', he ▸ ht'⟩
  · exact ⟨u, hu⟩

theorem lookups_pair (h : r.Serves px expand cat cat')
    (hf : listingFingerprint r.old = listingFingerprint r.new) (id : String) :
    (cat.lookup id = none ∧ cat'.lookup id = none) ∨
      ∃ t t', cat.lookup id = some t ∧ cat'.lookup id = some t' := by
  cases ht : cat.lookup id with
  | some t =>
    obtain ⟨t', ht'⟩ := lookup_both h hf ht
    exact .inr ⟨t, t', rfl, ht'⟩
  | none =>
    cases ht' : cat'.lookup id with
    | none => exact .inl ⟨rfl, rfl⟩
    | some t' =>
      obtain ⟨t, hsome⟩ := lookup_both' h hf ht'
      rw [ht] at hsome
      cases hsome

/-- Description and schema of the two tools agree. -/
theorem shown_alike (h : r.Serves px expand cat cat')
    (hf : listingFingerprint r.old = listingFingerprint r.new)
    (hh : r.Hashed) {id : String} {t t' : ToolDef} (ht : cat.lookup id = some t)
    (ht' : cat'.lookup id = some t')
    (hr : Repeated r.old id → t.description = t'.description ∧
      schemaOf px.cfg px.upstreams t = schemaOf px.cfg px.upstreams t') :
    t.description = t'.description ∧
      resolvedSchema px.upstreams cat t = resolvedSchema px.upstreams cat' t' := by
  rw [resolvedSchema_eq h.listed h.before ht, resolvedSchema_eq h.relisted h.after ht']
  rcases lookup_relisted h hf id with he | ⟨u, u', hu, hu', hold, hnew⟩
  · rw [he, ht', Option.some.injEq] at ht
    rw [ht]
    exact ⟨rfl, rfl⟩
  · obtain rfl := Option.some.inj (hu.symm.trans ht)
    obtain rfl := Option.some.inj (hu'.symm.trans ht')
    by_cases hrep : Repeated r.old id
    · exact hr hrep
    · have hsame := same_text h hf hh hrep hold hnew
      exact ⟨hsame.description, hsame.schemaOf⟩

theorem listed_of_agree (h : r.Serves px expand cat cat')
    (hf : listingFingerprint r.old = listingFingerprint r.new)
    (hh : r.Hashed) (ha : Agree px r.old cat cat') (granted : List String) (name key : String) :
    (declared px cat granted name).map (fun d => (d.1, d.2.get key)) =
      (declared px cat' granted name).map fun d => (d.1, d.2.get key) := by
  cases hd : declared px cat granted name with
  | none =>
    cases hd' : declared px cat' granted name with
    | none => rfl
    | some d' =>
      obtain ⟨he', hv, t', ht', -⟩ := declared_eq_some.mp hd'
      obtain ⟨t, ht⟩ := lookup_both' h hf ht'
      have hsome := declared_eq_some.mpr ⟨(ha.names d'.1 ⟨granted, hv⟩ name).mpr he', hv, t, ht, rfl⟩
      rw [hd] at hsome
      cases hsome
  | some d =>
    obtain ⟨id, d⟩ := d
    obtain ⟨he, hv, t, ht, rfl⟩ := declared_eq_some.mp hd
    have hseen : Seen px id := ⟨granted, hv⟩
    obtain ⟨t', ht'⟩ := lookup_both h hf ht
    have hd' := declared_eq_some.mpr ⟨(ha.names id hseen name).mp he, hv, t', ht', rfl⟩
    have hm : px.cfg.mode = .passthrough := by
      cases hm : px.cfg.mode with
      | passthrough => rfl
      | threeTool =>
        rw [assemble_exposed h.before, hm] at he
        cases he
    obtain ⟨hdesc, hschema⟩ := shown_alike h hf hh ht ht' (ha.repeated hm id t t' hseen ht ht')
    rw [hd', Option.map_some, Option.map_some, definition_get, definition_get,
      ha.extras hm id t t' hseen ht ht' key, hdesc, hschema]

theorem same_of_agree (h : r.Serves px expand cat cat')
    (hf : listingFingerprint r.old = listingFingerprint r.new)
    (hh : r.Hashed) (ha : Agree px r.old cat cat') : SameObservable px cat cat' := by
  refine ⟨listed_of_agree h hf hh ha, fun id => ?_, fun id => ?_⟩
  · unfold policy
    rcases lookups_pair h hf id with ⟨ht, ht'⟩ | ⟨t, t', ht, ht'⟩
    · rw [ht, ht']
    · have hread : decide (t.readOnly = some true) = decide (t'.readOnly = some true) :=
        decide_eq_decide.mpr (ha.readOnly id t t' ht ht')
      rw [ht, ht', Option.map_some, Option.map_some]
      unfold cacheAllowed
      rw [hread]
  · unfold effect
    rcases lookups_pair h hf id with ⟨ht, ht'⟩ | ⟨t, t', ht, ht'⟩
    · rw [ht, ht']
    · rw [ht, ht', Option.bind_some, Option.bind_some]
      exact if_congr (ha.readOnly id t t' ht ht') rfl rfl

/-- A visible exposed name is declared, with the fields of its tool. -/
theorem SameObservable.fields (hs : SameObservable px cat cat') {granted : List String} {name id : String}
    (hv : px.cfg.scopes.visible granted id = true) {t t' : ToolDef} (he : cat.exposed.lookup name = some id)
    (he' : cat'.exposed.lookup name = some id) (ht : cat.lookup id = some t) (ht' : cat'.lookup id = some t')
    (key : String) : (definition px cat name id t).get key = (definition px cat' name id t').get key := by
  have hl := hs.listed granted name key
  rw [declared_eq_some.mpr ⟨he, hv, t, ht, rfl⟩, declared_eq_some.mpr ⟨he', hv, t', ht', rfl⟩] at hl
  exact congrArg Prod.snd (Option.some.inj hl)

theorem SameObservable.name (hs : SameObservable px cat cat') {granted : List String} {name id : String}
    (hv : px.cfg.scopes.visible granted id = true) {t : ToolDef} (he : cat.exposed.lookup name = some id)
    (ht : cat.lookup id = some t) : cat'.exposed.lookup name = some id := by
  have hl := hs.listed granted name ""
  rw [declared_eq_some.mpr ⟨he, hv, t, ht, rfl⟩] at hl
  obtain ⟨d', hd', heq⟩ := Option.map_eq_some_iff.mp hl.symm
  obtain rfl : d'.1 = id := congrArg Prod.fst heq
  exact (declared_eq_some.mp hd').1

theorem SameObservable.symm (hs : SameObservable px cat cat') : SameObservable px cat' cat :=
  ⟨fun g n k => (hs.listed g n k).symm, fun id => (hs.policies id).symm, fun id => (hs.effects id).symm⟩

/-- The tools behind a visible id, in passthrough mode, show the same fields. -/
theorem SameObservable.shown (hs : SameObservable px cat cat') (h : r.Serves px expand cat cat')
    (hm : px.cfg.mode = .passthrough) {id : String} (hseen : Seen px id) {t t' : ToolDef}
    (ht : cat.lookup id = some t) (ht' : cat'.lookup id = some t') : ∃ name, ∀ key,
      (definition px cat name id t).get key = (definition px cat' name id t').get key := by
  obtain ⟨granted, hv⟩ := hseen
  obtain ⟨name, he⟩ := exposed_of_lookup h.before hm ht
  exact ⟨name, hs.fields hv he (hs.name hv he ht) ht ht'⟩

theorem agree_of_same (h : r.Serves px expand cat cat')
    (hf : listingFingerprint r.old = listingFingerprint r.new)
    (hs : SameObservable px cat cat') : Agree px r.old cat cat' := by
  have hextras : px.cfg.mode = .passthrough → ∀ id t t', Seen px id → cat.lookup id = some t →
      cat'.lookup id = some t' → ∀ key, forwarded px id t key = forwarded px id t' key := by
    intro hm id t t' hseen ht ht' key
    rcases lookup_relisted h hf id with he | ⟨u, u', hu, hu', hold, hnew⟩
    · rw [he, ht', Option.some.injEq] at ht
      rw [ht]
    · obtain rfl := Option.some.inj (hu.symm.trans ht)
      obtain rfl := Option.some.inj (hu'.symm.trans ht')
      have hp := named_plain (fun u hu => h.plain u (List.mem_append_left _ hu)) hold
      have hp' := named_plain (fun u hu => h.plain u (List.mem_append_right _ hu)) hnew
      by_cases hk : key ∈ forwardedFields
      · obtain ⟨name, hfields⟩ := hs.shown h hm hseen ht ht'
        have hget := hfields key
        have hbase : ∀ (a b c : Json),
            List.lookup key [("name", a), ("description", b), ("inputSchema", c)] = none := by
          intro a b c
          have hapart : ∀ k ∈ forwardedFields, k ∉ ["name", "description", "inputSchema"] := by decide
          exact OrderedMap.lookup_eq_none.mpr (hapart key hk)
        rwa [definition_get, definition_get, hbase, hbase, Option.or_none, Option.or_none] at hget
      · rw [forwarded_base hp hk, forwarded_base hp' hk]
  refine ⟨fun id hseen name => ?_, fun id t t' ht ht' => ?_, hextras, fun hm id t t' hseen ht ht' _ => ?_⟩
  · obtain ⟨granted, hv⟩ := hseen
    constructor
    · intro he
      obtain ⟨t, ht⟩ := exposed_known h.before he
      exact hs.name hv he ht
    · intro he
      obtain ⟨t, ht⟩ := exposed_known h.after he
      exact hs.symm.name hv he ht
  · have he := hs.effects id
    unfold effect at he
    rw [ht, ht', Option.bind_some, Option.bind_some] at he
    by_cases h1 : t.readOnly = some true <;> by_cases h2 : t'.readOnly = some true <;> simp [h1, h2] at he ⊢
  · rcases lookup_relisted h hf id with he | ⟨u, u', hu, hu', hold, hnew⟩
    · rw [he, ht', Option.some.injEq] at ht
      rw [ht]
      exact ⟨rfl, rfl⟩
    · obtain rfl := Option.some.inj (hu.symm.trans ht)
      obtain rfl := Option.some.inj (hu'.symm.trans ht')
      have hp := named_plain (fun u hu => h.plain u (List.mem_append_left _ hu)) hold
      have hp' := named_plain (fun u hu => h.plain u (List.mem_append_right _ hu)) hnew
      obtain ⟨name, hfields⟩ := hs.shown h hm hseen ht ht'
      have hd := hfields "description"
      have hi := hfields "inputSchema"
      rw [definition_get, definition_get, forwarded_base hp (by decide), forwarded_base hp' (by decide),
        Option.none_or, Option.none_or] at hd hi
      rw [← resolvedSchema_eq h.listed h.before ht, ← resolvedSchema_eq h.relisted h.after ht']
      exact ⟨Json.str.inj (Option.some.inj hd), Option.some.inj hi⟩

/-- **What is covered.** With one fingerprint the two catalogs are observed alike exactly
when they agree where the fingerprint does not look. -/
theorem same_observable_iff (h : r.Serves px expand cat cat')
    (hf : listingFingerprint r.old = listingFingerprint r.new) (hh : r.Hashed) :
    SameObservable px cat cat' ↔ Agree px r.old cat cat' :=
  ⟨agree_of_same h hf, same_of_agree h hf hh⟩

end Same

/-! ## One tool, listed twice -/

theorem toolDef_plain (up : String) (idx : Nat) (j : Json) :
    ∀ e ∈ (toolDef up idx j).extra, e.1 ∈ forwardedFields := by
  intro e he
  obtain ⟨k, hk, h⟩ := List.mem_filterMap.mp he
  obtain ⟨v, -, rfl⟩ := Option.map_eq_some_iff.mp h
  exact hk

def oneUpstream : Proxy where
  cfg := ⟨.threeTool, ⟨[], []⟩, ⟨[], false⟩, .weak, .warn, []⟩
  upstreams := [⟨"crm", fun _ => none⟩]
  reshapes _ := false
  caching := ⟨60, fun _ => none⟩

/-- The upstream lists one tool, then another in its place. -/
def relistOf (old new : Json) : Relist where
  listings := [[]]
  idx := 0
  up := ⟨"crm", fun _ => none⟩
  old := [toolDef "crm" 0 old]
  new := [toolDef "crm" 0 new]

theorem relistOf_serves (old new : Json) : ∃ cat cat',
    (relistOf old new).Serves oneUpstream some cat cat' := by
  have htotal : ∀ v : String, (some v).isSome := fun _ => rfl
  obtain ⟨cat, hcat⟩ := assemble_isSome oneUpstream.cfg htotal oneUpstream.upstreams [[toolDef "crm" 0 old]]
  obtain ⟨cat', hcat'⟩ := assemble_isSome oneUpstream.cfg htotal oneUpstream.upstreams [[toolDef "crm" 0 new]]
  have hlisted : ∀ j, AllListed oneUpstream.upstreams [[toolDef "crm" 0 j]] := by
    intro j i up ts hup hts
    match i with
    | 0 =>
      obtain rfl := Option.some.inj hup
      obtain rfl := Option.some.inj hts
      exact listed_toolDefs "crm" 0 [j]
    | i + 1 => cases hup
  refine ⟨cat, cat', rfl, Nat.one_pos, hlisted old, hlisted new, ?_, hcat, hcat'⟩
  intro t ht
  rcases List.mem_cons.mp ht with rfl | ht
  · exact toolDef_plain "crm" 0 old
  · obtain rfl := List.mem_singleton.mp ht
    exact toolDef_plain "crm" 0 new

/-- One tool, with nothing changed that is covered. -/
theorem relistOf_covered (old new : Json) (hn : old.get "name" = new.get "name")
    (hd : old.get "description" = new.get "description") (hs : old.get "inputSchema" = new.get "inputSchema") :
    listingFingerprint (relistOf old new).old = listingFingerprint (relistOf old new).new ∧
      (relistOf old new).Hashed := by
  constructor
  · unfold relistOf listingFingerprint toolDef
    simp only [List.map_singleton]
    rw [hn, hd, hs]
  · intro t ht u hu _
    obtain rfl := List.mem_singleton.mp ht
    obtain rfl := List.mem_singleton.mp hu
    unfold fed toolDef
    simp only
    rw [hd, hs]

def plainGet : Json := .obj [("name", .str "get")]

def titledGet : Json := .obj [("name", .str "get"), ("title", .str "Get")]

def readOnlyGet : Json := .obj [("name", .str "get"), ("annotations", .obj [("readOnlyHint", .bool true)])]

/-- In three-tool mode a new title is not seen by anyone. -/
theorem title_is_not_seen : ∃ cat cat', (relistOf plainGet titledGet).Serves oneUpstream some cat cat' ∧
    SameObservable oneUpstream cat cat' := by
  obtain ⟨cat, cat', h⟩ := relistOf_serves plainGet titledGet
  obtain ⟨hone, hhash⟩ := relistOf_covered plainGet titledGet rfl rfl rfl
  refine ⟨cat, cat', h, (same_observable_iff h hone hhash).mpr ⟨?_, ?_, ?_, ?_⟩⟩
  · intro id _ name
    rw [assemble_exposed h.before, assemble_exposed h.after]
    exact Iff.rfl
  · have hread : ∀ j id t, j.get "annotations" = none →
        named id ((oneUpstream.upstreams.zip [[toolDef "crm" 0 j]]).flatMap
            (servedOf oneUpstream.cfg)) = some t →
        t.readOnly = none := by
      intro j id t hj ht
      obtain ⟨hm, -⟩ := List.mem_filter.mp (List.mem_of_getLast? ht)
      obtain ⟨l, hl, hm⟩ := List.mem_flatMap.mp hm
      obtain rfl := List.mem_singleton.mp hl
      obtain ⟨u, hu, rfl⟩ := List.mem_map.mp hm
      obtain rfl := List.mem_singleton.mp (List.mem_filter.mp hu).1
      show ((j.get "annotations").bind _).bind _ = none
      rw [hj]
      rfl
    intro id t t' ht ht'
    rw [lookup_eq h.before, assemble_tools h.before] at ht
    rw [lookup_eq h.after, assemble_tools h.after] at ht'
    rw [hread plainGet id t rfl ht, hread titledGet id t' rfl ht']
  · intro hm
    cases hm
  · intro hm
    cases hm

/-- The upstream takes `readOnlyHint` back; the fingerprint stays, the effect changes. -/
theorem read_only_is_not_covered : ∃ cat cat',
    (relistOf readOnlyGet plainGet).Serves oneUpstream some cat cat' ∧
    listingFingerprint (relistOf readOnlyGet plainGet).old =
      listingFingerprint (relistOf readOnlyGet plainGet).new ∧
    (relistOf readOnlyGet plainGet).Hashed ∧ ¬ SameObservable oneUpstream cat cat' := by
  obtain ⟨cat, cat', h⟩ := relistOf_serves readOnlyGet plainGet
  obtain ⟨hone, hhash⟩ := relistOf_covered readOnlyGet plainGet rfl rfl rfl
  refine ⟨cat, cat', h, hone, hhash, fun hs => ?_⟩
  have he := hs.effects "crm.get"
  unfold effect at he
  rw [lookup_eq h.before, lookup_eq h.after, assemble_tools h.before, assemble_tools h.after] at he
  revert he
  decide +kernel

end MinMcp.L5.Fingerprint
