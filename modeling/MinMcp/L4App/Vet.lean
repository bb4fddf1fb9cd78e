import MinMcp.L4App.Catalog
import MinMcp.Core.Text.Debug
import Mathlib.Data.List.Infix

/-!
# The checks on a catalog

What a catalog must pass to be served (src/surface.rs, src/surface/audit.rs, src/lint.rs):
no overlay of strong binding may be broken, and under the strict policy no tool may trip a
tool-poisoning rule. Problems that only warn leave no trace here. `lowercase` is the
standard library's `to_lowercase`.

* `vet_ok_iff`: what passing means.
* `lookup_eq`: an id leads to the last of the catalog's tools that has it.
* `OwnVet`, `vet_iff_own`: where the ids of different upstreams are different, a catalog
  passes exactly when every upstream's listing passes on its own, and every strong overlay
  is for an upstream that is there.
-/
namespace MinMcp.L4.Vet

open MinMcp.Core MinMcp.Core.Text MinMcp.L4.Catalogs

/-! ## Tool poisoning -/

/-- mirrors src/lint.rs:47-66 -/
def modelDirected : List String :=
  ["ignore previous", "ignore all previous", "ignore the above", "disregard previous",
    "disregard the above", "do not tell the user", "don't tell the user", "do not mention",
    "without telling the user", "without informing the user", "do not inform",
    "before using this tool", "before calling this tool", "you must first", "always call this tool",
    "instead of the other", "system prompt", "new instructions"]

/-- mirrors src/lint.rs:78-92 -/
def secretArtifacts : List String :=
  ["id_rsa", "id_ed25519", "id_dsa", ".aws/credentials", ".netrc", ".env file", "/etc/passwd",
    "/etc/shadow", "private key file", "credentials file"]

/-- mirrors src/lint.rs:103-114 -/
def isHidden (c : Char) : Bool :=
  (0x200b ≤ c.toNat && c.toNat ≤ 0x200f) || c.toNat = 0x2060 || c.toNat = 0xfeff || c.toNat = 0x00ad ||
    c.toNat = 0x180e || (0x202a ≤ c.toNat && c.toNat ≤ 0x202e) ||
    (0x2066 ≤ c.toNat && c.toNat ≤ 0x2069) || (0xe0000 ≤ c.toNat && c.toNat ≤ 0xe007f)

/-- `text.contains(phrase)` -/
def contains (text : List Char) (phrase : String) : Bool :=
  text.tails.any fun t => phrase.toList.isPrefixOf t

/-- The rules a tool trips.
mirrors src/lint.rs:129-147 -/
def poisoning (lowercase : List Char → List Char) (name description : String) : List String :=
  let lowered := lowercase description.toList
  (if description.toList.any isHidden || name.toList.any isHidden then ["hidden_text"] else []) ++
    (if modelDirected.any (contains lowered) then ["model_directed_instruction"] else []) ++
    if secretArtifacts.any (contains lowered) then ["secret_solicitation"] else []

/-- Each tool that trips a rule, with the rules.
mirrors src/surface/audit.rs:119-127 -/
def poisonedIn (lowercase : List Char → List Char) (cat : Catalog) : List (String × List String) :=
  cat.tools.filterMap fun t =>
    let fired := poisoning lowercase t.name t.description
    if fired = [] then none else some (t.id, fired)

/-! ## Bindings -/

/-- mirrors src/surface/patch.rs:137-149 -/
def fieldPathExists : List String → Json → Bool
  | [], _ => false
  | [field], node => ((node.get "properties").bind fun p => p.get field).isSome
  | s :: rest, node =>
    match (node.get "properties").bind fun p => p.get s with
    | some n => fieldPathExists rest n
    | none => false

def quoted (s : String) : String := String.ofList (debugStr s.toList)

/-- Why an overlay is broken; a pin on another fingerprint does not break it.
mirrors src/surface/patch.rs:106-124 -/
def brokenReasons (o : Overlay) : Option Json → List String
  | none => [s!"target tool {quoted o.tool} is not in the surface"]
  | some resolved =>
    (o.fields.filter fun f => !fieldPathExists (dottedPath f.1) resolved).map fun f =>
      s!"patches field {quoted f.1}, which the tool's schema no longer has"

/-- mirrors src/config.rs:722-727 -/
def strength (o : Overlay) (policy : BindingStrength) : BindingStrength := o.binding.getD policy

/-- mirrors src/surface/audit.rs:99-111 -/
def brokenBindingsIn (cfg : Config) (upstreams : List Backend) (cat : Catalog) :
    List (String × List String × BindingStrength) :=
  cfg.overlays.filterMap fun o =>
    let reasons := brokenReasons o ((cat.lookup o.tool).map (rawResolved upstreams))
    if reasons = [] then none else some (o.tool, reasons, strength o cfg.bindingPolicy)

def poisoningHint : String :=
  "Inspect them with `minmcp lint`, then either exclude them (`filters`), " ++
    "replace the description with an overlay, or set `poisoning_policy: warn` if they are false positives."

/-- mirrors src/surface.rs:257-301 -/
def vet (cfg : Config) (upstreams : List Backend) (lowercase : List Char → List Char) (cat : Catalog) :
    Except String Unit :=
  let strong := (brokenBindingsIn cfg upstreams cat).filter fun b => b.2.2 = .strong
  if strong ≠ [] then
    .error (s!"{strong.length} strong overlay binding(s) broken (fail-closed):\n" ++
      "\n".intercalate (strong.map fun b => "  " ++ b.1 ++ ": " ++ "; ".intercalate b.2.1))
  else if cfg.poisoningPolicy = .strict ∧ poisonedIn lowercase cat ≠ [] then
    let poisoned := poisonedIn lowercase cat
    .error (s!"{poisoned.length} tool(s) tripped a tool-poisoning rule (poisoning_policy: strict):\n" ++
      "\n".intercalate (poisoned.map fun p => "  " ++ p.1 ++ ": " ++ ", ".intercalate p.2) ++ "\n" ++
        poisoningHint)
  else .ok ()

/-! ## What passing means -/

section Passing

variable {cfg : Config} {upstreams : List Backend} {lowercase : List Char → List Char}

/-- An overlay that binds strongly. -/
def IsStrong (cfg : Config) (o : Overlay) : Prop :=
  o ∈ cfg.overlays ∧ strength o cfg.bindingPolicy = .strong

/-- The overlay's tool is there and has its fields. -/
def Binds (upstreams : List Backend) (o : Overlay) (def_ : Option ToolDef) : Prop :=
  ∃ t, def_ = some t ∧ ∀ f ∈ o.fields, fieldPathExists (dottedPath f.1) (rawResolved upstreams t) = true

theorem brokenReasons_eq_nil {o : Overlay} {def_ : Option ToolDef} :
    brokenReasons o (def_.map (rawResolved upstreams)) = [] ↔ Binds upstreams o def_ := by
  cases def_ with
  | none => simp [brokenReasons, Binds]
  | some t =>
    simp only [Option.map_some, brokenReasons, List.map_eq_nil_iff, List.filter_eq_nil_iff, Binds,
      Option.some.injEq, exists_eq_left']
    simp

theorem vet_ok_iff {cat : Catalog} :
    vet cfg upstreams lowercase cat = .ok () ↔
      (∀ o, IsStrong cfg o → Binds upstreams o (cat.lookup o.tool)) ∧
        (cfg.poisoningPolicy = .strict → ∀ t ∈ cat.tools, poisoning lowercase t.name t.description = []) := by
  have hstrong : (brokenBindingsIn cfg upstreams cat).filter (fun b => b.2.2 = .strong) = [] ↔
      ∀ o, IsStrong cfg o → Binds upstreams o (cat.lookup o.tool) := by
    unfold brokenBindingsIn IsStrong
    simp only [List.filter_eq_nil_iff, List.mem_filterMap, decide_eq_true_eq]
    constructor
    · intro h o ⟨ho, hs⟩
      by_contra hb
      have hne := mt brokenReasons_eq_nil.mp hb
      exact h _ ⟨o, ho, if_neg hne⟩ hs
    · intro h b ⟨o, ho, hb⟩ hs
      split at hb
      · cases hb
      · next hne =>
        obtain rfl := Option.some.inj hb
        exact hne (brokenReasons_eq_nil.mpr (h o ⟨ho, hs⟩))
  have hpoison : poisonedIn lowercase cat = [] ↔
      ∀ t ∈ cat.tools, poisoning lowercase t.name t.description = [] := by
    unfold poisonedIn
    rw [List.filterMap_eq_nil_iff]
    refine forall₂_congr fun t _ => ?_
    dsimp only
    split <;> simp_all
  unfold vet
  dsimp only
  by_cases h1 : (brokenBindingsIn cfg upstreams cat).filter (fun b => b.2.2 = .strong) = []
  · rw [if_neg (not_not_intro h1)]
    by_cases h2 : cfg.poisoningPolicy = .strict ∧ poisonedIn lowercase cat ≠ []
    · rw [if_pos h2]
      simp only [reduceCtorEq, false_iff]
      rintro ⟨-, hp⟩
      exact h2.2 (hpoison.mpr (hp h2.1))
    · rw [if_neg h2]
      refine iff_of_true rfl ⟨hstrong.mp h1, fun hs => hpoison.mp ?_⟩
      by_contra hne
      exact h2 ⟨hs, hne⟩
  · rw [if_pos h1]
    simp only [reduceCtorEq, false_iff]
    rintro ⟨hb, -⟩
    exact h1 (hstrong.mpr hb)

end Passing

/-! ## Ids lead to the last tool -/

section Lookup

variable {cfg : Config} {expand : String → Option String} {upstreams : List Backend}

def named (id : String) (tools : List ToolDef) : Option ToolDef :=
    (tools.filter fun t => t.id = id).getLast?

theorem named_append (id : String) (xs ys : List ToolDef) : named id (xs ++ ys) = (named id ys).or
    (named id xs) := by
  unfold named
  rw [List.filter_append, List.getLast?_append]

/-- Every id is filed under the last tool that has it. -/
structure Filed (cat : Catalog) : Prop where
  inside : ∀ id i, cat.byId.lookup id = some i → i < cat.tools.length
  last : ∀ id, cat.lookup id = named id cat.tools

theorem addTool_filed {up : Backend} {cat cat' : Catalog} {t : ToolDef} (h : Filed cat)
    (ha : addTool cfg expand up cat t = some cat') : Filed cat' := by
  have hadd : ∀ (c : Catalog) (t' : ToolDef), c.byId = OrderedMap.insert t'.id cat.tools.length cat.byId →
      c.tools = cat.tools ++ [t'] → Filed c := by
    intro c t' hids htools
    refine ⟨fun id i hi => ?_, fun id => ?_⟩
    · rw [hids] at hi
      rw [htools, List.length_append, List.length_singleton]
      by_cases hid : id = t'.id
      · rw [hid, OrderedMap.lookup_insert_self] at hi
        have := Option.some.inj hi
        omega
      · rw [OrderedMap.lookup_insert_of_ne hid] at hi
        have := h.inside id i hi
        omega
    · rw [htools, named_append]
      unfold Catalog.lookup
      rw [hids, htools]
      by_cases hid : id = t'.id
      · rw [hid, OrderedMap.lookup_insert_self, Option.bind_some, List.getElem?_concat_length]
        simp [named]
      · have hother : named id [t'] = none := by simp [named, Ne.symm hid]
        rw [OrderedMap.lookup_insert_of_ne hid, hother, Option.none_or, ← h.last id]
        unfold Catalog.lookup
        cases hi : cat.byId.lookup id with
        | none => rfl
        | some i => exact List.getElem?_append_left (h.inside id i hi)
  rcases addTool_cases ha with ⟨-, rfl⟩ | ⟨-, h'⟩
  · exact h
  · exact hadd cat' (served cfg t) h'.byId h'.tools

theorem filed_empty {listings : List (List ToolDef)} : Filed ⟨[], [], [], [], [], [], [], listings⟩ where
  inside id i hi := by cases hi
  last _ := rfl

theorem assemble_filed {listings : List (List ToolDef)} {cat : Catalog}
    (ha : assemble cfg expand upstreams listings = some cat) : Filed cat := by
  refine assemble_induction ha filed_empty ?_ ?_
  · intro l _ t _ c c' hf hc
    exact addTool_filed hf hc
  · intro c hf
    exact ⟨hf.inside, hf.last⟩

/-- An id leads to the last of the catalog's tools that has it. -/
theorem lookup_eq {listings : List (List ToolDef)} {cat : Catalog}
    (ha : assemble cfg expand upstreams listings = some cat) (id : String) :
    cat.lookup id = named id cat.tools := (assemble_filed ha).last id

/-! Assembling fails only where a header does not resolve. -/

theorem expandHeaders_isSome (he : ∀ v, (expand v).isSome) (hs : List (String × String)) :
    (expandHeaders expand hs).isSome := by
  induction hs with
  | nil => rfl
  | cons h hs ih =>
    obtain ⟨k, v⟩ := h
    obtain ⟨w, hw⟩ := Option.isSome_iff_exists.mp (he v)
    obtain ⟨rest, hrest⟩ := Option.isSome_iff_exists.mp ih
    rw [expandHeaders, hw, Option.bind_some, hrest]
    rfl

theorem addTool_isSome (cfg : Config) (he : ∀ v, (expand v).isSome) (up : Backend) (cat : Catalog)
    (t : ToolDef) : (addTool cfg expand up cat t).isSome := by
  unfold addTool
  split
  · split
    · rfl
    · next o _ =>
      obtain ⟨hs, hhs⟩ := Option.isSome_iff_exists.mp (expandHeaders_isSome he o.headers)
      rw [hhs]
      rfl
  · rfl

theorem addListing_isSome (cfg : Config) (he : ∀ v, (expand v).isSome) (up : Backend)
    (cat : Catalog) (ts : List ToolDef) :
    (addListing cfg expand up cat ts).isSome := by
  induction ts generalizing cat with
  | nil => rfl
  | cons t ts ih =>
    obtain ⟨c, hc⟩ := Option.isSome_iff_exists.mp (addTool_isSome cfg he up cat t)
    rw [addListing, hc, Option.bind_some]
    exact ih c

theorem addListings_isSome (cfg : Config) (he : ∀ v, (expand v).isSome) (cat : Catalog)
    (ls : List (Backend × List ToolDef)) :
    (addListings cfg expand cat ls).isSome := by
  induction ls generalizing cat with
  | nil => rfl
  | cons l ls ih =>
    obtain ⟨up, ts⟩ := l
    obtain ⟨c, hc⟩ := Option.isSome_iff_exists.mp (addListing_isSome cfg he up cat ts)
    rw [addListings, hc, Option.bind_some]
    exact ih c

theorem assemble_isSome (cfg : Config) (he : ∀ v, (expand v).isSome) (upstreams : List Backend)
    (listings : List (List ToolDef)) : ∃ cat, assemble cfg expand upstreams listings = some cat := by
  obtain ⟨c, hc⟩ := Option.isSome_iff_exists.mp (addListings_isSome cfg he
    ⟨[], [], [], [], [], [], [], listings⟩ (upstreams.zip listings))
  unfold assemble
  rw [hc]
  exact ⟨_, rfl⟩

end Lookup

/-! ## Upstream by upstream -/

section Own

variable {cfg : Config} {expand : String → Option String} {upstreams : List Backend}
variable {lowercase : List Char → List Char} {owner : String → Nat}

/-- The ids that different upstreams list are different: each id belongs to one. -/
def OwnedBy (owner : String → Nat) (listings : List (List ToolDef)) : Prop :=
  ∀ i ts, listings[i]? = some ts → ∀ t ∈ ts, owner t.id = i

/-- What one upstream's listing must satisfy. -/
structure OwnVet (cfg : Config) (upstreams : List Backend) (lowercase : List Char → List Char)
    (owner : String → Nat) (i : Nat) (l : Backend × List ToolDef) : Prop where
  binds : ∀ o, IsStrong cfg o → owner o.tool = i → Binds upstreams o (named o.tool (servedOf cfg l))
  clean : cfg.poisoningPolicy = .strict →
    ∀ t ∈ servedOf cfg l, poisoning lowercase t.name t.description = []

theorem named_flatMap {α : Type} (f : α → List ToolDef) (id : String) (ls : List α) (j : Nat)
    (h : ∀ k l, ls[k]? = some l → k ≠ j → named id (f l) = none) :
    named id (ls.flatMap f) = (ls[j]?).bind fun l => named id (f l) := by
  induction ls generalizing j with
  | nil => rfl
  | cons l ls ih =>
    rw [List.flatMap_cons, named_append]
    cases j with
    | zero =>
      -- nothing further on has the id
      have hrest : named id (ls.flatMap f) = none := by
        rw [ih ls.length fun k l' hk _ => h (k + 1) l' (by rwa [List.getElem?_cons_succ]) (by omega),
          List.getElem?_eq_none (Nat.le_refl _)]
        rfl
      rw [hrest, Option.none_or, List.getElem?_cons_zero, Option.bind_some]
    | succ j =>
      rw [h 0 l rfl (by omega), Option.or_none, List.getElem?_cons_succ]
      exact ih j fun k l' hk hne => h (k + 1) l' (by rwa [List.getElem?_cons_succ]) (by omega)

theorem mem_servedOf_id {l : Backend × List ToolDef} {t : ToolDef} (h : t ∈ servedOf cfg l) :
    ∃ t' ∈ l.2, t'.id = t.id := by
  obtain ⟨t', ht', rfl⟩ := List.mem_map.mp h
  exact ⟨t', (List.mem_filter.mp ht').1, rfl⟩

/-- What a catalog finds under an id is found in the listing of the upstream it belongs to. -/
theorem lookup_own {listings : List (List ToolDef)} {cat : Catalog} (ho : OwnedBy owner listings)
    (ha : assemble cfg expand upstreams listings = some cat) (id : String) :
    cat.lookup id = ((upstreams.zip listings)[owner id]?).bind fun l => named id (servedOf cfg l) := by
  rw [lookup_eq ha, assemble_tools ha]
  apply named_flatMap
  intro k l hk hne
  obtain ⟨-, hl⟩ := List.getElem?_zip_eq_some.mp hk
  unfold named
  rw [List.getLast?_eq_none_iff, List.filter_eq_nil_iff]
  intro t ht hid
  obtain ⟨t', ht', hid'⟩ := mem_servedOf_id ht
  have howner := ho k l.2 hl t' ht'
  rw [hid', of_decide_eq_true hid] at howner
  exact hne howner.symm

theorem vet_iff_own {listings : List (List ToolDef)} {cat : Catalog} (ho : OwnedBy owner listings)
    (ha : assemble cfg expand upstreams listings = some cat) :
    vet cfg upstreams lowercase cat = .ok () ↔
      (∀ o, IsStrong cfg o → owner o.tool < (upstreams.zip listings).length) ∧
        ∀ i l, (upstreams.zip listings)[i]? = some l → OwnVet cfg upstreams lowercase owner i l := by
  rw [vet_ok_iff]
  constructor
  · intro ⟨hbind, hclean⟩
    refine ⟨fun o hs => ?_, fun i l hl => ⟨fun o hs hown => ?_, fun hstrict t ht => ?_⟩⟩
    · obtain ⟨t, ht, -⟩ := hbind o hs
      rw [lookup_own ho ha] at ht
      obtain ⟨l, hl, -⟩ := Option.bind_eq_some_iff.mp ht
      exact (List.getElem?_eq_some_iff.mp hl).1
    · have := hbind o hs
      rwa [lookup_own ho ha, hown, hl, Option.bind_some] at this
    · refine hclean hstrict t ?_
      rw [assemble_tools ha]
      exact List.mem_flatMap.mpr ⟨l, List.mem_of_getElem? hl, ht⟩
  · intro ⟨hin, hown⟩
    refine ⟨fun o hs => ?_, fun hstrict t ht => ?_⟩
    · have hl := List.getElem?_eq_getElem (hin o hs)
      rw [lookup_own ho ha, hl, Option.bind_some]
      exact (hown _ _ hl).binds o hs rfl
    · rw [assemble_tools ha] at ht
      obtain ⟨l, hl, ht⟩ := List.mem_flatMap.mp ht
      obtain ⟨i, hi⟩ := List.mem_iff_getElem?.mp hl
      exact (hown i l hi).clean hstrict t ht

/-- **One change.** On top of a catalog that passes, a new listing of one upstream passes
exactly when it passes on its own. -/
theorem vet_set {listings : List (List ToolDef)} {cat cat' : Catalog} {i : Nat} {up : Backend}
    {ts : List ToolDef}
    {expand' : String → Option String}
    (ho : OwnedBy owner listings) (ha : assemble cfg expand upstreams listings = some cat)
    (hv : vet cfg upstreams lowercase cat = .ok ())
    (hi : i < listings.length) (hup : upstreams[i]? = some up) (hts : ∀ t ∈ ts, owner t.id = i)
    (ha' : assemble cfg expand' upstreams (listings.set i ts) = some cat') :
    vet cfg upstreams lowercase cat' = .ok () ↔ OwnVet cfg upstreams lowercase owner i (up, ts) := by
  have ho' : OwnedBy owner (listings.set i ts) := by
    intro k ts' hk t ht
    by_cases he : i = k
    · subst he
      rw [List.getElem?_set_self hi] at hk
      obtain rfl := Option.some.inj hk
      exact hts t ht
    · rw [List.getElem?_set_ne he] at hk
      exact ho k ts' hk t ht
  obtain ⟨hin, hown⟩ := (vet_iff_own ho ha).mp hv
  rw [vet_iff_own ho' ha']
  constructor
  · rintro ⟨-, h⟩
    exact h i (up, ts) (List.getElem?_zip_eq_some.mpr ⟨hup, List.getElem?_set_self hi⟩)
  · intro h
    refine ⟨fun o hs => ?_, fun k l hl => ?_⟩
    · have := hin o hs
      rwa [List.length_zip, List.length_set, ← List.length_zip]
    · obtain ⟨hk, hlk⟩ := List.getElem?_zip_eq_some.mp hl
      by_cases he : i = k
      · subst he
        rw [List.getElem?_set_self hi] at hlk
        obtain ⟨u, ts'⟩ := l
        obtain rfl := Option.some.inj hlk
        obtain rfl := Option.some.inj (hup.symm.trans hk)
        exact h
      · rw [List.getElem?_set_ne he] at hlk
        exact hown k l (List.getElem?_zip_eq_some.mpr ⟨hk, hlk⟩)

end Own

end MinMcp.L4.Vet
