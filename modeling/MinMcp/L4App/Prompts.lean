import MinMcp.L4App.Resources
import MinMcp.L4App.ToolIds

/-!
# Prompt names

A prompt is listed as `upstream.name`, and asked for under that name (`list_prompts`, `get_prompt`
of src/surface/resources.rs). The upstream is found again as the longest of the visible ones whose
name, with a dot, begins the prompt's; the name of an upstream and that of a prompt may both hold
dots.

* `Offered`: what a caller is shown; `shown_of_offered` that it is shown.
* `best_spec`: the upstream taken is the longest that fits.
* `roundTrips_iff`: names come back exactly when neither part is empty and no other visible
  upstream fits longer.
* `nested_upstream_answers`: `a` and `a.b`.
-/
namespace MinMcp.L4.Resources

open MinMcp.Core MinMcp.L4.Catalogs
open MinMcp.L4.ToolIds (UpstreamConfig validate Connected toolId_toList id_eq_cases name_inj)

section Spec

variable (px : SourceMap.Proxy) (granted : List String) (cat : Catalog) (ans : Answers)

/-- The upstream is visible to the caller and lists a prompt of that name. -/
def Offered (up : SourceMap.Upstream) (idx : Nat) (name : String) : Prop :=
  (up, idx) ∈ visibleUpstreams px granted cat ∧
    ∃ p ∈ (listPassthrough ans "prompts/list" (up, idx)).1, (p.get "name").bind Json.asStr = some name

/-- A prompt that is listed is asked for at the upstream that listed it, under the name it listed. -/
def RoundTrips : Prop :=
  ∀ up idx name, Offered px granted cat ans up idx name → ∀ table arguments,
    (getPrompt px granted cat ans table (toolId up.name name) arguments).sent = [.prompt idx name arguments]

/-- Another visible upstream fits the name of a listed prompt, and longer. -/
def Nested (up : SourceMap.Upstream) (name : String) : Prop :=
  ∃ other j r rest, (other, j) ∈ visibleUpstreams px granted cat ∧ other.name = up.name ++ "." ++ r ∧
    name = r ++ "." ++ rest ∧ rest ≠ ""

end Spec

section Best

variable {px : SourceMap.Proxy} {granted : List String} {cat : Catalog} {ans : Answers}

theorem shown_of_offered {up : SourceMap.Upstream} {idx : Nat} {name : String}
    (h : Offered px granted cat ans up idx name) (table : Table) :
    ∃ prompts, (listPrompts px granted cat ans table).result = .ok (.obj [("prompts", .arr prompts)]) ∧
      ∃ q ∈ prompts, (q.get "name").bind Json.asStr = some (toolId up.name name) := by
  obtain ⟨hv, p, hp, hname⟩ := h
  refine ⟨_, rfl, nameSpaced up.name p, ?_, ?_⟩
  · refine List.mem_flatMap.mpr ⟨_, List.mem_map_of_mem hv, List.mem_map_of_mem hp⟩
  · cases p with
    | obj es =>
      unfold nameSpaced
      rw [hname]
      simp only [Json.get_obj, OrderedMap.lookup_insert_self, Option.bind_some, Json.asStr, toolId]
    | null | bool _ | num _ | str _ | arr _ => cases hname

theorem barePrompt_eq {upstream full : String} {bare : List Char} :
    barePrompt upstream full = some bare ↔ full = toolId upstream (String.ofList bare) := by
  rw [← String.toList_inj, toolId_toList, String.toList_ofList]
  unfold barePrompt
  constructor
  · intro h
    split at h
    · next hp =>
      obtain ⟨rest, hrest⟩ := List.isPrefixOf_iff_prefix.mp hp
      rw [← hrest, List.drop_left] at h
      rw [← hrest]
      split at h
      · obtain rfl := Option.some.inj h
        rfl
      · cases h
    · cases h
  · intro h
    have hp : upstream.toList.isPrefixOf full.toList = true := by
      rw [h, List.isPrefixOf_iff_prefix]
      exact List.prefix_append _ _
    rw [if_pos hp, h, List.drop_left]
    rfl

/-- A visible upstream whose name, with a dot, begins the prompt's. -/
structure Fits (px : SourceMap.Proxy) (granted : List String) (cat : Catalog) (full : String)
    (up : SourceMap.Upstream × Nat) (bare : String) : Prop where
  visible : upstreamVisible px granted cat up.2 = true
  named : up.1.name ≠ ""
  more : bare ≠ ""
  eq : full = toolId up.1.name bare

theorem Fits.barePrompt {full bare : String} {up : SourceMap.Upstream × Nat}
    (h : Fits px granted cat full up bare) :
    barePrompt up.1.name full = some bare.toList := by
  rw [barePrompt_eq, String.ofList_toList]
  exact h.eq

/-- The best of some upstreams: it is one that fits, and none that fits is longer. -/
structure Best (px : SourceMap.Proxy) (granted : List String) (cat : Catalog) (full : String)
    (ups : List (SourceMap.Upstream × Nat)) (best : Option (Nat × String × String)) : Prop where
  fits : ∀ b, best = some b → ∃ up, (up, b.1) ∈ ups ∧ Fits px granted cat full (up, b.1) b.2.2 ∧
    b.2.1 = up.name
  longest : ∀ up bare, up ∈ ups → Fits px granted cat full up bare →
    ∃ b, best = some b ∧ up.1.name.utf8ByteSize ≤ b.2.1.utf8ByteSize

theorem Best.skip {full : String} {ups : List (SourceMap.Upstream × Nat)}
    {best : Option (Nat × String × String)} (h : Best px granted cat full ups best)
    {up : SourceMap.Upstream × Nat}
    (hno : ∀ bare, Fits px granted cat full up bare →
      ∃ b, best = some b ∧ up.1.name.utf8ByteSize ≤ b.2.1.utf8ByteSize) :
    Best px granted cat full (ups ++ [up]) best where
  fits b hb := by
    obtain ⟨w, hw, hfits⟩ := h.fits b hb
    exact ⟨w, List.mem_append_left _ hw, hfits⟩
  longest w bare hw hf := by
    rcases List.mem_append.mp hw with hw | hw
    · exact h.longest w bare hw hf
    · obtain rfl := List.mem_singleton.mp hw
      exact hno bare hf

theorem Best.take {full : String} {ups : List (SourceMap.Upstream × Nat)}
    {best : Option (Nat × String × String)} (h : Best px granted cat full ups best)
    {up : SourceMap.Upstream × Nat} {bare : String}
    (hf : Fits px granted cat full up bare)
    (hlong : ∀ b, best = some b → b.2.1.utf8ByteSize ≤ up.1.name.utf8ByteSize) :
    Best px granted cat full (ups ++ [up]) (some (up.2, up.1.name, bare)) where
  fits b hb := by
    obtain rfl := Option.some.inj hb
    exact ⟨up.1, List.mem_append_right _ (List.mem_singleton_self _), hf, rfl⟩
  longest w bare' hw hf' := by
    refine ⟨_, rfl, ?_⟩
    rcases List.mem_append.mp hw with hw | hw
    · obtain ⟨b, hb, hle⟩ := h.longest w bare' hw hf'
      exact Nat.le_trans hle (hlong b hb)
    · obtain rfl := List.mem_singleton.mp hw
      exact Nat.le_refl _

theorem best_spec (full : String) :
    Best px granted cat full px.upstreams.zipIdx (bestUpstream px granted cat full) := by
  unfold bestUpstream
  induction px.upstreams.zipIdx using List.reverseRecOn with
  | nil => exact ⟨fun b hb => (by cases hb), fun up bare hup => (by cases hup)⟩
  | append_singleton ups up ih =>
    rw [List.foldl_concat]
    generalize List.foldl _ none ups = best at ih ⊢
    cases hbare : barePrompt up.1.name full with
    | none =>
      refine ih.skip fun bare hf => ?_
      rw [hf.barePrompt] at hbare
      cases hbare
    | some bare =>
      have hfull := barePrompt_eq.mp hbare
      simp only []
      by_cases hno : (up.1.name = "" || bare = [] || !upstreamVisible px granted cat up.2) = true
      · rw [if_pos hno]
        refine ih.skip fun bare' hf => ?_
        -- what follows the name and the dot is what it is
        have hbare' : bare = bare'.toList := Option.some.inj (hbare.symm.trans hf.barePrompt)
        have hmore : bare'.toList ≠ [] := fun he => hf.more (String.toList_eq_nil_iff.mp he)
        simp [hf.named, hf.visible, hbare', hmore] at hno
      · rw [if_neg hno]
        simp only [Bool.or_eq_true, decide_eq_true_eq, Bool.not_eq_true', not_or, Bool.not_eq_false] at hno
        have hf : Fits px granted cat full up (String.ofList bare) := by
          refine ⟨hno.2, hno.1.1, fun he => hno.1.2 ?_, hfull⟩
          simpa using congrArg String.toList he
        split
        · next hall =>
          refine ih.take hf fun b hb => ?_
          rw [hb, Option.all_some, decide_eq_true_eq] at hall
          omega
        · next hall =>
          refine ih.skip fun bare' _ => ?_
          cases best with
          | none => simp at hall
          | some b => exact ⟨b, rfl, by simpa using hall⟩

end Best

/-! ## Names -/

section Names

variable {px : SourceMap.Proxy} {granted : List String} {cat : Catalog} {ans : Answers}

theorem size_lt_nested (u r : String) : u.utf8ByteSize < (u ++ "." ++ r).utf8ByteSize := by
  simp only [String.utf8ByteSize_append]
  have : ".".utf8ByteSize = 1 := by decide
  omega

/-- Only an upstream of another kind than a spec lists prompts. -/
theorem Offered.kind {up : SourceMap.Upstream} {idx : Nat} {name : String}
    (h : Offered px granted cat ans up idx name) : up.kind ≠ .spec := by
  obtain ⟨-, p, hp, -⟩ := h
  intro hk
  simp only [listPassthrough, hk, List.not_mem_nil] at hp

theorem Offered.fits {up : SourceMap.Upstream} {idx : Nat} {name : String}
    (h : Offered px granted cat ans up idx name) (hu : up.name ≠ "") (hn : name ≠ "") :
    Fits px granted cat (toolId up.name name) (up, idx) name :=
  ⟨(mem_visibleUpstreams.mp h.1).2, hu, hn, rfl⟩

/-- What is sent tells what was best. -/
theorem getPrompt_sent_iff {full bare : String} {idx : Nat} {table : Table} {arguments : Json} :
    (getPrompt px granted cat ans table full arguments).sent = [.prompt idx bare arguments] ↔
      (∃ u, bestUpstream px granted cat full = some (idx, u, bare)) ∧
        ∃ up, px.upstreams[idx]? = some up ∧ up.kind ≠ .spec := by
  unfold getPrompt
  cases hb : bestUpstream px granted cat full with
  | none => simp
  | some b =>
    obtain ⟨j, u, rest⟩ := b
    cases hup : px.upstreams[j]? with
    | none =>
      simp only [hup, Option.map_none, Option.some.injEq, Prod.mk.injEq]
      constructor
      · intro h
        cases h
      · rintro ⟨⟨_, rfl, -⟩, w, hw, -⟩
        rw [hup] at hw
        cases hw
    | some w =>
      cases hk : w.kind with
      | spec =>
        simp only [hup, hk, Option.map_some, Option.some.injEq, Prod.mk.injEq]
        constructor
        · intro h
          cases h
        · rintro ⟨⟨_, rfl, -⟩, w', hw', hne⟩
          rw [hup] at hw'
          exact absurd (Option.some.inj hw' ▸ hk) hne
      | mcp | http =>
        simp only [hup, hk, Option.map_some, List.cons.injEq, and_true, Sent.prompt.injEq, Option.some.injEq,
          Prod.mk.injEq]
        constructor
        · rintro ⟨rfl, rfl⟩
          exact ⟨⟨u, rfl, rfl, rfl⟩, w, hup, by simp [hk]⟩
        · rintro ⟨⟨_, rfl, -, rfl⟩, -⟩
          exact ⟨rfl, rfl⟩

variable {ups : List UpstreamConfig}

/-- Of the visible upstreams that fit a listed name, its own is the longest. -/
theorem best_of_offered (hv : validate [] ups = .ok ()) (hc : Connected ups px.backends)
    {up : SourceMap.Upstream} {idx : Nat} {name : String} (h : Offered px granted cat ans up idx name)
    (hu : up.name ≠ "") (hn : name ≠ "") (hnot : ¬ Nested px granted cat up name) :
    bestUpstream px granted cat (toolId up.name name) = some (idx, up.name, name) := by
  have hbest : Best px granted cat (toolId up.name name) _ _ := best_spec _
  have hmem : (up, idx) ∈ px.upstreams.zipIdx := (List.mem_filter.mp h.1).1
  obtain ⟨b, hb, hle⟩ := hbest.longest (up, idx) name hmem (h.fits hu hn)
  obtain ⟨other, hother, hf, hname⟩ := hbest.fits b hb
  have hget := List.mem_zipIdx_iff_getElem?.mp hmem
  have hget' := List.mem_zipIdx_iff_getElem?.mp hother
  obtain ⟨j, u, rest⟩ := b
  simp only [] at hf hname hle hget' hget
  subst hname
  have hbackend : ∀ {i : Nat} {w : SourceMap.Upstream}, px.upstreams[i]? = some w →
      px.backends[i]? = some w.toBackend := by
    intro i w hw
    rw [SourceMap.Proxy.backends, List.getElem?_map, hw, Option.map_some]
  rcases id_eq_cases hf.eq with ⟨hsame, hrest⟩ | ⟨r, hlong, hrest⟩ | ⟨r, hlong, -⟩
  · obtain rfl := name_inj hv hc (hbackend hget) (hbackend hget') hsame
    rw [hb, ← hsame, ← hrest]
  · exact absurd ⟨other, j, r, rest, mem_visibleUpstreams.mpr ⟨hget', hf.visible⟩, hlong, hrest, hf.more⟩ hnot
  · -- no longer one fits
    have := size_lt_nested other.name r
    rw [← hlong] at this
    omega

/-- Offered prompts come back to where they were listed exactly when no part of their names is empty
and no other visible upstream fits longer. -/
theorem roundTrips_iff (hv : validate [] ups = .ok ()) (hc : Connected ups px.backends) :
    RoundTrips px granted cat ans ↔ ∀ up idx name, Offered px granted cat ans up idx name →
      up.name ≠ "" ∧ name ≠ "" ∧ ¬ Nested px granted cat up name := by
  constructor
  · intro h up idx name hl
    obtain ⟨⟨u, hb⟩, -⟩ := getPrompt_sent_iff.mp (h up idx name hl [] .null)
    have hbest : Best px granted cat (toolId up.name name) _ _ := best_spec _
    obtain ⟨own, hown, hf, hname⟩ := hbest.fits _ hb
    -- the best is the upstream itself
    have hsame : own = up := by
      have h1 := List.mem_zipIdx_iff_getElem?.mp hown
      have h2 := (mem_visibleUpstreams.mp hl.1).1
      exact Option.some.inj (h1.symm.trans h2)
    subst hsame
    refine ⟨hf.named, hf.more, ?_⟩
    intro ⟨other, j, r, rest, hvis, hlong, hrest, hmore⟩
    have hmem : (other, j) ∈ px.upstreams.zipIdx := (List.mem_filter.mp hvis).1
    have hfits : Fits px granted cat (toolId own.name name) (other, j) rest := by
      refine ⟨(mem_visibleUpstreams.mp hvis).2, ?_, hmore, ?_⟩
      · intro he
        have := size_lt_nested own.name r
        rw [← hlong, he] at this
        simp at this
      · rw [hrest, ToolIds.id_nested, hlong]
    obtain ⟨b, hb', hle⟩ := hbest.longest (other, j) rest hmem hfits
    rw [hb] at hb'
    obtain rfl := Option.some.inj hb'
    have := size_lt_nested own.name r
    rw [← hlong] at this
    simp only [] at hname hle
    rw [hname] at hle
    omega
  · intro h up idx name hl table arguments
    obtain ⟨hu, hn, hnot⟩ := h up idx name hl
    exact getPrompt_sent_iff.mpr ⟨⟨_, best_of_offered hv hc hl hu hn hnot⟩, up,
      (mem_visibleUpstreams.mp hl.1).1, hl.kind⟩

end Names

/-! ## Two upstreams with prompts -/

/-- Two MCP upstreams without tools. -/
def promptServers (u v : String) : SourceMap.Proxy where
  cfg := ⟨.threeTool, ⟨[], []⟩, ⟨[], false⟩, .weak, .warn, []⟩
  upstreams := [⟨⟨u, fun _ => none⟩, .mcp, fun _ => none⟩, ⟨⟨v, fun _ => none⟩, .mcp, fun _ => none⟩]
  authoredSha _ := none
  errorHints _ := 0

def promptCatalog : Catalog := ⟨[], [], [], [], [], [], [], [[], []]⟩

/-- The first upstream lists one prompt. -/
def promptAnswers (name : String) : Answers where
  list idx method := if idx = 0 ∧ method = "prompts/list" then [.obj [("name", .str name)]] else []
  read _ _ := .error ""
  prompt _ _ _ := .ok .null

theorem connected_promptServers (u v : String) :
    Connected [ToolIds.commandUpstream u, ToolIds.commandUpstream v] (promptServers u v).backends :=
  List.Sublist.refl _

theorem offered_promptServers (u v : String) {name other : String} {up : SourceMap.Upstream} {idx : Nat}
    (h : Offered (promptServers u v) [] promptCatalog (promptAnswers name) up idx other) :
    up.name = u ∧ idx = 0 ∧ other = name := by
  obtain ⟨hvis, q, hq, hname⟩ := h
  have hup := (mem_visibleUpstreams.mp hvis).1
  match idx with
  | 0 =>
    obtain rfl := Option.some.inj hup
    obtain rfl := List.mem_singleton.mp hq
    exact ⟨rfl, rfl, (Option.some.inj hname).symm⟩
  | 1 =>
    obtain rfl := Option.some.inj hup
    cases hq
  | idx + 2 => cases hup

theorem crm_prompts_return : RoundTrips (promptServers "crm" "erp") [] promptCatalog
    (promptAnswers "greet.me") := by
  have hv : validate [] [ToolIds.commandUpstream "crm", ToolIds.commandUpstream "erp"] = .ok () := by
    decide +kernel
  refine (roundTrips_iff hv (connected_promptServers _ _)).mpr fun up idx name h => ?_
  obtain ⟨hu, rfl, rfl⟩ := offered_promptServers _ _ h
  refine ⟨by rw [hu]; decide, by decide, ?_⟩
  rintro ⟨other, j, r, rest, hvis, hlong, -⟩
  -- no name has four letters
  have hlen := congrArg (fun s => s.toList.length) hlong
  have hother := (mem_visibleUpstreams.mp hvis).1
  simp only [hu, String.toList_append, List.length_append] at hlen
  match j with
  | 0 =>
    obtain rfl := Option.some.inj hother
    simp at hlen
    omega
  | 1 =>
    obtain rfl := Option.some.inj hother
    simp at hlen
    omega
  | j + 2 => cases hother

/-- The prompt `b.x` of `a` is asked for at `a.b`, as `x`. -/
theorem nested_upstream_answers :
    validate [] [ToolIds.commandUpstream "a", ToolIds.commandUpstream "a.b"] = .ok () ∧
      (∃ up, Offered (promptServers "a" "a.b") [] promptCatalog (promptAnswers "b.x") up 0 "b.x") ∧
      (getPrompt (promptServers "a" "a.b") [] promptCatalog (promptAnswers "b.x") [] "a.b.x" .null).sent =
        [.prompt 1 "x" .null] ∧
      ¬ RoundTrips (promptServers "a" "a.b") [] promptCatalog (promptAnswers "b.x") := by
  have hoffered : Offered (promptServers "a" "a.b") [] promptCatalog (promptAnswers "b.x")
      ⟨⟨"a", fun _ => none⟩, .mcp, fun _ => none⟩ 0 "b.x" :=
    ⟨mem_visibleUpstreams.mpr ⟨rfl, rfl⟩, _, List.mem_singleton_self _, rfl⟩
  have hsent : (getPrompt (promptServers "a" "a.b") [] promptCatalog (promptAnswers "b.x") []
      "a.b.x" .null).sent =
      [.prompt 1 "x" .null] :=
    getPrompt_sent_iff.mpr ⟨⟨"a.b", by decide +kernel⟩, _, rfl, fun hk => by cases hk⟩
  refine ⟨by decide +kernel, ⟨_, hoffered⟩, hsent, fun h => ?_⟩
  have hback := h _ 0 "b.x" hoffered [] .null
  rw [show toolId "a" "b.x" = "a.b.x" by decide, hsent] at hback
  cases hback

end MinMcp.L4.Resources
