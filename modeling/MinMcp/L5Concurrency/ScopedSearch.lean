import MinMcp.L4App.SearchIndex
import MinMcp.L4App.Vet
import MinMcp.L5Concurrency.RequestIsolation

/-!
# Search for a caller with scopes

`Surface::search_text` of src/surface.rs on one catalog: the index is asked for three times
the limit, hits that the caller may not see are passed over, and the others are served until
the limit is reached.

* `eval_searchText`: this is what the program of `Isolation` comes to on one catalog.
* `served_eq`: the visible hits among those asked for, up to the limit.
* `served_iff`: these are the best visible hits exactly when the first `3 * k` hits hold `k`
  visible ones, or all that there are.
* `hidden_hits_starve`: three hidden tools in front of a visible one, and a limit of 1.
-/
namespace MinMcp.L5.ScopedSearch

open MinMcp.Core MinMcp.Core.Snapshots MinMcp.L4 MinMcp.L4.Catalogs
open MinMcp.L4.SearchIndex (Index IndexedTool Arith ranking)
open MinMcp.L4.Vet (assemble_isSome)
open MinMcp.L4.Minify (truncateInPlace)
open MinMcp.L5.Isolation (Proxy Snapshot firstLine usizeMax)

variable {St S : Type}

/-- What search indexes; `aliases` are those of a tool's overlay.
mirrors src/surface/catalog.rs:160-183 -/
def corpus (px : Proxy St) (aliases : String → List String) (tools : List ToolDef) : List IndexedTool :=
  tools.map (fun t =>
    let aliases := " ".intercalate (aliases t.id)
    ⟨t.id, if aliases.isEmpty then t.description else t.description ++ " " ++ aliases,
      SearchIndex.schemaParamText t.inputSchema⟩) ++
  px.workflows.map fun wf => ⟨wf.id, px.workflowDescription wf, ""⟩

section Search

variable (px : Proxy St) (granted : List String) (cat : Catalog)

/-- mirrors src/surface.rs:780-785 -/
def describe (id : String) : Option String :=
  match cat.lookup id with
  | some t => some (firstLine t.description)
  | none => (px.workflows.find? fun wf => wf.id = id).map px.workflowDescription

/-- A limit of 0 stands for the default.
mirrors src/surface.rs:643 -/
def limit (k : Nat) : Nat := if k = 0 then CallAudit.defaultSearchK else k

/-- How many hits the index is asked for.
mirrors src/surface.rs:646 -/
def overFetch (k : Nat) : Nat := min (limit k * 3) usizeMax

def line (id desc : String) : String := s!"{id} — {truncateInPlace (firstLine desc) 110}"

/-- The lines and the ids of what is served.
mirrors src/surface.rs:647-663 -/
def searchLoop (k : Nat) (lines served : List String) : List String → List String × List String
  | [] => (lines, served)
  | id :: hits =>
    if px.cfg.scopes.visible granted id then
      let desc := describe px cat id
      let lines := lines ++ (desc.map (line id)).toList
      let served := served ++ (desc.map fun _ => id).toList
      if k ≤ lines.length then (lines, served) else searchLoop k lines served hits
    else searchLoop k lines served hits

variable (u : SearchIndex.Unicode) (a : Arith S)
  (engine : List (String × String) → String → List (String × S))

/-- The text for the agent, and the ids it names, in rank order.
mirrors src/surface.rs:640-671 -/
def searchText (ix : Index) (query : String) (k : Nat) : String × List String :=
  let hits := (SearchIndex.search u a engine ix query (overFetch k)).map Prod.fst
  let (lines, served) := searchLoop px granted cat (limit k) [] [] hits
  (if lines.isEmpty then "no matches — try different words (resource or action names work best)"
    else "\n".intercalate lines, served)

/-! ## The program of a request -/

theorem eval_describe (snap : Snapshot) (id : String) :
    eval (Isolation.ask px granted) snap (Isolation.describe px id) = describe px snap.toCatalog id := by
  unfold Isolation.describe describe
  rw [eval_bind]
  have hlook : eval (Isolation.ask px granted) snap (Isolation.look (.describe id)) =
      (snap.lookup id).map fun t => firstLine t.description := rfl
  rw [hlook]
  cases snap.lookup id <;> rfl

theorem eval_searchLines (snap : Snapshot) (k : Nat) (lines served : List String) (hits : List String) :
    eval (Isolation.ask px granted) snap (Isolation.searchLines px granted k lines hits) =
      (searchLoop px granted snap.toCatalog k lines served hits).1 := by
  induction hits generalizing lines served with
  | nil => rfl
  | cons id hits ih =>
    unfold Isolation.searchLines searchLoop
    split
    · rw [eval_bind, eval_describe]
      simp only []
      change eval _ _ (if k ≤ (lines ++ ((describe px snap.toCatalog id).map (line id)).toList).length then _
        else _) = _
      split
      · rfl
      · exact ih _ _
    · exact ih _ _

/-- On one catalog a search answers with the text of `searchText`. -/
theorem eval_searchText (ix : Index) (query : String) (k : Nat) :
    eval (Isolation.ask px granted)
      ⟨cat, fun query n => (SearchIndex.search u a engine ix query n).map Prod.fst⟩
      (Isolation.searchText px granted query k) = (searchText px granted cat u a engine ix query k).1 := by
  unfold Isolation.searchText searchText
  simp only [eval_bind, eval_pure, eval_searchLines px granted _ _ _ []]
  rfl

/-! ## What is served -/

theorem served_searchLoop {k : Nat} {lines served : List String} {hits : List String}
    (hd : ∀ id ∈ hits, (describe px cat id).isSome) (hl : lines.length = served.length)
    (hk : served.length < k) :
    (searchLoop px granted cat k lines served hits).2 =
      served ++ (hits.filter fun id => px.cfg.scopes.visible granted id).take (k - served.length) := by
  induction hits generalizing lines served with
  | nil => simp [searchLoop]
  | cons id hits ih =>
    have hd' := fun x hx => hd x (List.mem_cons_of_mem id hx)
    obtain ⟨desc, hdesc⟩ := Option.isSome_iff_exists.mp (hd id List.mem_cons_self)
    unfold searchLoop
    by_cases hv : px.cfg.scopes.visible granted id = true
    · rw [if_pos hv, List.filter_cons_of_pos hv]
      simp only [hdesc, Option.map_some, Option.toList_some, List.length_append, List.length_singleton]
      obtain ⟨m, hm⟩ : ∃ m, k - served.length = m + 1 := ⟨k - served.length - 1, by omega⟩
      rw [hm, List.take_succ_cons]
      split
      · next hfull =>
        have : m = 0 := by omega
        simp [this]
      · next hfull =>
        rw [ih hd' (by simp [hl]) (by simp; omega)]
        have : k - (served ++ [id]).length = m := by simp; omega
        rw [this, List.append_assoc, List.singleton_append]
    · rw [if_neg hv, List.filter_cons_of_neg hv]
      exact ih hd' hl hk

end Search

/-! ## The best visible hits -/

/-- Filtering a beginning of a list gives the first `k` that filtering the list gives, when it
holds so many, or nothing is left behind it. -/
theorem take_filter_take {α : Type} (p : α → Bool) (n k : Nat) (xs : List α) :
    ((xs.take n).filter p).take k = (xs.filter p).take k ↔
      k ≤ (xs.take n).countP p ∨ ∀ x ∈ xs.drop n, p x = false := by
  have hsplit : xs.filter p = (xs.take n).filter p ++ (xs.drop n).filter p := by
    rw [← List.filter_append, List.take_append_drop]
  rw [hsplit, List.take_append, List.countP_eq_length_filter]
  constructor
  · intro h
    by_cases hk : k ≤ ((xs.take n).filter p).length
    · exact Or.inl hk
    · right
      rw [List.self_eq_append_right, List.take_eq_nil_iff, List.filter_eq_nil_iff] at h
      intro x hx
      simpa using h.resolve_left (by omega) x hx
  · intro h
    rw [List.self_eq_append_right, List.take_eq_nil_iff, List.filter_eq_nil_iff]
    rcases h with hk | hnone
    · exact Or.inl (by omega)
    · exact Or.inr fun x hx => by simp [hnone x hx]

section Served

variable (px : Proxy St) (granted : List String) (u : SearchIndex.Unicode) (a : Arith S)
  (engine : List (String × String) → String → List (String × S))

/-- A catalog of the proxy's upstreams and its index, whatever has been used. -/
structure Indexed (aliases : String → List String) (cat : Catalog) (ix : Index) : Prop where
  assembled : ∃ expand listings, AllListed px.upstreams listings ∧
    assemble px.cfg expand px.upstreams listings = some cat
  built : ∃ usage, ix = { SearchIndex.build u (corpus px aliases cat.tools) with usage := usage }

/-- All hits of a query that the caller may see, in rank order. -/
def visibleRanking (ix : Index) (query : String) : List String :=
  ((ranking u a engine ix query).map Prod.fst).filter fun id => px.cfg.scopes.visible granted id

variable {px u}

/-- Whatever is indexed has a description. -/
theorem Indexed.describe {aliases : String → List String} {cat : Catalog} {ix : Index}
    (h : Indexed px u aliases cat ix) {id : String} (hid : id ∈ ix.ids) : (describe px cat id).isSome := by
  obtain ⟨expand, listings, hl, hcat⟩ := h.assembled
  obtain ⟨usage, rfl⟩ := h.built
  have hids := (SearchIndex.buildWith_sound u (corpus px aliases cat.tools) .default).2
  change id ∈ (SearchIndex.build u (corpus px aliases cat.tools)).ids at hid
  rw [SearchIndex.build, hids] at hid
  simp only [corpus, List.map_append, List.map_map, List.mem_append, List.mem_map, Function.comp_apply] at hid
  unfold ScopedSearch.describe
  cases ht : cat.lookup id with
  | some t => rfl
  | none =>
    rcases hid with ⟨t, htm, rfl⟩ | ⟨wf, hwf, rfl⟩
    · obtain ⟨t', -, hlook, -⟩ := (assemble_sound hl hcat).lookup_id htm
      rw [ht] at hlook
      cases hlook
    · rw [Option.isSome_map, List.find?_isSome]
      exact ⟨wf, hwf, by simp⟩

theorem Indexed.found {aliases : String → List String} {cat : Catalog} {ix : Index}
    (h : Indexed px u aliases cat ix) {engine : List (String × String) → String → List (String × S)}
    (hengine : ∀ docs query, ∀ hit ∈ engine docs query, hit.1 ∈ docs.map Prod.fst) (query : String) :
    ∀ id ∈ (ranking u a engine ix query).map Prod.fst, (ScopedSearch.describe px cat id).isSome := by
  intro id hid
  obtain ⟨hit, hhit, rfl⟩ := List.mem_map.mp hid
  have hex : ix.ExactSound := by
    obtain ⟨usage, rfl⟩ := h.built
    exact (SearchIndex.buildWith_sound u (corpus px aliases cat.tools) .default).1
  exact h.describe (SearchIndex.mem_ranking u a engine hengine hex hhit)

theorem limit_pos (k : Nat) : 0 < limit k := by
  unfold limit
  split
  · decide
  · omega

/-- What is served are the visible ones of the hits asked for, up to the limit. -/
theorem served_eq {aliases : String → List String} {cat : Catalog} {ix : Index}
    (h : Indexed px u aliases cat ix) {engine : List (String × String) → String → List (String × S)}
    (hengine : ∀ docs query, ∀ hit ∈ engine docs query, hit.1 ∈ docs.map Prod.fst) (query : String)
    (k : Nat) :
    (searchText px granted cat u a engine ix query k).2 =
      ((((ranking u a engine ix query).map Prod.fst).take (overFetch k)).filter
        fun id => px.cfg.scopes.visible granted id).take (limit k) := by
  have hd : ∀ id ∈ (SearchIndex.search u a engine ix query (overFetch k)).map Prod.fst,
      (ScopedSearch.describe px cat id).isSome := by
    intro id hid
    rw [SearchIndex.search, List.map_take] at hid
    exact h.found a hengine query id (List.mem_of_mem_take hid)
  unfold searchText
  simp only []
  rw [served_searchLoop px granted cat hd rfl (limit_pos k), List.nil_append, List.length_nil, Nat.sub_zero,
    SearchIndex.search, List.map_take]

/-- **Search of a scoped caller.** What is served are the first visible hits of the full
ranking exactly when the hits that are asked for hold as many visible ones as the limit
allows, or all visible ones. -/
theorem served_iff {aliases : String → List String} {cat : Catalog} {ix : Index}
    (h : Indexed px u aliases cat ix) {engine : List (String × String) → String → List (String × S)}
    (hengine : ∀ docs query, ∀ hit ∈ engine docs query, hit.1 ∈ docs.map Prod.fst) (query : String)
    (k : Nat) :
    (searchText px granted cat u a engine ix query k).2 =
        (visibleRanking px granted u a engine ix query).take (limit k) ↔
      limit k ≤ (((ranking u a engine ix query).map Prod.fst).take (overFetch k)).countP
          (fun id => px.cfg.scopes.visible granted id) ∨
        ∀ id ∈ ((ranking u a engine ix query).map Prod.fst).drop (overFetch k),
          px.cfg.scopes.visible granted id = false := by
  rw [served_eq granted a h hengine, visibleRanking]
  exact take_filter_take _ _ _ _

end Served

/-! ## Hidden tools in front -/

/-- The scores, for tools that have not been used. -/
def exactArith : Arith Rat where
  ofNat n := n
  add := (· + ·)
  mul := (· * ·)
  div := (· / ·)
  ln x := if x = 1 then 0 else x
  partialCmp x y := some (compareOfLessAndEq x y)
  verbBoost := 13 / 10
  usageDamp := 15 / 100
  idDamp := 4 / 100

/-- Every text that shares a word with the query. -/
def keywordEngine (docs : List (String × String)) (query : String) : List (String × Rat) :=
  let words := SearchIndex.rawTokens SearchIndex.ascii query
  (docs.filter fun d => (SearchIndex.rawTokens SearchIndex.ascii d.2).any (words.contains ·)).map
    fun d => (d.1, 1)

theorem keywordEngine_finds (docs : List (String × String)) (query : String) :
    ∀ hit ∈ keywordEngine docs query, hit.1 ∈ docs.map Prod.fst := by
  intro hit hhit
  obtain ⟨d, hd, rfl⟩ := List.mem_map.mp hhit
  exact List.mem_map_of_mem (List.mem_of_mem_filter hd)

def teams : List String := ["audit", "billing", "crm", "desk"]

/-- Four upstreams with a tool `orders` each; a caller of the desk sees its own. -/
def fourTeams : Proxy Unit :=
  { Isolation.exampleProxy with
    cfg := ⟨.threeTool, ⟨[], []⟩, ⟨[⟨"desk", ["desk.*"]⟩], false⟩, .weak, .warn, []⟩
    upstreams := teams.map fun t => ⟨t, fun _ => none⟩ }

def teamListings : List (List ToolDef) :=
  teams.mapIdx fun i t => [toolDef t i (.obj [("name", .str "orders")])]

theorem fourTeams_indexed : ∃ cat, assemble fourTeams.cfg some fourTeams.upstreams teamListings = some cat ∧
    Indexed fourTeams SearchIndex.ascii (fun _ => []) cat
      (SearchIndex.build SearchIndex.ascii (corpus fourTeams (fun _ => []) cat.tools)) := by
  have htotal : ∀ v : String, (some v).isSome := fun _ => rfl
  obtain ⟨cat, hcat⟩ := assemble_isSome fourTeams.cfg htotal fourTeams.upstreams teamListings
  refine ⟨cat, hcat, ⟨some, teamListings, ?_, hcat⟩, _, rfl⟩
  intro i up ts hup hts
  match i with
  | 0 | 1 | 2 | 3 =>
    obtain rfl := Option.some.inj hup
    obtain rfl := Option.some.inj hts
    exact listed_toolDefs _ _ [_]
  | i + 4 => cases hup

def teamIndex (cat : Catalog) : Index :=
  SearchIndex.build SearchIndex.ascii (corpus fourTeams (fun _ => []) cat.tools)

/-- What a caller of the desk is served of the four tools. -/
def served (cat : Catalog) (k : Nat) : List String :=
  (searchText fourTeams ["desk"] cat SearchIndex.ascii exactArith keywordEngine (teamIndex cat) "orders" k).2

/-- The best `k` that it may see. -/
def owed (cat : Catalog) (k : Nat) : List String :=
  (visibleRanking fourTeams ["desk"] SearchIndex.ascii exactArith keywordEngine (teamIndex cat)
    "orders").take (limit k)

/-- With a limit of 2 the index is asked for all four. -/
theorem two_are_enough : ∃ cat, assemble fourTeams.cfg some fourTeams.upstreams teamListings = some cat ∧
    served cat 2 = owed cat 2 := by
  obtain ⟨cat, hcat, hix⟩ := fourTeams_indexed
  refine ⟨cat, hcat, (served_iff ["desk"] exactArith hix keywordEngine_finds "orders" 2).mpr ?_⟩
  have hr : ((assemble fourTeams.cfg some fourTeams.upstreams teamListings).all fun cat => decide
      (limit 2 ≤ (((ranking SearchIndex.ascii exactArith keywordEngine (teamIndex cat) "orders").map
          Prod.fst).take (overFetch 2)).countP (fun id => fourTeams.cfg.scopes.visible ["desk"] id) ∨
        ∀ id ∈ ((ranking SearchIndex.ascii exactArith keywordEngine (teamIndex cat) "orders").map
          Prod.fst).drop (overFetch 2), fourTeams.cfg.scopes.visible ["desk"] id = false)) = true := by
    decide +kernel
  rw [hcat] at hr
  exact of_decide_eq_true hr

/-- With a limit of 1 it is asked for the three that are hidden, and nothing is served. -/
theorem hidden_hits_starve : ∃ cat, assemble fourTeams.cfg some fourTeams.upstreams teamListings = some cat ∧
    Indexed fourTeams SearchIndex.ascii (fun _ => []) cat (teamIndex cat) ∧
      served cat 1 = [] ∧ owed cat 1 = ["desk.orders"] := by
  obtain ⟨cat, hcat, hix⟩ := fourTeams_indexed
  have hr : ((assemble fourTeams.cfg some fourTeams.upstreams teamListings).all fun cat =>
      decide (served cat 1 = [] ∧ owed cat 1 = ["desk.orders"])) = true := by decide +kernel
  rw [hcat] at hr
  exact ⟨cat, hcat, hix, of_decide_eq_true hr⟩

end MinMcp.L5.ScopedSearch
