import MinMcp.Core.Json.Value

/-!
# The drift report

`source-map --check` compares the source map of the last release with the live one
(src/main.rs:494-548). A tool is in a map with its `schema_sha`, and carries an overlay when
some entry of its id has one that is not null.

* `lookup_sha`, `mem_overlaid`: what the index of a map holds.
* `Complete`: the report names the differences of the two maps, and flags the tools that carry
  an overlay, where they are live in the live map and else in the old one.
* `complete_iff`: it does exactly when every tool that is gone carries as much in the live map
  as in the old one; in a map whose entries all have a sha, when none of them carried any.
* `gone_and_not_flagged`: an overlaid tool that vanished.
-/
namespace MinMcp.L4.Drift

open MinMcp.Core

structure Index where
  sha : List (String × String)
  overlaid : List String

def entries (m : Json) : List Json := ((m.get "tools").bind Json.asArray).getD []

def toolId (t : Json) : Option String := (t.get "tool_id").bind Json.asStr

def schemaSha (t : Json) : Option String := (t.get "schema_sha").bind Json.asStr

def hasOverlay (t : Json) : Bool := !((t.get "overlay").getD .null).isNull

/-- One entry of a map. -/
def Index.add (ix : Index) (t : Json) : Index :=
  match toolId t with
  | none => ix
  | some id =>
    { sha := match schemaSha t with
        | some s => OrderedMap.insert id s ix.sha
        | none => ix.sha
      overlaid := if hasOverlay t then id :: ix.overlaid else ix.overlaid }

/-- mirrors src/main.rs:496-510 -/
def indexSourceMap (m : Json) : Index := (entries m).foldl Index.add ⟨[], []⟩

structure Report where
  changed : List String
  removed : List String
  added : List String
  overlaysToReverify : List String
  breaking : Bool

def sorted (ids : List String) : List String := ids.mergeSort (· ≤ ·)

/-- mirrors src/main.rs:515-548 -/
def diffMaps (old cur : Json) : Report :=
  let oldSha := (indexSourceMap old).sha
  let curSha := (indexSourceMap cur).sha
  let curOverlaid := (indexSourceMap cur).overlaid
  let changed := (curSha.filter fun e => (oldSha.lookup e.1).any (· ≠ e.2)).map Prod.fst
  let added := (curSha.filter fun e => (oldSha.lookup e.1).isNone).map Prod.fst
  let removed := (OrderedMap.keys oldSha).filter fun id => (curSha.lookup id).isNone
  let affected := (changed ++ removed).filter fun id => id ∈ curOverlaid
  ⟨sorted changed, sorted removed, sorted added, sorted affected, !affected.isEmpty⟩

/-! ## What the report is about -/

/-- The sha of a tool, the last one given. -/
def shaOf (m : Json) (id : String) : Option String :=
  (entries m).reverse.findSome? fun t => if toolId t = some id then schemaSha t else none

def Carries (m : Json) (id : String) : Prop := ∃ t ∈ entries m, toolId t = some id ∧ hasOverlay t = true

variable (old cur : Json)

def Changed (id : String) : Prop := ∃ a b, shaOf old id = some a ∧ shaOf cur id = some b ∧ a ≠ b

def Gone (id : String) : Prop := (shaOf old id).isSome ∧ shaOf cur id = none

/-- A tool with an overlay changed or is gone. -/
def Affected (id : String) : Prop :=
  (Changed old cur id ∧ Carries cur id) ∨ (Gone old cur id ∧ Carries old id)

/-- The ids are those of the set, each once. -/
def Lists (ids : List String) (P : String → Prop) : Prop := ids.Nodup ∧ ∀ id, id ∈ ids ↔ P id

structure Complete : Prop where
  changed : Lists (diffMaps old cur).changed (Changed old cur)
  removed : Lists (diffMaps old cur).removed (Gone old cur)
  added : Lists (diffMaps old cur).added (Gone cur old)
  reverify : Lists (diffMaps old cur).overlaysToReverify (Affected old cur)
  breaking : (diffMaps old cur).breaking = true ↔ ∃ id, Affected old cur id

/-! ## The index -/

variable {old cur}

theorem add_sha (ix : Index) (t : Json) (id : String) :
    (ix.add t).sha.lookup id =
      ((if toolId t = some id then schemaSha t else none).or (ix.sha.lookup id)) := by
  unfold Index.add
  cases toolId t with
  | none => rfl
  | some id' =>
    cases schemaSha t with
    | none => simp
    | some s =>
      by_cases he : id' = id
      · subst he
        simp [OrderedMap.lookup_insert_self]
      · simp [he, OrderedMap.lookup_insert_of_ne (Ne.symm he)]

theorem mem_add_overlaid (ix : Index) (t : Json) (id : String) :
    id ∈ (ix.add t).overlaid ↔ (toolId t = some id ∧ hasOverlay t = true) ∨ id ∈ ix.overlaid := by
  unfold Index.add
  cases toolId t with
  | none => simp
  | some id' =>
    cases hasOverlay t <;> simp [eq_comm]

theorem foldl_add (ts : List Json) (ix : Index) (id : String) :
    (ts.foldl Index.add ix).sha.lookup id =
        ((ts.reverse.findSome? fun t => if toolId t = some id then schemaSha t else none).or
          (ix.sha.lookup id)) ∧
      (id ∈ (ts.foldl Index.add ix).overlaid ↔
        (∃ t ∈ ts, toolId t = some id ∧ hasOverlay t = true) ∨ id ∈ ix.overlaid) := by
  induction ts generalizing ix with
  | nil => simp
  | cons t ts ih =>
    obtain ⟨hsha, hover⟩ := ih (ix.add t)
    rw [List.foldl_cons, hsha, hover, add_sha, mem_add_overlaid, List.reverse_cons,
      List.findSome?_append]
    simp [Option.or_assoc, or_assoc, or_left_comm]

theorem lookup_sha (m : Json) (id : String) : (indexSourceMap m).sha.lookup id = shaOf m id := by
  unfold indexSourceMap
  rw [(foldl_add _ _ id).1]
  exact Option.or_none

theorem mem_overlaid (m : Json) (id : String) : id ∈ (indexSourceMap m).overlaid ↔ Carries m id := by
  unfold indexSourceMap
  rw [(foldl_add _ _ id).2]
  exact or_iff_left List.not_mem_nil

theorem nodup_sha (m : Json) : (OrderedMap.keys (indexSourceMap m).sha).Nodup := by
  have step : ∀ (ts : List Json) (ix : Index), (OrderedMap.keys ix.sha).Nodup →
      (OrderedMap.keys (ts.foldl Index.add ix).sha).Nodup := by
    intro ts
    induction ts with
    | nil => exact fun _ h => h
    | cons t ts ih =>
      intro ix h
      apply ih
      unfold Index.add
      cases toolId t with
      | none => exact h
      | some id =>
        cases schemaSha t with
        | none => exact h
        | some s => exact OrderedMap.nodup_insert id s h
  exact step _ _ List.nodup_nil

theorem mem_keys_sha (m : Json) (id : String) :
    id ∈ OrderedMap.keys (indexSourceMap m).sha ↔ (shaOf m id).isSome := by
  rw [← lookup_sha, Option.isSome_iff_exists]
  exact OrderedMap.lookup_isSome.symm

theorem mem_sorted {ids : List String} {id : String} : id ∈ sorted ids ↔ id ∈ ids := List.mem_mergeSort

theorem Lists.sorted {ids : List String} {P : String → Prop} (h : Lists ids P) : Lists (sorted ids) P :=
  ⟨(List.mergeSort_perm ids _).nodup_iff.mpr h.1, fun id => mem_sorted.trans (h.2 id)⟩

/-- The ids of the entries that meet a test. -/
theorem lists_filter (m : Json) (test : String × String → Bool) :
    Lists (((indexSourceMap m).sha.filter test).map Prod.fst)
      (fun id => ∃ s, shaOf m id = some s ∧ test (id, s) = true) := by
  refine ⟨(nodup_sha m).sublist (List.filter_sublist.map _), ?_⟩
  intro id
  simp only [List.mem_map, List.mem_filter]
  constructor
  · rintro ⟨⟨id', s⟩, ⟨hm, ht⟩, rfl⟩
    exact ⟨s, (lookup_sha m id').symm.trans (OrderedMap.lookup_of_mem (nodup_sha m) hm), ht⟩
  · intro ⟨s, hs, ht⟩
    exact ⟨(id, s), ⟨OrderedMap.mem_of_lookup ((lookup_sha m id).trans hs), ht⟩, rfl⟩

/-! ## The report -/

def changedIds (old cur : Json) : List String :=
  ((indexSourceMap cur).sha.filter fun e => ((indexSourceMap old).sha.lookup e.1).any (· ≠ e.2)).map Prod.fst

def goneIds (old cur : Json) : List String :=
  (OrderedMap.keys (indexSourceMap old).sha).filter fun id => ((indexSourceMap cur).sha.lookup id).isNone

theorem lists_changed (old cur : Json) : Lists (changedIds old cur) (Changed old cur) := by
  obtain ⟨hn, hm⟩ := lists_filter cur fun e => ((indexSourceMap old).sha.lookup e.1).any (· ≠ e.2)
  refine ⟨hn, fun id => (hm id).trans ?_⟩
  simp only [lookup_sha, Option.any_eq_true, decide_eq_true_eq]
  constructor
  · intro ⟨b, hb, a, ha, hne⟩
    exact ⟨a, b, ha, hb, hne⟩
  · intro ⟨a, b, ha, hb, hne⟩
    exact ⟨b, hb, a, ha, hne⟩

theorem lists_gone (old cur : Json) : Lists (goneIds old cur) (Gone old cur) := by
  refine ⟨(nodup_sha old).filter _, fun id => ?_⟩
  rw [goneIds, List.mem_filter, mem_keys_sha, lookup_sha, Option.isNone_iff_eq_none]
  rfl

theorem lists_added (old cur : Json) :
    Lists (((indexSourceMap cur).sha.filter fun e => ((indexSourceMap old).sha.lookup e.1).isNone).map
      Prod.fst) (Gone cur old) := by
  obtain ⟨hn, hm⟩ := lists_filter cur fun e => ((indexSourceMap old).sha.lookup e.1).isNone
  refine ⟨hn, fun id => (hm id).trans ?_⟩
  simp only [lookup_sha, Option.isNone_iff_eq_none, Gone, Option.isSome_iff_exists]
  constructor
  · intro ⟨s, hs, ho⟩
    exact ⟨⟨s, hs⟩, ho⟩
  · intro ⟨⟨s, hs⟩, ho⟩
    exact ⟨s, hs, ho⟩

/-- The tools the report flags: those that changed or are gone and carry one in the live map. -/
theorem lists_affected (old cur : Json) :
    Lists ((changedIds old cur ++ goneIds old cur).filter fun id => id ∈ (indexSourceMap cur).overlaid)
      (fun id => (Changed old cur id ∨ Gone old cur id) ∧ Carries cur id) := by
  obtain ⟨hnc, hmc⟩ := lists_changed old cur
  obtain ⟨hng, hmg⟩ := lists_gone old cur
  constructor
  · refine (List.nodup_append.mpr ⟨hnc, hng, ?_⟩).filter _
    rintro id hc id' hg rfl
    obtain ⟨-, b, -, hb, -⟩ := (hmc id).mp hc
    rw [((hmg id).mp hg).2] at hb
    cases hb
  · intro id
    rw [List.mem_filter, List.mem_append, hmc, hmg, decide_eq_true_eq, mem_overlaid]

theorem isEmpty_eq_false_iff {ids : List String} {P : String → Prop} (h : Lists ids P) :
    (!ids.isEmpty) = true ↔ ∃ id, P id := by
  rw [Bool.not_eq_true', List.isEmpty_eq_false_iff_exists_mem]
  exact exists_congr h.2

/-- **Report.** It is complete exactly when each tool that is gone carries an overlay in the
live map if it did in the old one. -/
theorem complete_iff (old cur : Json) :
    Complete old cur ↔ ∀ id, Gone old cur id → (Carries old id ↔ Carries cur id) := by
  have haffected := lists_affected old cur
  constructor
  · intro h id hg
    have hnc : ¬ Changed old cur id := by
      rintro ⟨-, b, -, hb, -⟩
      rw [hg.2] at hb
      cases hb
    have hid := (h.reverify.2 id).symm.trans (haffected.sorted.2 id)
    simpa [Affected, hg, hnc] using hid
  · intro h
    have hiff : ∀ id, ((Changed old cur id ∨ Gone old cur id) ∧ Carries cur id) ↔ Affected old cur id := by
      intro id
      rw [or_and_right]
      exact or_congr Iff.rfl (and_congr_right fun hg => (h id hg).symm)
    have hreverify : Lists _ (Affected old cur) := ⟨haffected.1, fun id => (haffected.2 id).trans (hiff id)⟩
    exact ⟨(lists_changed old cur).sorted, (lists_gone old cur).sorted, (lists_added old cur).sorted,
      hreverify.sorted, isEmpty_eq_false_iff hreverify⟩

/-- In a live map whose overlays all stand on entries with a sha: no tool that is gone carried
one. -/
theorem complete_iff_of_sha (old cur : Json) (h : ∀ id, Carries cur id → (shaOf cur id).isSome) :
    Complete old cur ↔ ∀ id, Gone old cur id → ¬ Carries old id := by
  rw [complete_iff]
  apply forall_congr'
  intro id
  apply forall_congr'
  intro hg
  have hc : ¬ Carries cur id := by
    intro hc
    have := h id hc
    rw [hg.2] at this
    cases this
  simp [hc]

/-! ## A tool that vanished -/

/-- One tool with an overlay. -/
def released : Json :=
  .obj [("tools", .arr [.obj [("tool_id", .str "api.search"), ("schema_sha", .str "1f2e"),
    ("overlay", .obj [("status", .str "ok")])]])]

def live : Json := .obj [("tools", .arr [])]

theorem gone_and_not_flagged : ¬ Complete released live := by
  intro h
  have hgone : Gone released live "api.search" := ⟨rfl, rfl⟩
  have hcarries : Carries released "api.search" := ⟨_, List.mem_singleton_self _, rfl, rfl⟩
  obtain ⟨t, ht, -⟩ := ((complete_iff released live).mp h "api.search" hgone).mp hcarries
  cases ht

end MinMcp.L4.Drift
