import MinMcp.L4App.SearchIndex
import Mathlib.Data.String.Basic

/-!
# What a search returns

`Index::search` of src/index.rs with the shipped options, for scores that are linearly ordered
(no NaN): the hits of the engine are scored again, sorted, topped by the tools that the query
names, and cut.

* `mem_named`: the names that `build_with` files a tool under; tools share names, and both names of
  one tool may be the same.
* `nodup_promoteExact`, `pairwise_promoteExact`: promotion keeps ids apart and scores falling.
* `search_wellFormed`: so they are in what is returned, and all tools so named come first.
-/
namespace MinMcp.L4.SearchIndex

open MinMcp.Core

section Names

variable (u : Unicode)

/-- The query is the tool's id in normal form, or what follows the first dot of it. -/
def Named (tools : List IndexedTool) (query id : String) : Prop :=
  ∃ t ∈ tools, t.id = id ∧ (normalizeId u t.id = normalizeId u query ∨
    ∃ name, afterDot t.id = some name ∧ normalizeId u name = normalizeId u query)

/-- The ids filed under a name. -/
def Index.named (ix : Index) (name : String) : List String := (ix.exact.lookup name).getD []

theorem mem_lookup_pushExact (exact : List (String × List String)) (name id name' x : String) :
    x ∈ ((pushExact exact name id).lookup name').getD [] ↔
      x ∈ (exact.lookup name').getD [] ∨ id = x ∧ name = name' := by
  unfold pushExact
  by_cases hn : name' = name
  · subst hn
    rw [OrderedMap.lookup_insert_self, Option.getD_some, List.mem_append, List.mem_singleton]
    exact or_congr_right ⟨fun h => ⟨h.symm, rfl⟩, fun h => h.1.symm⟩
  · rw [OrderedMap.lookup_insert_of_ne hn]
    exact ⟨Or.inl, fun h => h.resolve_right fun hx => hn hx.2.symm⟩

/-- A tool is filed under its id and what follows the first dot. -/
theorem mem_named_addTool (opts : Options) (ix : Index) (t : IndexedTool) (name id : String) :
    id ∈ (addTool u opts ix t).named name ↔ id ∈ ix.named name ∨ t.id = id ∧
      (normalizeId u t.id = name ∨ ∃ rest, afterDot t.id = some rest ∧ normalizeId u rest = name) := by
  simp only [Index.named, addTool]
  cases afterDot t.id with
  | none => simp only [mem_lookup_pushExact, reduceCtorEq, false_and, exists_false, or_false]
  | some rest =>
    simp only [mem_lookup_pushExact, Option.some.injEq, exists_eq_left', or_assoc, ← and_or_left]

theorem mem_named_foldl (opts : Options) (tools : List IndexedTool) (ix : Index) (query id : String) :
    id ∈ (tools.foldl (addTool u opts) ix).named (normalizeId u query) ↔
      id ∈ ix.named (normalizeId u query) ∨ Named u tools query id := by
  induction tools generalizing ix with
  | nil => simp [Named]
  | cons t ts ih =>
    rw [List.foldl_cons, ih, mem_named_addTool, or_assoc]
    simp only [Named, List.mem_cons, exists_eq_or_imp]

theorem mem_named (tools : List IndexedTool) (opts : Options) (query id : String) :
    id ∈ (buildWith u tools opts).named (normalizeId u query) ↔ Named u tools query id := by
  rw [buildWith, mem_named_foldl]
  simp [Index.named]

end Names

theorem opts_buildWith (u : Unicode) (tools : List IndexedTool) (opts : Options) :
    (buildWith u tools opts).opts = opts := by
  have h : ∀ ix : Index, (tools.foldl (addTool u opts) ix).opts = ix.opts := by
    induction tools with
    | nil => exact fun _ => rfl
    | cons t ts ih => exact fun ix => ih (addTool u opts ix t)
  exact h _

/-! ## Promotion -/

section Promotion

variable {S : Type} {a : Arith S}

/-- The ids that the query names, in order and without repetitions. -/
def Index.front (ix : Index) (name : String) : List String := ((ix.named name).insertionSort (· ≤ ·)).dedup

theorem pairwise_front (ix : Index) (name : String) : (ix.front name).Pairwise (· < ·) := by
  have hle : (ix.front name).Pairwise (· ≤ ·) :=
    (List.pairwise_insertionSort (· ≤ ·) (ix.named name)).sublist (List.dedup_sublist _)
  have hne : (ix.front name).Pairwise (· ≠ ·) := List.nodup_dedup _
  exact (hle.and hne).imp fun h => lt_of_le_of_ne h.1 h.2

theorem mem_front (ix : Index) (name id : String) : id ∈ ix.front name ↔ id ∈ ix.named name := by
  rw [Index.front, List.mem_dedup, List.mem_insertionSort]

theorem promoteExact_eq (ix : Index) (name : String) (scored : List (String × S)) :
    promoteExact a ix name scored =
      (ix.front name).map (fun id => (id, (scored.head?.map Prod.snd).getD (a.ofNat 1))) ++
        scored.filter fun hit => !(ix.named name).contains hit.1 := by
  unfold promoteExact Index.front Index.named
  cases ix.exact.lookup name with
  | none => simp
  | some ids => rfl

theorem map_fst_promoteExact (ix : Index) (name : String) (scored : List (String × S)) :
    (promoteExact a ix name scored).map Prod.fst =
      ix.front name ++ (scored.map Prod.fst).filter fun id => !(ix.named name).contains id := by
  rw [promoteExact_eq, List.map_append, List.map_map, List.filter_map]
  exact congrArg (· ++ _) (List.map_id _)

theorem nodup_promoteExact (ix : Index) (name : String) {scored : List (String × S)}
    (h : (scored.map Prod.fst).Nodup) : ((promoteExact a ix name scored).map Prod.fst).Nodup := by
  rw [map_fst_promoteExact]
  refine List.nodup_append.mpr ⟨List.nodup_dedup _, h.sublist List.filter_sublist, ?_⟩
  intro x hx y hy hxy
  subst hxy
  rw [mem_front] at hx
  simp [hx] at hy

/-- The hits in the order in which they are before promotion. -/
theorem exists_ranking (u : Unicode) (engine : List (String × String) → String → List (String × S))
    (ix : Index) (hr : ix.opts.rerank = true) (query : String) :
    ∃ hits : List (String × S), hits.map Prod.fst = (engine ix.documents query).map Prod.fst ∧
      ranking u a engine ix query = promoteExact a ix (normalizeId u query)
        (hits.insertionSort fun x y => hitLe a x y = true) := by
  refine ⟨_, ?_, by simp only [ranking, hr, if_true]; rfl⟩
  rw [List.map_map]
  exact List.map_congr_left fun hit _ => rescore_id a ix _ _ hit

end Promotion

/-! ## Rank order -/

section Rank

variable {S : Type} [LinearOrder S] {a : Arith S}

/-- The scores are in linear order. -/
def Ordered (a : Arith S) : Prop := ∀ x y, a.partialCmp x y = some (compare x y)

theorem hitLe_iff (hcmp : Ordered a) (x y : String × S) :
    hitLe a x y = true ↔ y.2 < x.2 ∨ x.2 = y.2 ∧ x.1 ≤ y.1 := by
  unfold hitLe
  rw [hcmp, Option.getD_some]
  rcases lt_trichotomy y.2 x.2 with h | h | h
  · simp [compare_lt_iff_lt.mpr h, h]
  · simp [h]
  · simp [compare_gt_iff_gt.mpr h, h.not_gt, h.ne]

theorem pairwise_scored (hcmp : Ordered a) (hits : List (String × S)) :
    (hits.insertionSort fun x y => hitLe a x y = true).Pairwise fun x y => y.2 ≤ x.2 := by
  have htotal : Std.Total fun x y : String × S => hitLe a x y = true := by
    refine ⟨fun x y => ?_⟩
    rw [hitLe_iff hcmp, hitLe_iff hcmp]
    rcases lt_trichotomy y.2 x.2 with h | h | h
    · exact Or.inl (Or.inl h)
    · exact (le_total x.1 y.1).imp (fun hle => Or.inr ⟨h.symm, hle⟩) fun hle => Or.inr ⟨h, hle⟩
    · exact Or.inr (Or.inl h)
  have htrans : IsTrans _ fun x y : String × S => hitLe a x y = true := by
    refine ⟨fun x y z hxy hyz => ?_⟩
    rw [hitLe_iff hcmp] at hxy hyz ⊢
    rcases hxy with hxy | ⟨hxy, sxy⟩
    · rcases hyz with hyz | ⟨hyz, -⟩
      · exact Or.inl (hyz.trans hxy)
      · exact Or.inl (hyz ▸ hxy)
    · rcases hyz with hyz | ⟨hyz, syz⟩
      · exact Or.inl (hxy ▸ hyz)
      · exact Or.inr ⟨hxy.trans hyz, sxy.trans syz⟩
  refine (List.pairwise_insertionSort _ hits).imp fun {x y} h => ?_
  rcases (hitLe_iff hcmp x y).mp h with h | h
  · exact h.le
  · exact h.1.ge

/-- The first score is the best. -/
theorem le_head {scored : List (String × S)} (h : scored.Pairwise fun x y => y.2 ≤ x.2) {hit : String × S}
    (hm : hit ∈ scored) (other : S) : hit.2 ≤ (scored.head?.map Prod.snd).getD other := by
  cases scored with
  | nil => cases hm
  | cons first rest =>
    rcases List.mem_cons.mp hm with rfl | hm
    · exact le_refl _
    · exact (List.pairwise_cons.mp h).1 hit hm

theorem pairwise_promoteExact (ix : Index) (name : String) {scored : List (String × S)}
    (h : scored.Pairwise fun x y => y.2 ≤ x.2) :
    (promoteExact a ix name scored).Pairwise fun x y => y.2 ≤ x.2 := by
  rw [promoteExact_eq]
  refine List.pairwise_append.mpr ⟨?_, h.sublist List.filter_sublist, ?_⟩
  · exact List.pairwise_map.mpr (List.pairwise_of_forall fun _ _ => le_refl _)
  · intro x hx y hy
    obtain ⟨id, -, rfl⟩ := List.mem_map.mp hx
    exact le_head h (List.mem_of_mem_filter hy) _

/-! ## The search -/

variable (u : Unicode) (engine : List (String × String) → String → List (String × S))

/-- What `search` may return: at most `k`, no id twice, by falling score, all tools that the query
names before the others, in the order of their ids. -/
structure WellFormed (tools : List IndexedTool) (query : String) (k : Nat) (found : List (String × S)) :
    Prop where
  few : found.length ≤ k
  distinct : (found.map Prod.fst).Nodup
  falling : found.Pairwise fun x y => y.2 ≤ x.2
  namedFirst : ∃ front rest : List String, front.Pairwise (· < ·) ∧
    (∀ id, id ∈ front ↔ Named u tools query id) ∧ (∀ id ∈ rest, ¬Named u tools query id) ∧
    found.map Prod.fst = (front ++ rest).take k

variable {u engine} in
theorem wellFormed_of_named (hcmp : Ordered a) {tools : List IndexedTool} (ix : Index) {query : String}
    (hr : ix.opts.rerank = true) (hengine : ((engine ix.documents query).map Prod.fst).Nodup)
    (hnamed : ∀ id, id ∈ ix.named (normalizeId u query) ↔ Named u tools query id) (k : Nat) :
    WellFormed u tools query k (search u a engine ix query k) := by
  obtain ⟨hits, hids, hrank⟩ := exists_ranking (a := a) u engine ix hr query
  let scored := hits.insertionSort fun x y => hitLe a x y = true
  have hnodup : (scored.map Prod.fst).Nodup :=
    ((List.perm_insertionSort _ hits).map Prod.fst).nodup_iff.mpr (hids ▸ hengine)
  rw [search, hrank]
  refine ⟨List.length_take_le _ _, ?_, ?_, ix.front (normalizeId u query),
    (scored.map Prod.fst).filter fun id => !(ix.named (normalizeId u query)).contains id,
    pairwise_front _ _, fun id => ?_, fun id hid hn => ?_, ?_⟩
  · rw [List.map_take]
    exact (nodup_promoteExact _ _ hnodup).sublist (List.take_sublist _ _)
  · exact (pairwise_promoteExact _ _ (pairwise_scored hcmp hits)).sublist (List.take_sublist _ _)
  · rw [mem_front, hnamed]
  · have := (List.mem_filter.mp hid).2
    rw [← hnamed, ← List.contains_iff_mem] at hn
    rw [hn] at this
    cases this
  · rw [List.map_take, map_fst_promoteExact]

/-- Every index of the shipped surface, every state of its usage counts, every query and limit. -/
theorem search_wellFormed (hcmp : Ordered a) (tools : List IndexedTool) (usage : List (String × Nat))
    (query : String) (k : Nat) (hengine : ((engine (build u tools).documents query).map Prod.fst).Nodup) :
    WellFormed u tools query k (search u a engine { build u tools with usage := usage } query k) := by
  have hr : (build u tools).opts.rerank = true := by rw [build, opts_buildWith]; rfl
  exact wellFormed_of_named hcmp { build u tools with usage := usage } hr hengine
    (mem_named u tools .default query) k

end Rank

/-- The scores, in whole numbers. -/
def wholeArith : Arith Nat where
  ofNat := id
  add := (· + ·)
  mul := (· * ·)
  div := (· / ·)
  ln := Nat.log2
  partialCmp x y := some (compare x y)
  verbBoost := 1
  usageDamp := 0
  idDamp := 0

/-- Every text that shares a word with the query, the first one best. -/
def wordEngine (docs : List (String × String)) (query : String) : List (String × Nat) :=
  let words := rawTokens ascii query
  ((docs.filter fun d => (rawTokens ascii d.2).any (words.contains ·)).map Prod.fst).mapIdx
    fun i id => (id, docs.length - i)

def orderTools : List IndexedTool :=
  ["crm.orders_archive", "sales.CrmOrders", "crm.orders", "notes.find"].map fun id => ⟨id, "", ""⟩

/-- Two tools of one name behind a better hit of another. -/
theorem orders_wellFormed :
    search ascii wholeArith wordEngine (build ascii orderTools) "CRM orders" 3 =
      [("crm.orders", 4), ("sales.CrmOrders", 4), ("crm.orders_archive", 4)] ∧
    WellFormed ascii orderTools "CRM orders" 3
      (search ascii wholeArith wordEngine (build ascii orderTools) "CRM orders" 3) :=
  ⟨by decide +kernel, search_wellFormed ascii wordEngine (fun _ _ => rfl) orderTools [] "CRM orders" 3
    (by decide +kernel)⟩

end MinMcp.L4.SearchIndex
