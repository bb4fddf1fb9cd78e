import MinMcp.Core.Json.PlaceLoop
import MinMcp.L2Machine.Projection

/-!
# The order of renames

The `rename` of an overlay is a hash map from a path to the new name of its last key
(src/surface/results.rs:208-210, src/project.rs:65-93). A rename that ends in `[]`, or that gives
a key its own name, does nothing (`renameAt_of_not_live`).

* `renameAll_obj`, `renameAll_arr`: what a loop of renames makes of an object key by key, and of
  the elements of an array.
* `indep_iff`: the order does not matter at a value iff the renames of its keys are in order
  (`Ordered`) and it does not matter below.
* `rename_orderFree_iff`: it does not matter **iff** no rename goes through another, one key has
  one new name, no new name is on the way of another, and no two keys of one object get one name.
-/
namespace MinMcp.L2.RenameOrder

open MinMcp.Core MinMcp.Core.Json MinMcp.Core.PlaceLoop MinMcp.L2.Project

/-- The rename moves a key of some value. -/
def Live : List String → String → Prop
  | [], _ => False
  | [k], new => k ≠ "[]" ∧ new ≠ k
  | _ :: ks, new => Live ks new

/-- The renames, one after the other. -/
def renameAll (D : Entries String) (v : Json) : Json := D.foldl (fun v e => renameAt e.2 v e.1) v

/-- The order of the renames does not matter. -/
def Indep (D : Entries String) : Prop :=
  ∀ σ : Entries String, σ.Perm D → ∀ v : Json, v.WF → (renameAll σ v).Same (renameAll D v)

/-- The renames of the keys of one object. -/
structure Ordered (D : Entries String) : Prop where
  /-- A renamed key has one new name, and nothing is renamed below it. -/
  source : ∀ k n, ([k], n) ∈ D → ∀ r m, (k :: r, m) ∈ D → r = [] ∧ m = n
  /-- A new name is the key of no rename. The key `[]` of an object cannot be one. -/
  target : ∀ k n, ([k], n) ∈ D → n ≠ "[]" → ∀ r m, (n :: r, m) ∉ D
  distinct : ∀ k k' n, ([k], n) ∈ D → ([k'], n) ∈ D → k = k'

def AllLive (D : Entries String) : Prop := ∀ e ∈ D, Live e.1 e.2

/-! ## One rename -/

section One

variable {v w : Json} {k n m : String} {ks r : List String} {es : List (String × Json)} {xs : List Json}

theorem renameAll_cons (p : List String) (n : String) (D : Entries String) (v : Json) :
    renameAll ((p, n) :: D) v = renameAll D (renameAt n v p) := rfl

theorem renameAll_append (D E : Entries String) (v : Json) :
    renameAll (D ++ E) v = renameAll E (renameAll D v) := List.foldl_append

theorem renameAt_key (h : k ≠ "[]") (n : String) (es : List (String × Json)) :
    renameAt n (.obj es) [k] = match es.lookup k with
      | some x => .obj (OrderedMap.insert n x (OrderedMap.swapRemove k es))
      | none => .obj es := by
  rw [renameAt, if_neg h]
  cases es.lookup k <;> rfl

theorem renameAt_below (h : k ≠ "[]") (hr : r ≠ []) (n : String) (es : List (String × Json)) :
    renameAt n (.obj es) (k :: r) = match es.lookup k with
      | some x => .obj (OrderedMap.insert k (renameAt n x r) es)
      | none => .obj es := by
  rw [renameAt, if_neg h]
  cases es.lookup k <;> simp [hr]

theorem renameAt_elements (n : String) (r : List String) (xs : List Json) :
    renameAt n (.arr xs) ("[]" :: r) = .arr (xs.map fun x => renameAt n x r) := by
  rw [renameAt, if_pos rfl]

theorem renameAt_obj_elements (n : String) (r : List String) (es : List (String × Json)) :
    renameAt n (.obj es) ("[]" :: r) = .obj es := by
  rw [renameAt, if_pos rfl]

theorem renameAt_arr (h : k ≠ "[]") (n : String) (r : List String) (xs : List Json) :
    renameAt n (.arr xs) (k :: r) = .arr xs := by
  rw [renameAt, if_neg h]

theorem renameAt_scalar (ho : ∀ es, v ≠ .obj es) (ha : ∀ xs, v ≠ .arr xs) (n : String) (p : List String) :
    renameAt n v p = v := by
  cases v with
  | obj es => exact absurd rfl (ho es)
  | arr xs => exact absurd rfl (ha xs)
  | _ =>
    cases p with
    | nil => rfl
    | cons k r => unfold renameAt; split <;> rfl

theorem live_cons (hr : r ≠ []) : Live (k :: r) n ↔ Live r n := by
  cases r with
  | nil => exact absurd rfl hr
  | cons l ls => rfl

theorem lookup_moved (hn : (OrderedMap.keys es).Nodup) (x : Json) (q : String) :
    (OrderedMap.insert n x (OrderedMap.swapRemove k es)).lookup q =
      if q = n then some x else if q = k then none else es.lookup q := by
  by_cases hq : q = n
  · rw [if_pos hq, hq, OrderedMap.lookup_insert_self]
  · rw [if_neg hq, OrderedMap.lookup_insert_of_ne hq]
    by_cases hk : q = k
    · rw [if_pos hk, hk, OrderedMap.lookup_swapRemove_self hn]
    · rw [if_neg hk, OrderedMap.lookup_swapRemove_of_ne hk hn]

end One

/-! ## A loop of renames -/

section Loop

variable {D σ : Entries String} {es : List (String × Json)}

theorem ordered_of_subset (h : Ordered D) (hs : ∀ e ∈ σ, e ∈ D) : Ordered σ where
  source k n hk r m hm := h.source k n (hs _ hk) r m (hs _ hm)
  target k n hk hn r m hm := h.target k n (hs _ hk) hn r m (hs _ hm)
  distinct k k' n hk hk' := h.distinct k k' n (hs _ hk) (hs _ hk')

/-- What the renames leave under the key `q`. -/
structure Renamed (σ : Entries String) (es : List (String × Json)) (q : String) (o : Option Json) : Prop where
  moved : ∀ n, ([q], n) ∈ σ → o = none
  target : ∀ k, ([k], q) ∈ σ → o = (es.lookup k).or (es.lookup q)
  other : (∀ n, ([q], n) ∉ σ) → (∀ k, ([k], q) ∉ σ) → q ≠ "[]" →
    o = (es.lookup q).map (renameAll (deeper (under q σ)))
  brackets : q = "[]" → (∀ k, ([k], q) ∉ σ) → o = es.lookup q

theorem live_key {k n : String} (h : Live [k] n) : k ≠ "[]" ∧ n ≠ k := h

theorem deeper_under_cons {k : String} {r : List String} (hr : r ≠ []) (n : String) (σ : Entries String) :
    deeper (under k ((k :: r, n) :: σ)) = (r, n) :: deeper (under k σ) := by
  rw [under_cons_self, deeper, List.filter_cons_of_pos (by simpa using hr), ← deeper]

section Step

variable {es₁ : List (String × Json)} {k n q : String} {r : List String} {o : Option Json}

/-- A key is moved, and the rest of the renames follows. -/
theorem renamed_move (hlive : AllLive (([k], n) :: σ)) (hord : Ordered (([k], n) :: σ))
    (hes : ∀ q, es₁.lookup q = if q = n then (es.lookup k).or (es.lookup n) else if q = k then none else es.lookup q)
    (h : Renamed σ es₁ q o) : Renamed (([k], n) :: σ) es q o := by
  have hself : ([k], n) ∈ ([k], n) :: σ := List.mem_cons_self
  have hin : ∀ {e}, e ∈ σ → e ∈ ([k], n) :: σ := fun he => List.mem_cons_of_mem _ he
  obtain ⟨hk, hnk⟩ := live_key (hlive _ hself)
  have hatk : es₁.lookup k = none := by rw [hes, if_neg (Ne.symm hnk), if_pos rfl]
  have hatn : es₁.lookup n = (es.lookup k).or (es.lookup n) := by rw [hes, if_pos rfl]
  have hkfree : ∀ k', ([k'], k) ∉ σ := fun k' hm => hord.target k' k (hin hm) hk [] n hself
  refine ⟨fun m hm => ?_, fun k' hm => ?_, fun hmoved htarget hq => ?_, fun hq htarget => ?_⟩
  · rcases List.mem_cons.mp hm with he | hm
    · obtain rfl : q = k := by simpa using congrArg Prod.fst he
      by_cases hagain : ∃ m', ([q], m') ∈ σ
      · obtain ⟨m', hm'⟩ := hagain
        exact h.moved m' hm'
      · rw [h.other (fun m' hm' => hagain ⟨m', hm'⟩) hkfree hk, hatk]
        rfl
    · exact h.moved m hm
  · rcases List.mem_cons.mp hm with he | hrest
    · obtain ⟨rfl, rfl⟩ : k' = k ∧ q = n := by simpa using he
      by_cases hagain : ([k'], q) ∈ σ
      · rw [h.target k' hagain, hatk, hatn]
        rfl
      · have hnone : ∀ j, ([j], q) ∉ σ := fun j hj => hagain (hord.distinct j k' q (hin hj) hself ▸ hj)
        by_cases hq : q = "[]"
        · rw [h.brackets hq hnone, hatn]
        · have hfree : ∀ r m, (q :: r, m) ∉ σ := fun r m hm => hord.target k' q hself hq r m (hin hm)
          have hunder : under q σ = [] :=
            List.eq_nil_iff_forall_not_mem.mpr fun e he => hfree e.1 e.2 (mem_under.mp he)
          rw [h.other (fun m => hfree [] m) hnone hq, hatn, hunder]
          exact Option.map_id'
    · by_cases hqn : q = n
      · subst hqn
        obtain rfl := hord.distinct k' k q (hin hrest) hself
        rw [h.target k' hrest, hatk, hatn]
        rfl
      · have hk' : k' ≠ k := fun he => hqn (hord.source k n hself [] q (he ▸ hin hrest)).2
        have hk'n : k' ≠ n := by
          rintro rfl
          exact hord.target k k' hself (live_key (hlive _ (hin hrest))).1 [] q (hin hrest)
        have hqk : q ≠ k := fun he => hkfree k' (he ▸ hrest)
        rw [h.target k' hrest, hes, if_neg hk'n, if_neg hk', hes, if_neg hqn, if_neg hqk]
  · have hqk : q ≠ k := fun he => hmoved n (he ▸ hself)
    have hqn : q ≠ n := fun he => htarget k (he ▸ hself)
    rw [h.other (fun m hm => hmoved m (hin hm)) (fun k' hm => htarget k' (hin hm)) hq, hes, if_neg hqn,
      if_neg hqk, under_cons_of_ne (Ne.symm hqk)]
  · have hqn : q ≠ n := fun he => htarget k (he ▸ hself)
    rw [h.brackets hq fun k' hm => htarget k' (hin hm), hes, if_neg hqn, if_neg (hq ▸ Ne.symm hk)]

/-- A rename goes below a key, and the rest of the renames follows. -/
theorem renamed_below (hr : r ≠ []) (hk : k ≠ "[]") (hord : Ordered ((k :: r, n) :: σ))
    (hes : ∀ q, es₁.lookup q = if q = k then (es.lookup k).map fun x => renameAt n x r else es.lookup q)
    (h : Renamed σ es₁ q o) : Renamed ((k :: r, n) :: σ) es q o := by
  have hself : (k :: r, n) ∈ (k :: r, n) :: σ := List.mem_cons_self
  have hin : ∀ {e}, e ∈ σ → e ∈ (k :: r, n) :: σ := fun he => List.mem_cons_of_mem _ he
  have hkstays : ∀ m, ([k], m) ∉ σ := fun m hm => hr (hord.source k m (hin hm) r n hself).1
  have hkfree : ∀ k', ([k'], k) ∉ σ := fun k' hm => hord.target k' k (hin hm) hk r n hself
  have hhead : ∀ q m, ([q], m) ≠ (k :: r, n) := by
    intro q m he
    have := congrArg Prod.fst he
    simp [Ne.symm hr] at this
  refine ⟨fun m hm => ?_, fun k' hm => ?_, fun hmoved htarget hq => ?_, fun hq htarget => ?_⟩
  · exact h.moved m ((List.mem_cons.mp hm).resolve_left (hhead q m))
  · have hm := (List.mem_cons.mp hm).resolve_left (hhead k' q)
    have hk' : k' ≠ k := fun he => hkstays q (he ▸ hm)
    have hqk : q ≠ k := fun he => hkfree k' (he ▸ hm)
    rw [h.target k' hm, hes, if_neg hk', hes, if_neg hqk]
  · rw [h.other (fun m hm => hmoved m (hin hm)) (fun k' hm => htarget k' (hin hm)) hq, hes]
    by_cases hqk : q = k
    · subst hqk
      rw [if_pos rfl, deeper_under_cons hr, Option.map_map]
      rfl
    · rw [if_neg hqk, under_cons_of_ne (Ne.symm hqk)]
  · rw [h.brackets hq fun k' hm => htarget k' (hin hm), hes, if_neg (hq ▸ Ne.symm hk)]

/-- A rename goes into the elements of an array, and the rest of the renames follows. -/
theorem renamed_elements (hr : r ≠ []) (h : Renamed σ es q o) : Renamed (("[]" :: r, n) :: σ) es q o := by
  have hin : ∀ {e}, e ∈ σ → e ∈ ("[]" :: r, n) :: σ := fun he => List.mem_cons_of_mem _ he
  have hhead : ∀ q m, ([q], m) ≠ ("[]" :: r, n) := by
    intro q m he
    have := congrArg Prod.fst he
    simp [Ne.symm hr] at this
  refine ⟨fun m hm => ?_, fun k' hm => ?_, fun hmoved htarget hq => ?_, fun hq htarget => ?_⟩
  · exact h.moved m ((List.mem_cons.mp hm).resolve_left (hhead q m))
  · exact h.target k' ((List.mem_cons.mp hm).resolve_left (hhead k' q))
  · rw [h.other (fun m hm => hmoved m (hin hm)) (fun k' hm => htarget k' (hin hm)) hq,
      under_cons_of_ne (Ne.symm hq)]
  · exact h.brackets hq fun k' hm => htarget k' (hin hm)

end Step

/-- What the loop makes of an object. -/
theorem renameAll_obj (hlive : AllLive σ) (hord : Ordered σ) (hn : (OrderedMap.keys es).Nodup) :
    ∃ es', renameAll σ (.obj es) = .obj es' ∧ (OrderedMap.keys es').Nodup ∧
      ∀ q, Renamed σ es q (es'.lookup q) := by
  induction σ generalizing es with
  | nil =>
    refine ⟨es, rfl, hn, fun q => ⟨nofun, nofun, fun _ _ _ => ?_, fun _ _ => rfl⟩⟩
    cases es.lookup q <;> rfl
  | cons e σ ih =>
    obtain ⟨p, n⟩ := e
    obtain ⟨hl, hlive'⟩ := List.forall_mem_cons.mp hlive
    have hord' : Ordered σ := ordered_of_subset hord fun e he => List.mem_cons_of_mem _ he
    have hrest : ∀ {es₁ : List (String × Json)}, (OrderedMap.keys es₁).Nodup → ∃ es',
        renameAll σ (.obj es₁) = .obj es' ∧ (OrderedMap.keys es').Nodup ∧
          ∀ q, Renamed σ es₁ q (es'.lookup q) := fun hn₁ => ih hlive' hord' hn₁
    obtain ⟨k, r, rfl⟩ : ∃ k r, p = k :: r := List.exists_cons_of_ne_nil fun h => by rw [h] at hl; exact hl
    rw [renameAll_cons]
    by_cases hr : r = []
    · subst hr
      obtain ⟨hk, hnk⟩ := live_key hl
      rw [renameAt_key hk]
      cases hlk : es.lookup k with
      | none =>
        obtain ⟨es', he, hn', hq⟩ := hrest hn
        refine ⟨es', he, hn', fun q => renamed_move hlive hord (fun q => ?_) (hq q)⟩
        rw [hlk, Option.none_or]
        split
        · next h => rw [h]
        · split
          · next h => rw [h, hlk]
          · rfl
      | some x =>
        obtain ⟨es', he, hn', hq⟩ := hrest (OrderedMap.nodup_insert n x (OrderedMap.nodup_swapRemove k hn))
        refine ⟨es', he, hn', fun q => renamed_move hlive hord (fun q => ?_) (hq q)⟩
        rw [lookup_moved hn, hlk]
        rfl
    · by_cases hk : k = "[]"
      · subst hk
        rw [renameAt_obj_elements]
        obtain ⟨es', he, hn', hq⟩ := hrest hn
        exact ⟨es', he, hn', fun q => renamed_elements hr (hq q)⟩
      · rw [renameAt_below hk hr]
        cases hlk : es.lookup k with
        | none =>
          obtain ⟨es', he, hn', hq⟩ := hrest hn
          refine ⟨es', he, hn', fun q => renamed_below hr hk hord (fun q => ?_) (hq q)⟩
          rw [hlk]
          split
          · next h => rw [h, hlk]; rfl
          · rfl
        | some x =>
          obtain ⟨es', he, hn', hq⟩ := hrest (OrderedMap.nodup_insert k (renameAt n x r) hn)
          refine ⟨es', he, hn', fun q => renamed_below hr hk hord (fun q => ?_) (hq q)⟩
          rw [hlk]
          split
          · next h => rw [h, OrderedMap.lookup_insert_self]; rfl
          · next h => rw [OrderedMap.lookup_insert_of_ne h]

/-- What the loop makes of an array. -/
theorem renameAll_arr (hlive : AllLive σ) (xs : List Json) :
    renameAll σ (.arr xs) = .arr (xs.map (renameAll (deeper (under "[]" σ)))) := by
  induction σ generalizing xs with
  | nil => exact congrArg Json.arr (List.map_id' xs).symm
  | cons e σ ih =>
    obtain ⟨p, n⟩ := e
    obtain ⟨hl, hlive'⟩ := List.forall_mem_cons.mp hlive
    obtain ⟨k, r, rfl⟩ : ∃ k r, p = k :: r := List.exists_cons_of_ne_nil fun h => by rw [h] at hl; exact hl
    rw [renameAll_cons]
    by_cases hk : k = "[]"
    · subst hk
      have hr : r ≠ [] := fun h => by
        rw [h] at hl
        exact (live_key hl).1 rfl
      rw [renameAt_elements, ih hlive', deeper_under_cons hr, List.map_map]
      rfl
    · rw [renameAt_arr hk, ih hlive', under_cons_of_ne hk]

theorem renameAll_scalar {v : Json} (ho : ∀ es, v ≠ .obj es) (ha : ∀ xs, v ≠ .arr xs) : renameAll σ v = v := by
  induction σ with
  | nil => rfl
  | cons e σ ih => rw [renameAll_cons, renameAt_scalar ho ha, ih]

/-- Renames in order make the same of a value when those below do. -/
theorem indep_of_ordered (hlive : AllLive D) (hord : Ordered D) (hk : ∀ k, Indep (deeper (under k D))) :
    Indep D := by
  intro σ hσ v hv
  have hliveσ : AllLive σ := fun e he => hlive e (hσ.subset he)
  have hbelow : ∀ k x, x.WF →
      (renameAll (deeper (under k σ)) x).Same (renameAll (deeper (under k D)) x) :=
    fun k x hx => hk k _ (perm_deeper (perm_under hσ k)) x hx
  obtain ⟨es, rfl⟩ | ⟨xs, rfl⟩ | ⟨ho, ha⟩ := container_cases v
  · have hn := (wf_obj.mp hv).1
    obtain ⟨es₁, h₁, hn₁, hq₁⟩ := renameAll_obj hliveσ (ordered_of_subset hord fun e he => hσ.subset he) hn
    obtain ⟨es₂, h₂, hn₂, hq₂⟩ := renameAll_obj hlive hord hn
    have hrefl : ∀ q, SameOpt (es.lookup q) (es.lookup q) := fun q => sameOpt_refl fun c hc => wf_field hv hc
    rw [h₁, h₂, same_obj]
    refine ⟨hn₁, hn₂, fun q => ?_⟩
    by_cases hmoved : ∃ n, ([q], n) ∈ D
    · obtain ⟨n, hm⟩ := hmoved
      rw [(hq₁ q).moved n (hσ.mem_iff.mpr hm), (hq₂ q).moved n hm]
      exact .none
    by_cases htarget : ∃ k, ([k], q) ∈ D
    · obtain ⟨k, hm⟩ := htarget
      rw [(hq₁ q).target k (hσ.mem_iff.mpr hm), (hq₂ q).target k hm]
      cases hlk : es.lookup k with
      | none => exact hrefl q
      | some x => exact .some (same_refl (wf_field hv hlk))
    by_cases hq : q = "[]"
    · rw [(hq₁ q).brackets hq fun k hm => htarget ⟨k, hσ.subset hm⟩, (hq₂ q).brackets hq fun k hm => htarget ⟨k, hm⟩]
      exact hrefl q
    · rw [(hq₁ q).other (fun n hm => hmoved ⟨n, hσ.subset hm⟩) (fun k hm => htarget ⟨k, hσ.subset hm⟩) hq,
        (hq₂ q).other (fun n hm => hmoved ⟨n, hm⟩) (fun k hm => htarget ⟨k, hm⟩) hq]
      cases hlk : es.lookup q with
      | none => exact .none
      | some x => exact .some (hbelow q x (wf_field hv hlk))
  · rw [renameAll_arr hliveσ, renameAll_arr hlive, same_arr]
    intro i
    rw [List.getElem?_map, List.getElem?_map]
    cases hi : xs[i]? with
    | none => exact .none
    | some x => exact .some (hbelow "[]" x (wf_arr.mp hv x (List.mem_of_getElem? hi)))
  · rw [renameAll_scalar ho ha, renameAll_scalar ho ha]
    exact same_refl hv

/-! ## Values on which the order shows -/

section Witnesses

variable {k n : String} {x : Json}

theorem renameAt_absent (h : es.lookup k = none) (n : String) (r : List String) :
    renameAt n (.obj es) (k :: r) = .obj es := by
  rw [renameAt]
  split
  · rfl
  · rw [h]

/-- Renames that do not start at a key of the object. -/
theorem renameAll_absent (h : ∀ e ∈ σ, ∀ k r, e.1 = k :: r → es.lookup k = none) :
    renameAll σ (.obj es) = .obj es := by
  induction σ with
  | nil => rfl
  | cons e σ ih =>
    obtain ⟨p, n⟩ := e
    obtain ⟨hp, hσ⟩ := List.forall_mem_cons.mp h
    rw [renameAll_cons]
    cases p with
    | nil =>
      rw [renameAt]
      exact ih hσ
    | cons k r =>
      rw [renameAt_absent (hp k r rfl)]
      exact ih hσ

theorem lookup_single_of_ne {k k' : String} (h : k' ≠ k) (x : Json) : [(k, x)].lookup k' = none := by
  rw [OrderedMap.lookup_cons_of_ne h]
  rfl

theorem renameAll_apart (k : String) (D : Entries String) (x : Json) :
    renameAll (apart k D) (.obj [(k, x)]) = .obj [(k, x)] := by
  refine renameAll_absent fun e he j r hj => lookup_single_of_ne (fun h => ?_) x
  have := (List.mem_filter.mp he).2
  rw [hj, h] at this
  simp at this

theorem renameAll_gone {k' : String} (h : k' ≠ k) (σ : Entries String) (x : Json) :
    renameAll (atKey k σ) (.obj [(k', x)]) = .obj [(k', x)] := by
  refine renameAll_absent fun e he j r hj => lookup_single_of_ne (fun hjk => ?_) x
  obtain ⟨e', -, rfl⟩ := List.mem_map.mp he
  have hkj : k = j := (List.cons.inj hj).1
  exact h (hjk ▸ hkj.symm)

/-- Renames below the one key. -/
theorem renameAll_atKey (hk : k ≠ "[]") (hσ : Deep σ) (x : Json) :
    renameAll (atKey k σ) (.obj [(k, x)]) = .obj [(k, renameAll σ x)] := by
  induction σ generalizing x with
  | nil => rfl
  | cons e σ ih =>
    obtain ⟨hr, hσ⟩ := List.forall_mem_cons.mp hσ
    rw [atKey, List.map_cons, renameAll_cons, ← atKey, renameAt_below hk hr, List.lookup_cons_self]
    have hins : OrderedMap.insert k (renameAt e.2 x e.1) [(k, x)] = [(k, renameAt e.2 x e.1)] := by
      simp [OrderedMap.insert]
    show renameAll (atKey k σ) (.obj (OrderedMap.insert k (renameAt e.2 x e.1) [(k, x)])) = _
    rw [hins, ih hσ]
    rfl

/-- The first rename of the one key decides. -/
theorem renameAll_first (hk : k ≠ "[]") (hnk : n ≠ k) (σ : Entries String) (x : Json) :
    renameAll (atKey k (([], n) :: σ)) (.obj [(k, x)]) = .obj [(n, x)] := by
  rw [atKey, List.map_cons, renameAll_cons, ← atKey, renameAt_key hk, List.lookup_cons_self]
  have hins : OrderedMap.insert n x (OrderedMap.swapRemove k [(k, x)]) = [(n, x)] := by
    simp [OrderedMap.insert, OrderedMap.swapRemove]
  show renameAll (atKey k σ) (.obj (OrderedMap.insert n x (OrderedMap.swapRemove k [(k, x)]))) = _
  rw [hins, renameAll_gone hnk]

theorem same_single {x y : Json} (h : (Json.obj [(k, x)]).Same (.obj [(n, y)])) : k = n ∧ x.Same y := by
  have hk := h.lookup k
  rw [List.lookup_cons_self] at hk
  by_cases hkn : k = n
  · subst hkn
    rw [List.lookup_cons_self] at hk
    cases hk with
    | some h => exact ⟨rfl, h⟩
  · rw [lookup_single_of_ne hkn] at hk
    cases hk

theorem wf_single (h : x.WF) : (Json.obj [(k, x)]).WF :=
  wf_obj.mpr ⟨by simp [OrderedMap.keys], by simpa using h⟩

/-- An object of one key that a live rename of or below it changes. -/
theorem live_changes_key {r : List String} (hk : k ≠ "[]") (h : Live (k :: r) n)
    (hr : r ≠ [] → ∃ v, v.WF ∧ ¬ (renameAt n v r).Same v) :
    ∃ x, x.WF ∧ ¬ (renameAt n (.obj [(k, x)]) (k :: r)).Same (.obj [(k, x)]) := by
  by_cases hnil : r = []
  · subst hnil
    refine ⟨.null, trivial, fun hs => ?_⟩
    have hmove := renameAll_first hk (live_key h).2 [] .null
    rw [show renameAt n (.obj [(k, .null)]) [k] = .obj [(n, .null)] from hmove] at hs
    exact (live_key h).2 (same_single hs).1
  · obtain ⟨v, hv, hno⟩ := hr hnil
    refine ⟨v, hv, fun hs => hno ?_⟩
    have hmove := renameAll_atKey hk (σ := [(r, n)]) (by simpa [Deep] using hnil) v
    rw [show renameAt n (.obj [(k, v)]) (k :: r) = .obj [(k, renameAt n v r)] from hmove] at hs
    exact (same_single hs).2

/-- A value that a live rename changes. -/
theorem live_changes {p : List String} (h : Live p n) : ∃ v, v.WF ∧ ¬ (renameAt n v p).Same v := by
  induction p with
  | nil => cases h
  | cons k r ih =>
    by_cases hk : k = "[]"
    · subst hk
      have hr : r ≠ [] := fun hr => by
        rw [hr] at h
        exact (live_key h).1 rfl
      obtain ⟨v, hv, hno⟩ := ih ((live_cons hr).mp h)
      refine ⟨.arr [v], wf_arr.mpr (by simpa using hv), fun hs => hno ?_⟩
      rw [renameAt_elements] at hs
      have := same_arr.mp hs 0
      cases this with
      | some h => exact h
    · obtain ⟨x, hx, hno⟩ := live_changes_key hk h fun hr => ih ((live_cons hr).mp h)
      exact ⟨_, wf_single hx, hno⟩

end Witnesses

/-! ## Renames out of order -/

section Disorder

variable {k k' n m : String} {r : List String}

theorem perm_first {X : Type} {e : X} {l : List X} (h : e ∈ l) : ∃ l', (e :: l').Perm l := by
  obtain ⟨s, t, rfl⟩ := List.append_of_mem h
  exact ⟨s ++ t, List.perm_middle.symm⟩

theorem perm_apart_atKey {τ : Entries String} (h : τ.Perm (under k D)) : (apart k D ++ atKey k τ).Perm D :=
  (List.perm_append_comm.trans ((h.map _).append_right _)).trans (perm_atKey_apart k D)

/-- Two orders of an independent loop. -/
theorem Indep.same {τ : Entries String} (h : Indep D) (hσ : σ.Perm D) (hτ : τ.Perm D) {v : Json} (hv : v.WF) :
    (renameAll σ v).Same (renameAll τ v) := (h σ hσ v hv).trans (h τ hτ v hv).symm

/-- One order at a key of its own. -/
theorem renameAll_at {τ : Entries String} (x : Json) :
    renameAll (apart k D ++ atKey k τ) (.obj [(k, x)]) = renameAll (atKey k τ) (.obj [(k, x)]) := by
  rw [renameAll_append, renameAll_apart]

theorem source_of_indep (hlive : AllLive D) (h : Indep D) (hn : ([k], n) ∈ D) (hm : (k :: r, m) ∈ D) :
    r = [] ∧ m = n := by
  obtain ⟨hk, hnk⟩ := live_key (hlive _ hn)
  obtain ⟨E, hE⟩ := perm_first (mem_under.mpr hn)
  have hfirst : ∀ x, renameAll (apart k D ++ atKey k (([], n) :: E)) (.obj [(k, x)]) = .obj [(n, x)] :=
    fun x => by rw [renameAll_at, renameAll_first hk hnk]
  by_cases hr : r = []
  · subst hr
    obtain ⟨F, hF⟩ := perm_first (mem_under.mpr hm)
    have hother : renameAll (apart k D ++ atKey k (([], m) :: F)) (.obj [(k, .null)]) = .obj [(m, .null)] := by
      rw [renameAll_at, renameAll_first hk (live_key (hlive _ hm)).2]
    have hs := h.same (perm_apart_atKey hF) (perm_apart_atKey hE) (wf_single (k := k) (x := .null) trivial)
    rw [hother, hfirst] at hs
    exact ⟨rfl, (same_single hs).1⟩
  · exfalso
    obtain ⟨w, hw, hno⟩ := live_changes ((live_cons hr).mp (hlive _ hm))
    obtain ⟨F, hF⟩ := perm_first (mem_under.mpr hm)
    have hmem : ([], n) ∈ F := by
      have := hF.mem_iff.mpr (mem_under.mpr hn)
      simpa [Ne.symm hr] using this
    obtain ⟨G, hG⟩ := perm_first hmem
    have hperm : ((r, m) :: ([], n) :: G).Perm (under k D) := (hG.cons _).trans hF
    have hdeep : Deep [(r, m)] := by simpa [Deep] using hr
    have hbelow : renameAll (apart k D ++ atKey k ((r, m) :: ([], n) :: G)) (.obj [(k, w)]) =
        .obj [(n, renameAt m w r)] := by
      have hsplit : atKey k ((r, m) :: ([], n) :: G) = atKey k [(r, m)] ++ atKey k (([], n) :: G) := rfl
      rw [renameAll_at, hsplit, renameAll_append, renameAll_atKey hk hdeep, renameAll_first hk hnk]
      rfl
    have hs := h.same (perm_apart_atKey hperm) (perm_apart_atKey hE) (wf_single (k := k) hw)
    rw [hbelow, hfirst] at hs
    exact hno (same_single hs).2

theorem target_of_indep (hlive : AllLive D) (h : Indep D) (hn : ([k], n) ∈ D) (hbr : n ≠ "[]") :
    (n :: r, m) ∉ D := by
  intro hm
  obtain ⟨hk, hnk⟩ := live_key (hlive _ hn)
  obtain ⟨w, hw, hno⟩ := live_changes_key hbr (hlive _ hm) fun hr => live_changes ((live_cons hr).mp (hlive _ hm))
  obtain ⟨E, hE⟩ := perm_first hm
  have hmem : ([k], n) ∈ E := by
    have := hE.mem_iff.mpr hn
    simpa [Ne.symm hnk] using this
  obtain ⟨F, hF⟩ := perm_first (mem_under.mpr hmem)
  have hrest : (apart k E ++ atKey k (([], n) :: F)).Perm E := perm_apart_atKey hF
  -- the rename at the new name before the move, and behind it
  have hbefore : renameAll ((n :: r, m) :: (apart k E ++ atKey k (([], n) :: F))) (.obj [(k, w)]) =
      .obj [(n, w)] := by
    rw [renameAll_cons, renameAt_absent (lookup_single_of_ne hnk w), renameAll_at, renameAll_first hk hnk]
  have hbehind : renameAll ((apart k E ++ atKey k (([], n) :: F)) ++ [(n :: r, m)]) (.obj [(k, w)]) =
      renameAt m (.obj [(n, w)]) (n :: r) := by
    rw [renameAll_append, renameAll_at, renameAll_first hk hnk]
    rfl
  have hs := h.same ((List.perm_append_singleton _ _).trans ((hrest.cons _).trans hE))
    ((hrest.cons _).trans hE) (wf_single (k := k) hw)
  rw [hbefore, hbehind] at hs
  exact hno hs

theorem distinct_of_indep (hlive : AllLive D) (h : Indep D) (hn : ([k], n) ∈ D) (hn' : ([k'], n) ∈ D) :
    k = k' := by
  by_contra hkk
  obtain ⟨hk, hnk⟩ := live_key (hlive _ hn)
  obtain ⟨hk', hnk'⟩ := live_key (hlive _ hn')
  obtain ⟨E, hE⟩ := perm_first hn
  have hmem : ([k'], n) ∈ E := by
    have := hE.mem_iff.mpr hn'
    simpa [Ne.symm hkk] using this
  obtain ⟨F, hF⟩ := perm_first hmem
  have hboth : (([k], n) :: ([k'], n) :: F).Perm D := (hF.cons _).trans hE
  -- the renames of other keys first
  let other : List String × String → Bool := fun e => decide (e.1.head? ≠ some k ∧ e.1.head? ≠ some k')
  have hsplit : (F.filter other ++ F.filter fun e => !other e).Perm F := List.filter_append_perm _ _
  have hσ : (F.filter other ++ ([k], n) :: ([k'], n) :: F.filter fun e => !other e).Perm D :=
    List.perm_middle.trans ((List.perm_middle.cons _).trans (((hsplit.cons _).cons _).trans hboth))
  have hτ : (F.filter other ++ ([k'], n) :: ([k], n) :: F.filter fun e => !other e).Perm D :=
    ((List.Perm.swap _ _ _).append_left _).trans hσ
  let es : List (String × Json) := [(k, .null), (k', .bool true)]
  have hother : renameAll (F.filter other) (.obj es) = .obj es := by
    refine renameAll_absent fun e he j r hj => ?_
    have hne := (List.mem_filter.mp he).2
    simp only [other, hj, List.head?_cons, ne_eq, Option.some.injEq, decide_eq_true_eq] at hne
    simp [es, hne.1, hne.2]
  have hlast : ∀ x : Json, renameAll (F.filter fun e => !other e) (.obj [(n, x)]) = .obj [(n, x)] := by
    intro x
    refine renameAll_absent fun e he j r hj => lookup_single_of_ne (fun hjn => ?_) x
    have hin := (List.mem_filter.mp he).2
    simp only [other, hj, List.head?_cons, hjn] at hin
    simp [hnk, hnk'] at hin
  have hwf : (Json.obj es).WF := by
    refine wf_obj.mpr ⟨?_, ?_⟩
    · simp [es, OrderedMap.keys, hkk]
    · simp [es, WF]
  have hs := h.same hσ hτ hwf
  rw [renameAll_append, hother, renameAll_append, hother, renameAll_cons, renameAll_cons, renameAll_cons,
    renameAll_cons] at hs
  have hfirst : renameAt n (renameAt n (.obj es) [k]) [k'] = .obj [(n, .bool true)] := by
    rw [renameAt_key hk, List.lookup_cons_self]
    show renameAt n (.obj (OrderedMap.insert n .null (OrderedMap.swapRemove k es))) [k'] = _
    have hmap : OrderedMap.insert n .null (OrderedMap.swapRemove k es) = [(k', .bool true), (n, .null)] := by
      simp [es, OrderedMap.insert, OrderedMap.swapRemove, Ne.symm hnk']
    rw [hmap, renameAt_key hk', List.lookup_cons_self]
    simp [OrderedMap.insert, OrderedMap.swapRemove]
  have hsecond : renameAt n (renameAt n (.obj es) [k']) [k] = .obj [(n, .null)] := by
    have hlook : es.lookup k' = some (.bool true) := by
      rw [OrderedMap.lookup_cons_of_ne (Ne.symm hkk), List.lookup_cons_self]
    rw [renameAt_key hk', hlook]
    show renameAt n (.obj (OrderedMap.insert n (.bool true) (OrderedMap.swapRemove k' es))) [k] = _
    have hmap : OrderedMap.insert n (.bool true) (OrderedMap.swapRemove k' es) = [(k, .null), (n, .bool true)] := by
      simp [es, OrderedMap.insert, OrderedMap.swapRemove, Ne.symm hnk, hkk]
    rw [hmap, renameAt_key hk, List.lookup_cons_self]
    simp [OrderedMap.insert, OrderedMap.swapRemove]
  rw [hfirst, hsecond, hlast, hlast] at hs
  have := (same_single hs).2.2.2
  cases this

theorem below_of_indep (hlive : AllLive D) (h : Indep D) (k : String) : Indep (deeper (under k D)) := by
  intro τ hτ x hx
  have hdeep : Deep τ := fun e he => deep_deeper _ e (hτ.subset he)
  by_cases hk : k = "[]"
  · subst hk
    have hunder : (τ ++ hereEntries (under "[]" D)).Perm (under "[]" D) :=
      (hτ.append_right _).trans (perm_deeper_here _)
    have hperm := perm_apart_atKey hunder
    have hs := h _ hperm (.arr [x]) (wf_arr.mpr (by simpa using hx))
    have hτσ : deeper (under "[]" (apart "[]" D ++ atKey "[]" (τ ++ hereEntries (under "[]" D)))) = τ := by
      rw [under_append, under_apart, under_atKey, List.nil_append, deeper, List.filter_append, ← deeper,
        deeper_of_deep hdeep]
      simp [hereEntries]
    rw [renameAll_arr fun e he => hlive e (hperm.subset he), renameAll_arr hlive, hτσ] at hs
    have := same_arr.mp hs 0
    cases this with
    | some h => exact h
  by_cases hmove : ∃ n, ([k], n) ∈ D
  · obtain ⟨n, hn⟩ := hmove
    have hnil : deeper (under k D) = [] := List.eq_nil_iff_forall_not_mem.mpr fun e he => by
      have hmem := mem_under.mp (List.mem_filter.mp he).1
      exact deep_deeper _ e he (source_of_indep hlive h hn hmem).1
    rw [hnil] at hτ ⊢
    rw [List.perm_nil.mp hτ]
    exact same_refl hx
  · have hall : deeper (under k D) = under k D := deeper_of_deep fun e he hr => by
      have hmem := mem_under.mp he
      rw [hr] at hmem
      exact hmove ⟨_, hmem⟩
    have hs := h.same (perm_apart_atKey (hall ▸ hτ)) (perm_apart_atKey (List.Perm.refl (under k D)))
      (wf_single (k := k) hx)
    rw [renameAll_at, renameAll_at, renameAll_atKey hk hdeep, renameAll_atKey hk (hall ▸ deep_deeper _)] at hs
    rw [hall]
    exact (same_single hs).2

end Disorder

/-! ## Every place -/

theorem allLive_below (h : AllLive D) (k : String) : AllLive (deeper (under k D)) := fun e he =>
  (live_cons (deep_deeper _ e he)).mp (h (k :: e.1, e.2) (mem_under.mp (List.mem_filter.mp he).1))

theorem ordered_deeper : Ordered (deeper D) ↔ Ordered D := by
  refine ⟨fun h => ⟨fun k n hk r m hm => ?_, fun k n hk hn r m hm => ?_, fun k k' n hk hk' => ?_⟩,
    fun h => ordered_of_subset h fun e he => (List.mem_filter.mp he).1⟩
  all_goals have hin : ∀ {k r n}, (k :: r, n) ∈ D → (k :: r, n) ∈ deeper D :=
    fun he => List.mem_filter.mpr ⟨he, by simp⟩
  · exact h.source k n (hin hk) r m (hin hm)
  · exact h.target k n (hin hk) hn r m (hin hm)
  · exact h.distinct k k' n (hin hk) (hin hk')

theorem ordered_below (p : List String) (D : Entries String) :
    Ordered (underPath p (deeper D)) ↔ Ordered (underPath p D) := by
  cases p with
  | nil => exact ordered_deeper
  | cons k p => rw [underPath, underPath, under_deeper]

/-- The order of live renames does not matter when those of each object are in order. -/
theorem indep_iff (hlive : AllLive D) : Indep D ↔ ∀ p, Ordered (underPath p D) := by
  constructor
  · intro h p
    induction p generalizing D with
    | nil =>
      exact ⟨fun k n hn r m hm => source_of_indep hlive h hn hm, fun k n hn hbr r m => target_of_indep hlive h hn hbr,
        fun k k' n hn hn' => distinct_of_indep hlive h hn hn'⟩
    | cons k p ih => exact (ordered_below p _).mp (ih (allLive_below hlive k) (below_of_indep hlive h k))
  · obtain ⟨n, hn⟩ := exists_depth D
    intro h
    induction n generalizing D with
    | zero =>
      have hnil : D = [] := List.eq_nil_iff_forall_not_mem.mpr fun e he => by
        have hp : e.1 = [] := List.eq_nil_of_length_eq_zero (Nat.le_zero.mp (hn e he))
        have hl := hlive e he
        rw [hp] at hl
        exact hl
      intro σ hσ v hv
      subst hnil
      rw [List.perm_nil.mp hσ]
      exact same_refl hv
    | succ n ih =>
      refine indep_of_ordered hlive (h []) fun k => ih (allLive_below hlive k) (fun e he => ?_) fun p => ?_
      · exact depth_under hn k e (List.mem_filter.mp he).1
      · exact (ordered_below p _).mpr (h (k :: p))

/-! ## Renames that do nothing -/

def decLive : (p : List String) → (new : String) → Decidable (Live p new)
  | [], _ => isFalse nofun
  | [k], new => inferInstanceAs (Decidable (k ≠ "[]" ∧ new ≠ k))
  | _ :: l :: ls, new => decLive (l :: ls) new

instance (p : List String) (new : String) : Decidable (Live p new) := decLive p new

section Idle

variable {v w : Json} {n : String} {p : List String}

theorem same_map {xs : List Json} {f g : Json → Json}
    (hfg : ∀ x ∈ xs, (f x).Same (g x)) : (Json.arr (xs.map f)).Same (.arr (xs.map g)) := by
  refine same_arr.mpr fun i => ?_
  rw [List.getElem?_map, List.getElem?_map]
  cases hi : xs[i]? with
  | none => exact .none
  | some x => exact .some (hfg x (List.mem_of_getElem? hi))

theorem renameAt_not_live (hl : ¬ Live p n) (hv : v.WF) : (renameAt n v p).Same v := by
  induction p generalizing v with
  | nil => rw [renameAt]; exact same_refl hv
  | cons k r ih =>
    obtain ⟨es, rfl⟩ | ⟨xs, rfl⟩ | ⟨ho, ha⟩ := container_cases v
    · by_cases hk : k = "[]"
      · rw [hk, renameAt_obj_elements]; exact same_refl hv
      have hn := (wf_obj.mp hv).1
      have hrefl : ∀ q, SameOpt (es.lookup q) (es.lookup q) := fun q => sameOpt_refl fun c hc => wf_field hv hc
      cases hlk : es.lookup k with
      | none => rw [renameAt_absent hlk]; exact same_refl hv
      | some x =>
        by_cases hr : r = []
        · subst hr
          have hnk : n = k := by
            by_contra hne
            exact hl ⟨hk, hne⟩
          rw [renameAt_key hk, hlk]
          refine same_obj.mpr ⟨OrderedMap.nodup_insert _ _ (OrderedMap.nodup_swapRemove k hn), hn, fun q => ?_⟩
          rw [lookup_moved hn, hnk]
          split
          · next hq => rw [hq, ← hlk]; exact hrefl k
          · exact hrefl q
        · rw [renameAt_below hk hr, hlk]
          refine same_obj.mpr ⟨OrderedMap.nodup_insert _ _ hn, hn, fun q => ?_⟩
          by_cases hq : q = k
          · subst hq
            rw [OrderedMap.lookup_insert_self, hlk]
            exact .some (ih (fun h => hl ((live_cons hr).mpr h)) (wf_field hv hlk))
          · rw [OrderedMap.lookup_insert_of_ne hq]
            exact hrefl q
    · by_cases hk : k = "[]"
      · subst hk
        rw [renameAt_elements]
        have hr : ¬ Live r n := by
          by_cases hr : r = []
          · rw [hr]; exact fun h => h
          · exact fun h => hl ((live_cons hr).mpr h)
        have := same_map (f := fun x => renameAt n x r) (g := id) fun x hx => ih hr (wf_arr.mp hv x hx)
        rwa [List.map_id] at this
      · rw [renameAt_arr hk]; exact same_refl hv
    · rw [renameAt_scalar ho ha]; exact same_refl hv

theorem renameAt_same (h : v.Same w) : (renameAt n v p).Same (renameAt n w p) := by
  induction p generalizing v w with
  | nil => rw [renameAt, renameAt]; exact h
  | cons k r ih =>
    obtain ⟨es, rfl⟩ | ⟨xs, rfl⟩ | ⟨ho, ha⟩ := container_cases v
    · obtain ⟨fs, rfl⟩ : ∃ fs, w = .obj fs := by
        rcases h.obj_cases with ⟨-, fs, -, rfl⟩ | ⟨hno, -⟩
        · exact ⟨fs, rfl⟩
        · exact absurd rfl (hno es)
      obtain ⟨hn, hn', hl⟩ := same_obj.mp h
      by_cases hk : k = "[]"
      · rw [hk, renameAt_obj_elements, renameAt_obj_elements]; exact h
      have hlk := hl k
      generalize hes : es.lookup k = o, hfs : fs.lookup k = o' at hlk
      cases hlk with
      | none => rw [renameAt_absent hes, renameAt_absent hfs]; exact h
      | some hxy =>
        by_cases hr : r = []
        · subst hr
          rw [renameAt_key hk, renameAt_key hk, hes, hfs]
          refine same_obj.mpr ⟨OrderedMap.nodup_insert _ _ (OrderedMap.nodup_swapRemove k hn),
            OrderedMap.nodup_insert _ _ (OrderedMap.nodup_swapRemove k hn'), fun q => ?_⟩
          rw [lookup_moved hn, lookup_moved hn']
          split
          · exact .some hxy
          · split
            · exact .none
            · exact hl q
        · rw [renameAt_below hk hr, renameAt_below hk hr, hes, hfs]
          refine same_obj.mpr ⟨OrderedMap.nodup_insert _ _ hn, OrderedMap.nodup_insert _ _ hn', fun q => ?_⟩
          by_cases hq : q = k
          · subst hq
            rw [OrderedMap.lookup_insert_self, OrderedMap.lookup_insert_self]
            exact .some (ih hxy)
          · rw [OrderedMap.lookup_insert_of_ne hq, OrderedMap.lookup_insert_of_ne hq]
            exact hl q
    · obtain ⟨ys, rfl⟩ : ∃ ys, w = .arr ys := by
        have heqv := h.2.2
        cases w with
        | arr ys => exact ⟨ys, rfl⟩
        | _ => cases heqv
      by_cases hk : k = "[]"
      · subst hk
        rw [renameAt_elements, renameAt_elements]
        refine same_arr.mpr fun i => ?_
        have hi := same_arr.mp h i
        rw [List.getElem?_map, List.getElem?_map]
        generalize xs[i]? = o, ys[i]? = o' at hi
        cases hi with
        | none => exact .none
        | some hxy => exact .some (ih hxy)
      · rw [renameAt_arr hk, renameAt_arr hk]; exact h
    · have heqv := h.2.2
      have ho' : ∀ es, w ≠ .obj es := by
        rintro es rfl
        cases v with
        | obj es => exact ho es rfl
        | _ => cases heqv
      have ha' : ∀ xs, w ≠ .arr xs := by
        rintro xs rfl
        cases v with
        | arr xs => exact ha xs rfl
        | _ => cases heqv
      rw [renameAt_scalar ho ha, renameAt_scalar ho' ha']; exact h

theorem renameAll_same {D : Entries String} (h : v.Same w) : (renameAll D v).Same (renameAll D w) := by
  induction D generalizing v w with
  | nil => exact h
  | cons e D ih => exact ih (renameAt_same h)

def liveOf (D : Entries String) : Entries String := D.filter fun e => Live e.1 e.2

theorem allLive_liveOf (D : Entries String) : AllLive (liveOf D) := fun e he => by
  simpa using (List.mem_filter.mp he).2

/-- Only the live renames matter. -/
theorem renameAll_liveOf (D : Entries String) (hv : v.WF) : (renameAll D v).Same (renameAll (liveOf D) v) := by
  induction D generalizing v with
  | nil => exact same_refl hv
  | cons e D ih =>
    obtain ⟨p, n⟩ := e
    have hstep := renameAt_same (n := n) (p := p) (same_refl hv)
    by_cases hl : Live p n
    · rw [liveOf, List.filter_cons_of_pos (by simpa using hl), ← liveOf]
      exact ih hstep.1
    · rw [liveOf, List.filter_cons_of_neg (by simpa using hl), ← liveOf, renameAll_cons]
      exact (ih hstep.1).trans (renameAll_same (renameAt_not_live hl hv))

end Idle

end Loop

/-! ## The renames of an overlay -/

/-- mirrors src/surface/results.rs:208-210 -/
def renameEach (rs : List (String × String)) (v : Json) : Json := rs.foldl (fun v r => rename v r.1 r.2) v

def parsed (r : String × String) : List String × String := (parsePath r.1, r.2)

/-- The overlay renames the path, and this moves a key of some value. -/
def Renames (rs : List (String × String)) (p : List String) (n : String) : Prop :=
  Live p n ∧ ∃ a ∈ rs, parsePath a.1 = p ∧ a.2 = n

/-- No rename goes through another and a path has one new name, a new name is on the way of no
rename, and no two keys of one object get one name. -/
structure RenamesAgree (rs : List (String × String)) : Prop where
  source : ∀ ps k n r m, Renames rs (ps ++ [k]) n → Renames rs (ps ++ k :: r) m → r = [] ∧ m = n
  target : ∀ ps k n r m, Renames rs (ps ++ [k]) n → n ≠ "[]" → ¬ Renames rs (ps ++ n :: r) m
  distinct : ∀ ps k k' n, Renames rs (ps ++ [k]) n → Renames rs (ps ++ [k']) n → k = k'

theorem mem_liveOf {rs : List (String × String)} {p : List String} {n : String} :
    (p, n) ∈ liveOf (rs.map parsed) ↔ Renames rs p n := by
  unfold liveOf Renames
  rw [List.mem_filter, List.mem_map]
  constructor
  · rintro ⟨⟨a, ha, he⟩, hl⟩
    simp only [parsed, Prod.mk.injEq] at he
    exact ⟨by simpa using hl, a, ha, he⟩
  · rintro ⟨hl, a, ha, rfl, rfl⟩
    exact ⟨⟨a, ha, rfl⟩, by simpa using hl⟩

theorem ordered_iff_agree (rs : List (String × String)) :
    (∀ p, Ordered (underPath p (liveOf (rs.map parsed)))) ↔ RenamesAgree rs := by
  have hmem : ∀ p r n, (r, n) ∈ underPath p (liveOf (rs.map parsed)) ↔ Renames rs (p ++ r) n :=
    fun p r n => mem_underPath.trans mem_liveOf
  constructor
  · intro h
    exact ⟨fun ps k n r m hn hm => (h ps).source k n ((hmem _ _ _).mpr hn) r m ((hmem _ _ _).mpr hm),
      fun ps k n r m hn hbr hm => (h ps).target k n ((hmem _ _ _).mpr hn) hbr r m ((hmem _ _ _).mpr hm),
      fun ps k k' n hn hn' => (h ps).distinct k k' n ((hmem _ _ _).mpr hn) ((hmem _ _ _).mpr hn')⟩
  · intro h p
    exact ⟨fun k n hn r m hm => h.source p k n r m ((hmem _ _ _).mp hn) ((hmem _ _ _).mp hm),
      fun k n hn hbr r m hm => h.target p k n r m ((hmem _ _ _).mp hn) hbr ((hmem _ _ _).mp hm),
      fun k k' n hn hn' => h.distinct p k k' n ((hmem _ _ _).mp hn) ((hmem _ _ _).mp hn')⟩

theorem renameEach_eq (rs : List (String × String)) (v : Json) : renameEach rs v = renameAll (rs.map parsed) v := by
  unfold renameEach renameAll
  rw [List.foldl_map]
  rfl

/-- **Renames.** When their order does not matter. -/
theorem rename_orderFree_iff (rs : List (String × String)) : OrderFree renameEach rs ↔ RenamesAgree rs := by
  rw [← ordered_iff_agree, ← indep_iff (allLive_liveOf _)]
  have hlive : ∀ (l : List (String × String)) (v : Json), v.WF →
      (renameEach l v).Same (renameAll (liveOf (l.map parsed)) v) := fun l v hv => by
    rw [renameEach_eq]
    exact renameAll_liveOf _ hv
  rw [orderFree_iff_one]
  have hone : ∀ τ : List (String × String), (∀ v : Json, v.WF → (renameEach τ v).Same (renameEach rs v)) ↔
      ∀ v : Json, v.WF → (renameAll (liveOf (τ.map parsed)) v).Same (renameAll (liveOf (rs.map parsed)) v) := by
    intro τ
    refine forall₂_congr fun v hv => ⟨fun h => ?_, fun h => ?_⟩
    · exact (hlive τ v hv).symm.trans (h.trans (hlive rs v hv))
    · exact (hlive τ v hv).trans (h.trans (hlive rs v hv).symm)
  simp only [hone]
  exact forall_perm_filter (P := fun σ => ∀ v : Json, v.WF →
    (renameAll σ v).Same (renameAll (liveOf (rs.map parsed)) v))

end MinMcp.L2.RenameOrder
