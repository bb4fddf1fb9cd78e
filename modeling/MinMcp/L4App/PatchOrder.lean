import MinMcp.Core.Json.PlaceLoop
import MinMcp.Core.Toggles
import MinMcp.L4App.FieldPatches

/-!
# Field patches in any order

`apply_field_patches` (src/surface/patch.rs:11-60) goes through a hash map. What its patches make
of one schema is read off key by key: an attribute is the last one written (`wrote`), a property
comes from the patches under its name (`below`), and `required` from those that find their field
(`effective`).

* `grown_obj`, `child_grown`, `required_grown`: what a run of patches leaves of a schema.
* `indep_iff`: the order of patches does not matter when, as far as no field is taken out, the
  patches of one schema agree.
* `fields_orderFree_iff`: the same of the paths in a configuration.
-/
namespace MinMcp.L4.PatchOrder

open MinMcp.Core MinMcp.Core.PlaceLoop MinMcp.L4.Catalogs MinMcp.L4.FieldPatches
open MinMcp.Core.Json hiding child

/-- A patch of the schema itself, or of a field below. -/
def patch (e : List String × FieldSpec) (v : Json) : Json :=
  if e.1 = [] then written e.2 v else patchAt e.2 e.1 v

def grown (D : Entries FieldSpec) (v : Json) : Json := D.foldl (fun v e => patch e v) v

/-- A property; a field that is taken out stays out. -/
def below (D : Entries FieldSpec) (o : Option Json) : Option Json :=
  D.foldl (fun o e => o.bind fun v => if e.1 = [] ∧ Strips e.2 = true then none else some (patch e v)) o

/-- The order of the patches does not matter. -/
def Indep (D : Entries FieldSpec) : Prop :=
  ∀ σ : Entries FieldSpec, σ.Perm D → ∀ o, SameOpt o o → SameOpt (below σ o) (below D o)

def Patches (D : Entries FieldSpec) : Prop := ∀ e ∈ D, FieldPatches.Sound e.2

/-- An attribute behind these patches of the schema. -/
def wrote (k : String) (xs : List FieldSpec) (o : Option Json) : Option Json :=
  xs.foldl (fun o x => (x.writes.lookup k).or o) o

/-! ## `required` -/

/-- The fields that a `required` list names. -/
def naming : Toggles.Naming String Json where
  name := Json.asStr
  item := .str
  name_item := fun _ => rfl

/-- `required` with these items; a list that is emptied is taken out. -/
def listOf (emptied : Bool) (l : List Json) : Option Json :=
  if emptied && l.isEmpty then none else some (.arr l)

def toggleAll (T : List (String × Bool)) (o : Option Json) : Option Json :=
  T.foldl (fun o t => toggled t.1 t.2 o) o

/-- What the patches of one field ask of `required`; none is applied behind one that takes the
field out. -/
def settings : List FieldSpec → List Bool
  | [] => []
  | x :: xs => if Strips x then [false] else x.required.toList ++ settings xs

/-- The toggles of the patches that find their field. -/
def effective (present : String → Bool) : Entries FieldSpec → List (String × Bool)
  | [] => []
  | ([s], spec) :: D =>
    if present s then
      if Strips spec then (s, false) :: effective (fun t => present t && t ≠ s) D
      else spec.required.toList.map (fun r => (s, r)) ++ effective present D
    else effective present D
  | _ :: D => effective present D

section Required

variable {T U : List (String × Bool)}

theorem toggled_arr (field : String) (a : List Json) :
    toggled field true (some (.arr a)) = some (.arr (Toggles.toggle naming a (field, true))) := by
  show (if a.any (fun v => v.asStr == some field) = true then some (Json.arr a)
      else some (.arr (a ++ [.str field]))) =
    some (.arr (if a.any (fun v => v.asStr == some field) = true then a else a ++ [.str field]))
  split <;> rfl

theorem toggled_listOf (field : String) (r emptied : Bool) (l : List Json) :
    toggled field r (listOf emptied l) = listOf (emptied || !r) (Toggles.toggle naming l (field, r)) := by
  by_cases hl : emptied = true ∧ l = []
  · obtain ⟨rfl, rfl⟩ := hl
    cases r <;> rfl
  · have hsome : listOf emptied l = some (.arr l) := if_neg (by simpa using hl)
    rw [hsome]
    cases r with
    | true =>
      rw [toggled_arr, Bool.not_true, Bool.or_false, listOf, if_neg]
      -- an entered name leaves no empty list
      intro h
      obtain ⟨he, hempty⟩ := Bool.and_eq_true_iff.mp h
      have hnil := List.isEmpty_iff.mp hempty
      unfold Toggles.toggle at hnil
      simp only [if_true] at hnil
      split at hnil
      · exact hl ⟨he, hnil⟩
      · simp at hnil
    | false =>
      rw [Bool.not_false, Bool.or_true, listOf, Bool.true_and]
      rfl

theorem toggleAll_listOf (T : List (String × Bool)) (emptied : Bool) (l : List Json) :
    toggleAll T (listOf emptied l) =
      listOf (emptied || T.any fun t => !t.2) (Toggles.run naming l T) := by
  induction T generalizing emptied l with
  | nil => simp [toggleAll, Toggles.run]
  | cons t T ih =>
    show toggleAll T (toggled t.1 t.2 (listOf emptied l)) = _
    rw [toggled_listOf, ih, List.any_cons, Bool.or_assoc]
    rfl

theorem toggleAll_of_ne_arr {v : Json} (h : ∀ a, v ≠ .arr a) (T : List (String × Bool)) :
    toggleAll T (some v) = some v := by
  induction T with
  | nil => rfl
  | cons t T ih =>
    have hstep : toggled t.1 t.2 (some v) = some v := by
      unfold toggled
      cases v with
      | arr a => exact absurd rfl (h a)
      | _ => split <;> rfl
    show toggleAll T (toggled t.1 t.2 (some v)) = some v
    rw [hstep, ih]

/-- Toggles that end the same for each field and require one at most. -/
theorem toggleAll_congr (hlast : ∀ n, Toggles.last n T = Toggles.last n U)
    (hout : ∀ n, (n, false) ∈ T ↔ (n, false) ∈ U)
    (hone : ∀ n m, Toggles.last n T = some true → Toggles.last m T = some true → n = m) (o : Option Json) :
    toggleAll T o = toggleAll U o := by
  have hany : (T.any fun t => !t.2) = U.any fun t => !t.2 := by
    rw [Bool.eq_iff_iff, List.any_eq_true, List.any_eq_true]
    have hsome : ∀ V : List (String × Bool), (∃ t ∈ V, (!t.2) = true) ↔ ∃ n, (n, false) ∈ V := by
      intro V
      constructor
      · intro ⟨⟨n, b⟩, ht, hb⟩
        obtain rfl : b = false := by simpa using hb
        exact ⟨n, ht⟩
      · intro ⟨n, hn⟩
        exact ⟨_, hn, rfl⟩
    rw [hsome, hsome]
    exact exists_congr hout
  have hlist : ∀ emptied l, toggleAll T (listOf emptied l) = toggleAll U (listOf emptied l) := by
    intro emptied l
    rw [toggleAll_listOf, toggleAll_listOf, hany, Toggles.run_congr hlast hout hone]
  cases o with
  | none => exact hlist true []
  | some v =>
    cases v with
    | arr a => exact hlist false a
    | _ => rw [toggleAll_of_ne_arr (by simp), toggleAll_of_ne_arr (by simp)]

theorem effective_field (present : String → Bool) (D : Entries FieldSpec) (s : String) :
    (effective present D).filter (fun t => t.1 = s) =
      if present s then (settings (here (under s D))).map fun r => (s, r) else [] := by
  induction D generalizing present with
  | nil => simp [effective, settings, here]
  | cons e D ih =>
    obtain ⟨p, spec⟩ := e
    match p with
    | [] =>
      rw [effective, ih]
      · rfl
      · simp
    | s' :: t :: p =>
      rw [effective, ih]
      · by_cases hs : s' = s
        · subst hs
          rw [under_cons_self]
          simp [here]
        · rw [under_cons_of_ne hs]
      · simp
    | [s'] =>
      rw [effective]
      by_cases hs : s' = s
      · subst hs
        rw [under_cons_self]
        have hhere : here (([], spec) :: under s' D) = spec :: here (under s' D) := by simp [here]
        rw [hhere, settings]
        cases hp : present s' with
        | false => simp [ih, hp]
        | true =>
          simp only [if_true]
          cases Strips spec with
          | true => simp [ih]
          | false =>
            have hself : (spec.required.toList.map fun r => (s', r)).filter (fun t => t.1 = s') =
                spec.required.toList.map fun r => (s', r) :=
              List.filter_eq_self.mpr fun t ht => by
                obtain ⟨r, -, rfl⟩ := List.mem_map.mp ht
                simp
            simp only [Bool.false_eq_true, if_false, List.filter_append, ih, hp, if_true, hself, List.map_append]
      · rw [under_cons_of_ne hs]
        have hnone : (spec.required.toList.map fun r => (s', r)).filter (fun t => t.1 = s) = [] :=
          List.filter_eq_nil_iff.mpr fun t ht => by
            obtain ⟨r, -, rfl⟩ := List.mem_map.mp ht
            simpa using hs
        cases present s' with
        | false => simp only [Bool.false_eq_true, if_false, ih]
        | true =>
          cases Strips spec with
          | true => simp [ih, hs, Ne.symm hs]
          | false =>
            simp only [Bool.false_eq_true, if_true, if_false, List.filter_append, hnone, List.nil_append, ih]

theorem last_effective (present : String → Bool) (D : Entries FieldSpec) (s : String) :
    Toggles.last s (effective present D) =
      if present s then (settings (here (under s D))).getLast? else none := by
  unfold Toggles.last
  rw [effective_field]
  cases present s with
  | false => rfl
  | true =>
    rw [if_pos rfl, if_pos rfl, List.getLast?_map, Option.map_map]
    exact Option.map_id'

theorem mem_effective {present : String → Bool} {D : Entries FieldSpec} {s : String} {r : Bool} :
    (s, r) ∈ effective present D ↔ present s = true ∧ r ∈ settings (here (under s D)) := by
  have hfield : (s, r) ∈ effective present D ↔ (s, r) ∈ (effective present D).filter fun t => t.1 = s := by
    simp
  rw [hfield, effective_field]
  cases present s <;> simp

end Required

/-! ## A run of patches -/

section Run

variable {D σ : Entries FieldSpec} {v : Json} {es : List (String × Json)}

theorem below_none (D : Entries FieldSpec) : below D none = none := by
  induction D with
  | nil => rfl
  | cons e D ih => exact ih

theorem grown_append (D E : Entries FieldSpec) (v : Json) : grown (D ++ E) v = grown E (grown D v) :=
  List.foldl_append

theorem below_cons (p : List String) (spec : FieldSpec) (D : Entries FieldSpec) (v : Json) :
    below ((p, spec) :: D) (some v) =
      below D (if p = [] ∧ Strips spec = true then none else some (patch (p, spec) v)) := rfl

theorem get_written_of_ne (spec : FieldSpec) (v : Json) {k : String} (h : k = "properties" ∨ k = "required") :
    (written spec v).get k = v.get k := by
  rcases v.asObject_cases with ⟨fs, rfl⟩ | hne
  · obtain ⟨fs', hfs, hl⟩ := written_obj spec fs
    rw [hfs, get_obj, hl, lookup_writes_of_ne spec h, Option.none_or, get_obj]
  · rw [written_of_ne_obj spec hne]

theorem child_written (spec : FieldSpec) (v : Json) (s : String) : child (written spec v) s = child v s := by
  rw [child, get_written_of_ne spec v (Or.inl rfl), child]

theorem wf_patch {e : List String × FieldSpec} (hs : FieldPatches.Sound e.2) (hv : v.WF) : (patch e v).WF := by
  unfold patch
  split
  · exact wf_written hs hv
  · exact wf_patchAt hs e.1 hv

theorem wf_grown (hD : Patches D) (hv : v.WF) : (grown D v).WF := by
  induction D generalizing v with
  | nil => exact hv
  | cons e D ih =>
    obtain ⟨he, hD⟩ := List.forall_mem_cons.mp hD
    exact ih hD (wf_patch he hv)

theorem patch_of_ne_obj (h : ∀ es, v ≠ .obj es) (e : List String × FieldSpec) : patch e v = v := by
  unfold patch
  split
  · exact written_of_ne_obj e.2 h
  · cases v with
    | obj es => exact absurd rfl (h es)
    | _ => cases e.1 with
      | nil => rfl
      | cons s path => cases path <;> rfl

theorem grown_of_ne_obj (h : ∀ es, v ≠ .obj es) (D : Entries FieldSpec) : grown D v = v := by
  induction D with
  | nil => rfl
  | cons e D ih =>
    show grown D (patch e v) = v
    rw [patch_of_ne_obj h, ih]

/-- What a patch keeps of an object, and what it writes. -/
theorem patch_obj (hv : (Json.obj es).WF) (p : List String) (spec : FieldSpec) :
    ∃ es', patch (p, spec) (.obj es) = .obj es' ∧
    (∀ k, k ≠ "properties" → k ≠ "required" →
      es'.lookup k = if p = [] then (spec.writes.lookup k).or (es.lookup k) else es.lookup k) ∧
    ((∃ ps, es.lookup "properties" = some (.obj ps)) → ∃ ps, es'.lookup "properties" = some (.obj ps)) ∧
    ((∀ ps, es.lookup "properties" ≠ some (.obj ps)) → es'.lookup "properties" = es.lookup "properties") := by
  cases p with
  | nil =>
    obtain ⟨es', hes, hl⟩ := written_obj spec es
    have hprops : es'.lookup "properties" = es.lookup "properties" := by
      rw [hl, lookup_writes_of_ne spec (Or.inl rfl), Option.none_or]
    exact ⟨es', hes, fun k _ _ => hl k, fun h => hprops ▸ h, fun _ => hprops⟩
  | cons s path => exact patchAt_obj spec s path hv

theorem here_cons (p : List String) (spec : FieldSpec) (D : Entries FieldSpec) :
    here ((p, spec) :: D) = if p = [] then spec :: here D else here D := by
  by_cases hp : p = []
  · simp [here, hp]
  · simp [here, hp]

theorem grown_obj (hD : Patches D) (hv : (Json.obj es).WF) : ∃ es', grown D (.obj es) = .obj es' ∧
    (∀ k, k ≠ "properties" → k ≠ "required" → es'.lookup k = wrote k (here D) (es.lookup k)) ∧
    ((∃ ps, es.lookup "properties" = some (.obj ps)) → ∃ ps, es'.lookup "properties" = some (.obj ps)) ∧
    ((∀ ps, es.lookup "properties" ≠ some (.obj ps)) → es'.lookup "properties" = es.lookup "properties") := by
  induction D generalizing es with
  | nil => exact ⟨es, rfl, fun _ _ _ => rfl, id, fun _ => rfl⟩
  | cons e D ih =>
    obtain ⟨p, spec⟩ := e
    obtain ⟨hs, hD⟩ := List.forall_mem_cons.mp hD
    obtain ⟨es₁, h₁, hk₁, ho₁, hn₁⟩ := patch_obj hv p spec
    have hv₁ := wf_patch (e := (p, spec)) hs hv
    rw [h₁] at hv₁
    obtain ⟨es', h', hk', ho', hn'⟩ := ih hD hv₁
    refine ⟨es', ?_, fun k hp hr => ?_, fun h => ho' (ho₁ h), fun h => ?_⟩
    · show grown D (patch (p, spec) (.obj es)) = .obj es'
      rw [h₁, h']
    · rw [hk' k hp hr, hk₁ k hp hr, here_cons]
      split <;> rfl
    · rw [hn' fun ps => by rw [hn₁ h]; exact h ps, hn₁ h]

theorem child_grown (hD : Patches D) (hv : v.WF) (s : String) :
    child (grown D v) s = below (under s D) (child v s) := by
  induction D generalizing v with
  | nil => rfl
  | cons e D ih =>
    obtain ⟨p, spec⟩ := e
    obtain ⟨hs, hD⟩ := List.forall_mem_cons.mp hD
    refine (ih hD (wf_patch (e := (p, spec)) hs hv)).trans ?_
    cases p with
    | nil =>
      rw [patch, if_pos rfl, child_written]
      rfl
    | cons t p =>
      rw [patch, if_neg (List.cons_ne_nil t p)]
      by_cases hst : t = s
      · subst hst
        rw [under_cons_self, child_patchAt_self hv]
        cases child v t with
        | none => rfl
        | some prop =>
          rw [Option.bind_some, below_cons, patch]
          split
          · next hp => simp only [hp, true_and]
          · next hp => simp only [hp, false_and, if_false]
      · rw [under_cons_of_ne hst, child_patchAt_of_ne hv spec t p (Ne.symm hst)]

theorem toggleAll_append (T U : List (String × Bool)) (o : Option Json) :
    toggleAll (T ++ U) o = toggleAll U (toggleAll T o) := List.foldl_append

theorem required_grown (hD : Patches D) (hv : v.WF) : (grown D v).get "required" =
    toggleAll (effective (fun s => (child v s).isSome) D) (v.get "required") := by
  induction D generalizing v with
  | nil => rfl
  | cons e D ih =>
    obtain ⟨p, spec⟩ := e
    obtain ⟨hs, hD⟩ := List.forall_mem_cons.mp hD
    refine (ih hD (wf_patch (e := (p, spec)) hs hv)).trans ?_
    match p with
    | [] =>
      rw [patch, if_pos rfl, get_written_of_ne spec v (Or.inr rfl), effective]
      · simp only [child_written]
      · simp
    | s :: t :: p =>
      have hsame : (fun u => (child (patchAt spec (s :: t :: p) v) u).isSome) = fun u => (child v u).isSome := by
        funext u
        by_cases hu : u = s
        · subst hu
          rw [child_patchAt_self hv]
          cases child v u <;> simp
        · rw [child_patchAt_of_ne hv spec s _ hu]
      rw [patch, if_neg (by simp), required_patchAt hv, if_neg (by simp), hsame, effective]
      simp
    | [s] =>
      rw [patch, if_neg (by simp), required_patchAt hv, effective]
      cases hc : child v s with
      | none =>
        rw [patchAt_of_absent spec s [] hc]
        simp
      | some prop =>
        have hself := child_patchAt_self hv spec s []
        rw [hc, Option.bind_some, if_pos rfl] at hself
        simp only [Option.isSome_some, and_self, if_true, requiredBy]
        by_cases hst : Strips spec = true
        · have hgone : (fun u => (child (patchAt spec [s] v) u).isSome) =
              fun u => (child v u).isSome && decide (u ≠ s) := by
            funext u
            by_cases hu : u = s
            · subst hu
              rw [hself, if_pos hst]
              simp
            · rw [child_patchAt_of_ne hv spec s _ hu]
              simp [hu]
          rw [hgone, if_pos hst, if_pos hst]
          rfl
        · have hsame : (fun u => (child (patchAt spec [s] v) u).isSome) = fun u => (child v u).isSome := by
            funext u
            by_cases hu : u = s
            · subst hu
              rw [hself, if_neg hst, hc]
              rfl
            · rw [child_patchAt_of_ne hv spec s _ hu]
          rw [hsame, if_neg hst, if_neg hst, toggleAll_append]
          cases spec.required <;> rfl

end Run

/-! ## Patches that agree -/

/-- A patch takes the schema itself out. -/
def Taken (D : Entries FieldSpec) : Prop := ∃ x ∈ here D, Strips x = true

/-- The patches of one schema, and those of its fields that are not taken out. -/
structure Agree (D : Entries FieldSpec) : Prop where
  attributes : ∀ x ∈ here D, ∀ y ∈ here D, ∀ k a b,
    x.writes.lookup k = some a → y.writes.lookup k = some b → a.Same b
  toggles : ∀ s, ¬ Taken (under s D) → ∀ x ∈ here (under s D), ∀ y ∈ here (under s D), ∀ r r',
    x.required = some r → y.required = some r' → r = r'
  required : ∀ s t, ¬ Taken (under s D) → ¬ Taken (under t D) →
    ∀ x ∈ here (under s D), ∀ y ∈ here (under t D), x.required = some true → y.required = some true → s = t

section Settings

variable {xs ys : List FieldSpec}

theorem settings_append (h : ∀ x ∈ xs, Strips x = false) (ys : List FieldSpec) :
    settings (xs ++ ys) = settings xs ++ settings ys := by
  induction xs with
  | nil => rfl
  | cons x xs ih =>
    obtain ⟨hx, hxs⟩ := List.forall_mem_cons.mp h
    simp only [List.cons_append, settings, hx, Bool.false_eq_true, if_false, ih hxs, List.append_assoc]

theorem mem_settings (h : ∀ x ∈ xs, Strips x = false) {r : Bool} :
    r ∈ settings xs ↔ ∃ x ∈ xs, x.required = some r := by
  induction xs with
  | nil => simp [settings]
  | cons x xs ih =>
    obtain ⟨hx, hxs⟩ := List.forall_mem_cons.mp h
    simp [settings, hx, ih hxs]

/-- Where a patch takes the field out, that is the last thing asked. -/
theorem settings_strips (h : ∃ x ∈ xs, Strips x = true) : (settings xs).getLast? = some false := by
  induction xs with
  | nil =>
    obtain ⟨x, hx, -⟩ := h
    cases hx
  | cons x xs ih =>
    rw [settings]
    by_cases hx : Strips x = true
    · rw [if_pos hx]
      rfl
    · rw [if_neg hx]
      obtain ⟨y, hy, hs⟩ := h
      have hrest := ih ⟨y, (List.mem_cons.mp hy).resolve_left fun he => hx (he ▸ hs), hs⟩
      rw [List.getLast?_append, hrest]
      rfl

theorem getLast?_of_same {l : List Bool} (h : ∀ a ∈ l, ∀ b ∈ l, a = b) {r : Bool} :
    l.getLast? = some r ↔ r ∈ l := by
  constructor
  · exact List.mem_of_getLast?
  · intro hr
    cases hl : l.getLast? with
    | none => rw [List.getLast?_eq_none_iff.mp hl] at hr; cases hr
    | some r' => rw [h r' (List.mem_of_getLast? hl) r hr]

/-- The same patches in any order, where those of a field that stays agree. -/
theorem settings_perm (hp : xs.Perm ys) (h : (∀ x ∈ xs, Strips x = false) →
    ∀ x ∈ xs, ∀ y ∈ xs, ∀ r r', x.required = some r → y.required = some r' → r = r') :
    (settings xs).getLast? = (settings ys).getLast? ∧ (false ∈ settings xs ↔ false ∈ settings ys) := by
  by_cases hs : ∃ x ∈ xs, Strips x = true
  · have hs' : ∃ y ∈ ys, Strips y = true := by
      obtain ⟨x, hx, hsx⟩ := hs
      exact ⟨x, hp.subset hx, hsx⟩
    have h₁ := settings_strips hs
    have h₂ := settings_strips hs'
    exact ⟨h₁.trans h₂.symm, iff_of_true (List.mem_of_getLast? h₁) (List.mem_of_getLast? h₂)⟩
  · have hx : ∀ x ∈ xs, Strips x = false := fun x hx => by
      by_contra hne
      exact hs ⟨x, hx, by simpa using hne⟩
    have hy : ∀ y ∈ ys, Strips y = false := fun y hy => hx y (hp.symm.subset hy)
    have hmem : ∀ r, r ∈ settings xs ↔ r ∈ settings ys := fun r => by
      rw [mem_settings hx, mem_settings hy]
      simp only [hp.mem_iff]
    have hsame : ∀ a ∈ settings xs, ∀ b ∈ settings xs, a = b := by
      intro a ha b hb
      obtain ⟨x, hxs, hxa⟩ := (mem_settings hx).mp ha
      obtain ⟨y, hys, hyb⟩ := (mem_settings hx).mp hb
      exact h hx x hxs y hys a b hxa hyb
    refine ⟨Option.ext fun r => ?_, hmem false⟩
    rw [getLast?_of_same hsame, getLast?_of_same fun a ha b hb => hsame a ((hmem a).mpr ha) b ((hmem b).mpr hb),
      hmem]

end Settings

section Wrote

variable {k : String} {xs : List FieldSpec} {o : Option Json} {a : Json}

theorem wrote_none (h : ∀ x ∈ xs, x.writes.lookup k = none) : wrote k xs o = o := by
  induction xs generalizing o with
  | nil => rfl
  | cons x xs ih =>
    obtain ⟨hx, hxs⟩ := List.forall_mem_cons.mp h
    show wrote k xs ((x.writes.lookup k).or o) = o
    rw [hx, Option.none_or, ih hxs]

theorem wrote_same (h : ∀ x ∈ xs, ∀ b, x.writes.lookup k = some b → a.Same b)
    (hsome : (∃ x ∈ xs, x.writes.lookup k ≠ none) ∨ SameOpt (some a) o) : SameOpt (some a) (wrote k xs o) := by
  induction xs generalizing o with
  | nil => exact hsome.resolve_left fun ⟨x, hx, _⟩ => nomatch hx
  | cons x xs ih =>
    obtain ⟨hx, hxs⟩ := List.forall_mem_cons.mp h
    show SameOpt (some a) (wrote k xs ((x.writes.lookup k).or o))
    refine ih hxs ?_
    cases hl : x.writes.lookup k with
    | some b => exact Or.inr (.some (hx b hl))
    | none =>
      refine hsome.imp (fun ⟨y, hy, hne⟩ => ⟨y, (List.mem_cons.mp hy).resolve_left fun he => ?_, hne⟩) id
      subst he
      exact hne hl

end Wrote

/-! ## Agreement makes the order irrelevant -/

section Sufficient

variable {D σ : Entries FieldSpec} {v : Json} {o : Option Json}

theorem below_taken (h : Taken D) (o : Option Json) : below D o = none := by
  obtain ⟨x, hx, hs⟩ := h
  have hmem := mem_here.mp hx
  clear hx
  induction D generalizing o with
  | nil => cases hmem
  | cons e D ih =>
    cases o with
    | none => exact below_none _
    | some v =>
      obtain ⟨p, spec⟩ := e
      rw [below_cons]
      split
      · exact below_none D
      · next hno =>
        refine ih _ ((List.mem_cons.mp hmem).resolve_left fun he => hno ?_)
        cases he
        exact ⟨rfl, hs⟩

theorem not_taken_iff : ¬ Taken D ↔ ∀ x ∈ here D, Strips x = false := by
  simp [Taken]

theorem below_eq (h : ¬ Taken D) (v : Json) : below D (some v) = some (grown D v) := by
  induction D generalizing v with
  | nil => rfl
  | cons e D ih =>
    obtain ⟨p, spec⟩ := e
    have hD : ¬ Taken D := fun ⟨x, hx, hs⟩ => h ⟨x, mem_here.mpr (List.mem_cons_of_mem _ (mem_here.mp hx)), hs⟩
    rw [below_cons, if_neg, ih hD]
    · rfl
    · intro ⟨hp, hs⟩
      exact h ⟨spec, mem_here.mpr (hp ▸ List.mem_cons_self), hs⟩

theorem perm_here (h : σ.Perm D) : (here σ).Perm (here D) := h.filterMap _

theorem taken_perm (h : σ.Perm D) : Taken σ ↔ Taken D := by
  simp only [Taken, (perm_here h).mem_iff]

theorem patches_perm (h : σ.Perm D) (hD : Patches D) : Patches σ := fun e he => hD e (h.subset he)

theorem patches_under (hD : Patches D) (s : String) : Patches (under s D) :=
  fun e he => hD (s :: e.1, e.2) (mem_under.mp he)

/-- `required` behind the patches, in any order. -/
theorem required_perm (hσ : σ.Perm D) (hag : Agree D) (present : String → Bool) (o : Option Json) :
    toggleAll (effective present σ) o = toggleAll (effective present D) o := by
  have hfield : ∀ s, (settings (here (under s σ))).getLast? = (settings (here (under s D))).getLast? ∧
      (false ∈ settings (here (under s σ)) ↔ false ∈ settings (here (under s D))) := by
    intro s
    have hp := perm_here (perm_under hσ s)
    refine settings_perm hp fun hno x hx y hy => ?_
    have hstays : ¬ Taken (under s D) := not_taken_iff.mpr fun z hz => hno z (hp.symm.subset hz)
    exact hag.toggles s hstays x (hp.subset hx) y (hp.subset hy)
  -- a field that ends required stays, and a patch of it requires it
  have hrequired : ∀ s, Toggles.last s (effective present σ) = some true →
      ¬ Taken (under s D) ∧ ∃ x ∈ here (under s D), x.required = some true := by
    intro s hs
    rw [last_effective] at hs
    cases hp : present s with
    | false => simp [hp] at hs
    | true =>
      rw [hp, if_pos rfl, (hfield s).1] at hs
      by_cases ht : Taken (under s D)
      · rw [settings_strips ht] at hs
        cases hs
      · exact ⟨ht, (mem_settings (not_taken_iff.mp ht)).mp (List.mem_of_getLast? hs)⟩
  refine toggleAll_congr (fun s => ?_) (fun s => ?_) (fun s t hs ht => ?_) o
  · rw [last_effective, last_effective, (hfield s).1]
  · rw [mem_effective, mem_effective, (hfield s).2]
  · obtain ⟨hst, x, hx, hxr⟩ := hrequired s hs
    obtain ⟨htt, y, hy, hyr⟩ := hrequired t ht
    exact hag.required s t hst htt x hx y hy hxr hyr

theorem attribute_perm (hσ : σ.Perm D) (hag : Agree D) (k : String) (ho : SameOpt o o) :
    SameOpt (wrote k (here σ) o) (wrote k (here D) o) := by
  have hp := perm_here hσ
  by_cases h : ∃ x ∈ here D, x.writes.lookup k ≠ none
  · obtain ⟨x, hx, hne⟩ := h
    obtain ⟨a, ha⟩ := Option.ne_none_iff_exists'.mp hne
    have hall : ∀ y ∈ here D, ∀ b, y.writes.lookup k = some b → a.Same b :=
      fun y hy b hb => hag.attributes x hx y hy k a b ha hb
    have h₁ : SameOpt (some a) (wrote k (here σ) o) := wrote_same (fun y hy => hall y (hp.subset hy))
      (Or.inl ⟨x, hp.symm.subset hx, hne⟩)
    have h₂ : SameOpt (some a) (wrote k (here D) o) := wrote_same hall (Or.inl ⟨x, hx, hne⟩)
    exact h₁.symm.trans h₂
  · have hnone : ∀ x ∈ here D, x.writes.lookup k = none := fun x hx => by
      by_contra hne
      exact h ⟨x, hx, hne⟩
    rw [wrote_none hnone, wrote_none fun x hx => hnone x (hp.subset hx)]
    exact ho

theorem same_of_agree (hσ : σ.Perm D) (hD : Patches D) (hag : Agree D) (hkeys : ∀ s, Indep (under s D))
    (hv : v.WF) : (grown σ v).Same (grown D v) := by
  have hpσ := patches_perm hσ hD
  rcases v.asObject_cases with ⟨es, rfl⟩ | hne
  · obtain ⟨es₁, h₁, hk₁, ho₁, hn₁⟩ := grown_obj hpσ hv
    obtain ⟨es₂, h₂, hk₂, ho₂, hn₂⟩ := grown_obj hD hv
    have hv₁ := wf_grown hpσ hv
    have hv₂ := wf_grown hD hv
    have hr₁ := required_grown hpσ hv
    have hr₂ := required_grown hD hv
    have hc₁ := child_grown hpσ hv
    have hc₂ := child_grown hD hv
    rw [h₁] at hv₁ hr₁ hc₁
    rw [h₂] at hv₂ hr₂ hc₂
    rw [h₁, h₂]
    have hrefl : ∀ {k w}, es₂.lookup k = some w → w.WF := fun hw => wf_field hv₂ hw
    refine same_obj.mpr ⟨(wf_obj.mp hv₁).1, (wf_obj.mp hv₂).1, fun k => ?_⟩
    by_cases hp : k = "properties"
    · subst hp
      by_cases hps : ∃ ps, es.lookup "properties" = some (.obj ps)
      · obtain ⟨ps₁, hps₁⟩ := ho₁ hps
        obtain ⟨ps₂, hps₂⟩ := ho₂ hps
        rw [hps₁, hps₂]
        refine .some (same_obj.mpr ⟨(wf_obj.mp (wf_field hv₁ hps₁)).1, (wf_obj.mp (wf_field hv₂ hps₂)).1,
          fun s => ?_⟩)
        rw [← child_obj hps₁, ← child_obj hps₂, hc₁, hc₂]
        exact hkeys s _ (perm_under hσ s) _ (sameOpt_refl fun c hc => wf_child hv hc)
      · have hno : ∀ ps, es.lookup "properties" ≠ some (.obj ps) := fun ps h => hps ⟨ps, h⟩
        rw [hn₁ hno, ← hn₂ hno]
        exact sameOpt_refl fun w hw => hrefl hw
    · by_cases hr : k = "required"
      · subst hr
        rw [get_obj] at hr₁ hr₂
        rw [hr₁, required_perm hσ hag, ← hr₂]
        exact sameOpt_refl fun w hw => hrefl hw
      · rw [hk₁ k hp hr, hk₂ k hp hr]
        exact attribute_perm hσ hag k (sameOpt_refl fun w hw => wf_field hv hw)
  · rw [grown_of_ne_obj hne, grown_of_ne_obj hne]
    exact same_refl hv

end Sufficient

/-! ## Patches that do not agree -/

section Necessary

variable {D σ : Entries FieldSpec} {s t : String} {x y : FieldSpec}

/-- Whatever the order, the same schema from every schema. -/
def SameGrown (D : Entries FieldSpec) : Prop :=
  ∀ σ : Entries FieldSpec, σ.Perm D → ∀ v : Json, v.WF → (grown σ v).Same (grown D v)

/-- A schema with these properties and nothing else. -/
def schemaOf (ps : List (String × Json)) : Json := .obj [("properties", .obj ps)]

theorem child_schemaOf (ps : List (String × Json)) (s : String) : child (schemaOf ps) s = ps.lookup s := rfl

theorem wf_schemaOf {ps : List (String × Json)} (h : (Json.obj ps).WF) : (schemaOf ps).WF :=
  wf_obj.mpr ⟨by simp [OrderedMap.keys], fun e he => by
    obtain rfl := List.mem_singleton.mp he
    exact h⟩

theorem SameGrown.both {τ : Entries FieldSpec} (h : SameGrown D) (hσ : σ.Perm D) (hτ : τ.Perm D) {v : Json}
    (hv : v.WF) : (grown σ v).Same (grown τ v) := (h σ hσ v hv).trans (h τ hτ v hv).symm

/-- The patch that comes last leaves its attributes. -/
theorem last_attribute (hD : Patches D) (hx : x ∈ here D) {k : String} {a : Json}
    (ha : x.writes.lookup k = some a) :
    ∃ σ : Entries FieldSpec, σ.Perm D ∧ ∃ es, grown σ (.obj []) = .obj es ∧ es.lookup k = some a := by
  obtain ⟨E, hE⟩ := perm_last (mem_here.mp hx)
  have hpatches : Patches E := fun e he => hD e (hE.subset (List.mem_append_left _ he))
  obtain ⟨es, hes, -⟩ := grown_obj hpatches wf_empty
  obtain ⟨es', hes', hl⟩ := written_obj x es
  refine ⟨_, hE, es', ?_, by rw [hl, ha, Option.some_or]⟩
  rw [grown_append, hes]
  exact hes'

theorem attributes_of_same (hD : Patches D) (h : SameGrown D) (hx : x ∈ here D) (hy : y ∈ here D) {k : String}
    {a b : Json} (ha : x.writes.lookup k = some a) (hb : y.writes.lookup k = some b) : a.Same b := by
  obtain ⟨σ, hσ, es, hes, hl⟩ := last_attribute hD hx ha
  obtain ⟨τ, hτ, fs, hfs, hm⟩ := last_attribute hD hy hb
  have hsame := h.both hσ hτ wf_empty
  rw [hes, hfs] at hsame
  have hk := hsame.lookup k
  rw [hl, hm] at hk
  cases hk with
  | some hk => exact hk

/-- `required` of two orders. -/
theorem SameGrown.required {τ : Entries FieldSpec} (hD : Patches D) (h : SameGrown D) (hσ : σ.Perm D)
    (hτ : τ.Perm D) {ps : List (String × Json)} (hps : (Json.obj ps).WF) :
    SameOpt (toggleAll (effective (fun s => (ps.lookup s).isSome) σ) none)
      (toggleAll (effective (fun s => (ps.lookup s).isSome) τ) none) := by
  have hv := wf_schemaOf hps
  have hsame := h.both hσ hτ hv
  obtain ⟨es, hes, -⟩ := grown_obj (patches_perm hσ hD) hv
  obtain ⟨fs, hfs, -⟩ := grown_obj (patches_perm hτ hD) hv
  have h₁ := required_grown (patches_perm hσ hD) hv
  have h₂ := required_grown (patches_perm hτ hD) hv
  rw [show Json.obj [("properties", .obj ps)] = schemaOf ps from rfl] at hes hfs
  rw [hes, hfs] at hsame
  rw [hes, get_obj] at h₁
  rw [hfs, get_obj] at h₂
  have hk := hsame.lookup "required"
  rw [h₁, h₂] at hk
  exact hk

theorem isSome_lookup_singleton (s u : String) (x : Json) : ([(s, x)].lookup u).isSome = decide (u = s) := by
  by_cases h : u = s
  · simp [h]
  · rw [OrderedMap.lookup_cons_of_ne h]
    simp [h]

/-- Of a field alone the last patch says whether it is required. -/
theorem last_toggle (hno : ¬ Taken (under s D)) (hx : x ∈ here (under s D)) {r : Bool} (hr : x.required = some r) :
    ∃ σ : Entries FieldSpec, σ.Perm D ∧
      toggleAll (effective (fun u => ([(s, Json.null)].lookup u).isSome) σ) none =
        if r then some (.arr [.str s]) else none := by
  obtain ⟨E, hE⟩ := perm_last (mem_under.mp (mem_here.mp hx))
  refine ⟨_, hE, ?_⟩
  have hpresent := isSome_lookup_singleton s s .null
  have hstrips : ∀ z ∈ here (under s (E ++ [([s], x)])), Strips z = false :=
    not_taken_iff.mp fun ht => hno ((taken_perm (perm_under hE s)).mp ht)
  have hhere : here (under s (E ++ [([s], x)])) = here (under s E) ++ [x] := by
    rw [under_append, under_cons_self, under_nil, here, List.filterMap_append]
    rfl
  have hlast : Toggles.last s (effective (fun u => ([(s, Json.null)].lookup u).isSome) (E ++ [([s], x)])) =
      some r := by
    rw [last_effective, hpresent, if_pos (by simp), hhere]
    rw [hhere] at hstrips
    rw [settings_append fun z hz => hstrips z (List.mem_append_left _ hz)]
    have hsx := hstrips x (List.mem_append_right _ List.mem_cons_self)
    simp [settings, hsx, hr]
  have honly : ∀ u, u ≠ s →
      Toggles.last u (effective (fun u => ([(s, Json.null)].lookup u).isSome) (E ++ [([s], x)])) = none := by
    intro u hu
    rw [last_effective, isSome_lookup_singleton, if_neg (by simpa using hu)]
  generalize effective (fun u => ([(s, Json.null)].lookup u).isSome) (E ++ [([s], x)]) = T at hlast honly
  obtain ⟨q, hq, hn, hm⟩ := Toggles.run_outcome (N := naming) [] T
  rw [show (none : Option Json) = listOf true [] from rfl, toggleAll_listOf, Bool.true_or, hq, List.filter_nil,
    List.nil_append]
  have hmem : ∀ u, u ∈ q ↔ u = s ∧ r = true := by
    intro u
    rw [hm]
    by_cases hu : u = s
    · subst hu
      simp [hlast, Toggles.has]
    · simp [honly u hu, hu]
  cases r with
  | true =>
    have hone : q = [s] := List.perm_singleton.mp
      ((List.perm_ext_iff_of_nodup hn (List.nodup_singleton s)).mpr fun u => by simp [hmem])
    rw [hone]
    rfl
  | false =>
    have hnil : q = [] := List.eq_nil_iff_forall_not_mem.mpr fun u hu => by simpa using (hmem u).mp hu
    rw [hnil]
    rfl

theorem wf_null (s : String) : (Json.obj [(s, .null)]).WF :=
  wf_obj.mpr ⟨by simp [OrderedMap.keys], by simp [Json.WF]⟩

theorem toggles_of_same (hD : Patches D) (h : SameGrown D) (hno : ¬ Taken (under s D)) (hx : x ∈ here (under s D))
    (hy : y ∈ here (under s D)) {r r' : Bool} (hr : x.required = some r) (hr' : y.required = some r') : r = r' := by
  obtain ⟨σ, hσ, h₁⟩ := last_toggle hno hx hr
  obtain ⟨τ, hτ, h₂⟩ := last_toggle hno hy hr'
  have hsame := SameGrown.required hD h hσ hτ (wf_null s)
  rw [h₁, h₂] at hsame
  cases r <;> cases r' <;> first | rfl | cases hsame

theorem effective_required {present : String → Bool} (hp : present s = true) (hs : Strips x = false) {r : Bool}
    (hr : x.required = some r) (D : Entries FieldSpec) :
    effective present (([s], x) :: D) = (s, r) :: effective present D := by
  rw [effective, if_pos hp, if_neg (by simp [hs]), hr]
  rfl

/-- Fields that are there already. -/
theorem toggleAll_there {T : List (String × Bool)} {a : List Json}
    (h : ∀ e ∈ T, e.2 = true ∧ Json.str e.1 ∈ a) : toggleAll T (some (.arr a)) = some (.arr a) := by
  induction T with
  | nil => rfl
  | cons e T ih =>
    obtain ⟨⟨hb, hmem⟩, hT⟩ := List.forall_mem_cons.mp h
    have hany : a.any (fun v => v.asStr == some e.1) = true := List.any_eq_true.mpr ⟨_, hmem, by simp [Json.asStr]⟩
    show toggleAll T (toggled e.1 e.2 (some (.arr a))) = _
    rw [hb, toggled, if_pos rfl]
    simp only [hany, if_true]
    exact ih hT

/-- Of two fields that are required, the one whose patch comes first stands first. -/
theorem required_pair (hD : Patches D) (h : SameGrown D) (hst : s ≠ t) (hs : ¬ Taken (under s D))
    (ht : ¬ Taken (under t D)) (hx : x ∈ here (under s D)) (hy : y ∈ here (under t D))
    (hxr : x.required = some true) (hyr : y.required = some true) {present : String → Bool}
    (hp : ∀ u, present u = true ↔ u = s ∨ u = t) :
    ∃ σ : Entries FieldSpec, σ.Perm D ∧ toggleAll (effective present σ) none = some (.arr [.str s, .str t]) := by
  obtain ⟨E, hE⟩ := perm_first_two (mem_under.mp (mem_here.mp hx)) (mem_under.mp (mem_here.mp hy))
    (by simpa using fun he => absurd he hst)
  refine ⟨_, hE, ?_⟩
  have hxs := not_taken_iff.mp hs x hx
  have hys := not_taken_iff.mp ht y hy
  have heff : effective present (([s], x) :: ([t], y) :: E) = (s, true) :: (t, true) :: effective present E := by
    rw [effective_required ((hp s).mpr (Or.inl rfl)) hxs hxr, effective_required ((hp t).mpr (Or.inr rfl)) hys hyr]
  rw [heff]
  have hpair : toggleAll [(s, true), (t, true)] none = some (.arr [.str s, .str t]) := by
    simp [toggleAll, toggled, Json.asStr, hst]
  rw [show (s, true) :: (t, true) :: effective present E = [(s, true), (t, true)] ++ effective present E from rfl,
    toggleAll_append, hpair]
  refine toggleAll_there fun e he => ?_
  obtain ⟨u, b⟩ := e
  obtain ⟨hu, hb⟩ := mem_effective.mp (heff ▸ List.mem_cons_of_mem _ (List.mem_cons_of_mem _ he))
  have hperm := perm_under hE u
  -- what else is asked of the two fields is asked by patches that agree
  have hone : ∀ {z : FieldSpec}, ¬ Taken (under u D) → z ∈ here (under u D) → z.required = some true →
      b = true := by
    intro z hno hz hzr
    obtain ⟨w, hw, hwr⟩ := (mem_settings (not_taken_iff.mp fun hk => hno ((taken_perm hperm).mp hk))).mp hb
    exact toggles_of_same hD h hno ((perm_here hperm).subset hw) hz hwr hzr
  rcases (hp u).mp hu with rfl | rfl
  · exact ⟨hone hs hx hxr, by simp⟩
  · exact ⟨hone ht hy hyr, by simp⟩

theorem required_of_same (hD : Patches D) (h : SameGrown D) (hs : ¬ Taken (under s D)) (ht : ¬ Taken (under t D))
    (hx : x ∈ here (under s D)) (hy : y ∈ here (under t D)) (hxr : x.required = some true)
    (hyr : y.required = some true) : s = t := by
  by_contra hst
  have hp : ∀ u, ([(s, Json.null), (t, .null)].lookup u).isSome = true ↔ u = s ∨ u = t := by
    intro u
    rw [Option.isSome_iff_exists, OrderedMap.lookup_isSome]
    simp [OrderedMap.keys]
  obtain ⟨σ, hσ, h₁⟩ := required_pair hD h hst hs ht hx hy hxr hyr hp
  obtain ⟨τ, hτ, h₂⟩ := required_pair hD h (Ne.symm hst) ht hs hy hx hyr hxr fun u => (hp u).trans or_comm
  have hwf : (Json.obj [(s, .null), (t, .null)]).WF :=
    wf_obj.mpr ⟨by simpa [OrderedMap.keys] using hst, by simp [Json.WF]⟩
  have hsame := SameGrown.required hD h hσ hτ hwf
  rw [h₁, h₂] at hsame
  cases hsame with
  | some hsame =>
    have hfirst := same_arr.mp hsame 0
    simp only [List.getElem?_cons_zero] at hfirst
    cases hfirst with
    | some hfirst => exact hst (by simpa [Json.eqv] using hfirst.2.2)

/-- The patches under one name, in an order of their own. -/
theorem keys_of_same (hD : Patches D) (h : SameGrown D) (s : String) : Indep (under s D) := by
  intro σ hσ o ho
  have hperm : (atKey s σ ++ apart s D).Perm D := ((hσ.map _).append_right _).trans (perm_atKey_apart s D)
  have hunder : under s (atKey s σ ++ apart s D) = σ := by
    rw [under_append, under_atKey, under_apart, List.append_nil]
  obtain ⟨ps, hps, hlk⟩ : ∃ ps : List (String × Json), (Json.obj ps).WF ∧ ps.lookup s = o := by
    cases ho with
    | none => exact ⟨[], wf_empty, rfl⟩
    | @some v _ hv => exact ⟨[(s, v)], wf_obj.mpr ⟨by simp [OrderedMap.keys], by simpa using hv.1⟩, by simp⟩
  have hv := wf_schemaOf hps
  have hsame := h _ hperm _ hv
  have h₁ := child_grown (patches_perm hperm hD) hv s
  have h₂ := child_grown hD hv s
  rw [hunder, child_schemaOf, hlk] at h₁
  rw [child_schemaOf, hlk] at h₂
  obtain ⟨es, hes, -, hes', -⟩ := grown_obj (patches_perm hperm hD) hv
  obtain ⟨fs, hfs, -, hfs', -⟩ := grown_obj hD hv
  obtain ⟨ps₁, hp₁⟩ := hes' ⟨ps, rfl⟩
  obtain ⟨ps₂, hp₂⟩ := hfs' ⟨ps, rfl⟩
  rw [schemaOf] at hsame h₁ h₂
  rw [hes, child_obj hp₁] at h₁
  rw [hfs, child_obj hp₂] at h₂
  rw [hes, hfs] at hsame
  have hprops := hsame.lookup "properties"
  rw [hp₁, hp₂] at hprops
  cases hprops with
  | some hprops =>
    have hs := hprops.lookup s
    rwa [h₁, h₂] at hs

end Necessary

/-! ## Exactly when -/

theorem sameGrown_of_indep {D : Entries FieldSpec} (hno : ¬ Taken D) (h : Indep D) : SameGrown D := by
  intro σ hσ v hv
  have hsame := h σ hσ _ (.some (same_refl hv))
  rw [below_eq fun ht => hno ((taken_perm hσ).mp ht), below_eq hno] at hsame
  cases hsame with
  | some hsame => exact hsame

theorem indep_of_sameGrown {D : Entries FieldSpec} (hno : ¬ Taken D) (h : SameGrown D) : Indep D := by
  intro σ hσ o ho
  cases ho with
  | none => rw [below_none, below_none]; exact .none
  | @some v _ hv =>
    rw [below_eq fun ht => hno ((taken_perm hσ).mp ht), below_eq hno]
    exact .some (h σ hσ v hv.1)

/-- One schema of the patches. -/
theorem indep_step {D : Entries FieldSpec} (hD : Patches D) :
    Indep D ↔ Taken D ∨ (Agree D ∧ ∀ s, Indep (under s D)) := by
  by_cases ht : Taken D
  · refine iff_of_true (fun σ hσ o _ => ?_) (Or.inl ht)
    rw [below_taken ht, below_taken ((taken_perm hσ).mpr ht)]
    exact .none
  · rw [or_iff_right ht]
    constructor
    · intro hindep
      have h := sameGrown_of_indep ht hindep
      refine ⟨⟨?_, ?_, ?_⟩, keys_of_same hD h⟩
      · intro x hx y hy k a b ha hb
        exact attributes_of_same hD h hx hy ha hb
      · intro s hs x hx y hy r r' hr hr'
        exact toggles_of_same hD h hs hx hy hr hr'
      · intro s t hs ht x hx y hy hxr hyr
        exact required_of_same hD h hs ht hx hy hxr hyr
    · intro ⟨hag, hkeys⟩
      exact indep_of_sameGrown ht fun σ hσ v hv => same_of_agree hσ hD hag hkeys hv

theorem indep_iff {D : Entries FieldSpec} (hD : Patches D) :
    Indep D ↔ ∀ p, (∀ q, q <+: p → ¬ Taken (underPath q D)) → Agree (underPath p D) := by
  constructor
  · intro h p hp
    have hstep := ((indep_step hD).mp h).resolve_left (hp [] List.nil_prefix)
    induction p generalizing D with
    | nil => exact hstep.1
    | cons s p ih =>
      have hs : ∀ q, q <+: p → ¬ Taken (underPath q (under s D)) := fun q hq =>
        hp (s :: q) (List.cons_prefix_cons.mpr ⟨rfl, hq⟩)
      have hpatches := patches_under hD s
      exact ih hpatches (hstep.2 s) hs (((indep_step hpatches).mp (hstep.2 s)).resolve_left (hs [] List.nil_prefix))
  · obtain ⟨n, hn⟩ := exists_depth D
    intro h
    induction n generalizing D with
    | zero =>
      rw [indep_step hD]
      by_cases ht : Taken D
      · exact Or.inl ht
      · refine Or.inr ⟨h [] fun q hq => by rwa [List.prefix_nil.mp hq], fun s => ?_⟩
        rw [under_of_depth hn]
        intro σ hσ o ho
        rwa [List.perm_nil.mp hσ]
    | succ n ih =>
      rw [indep_step hD]
      by_cases ht : Taken D
      · exact Or.inl ht
      · refine Or.inr ⟨h [] fun q hq => by rwa [List.prefix_nil.mp hq], fun s => ?_⟩
        refine ih (patches_under hD s) (depth_under hn s) fun p hp => h (s :: p) fun q hq => ?_
        cases q with
        | nil => exact ht
        | cons s' q =>
          obtain ⟨rfl, hq'⟩ := List.cons_prefix_cons.mp hq
          exact hp q hq'

/-! ## The fields of an overlay -/

/-- The loop of `apply_field_patches`, over the entries. -/
def patchEach (fields : List (String × FieldSpec)) (v : Json) : Json := applyFieldPatches v fields

def parsed (f : String × FieldSpec) : List String × FieldSpec := (dottedPath f.1, f.2)

/-- No patch takes out the field at the path or one on the way. -/
def Stays (fields : List (String × FieldSpec)) (p : List String) : Prop :=
  ∀ f ∈ fields, dottedPath f.1 ≠ [] → dottedPath f.1 <+: p → Strips f.2 = false

/-- The patches of the fields that stay. Two of one path write the same and say the same of
`required`, and of the fields of one object only one is required. -/
structure FieldsAgree (fields : List (String × FieldSpec)) : Prop where
  attributes : ∀ f ∈ fields, ∀ g ∈ fields, dottedPath f.1 ≠ [] → dottedPath f.1 = dottedPath g.1 →
    Stays fields (dottedPath f.1) →
    ∀ k a b, f.2.writes.lookup k = some a → g.2.writes.lookup k = some b → a.Same b
  toggles : ∀ f ∈ fields, ∀ g ∈ fields, dottedPath f.1 ≠ [] → dottedPath f.1 = dottedPath g.1 →
    Stays fields (dottedPath f.1) → ∀ r r', f.2.required = some r → g.2.required = some r' → r = r'
  required : ∀ f ∈ fields, ∀ g ∈ fields, dottedPath f.1 ≠ [] → dottedPath g.1 ≠ [] →
    (dottedPath f.1).dropLast = (dottedPath g.1).dropLast → Stays fields (dottedPath f.1) →
    Stays fields (dottedPath g.1) → f.2.required = some true → g.2.required = some true →
    dottedPath f.1 = dottedPath g.1

section Fields

variable {fields : List (String × FieldSpec)}

theorem patchEach_eq (fields : List (String × FieldSpec)) (v : Json) :
    patchEach fields v = grown (deeper (fields.map parsed)) v := by
  induction fields generalizing v with
  | nil => rfl
  | cons f fields ih =>
    show patchEach fields (patchAt f.2 (dottedPath f.1) v) = _
    rw [ih, List.map_cons, parsed]
    by_cases hp : dottedPath f.1 = []
    · rw [hp, deeper, deeper, List.filter_cons_of_neg (by simp)]
      rfl
    · rw [deeper, deeper, List.filter_cons_of_pos (by simpa using hp)]
      show _ = grown _ (patch (dottedPath f.1, f.2) v)
      rw [patch, if_neg hp]

theorem under_underPath {X : Type} (p : List String) (s : String) (D : Entries X) :
    under s (underPath p D) = underPath (p ++ [s]) D := by
  induction p generalizing D with
  | nil => rfl
  | cons t p ih => exact ih (under t D)

theorem mem_here_fields {p : List String} {x : FieldSpec} :
    x ∈ here (underPath p (deeper (fields.map parsed))) ↔
      p ≠ [] ∧ ∃ f ∈ fields, dottedPath f.1 = p ∧ f.2 = x := by
  rw [mem_here, mem_underPath, List.append_nil, deeper, List.mem_filter, List.mem_map]
  simp only [parsed, Prod.mk.injEq, ne_eq, decide_eq_true_eq]
  exact and_comm

theorem taken_fields {p : List String} : Taken (underPath p (deeper (fields.map parsed))) ↔
    p ≠ [] ∧ ∃ f ∈ fields, dottedPath f.1 = p ∧ Strips f.2 = true := by
  unfold Taken
  simp only [mem_here_fields]
  constructor
  · intro ⟨x, ⟨hp, f, hf, hpath, hx⟩, hs⟩
    exact ⟨hp, f, hf, hpath, hx ▸ hs⟩
  · intro ⟨hp, f, hf, hpath, hs⟩
    exact ⟨_, ⟨hp, f, hf, hpath, rfl⟩, hs⟩

theorem stays_iff {p : List String} :
    (∀ q, q <+: p → ¬ Taken (underPath q (deeper (fields.map parsed)))) ↔ Stays fields p := by
  simp only [taken_fields, not_and, not_exists]
  constructor
  · intro h f hf hne hp
    simpa using h _ hp hne f hf rfl
  · intro h q hq hne f hf hpath
    simpa using h f hf (hpath ▸ hne) (hpath ▸ hq)

theorem stays_concat {p : List String} {s : String} :
    Stays fields (p ++ [s]) ↔ Stays fields p ∧ ¬ Taken (underPath (p ++ [s]) (deeper (fields.map parsed))) := by
  rw [← stays_iff, ← stays_iff]
  simp only [List.prefix_concat_iff]
  constructor
  · intro h
    exact ⟨fun q hq => h q (Or.inr hq), h _ (Or.inl rfl)⟩
  · intro ⟨h, hs⟩ q hq
    rcases hq with rfl | hq
    · exact hs
    · exact h q hq

theorem agree_iff : (∀ p, Stays fields p → Agree (underPath p (deeper (fields.map parsed)))) ↔
    FieldsAgree fields := by
  constructor
  · intro h
    refine ⟨?_, ?_, ?_⟩
    · intro f hf g hg hne hfg hstays k a b ha hb
      exact (h _ hstays).attributes _ (mem_here_fields.mpr ⟨hne, f, hf, rfl, rfl⟩) _
        (mem_here_fields.mpr ⟨hne, g, hg, hfg.symm, rfl⟩) k a b ha hb
    · intro f hf g hg hne hfg hstays r r' hr hr'
      obtain ⟨p, s, hp⟩ := (List.eq_nil_or_concat' _).resolve_left hne
      rw [hp] at hne hstays
      obtain ⟨hp', hs⟩ := stays_concat.mp hstays
      rw [← under_underPath] at hs
      refine (h p hp').toggles s hs f.2 ?_ g.2 ?_ r r' hr hr'
      · rw [under_underPath]
        exact mem_here_fields.mpr ⟨hne, f, hf, hp, rfl⟩
      · rw [under_underPath]
        exact mem_here_fields.mpr ⟨hne, g, hg, hfg ▸ hp, rfl⟩
    · intro f hf g hg hfne hgne hcontainer hfs hgs hfr hgr
      obtain ⟨p, s, hp⟩ := (List.eq_nil_or_concat' _).resolve_left hfne
      obtain ⟨p', t, hp'⟩ := (List.eq_nil_or_concat' _).resolve_left hgne
      rw [hp, hp', List.dropLast_concat, List.dropLast_concat] at hcontainer
      subst hcontainer
      rw [hp] at hfne hfs ⊢
      rw [hp'] at hgne hgs ⊢
      obtain ⟨hcs, hs⟩ := stays_concat.mp hfs
      obtain ⟨-, ht⟩ := stays_concat.mp hgs
      rw [← under_underPath] at hs ht
      refine congrArg (fun u => p ++ [u]) ((h p hcs).required s t hs ht f.2 ?_ g.2 ?_ hfr hgr)
      · rw [under_underPath]
        exact mem_here_fields.mpr ⟨hfne, f, hf, hp, rfl⟩
      · rw [under_underPath]
        exact mem_here_fields.mpr ⟨hgne, g, hg, hp', rfl⟩
  · intro h p hstays
    refine ⟨?_, ?_, ?_⟩
    · intro x hx y hy k a b ha hb
      obtain ⟨hne, f, hf, hp, rfl⟩ := mem_here_fields.mp hx
      obtain ⟨-, g, hg, hp', rfl⟩ := mem_here_fields.mp hy
      exact h.attributes f hf g hg (hp ▸ hne) (hp.trans hp'.symm) (hp ▸ hstays) k a b ha hb
    · intro s hs x hx y hy r r' hr hr'
      rw [under_underPath] at hs hx hy
      obtain ⟨hne, f, hf, hp, rfl⟩ := mem_here_fields.mp hx
      obtain ⟨-, g, hg, hp', rfl⟩ := mem_here_fields.mp hy
      exact h.toggles f hf g hg (hp ▸ hne) (hp.trans hp'.symm) (hp ▸ stays_concat.mpr ⟨hstays, hs⟩) r r' hr hr'
    · intro s t hs ht x hx y hy hxr hyr
      rw [under_underPath] at hs ht hx hy
      obtain ⟨hfne, f, hf, hp, rfl⟩ := mem_here_fields.mp hx
      obtain ⟨hgne, g, hg, hp', rfl⟩ := mem_here_fields.mp hy
      have hpath := h.required f hf g hg (hp ▸ hfne) (hp' ▸ hgne) (by rw [hp, hp']; simp)
        (hp ▸ stays_concat.mpr ⟨hstays, hs⟩) (hp' ▸ stays_concat.mpr ⟨hstays, ht⟩) hxr hyr
      rw [hp, hp'] at hpath
      simpa using hpath

/-- **Field patches.** When their order does not matter. -/
theorem fields_orderFree_iff (hs : ∀ f ∈ fields, FieldPatches.Sound f.2) :
    OrderFree patchEach fields ↔ FieldsAgree fields := by
  have hpatches : Patches (deeper (fields.map parsed)) := by
    intro e he
    obtain ⟨f, hf, rfl⟩ := List.mem_map.mp (List.mem_filter.mp he).1
    exact hs f hf
  have hdeep : ¬ Taken (deeper (fields.map parsed)) := by
    intro ⟨x, hx, _⟩
    rw [here_eq_nil.mpr (deep_deeper _)] at hx
    cases hx
  rw [← agree_iff]
  simp only [← stays_iff]
  rw [← indep_iff hpatches, orderFree_iff_one]
  simp only [patchEach_eq]
  have hsame : SameGrown (deeper (fields.map parsed)) ↔ Indep (deeper (fields.map parsed)) :=
    ⟨indep_of_sameGrown hdeep, sameGrown_of_indep hdeep⟩
  rw [← hsame]
  exact forall_perm_filter (P := fun σ => ∀ v : Json, v.WF →
    (grown σ v).Same (grown (deeper (fields.map parsed)) v))

end Fields

end MinMcp.L4.PatchOrder
