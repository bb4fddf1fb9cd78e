import MinMcp.Core.Json.ReadWF
import MinMcp.L4App.Catalog

/-!
# What a field patch changes

`apply_field_patches` (src/surface/patch.rs:11-60) walks through `properties` to the object that
holds a field and changes the field there and the object's `required`. Everything it does is
said by three things of a schema: its `properties` (`child`), its `required`, and its other keys.

* `child_patchAt_self`, `child_patchAt_of_ne`, `required_patchAt`, `patchAt_obj`: what one patch does
  to each of them.
* `nodeAt_patchAt`, `requiredAt_patchAt`: a patch leaves alone what no prefix of its path leads
  to.
-/
namespace MinMcp.L4.FieldPatches

open MinMcp.Core MinMcp.L4.Catalogs

/-- The schema of a property. -/
def child (v : Json) (field : String) : Option Json := (v.get "properties").bind fun ps => ps.get field

/-- The schema at a path through `properties`. -/
def nodeAt : List String → Json → Option Json
  | [], v => some v
  | s :: path, v => (child v s).bind (nodeAt path)

/-- The field is taken out of the schema. -/
def Strips (spec : FieldSpec) : Bool := spec.hide.getD false || spec.userSupplied.isSome

/-- The values a patch writes have unique keys, as the map type guarantees. -/
def Sound (spec : FieldSpec) : Prop := ∀ w ∈ spec.writes, w.2.WF

/-- The property with what the patch writes; nothing is written into a schema that is no
object. -/
def written (spec : FieldSpec) : Json → Json
  | .obj fs => .obj (spec.writes.foldl (fun fs w => OrderedMap.insert w.1 w.2 fs) fs)
  | v => v

/-- `set_required` on the value of `required`. -/
def toggled (field : String) (required : Bool) (list : Option Json) : Option Json :=
  if required then
    match list with
    | none => some (.arr [.str field])
    | some (.arr a) => if a.any (fun v => v.asStr == some field) then list else some (.arr (a ++ [.str field]))
    | some v => some v
  else
    match list with
    | some (.arr a) =>
      if (a.filter fun v => v.asStr != some field).isEmpty then none
      else some (.arr (a.filter fun v => v.asStr != some field))
    | list => list

/-- What a patch makes of `required`. -/
def requiredBy (spec : FieldSpec) (field : String) (list : Option Json) : Option Json :=
  if Strips spec then toggled field false list
  else
    match spec.required with
    | some r => toggled field r list
    | none => list

/-! ## One object -/

theorem lookup_setRequired {es : List (String × Json)} (hn : (OrderedMap.keys es).Nodup) (field : String)
    (r : Bool) : (setRequired es field r).lookup "required" = toggled field r (es.lookup "required") := by
  unfold setRequired toggled
  cases r with
  | true =>
    simp only [if_true]
    cases h : es.lookup "required" with
    | none => exact OrderedMap.lookup_insert_self ..
    | some v =>
      cases v with
      | arr a =>
        simp only
        split
        · exact h
        · exact OrderedMap.lookup_insert_self ..
      | _ => exact h
  | false =>
    simp only [Bool.false_eq_true, if_false]
    cases h : es.lookup "required" with
    | none => exact h
    | some v =>
      cases v with
      | arr a =>
        simp only
        split
        · exact OrderedMap.lookup_swapRemove_self hn
        · exact OrderedMap.lookup_insert_self ..
      | _ => exact h

theorem lookup_setRequired_of_ne {es : List (String × Json)} (hn : (OrderedMap.keys es).Nodup) (field : String)
    (r : Bool) {k : String} (hk : k ≠ "required") : (setRequired es field r).lookup k = es.lookup k := by
  unfold setRequired
  cases r with
  | true =>
    simp only [if_true]
    split
    · exact OrderedMap.lookup_insert_of_ne hk ..
    · split
      · rfl
      · exact OrderedMap.lookup_insert_of_ne hk ..
    · rfl
  | false =>
    simp only [Bool.false_eq_true, if_false]
    split
    · split
      · exact OrderedMap.lookup_swapRemove_of_ne hk hn
      · exact OrderedMap.lookup_insert_of_ne hk ..
    · rfl

/-- The properties behind a patch of one of them. -/
def patchedProps (spec : FieldSpec) (field : String) (prop : Json) (ps : List (String × Json)) :
    List (String × Json) :=
  if Strips spec then OrderedMap.swapRemove field ps else OrderedMap.insert field (written spec prop) ps

theorem patchField_eq {es ps : List (String × Json)} {field : String} {prop : Json} (spec : FieldSpec)
    (hps : es.lookup "properties" = some (.obj ps)) (hprop : ps.lookup field = some prop) :
    patchField es field spec =
      (let es' := OrderedMap.insert "properties" (.obj (patchedProps spec field prop ps)) es
      if Strips spec then setRequired es' field false else spec.required.elim es' (setRequired es' field)) := by
  unfold patchField patchedProps Strips
  simp only [hps, hprop]
  by_cases hs : (spec.hide.getD false || spec.userSupplied.isSome) = true
  · simp only [hs, if_true]
  · simp only [hs]
    cases prop <;> cases spec.required <;> rfl

theorem patchField_of_absent {es : List (String × Json)} {field : String} (spec : FieldSpec)
    (h : child (.obj es) field = none) : patchField es field spec = es := by
  unfold patchField
  split
  · next ps hps =>
    have hp : ps.lookup field = none := by simpa [child, hps] using h
    simp only [hp]
  · rfl

section OneObject

variable {es : List (String × Json)} (hn : (OrderedMap.keys es).Nodup) (spec : FieldSpec) (field : String)
include hn

/-- The other keys stay. -/
theorem lookup_patchField_of_ne {k : String} (hp : k ≠ "properties") (hr : k ≠ "required") :
    (patchField es field spec).lookup k = es.lookup k := by
  cases hc : child (.obj es) field with
  | none => rw [patchField_of_absent spec hc]
  | some prop =>
    obtain ⟨v, hv, hprop⟩ := Option.bind_eq_some_iff.mp hc
    cases v with
    | obj ps =>
      rw [patchField_eq spec hv hprop]
      have hi := OrderedMap.nodup_insert "properties" (.obj (patchedProps spec field prop ps)) hn
      have hsame := OrderedMap.lookup_insert_of_ne hp (.obj (patchedProps spec field prop ps)) es
      dsimp only
      split
      · rw [lookup_setRequired_of_ne hi field false hr, hsame]
      · cases spec.required with
        | none => exact hsame
        | some r => exact (lookup_setRequired_of_ne hi field r hr).trans hsame
    | _ => cases hprop

theorem properties_patchField {prop : Json} {ps : List (String × Json)}
    (hps : es.lookup "properties" = some (.obj ps)) (hprop : ps.lookup field = some prop) :
    (patchField es field spec).lookup "properties" = some (.obj (patchedProps spec field prop ps)) := by
  rw [patchField_eq spec hps hprop]
  have hi := OrderedMap.nodup_insert "properties" (.obj (patchedProps spec field prop ps)) hn
  have hself := OrderedMap.lookup_insert_self "properties" (.obj (patchedProps spec field prop ps)) es
  dsimp only
  split
  · rw [lookup_setRequired_of_ne hi field false (by decide), hself]
  · cases spec.required with
    | none => exact hself
    | some r => exact (lookup_setRequired_of_ne hi field r (by decide)).trans hself

/-- `required` is changed where the field is. -/
theorem required_patchField :
    (patchField es field spec).lookup "required" =
      if (child (.obj es) field).isSome then requiredBy spec field (es.lookup "required")
      else es.lookup "required" := by
  cases hc : child (.obj es) field with
  | none => rw [patchField_of_absent spec hc]; rfl
  | some prop =>
    obtain ⟨v, hv, hprop⟩ := Option.bind_eq_some_iff.mp hc
    cases v with
    | obj ps =>
      rw [patchField_eq spec hv hprop, Option.isSome_some, if_pos rfl, requiredBy]
      have hi := OrderedMap.nodup_insert "properties" (.obj (patchedProps spec field prop ps)) hn
      have hsame := OrderedMap.lookup_insert_of_ne (show "required" ≠ "properties" by decide)
        (.obj (patchedProps spec field prop ps)) es
      dsimp only
      split
      · rw [lookup_setRequired hi, hsame]
      · cases spec.required with
        | none => exact hsame
        | some r => exact (lookup_setRequired hi field r).trans (by rw [hsame])
    | _ => cases hprop

end OneObject

/-! ## A path -/

theorem patchAt_field (spec : FieldSpec) (field : String) (v : Json) :
    patchAt spec [field] v =
      match v with
      | .obj es => .obj (patchField es field spec)
      | v => v := by
  cases v <;> rfl

/-- Below its first step a longer path changes one property and nothing else. -/
theorem patchAt_cons (spec : FieldSpec) (s t : String) (path : List String) {es ps : List (String × Json)}
    {node : Json} (hps : es.lookup "properties" = some (.obj ps)) (hnode : ps.lookup s = some node) :
    patchAt spec (s :: t :: path) (.obj es) =
      .obj (OrderedMap.insert "properties" (.obj (OrderedMap.insert s (patchAt spec (t :: path) node) ps)) es) := by
  rw [patchAt]
  simp only [hps, hnode]
  · simp

theorem patchAt_of_absent (spec : FieldSpec) (s : String) (path : List String) {v : Json}
    (h : child v s = none) : patchAt spec (s :: path) v = v := by
  cases v with
  | obj es =>
    cases path with
    | nil => rw [patchAt_field]; exact congrArg Json.obj (patchField_of_absent spec h)
    | cons t path =>
      rw [patchAt]
      · split
        · next ps hps =>
          have hp : ps.lookup s = none := by simpa [child, hps] using h
          simp only [hp]
        · rfl
      · simp
  | _ => cases path <;> rfl

/-- A schema with a property. -/
theorem child_eq_some {v prop : Json} {s : String} (h : child v s = some prop) :
    ∃ es ps, v = .obj es ∧ es.lookup "properties" = some (.obj ps) ∧ ps.lookup s = some prop := by
  obtain ⟨w, hw, hp⟩ := Option.bind_eq_some_iff.mp h
  cases v with
  | obj es =>
    cases w with
    | obj ps => exact ⟨es, ps, rfl, hw, hp⟩
    | _ => cases hp
  | _ => cases hw

theorem child_obj {es ps : List (String × Json)} (h : es.lookup "properties" = some (.obj ps)) (s : String) :
    child (.obj es) s = ps.lookup s := by
  rw [child, Json.get_obj, h, Option.bind_some, Json.get_obj]

section Path

variable {v : Json} (hv : v.WF) (spec : FieldSpec) (s : String) (path : List String)
include hv

/-- The property a patch goes to or through. -/
theorem child_patchAt_self :
    child (patchAt spec (s :: path) v) s =
      (child v s).bind fun prop =>
        if path = [] then if Strips spec then none else some (written spec prop)
        else some (patchAt spec path prop) := by
  cases hc : child v s with
  | none => rw [patchAt_of_absent spec s path hc, hc, Option.bind_none]
  | some prop =>
    obtain ⟨es, ps, rfl, hps, hprop⟩ := child_eq_some hc
    have hes := (Json.wf_obj.mp hv).1
    have hpsn := (Json.wf_obj.mp (Json.wf_field hv hps)).1
    rw [Option.bind_some]
    cases path with
    | nil =>
      rw [patchAt_field, if_pos rfl, child_obj (properties_patchField hes spec s hps hprop), patchedProps]
      split
      · exact OrderedMap.lookup_swapRemove_self hpsn
      · exact OrderedMap.lookup_insert_self ..
    | cons t path =>
      rw [patchAt_cons spec s t path hps hprop, if_neg (List.cons_ne_nil t path),
        child_obj (OrderedMap.lookup_insert_self ..)]
      exact OrderedMap.lookup_insert_self ..

/-- The other properties stay. -/
theorem child_patchAt_of_ne {t : String} (ht : t ≠ s) : child (patchAt spec (s :: path) v) t = child v t := by
  cases hc : child v s with
  | none => rw [patchAt_of_absent spec s path hc]
  | some prop =>
    obtain ⟨es, ps, rfl, hps, hprop⟩ := child_eq_some hc
    have hes := (Json.wf_obj.mp hv).1
    have hpsn := (Json.wf_obj.mp (Json.wf_field hv hps)).1
    cases path with
    | nil =>
      rw [patchAt_field, child_obj (properties_patchField hes spec s hps hprop), child_obj hps, patchedProps]
      split
      · exact OrderedMap.lookup_swapRemove_of_ne ht hpsn
      · exact OrderedMap.lookup_insert_of_ne ht ..
    | cons u path =>
      rw [patchAt_cons spec s u path hps hprop, child_obj (OrderedMap.lookup_insert_self ..), child_obj hps]
      exact OrderedMap.lookup_insert_of_ne ht ..

theorem required_patchAt :
    (patchAt spec (s :: path) v).get "required" =
      if path = [] ∧ (child v s).isSome then requiredBy spec s (v.get "required") else v.get "required" := by
  cases hc : child v s with
  | none => rw [patchAt_of_absent spec s path hc]; simp
  | some prop =>
    obtain ⟨es, ps, rfl, hps, hprop⟩ := child_eq_some hc
    cases path with
    | nil =>
      rw [patchAt_field, if_pos ⟨rfl, rfl⟩]
      refine (required_patchField (Json.wf_obj.mp hv).1 spec s).trans ?_
      rw [hc, Option.isSome_some, if_pos rfl]
      rfl
    | cons t path =>
      rw [patchAt_cons spec s t path hps hprop, if_neg (by simp)]
      exact OrderedMap.lookup_insert_of_ne (by decide) ..

end Path

/-- A patch at a path keeps every key but `properties` and `required`, and `properties` an object. -/
theorem patchAt_obj (spec : FieldSpec) (s : String) (path : List String) {es : List (String × Json)}
    (hv : (Json.obj es).WF) : ∃ es', patchAt spec (s :: path) (.obj es) = .obj es' ∧
    (∀ k, k ≠ "properties" → k ≠ "required" → es'.lookup k = es.lookup k) ∧
    ((∃ ps, es.lookup "properties" = some (.obj ps)) → ∃ ps, es'.lookup "properties" = some (.obj ps)) ∧
    ((∀ ps, es.lookup "properties" ≠ some (.obj ps)) → es'.lookup "properties" = es.lookup "properties") := by
  cases hc : child (.obj es) s with
  | none => exact ⟨es, patchAt_of_absent spec s path hc, fun _ _ _ => rfl, id, fun _ => rfl⟩
  | some prop =>
    obtain ⟨es', ps, he, hps, hprop⟩ := child_eq_some hc
    obtain rfl : es = es' := Json.obj.inj he
    have hes := (Json.wf_obj.mp hv).1
    cases path with
    | nil =>
      exact ⟨_, patchAt_field spec s (.obj es), fun k hp hr => lookup_patchField_of_ne hes spec s hp hr,
        fun _ => ⟨_, properties_patchField hes spec s hps hprop⟩, fun hno => absurd hps (hno ps)⟩
    | cons t path =>
      exact ⟨_, patchAt_cons spec s t path hps hprop, fun k hp _ => OrderedMap.lookup_insert_of_ne hp ..,
        fun _ => ⟨_, OrderedMap.lookup_insert_self ..⟩, fun hno => absurd hps (hno ps)⟩

/-! ## What a patch writes -/

theorem nodup_writes (spec : FieldSpec) : (OrderedMap.keys spec.writes).Nodup := by
  unfold OrderedMap.keys FieldSpec.writes
  cases spec.description <;> cases spec.exampleValue <;> cases spec.enumValues <;> cases spec.ty <;>
    cases spec.format <;> simp

theorem lookup_writes_of_ne (spec : FieldSpec) {k : String} (h : k = "properties" ∨ k = "required") :
    spec.writes.lookup k = none := by
  rw [OrderedMap.lookup_eq_none]
  unfold OrderedMap.keys FieldSpec.writes
  rcases h with rfl | rfl <;>
    cases spec.description <;> cases spec.exampleValue <;> cases spec.enumValues <;> cases spec.ty <;>
      cases spec.format <;> simp

theorem written_obj (spec : FieldSpec) (fs : List (String × Json)) : ∃ fs', written spec (.obj fs) = .obj fs' ∧
    ∀ k, fs'.lookup k = (spec.writes.lookup k).or (fs.lookup k) := by
  refine ⟨_, rfl, fun k => ?_⟩
  rw [show spec.writes.foldl (fun fs w => OrderedMap.insert w.1 w.2 fs) fs =
    OrderedMap.extend fs spec.writes from rfl, OrderedMap.lookup_extend, OrderedMap.lookup_reverse (nodup_writes spec)]

theorem written_of_ne_obj (spec : FieldSpec) {v : Json} (h : ∀ fs, v ≠ .obj fs) : written spec v = v := by
  cases v with
  | obj fs => exact absurd rfl (h fs)
  | _ => rfl

/-! ## Unique keys -/

theorem wf_child {v prop : Json} {s : String} (hv : v.WF) (h : child v s = some prop) : prop.WF := by
  obtain ⟨es, ps, rfl, hps, hprop⟩ := child_eq_some h
  exact Json.wf_field (Json.wf_field hv hps) hprop

theorem wf_writes {fs : List (String × Json)} (h : (Json.obj fs).WF) {ws : List (String × Json)}
    (hw : ∀ w ∈ ws, w.2.WF) : (Json.obj (ws.foldl (fun fs w => OrderedMap.insert w.1 w.2 fs) fs)).WF := by
  induction ws generalizing fs with
  | nil => exact h
  | cons w ws ih =>
    rw [List.forall_mem_cons] at hw
    exact ih (OrderedMap.wf_insert hw.1 h) hw.2

theorem wf_written {spec : FieldSpec} (hs : Sound spec) {v : Json} (h : v.WF) : (written spec v).WF := by
  cases v with
  | obj fs => exact wf_writes h hs
  | _ => exact h

theorem wf_setRequired {es : List (String × Json)} (h : (Json.obj es).WF) (field : String) (r : Bool) :
    (Json.obj (setRequired es field r)).WF := by
  have harr : ∀ {a : List Json}, es.lookup "required" = some (.arr a) → ∀ v ∈ a, v.WF := fun ha =>
    Json.wf_arr.mp (Json.wf_field h ha)
  unfold setRequired
  cases r with
  | true =>
    simp only [if_true]
    split
    · exact OrderedMap.wf_insert (by simp [Json.WF, Json.WFList]) h
    · next a ha =>
      split
      · exact h
      · refine OrderedMap.wf_insert (Json.wf_arr.mpr fun v hv => ?_) h
        rcases List.mem_append.mp hv with hv | hv
        · exact harr ha v hv
        · obtain rfl := List.mem_singleton.mp hv
          simp [Json.WF]
    · exact h
  | false =>
    simp only [Bool.false_eq_true, if_false]
    split
    · next a ha =>
      split
      · exact OrderedMap.wf_swapRemove _ h
      · exact OrderedMap.wf_insert (Json.wf_arr.mpr fun v hv => harr ha v (List.mem_filter.mp hv).1) h
    · exact h

theorem wf_patchField {es : List (String × Json)} (h : (Json.obj es).WF) {spec : FieldSpec} (hs : Sound spec)
    (field : String) : (Json.obj (patchField es field spec)).WF := by
  cases hc : child (.obj es) field with
  | none => rwa [patchField_of_absent spec hc]
  | some prop =>
    obtain ⟨v, hv, hprop⟩ := Option.bind_eq_some_iff.mp hc
    cases v with
    | obj ps =>
      rw [patchField_eq spec hv hprop]
      have hps : (Json.obj ps).WF := Json.wf_field h hv
      have hpatched : (Json.obj (patchedProps spec field prop ps)).WF := by
        unfold patchedProps
        split
        · exact OrderedMap.wf_swapRemove _ hps
        · exact OrderedMap.wf_insert (wf_written hs (Json.wf_field hps hprop)) hps
      have hi := OrderedMap.wf_insert (k := "properties") hpatched h
      dsimp only
      split
      · exact wf_setRequired hi field false
      · cases spec.required with
        | none => exact hi
        | some r => exact wf_setRequired hi field r
    | _ => cases hprop

/-- A patch keeps the keys unique. -/
theorem wf_patchAt {spec : FieldSpec} (hs : Sound spec) (path : List String) {v : Json} (hv : v.WF) :
    (patchAt spec path v).WF := by
  induction path generalizing v with
  | nil => exact hv
  | cons s path ih =>
    cases hc : child v s with
    | none => rwa [patchAt_of_absent spec s path hc]
    | some prop =>
      obtain ⟨es, ps, rfl, hps, hprop⟩ := child_eq_some hc
      cases path with
      | nil => exact wf_patchField hv hs s
      | cons t path =>
        rw [patchAt_cons spec s t path hps hprop]
        have hpsw := Json.wf_field hv hps
        exact OrderedMap.wf_insert (OrderedMap.wf_insert (ih (Json.wf_field hpsw hprop)) hpsw) hv

/-! ## What a patch leaves alone -/

/-- `required` of the object at a path. -/
def requiredAt (path : List String) (v : Json) : Option Json := (nodeAt path v).bind fun node => node.get "required"

theorem nodeAt_cons (s : String) (path : List String) (v : Json) :
    nodeAt (s :: path) v = (child v s).bind (nodeAt path) := rfl

theorem nodeAt_patchAt (spec : FieldSpec) {p q : List String} (hpq : ¬ p <+: q) (hqp : ¬ q <+: p) {v : Json}
    (hv : v.WF) : nodeAt p (patchAt spec q v) = nodeAt p v := by
  induction p generalizing q v with
  | nil => exact absurd (List.nil_prefix) hpq
  | cons s p ih =>
    cases q with
    | nil => exact absurd (List.nil_prefix) hqp
    | cons t q =>
      rw [nodeAt_cons, nodeAt_cons]
      by_cases hst : s = t
      · subst hst
        rw [List.cons_prefix_cons, not_and] at hpq hqp
        have hq : q ≠ [] := fun hq => hqp rfl (hq ▸ List.nil_prefix)
        rw [child_patchAt_self hv]
        cases hc : child v s with
        | none => rfl
        | some prop =>
          rw [Option.bind_some, if_neg hq, Option.bind_some, Option.bind_some]
          exact ih (hpq rfl) (hqp rfl) (wf_child hv hc)
      · rw [child_patchAt_of_ne hv spec t q hst]

theorem nodeAt_patchAt_self (spec : FieldSpec) (path : List String) (field : String) {v : Json} (hv : v.WF) :
    nodeAt (path ++ [field]) (patchAt spec (path ++ [field]) v) =
      (nodeAt (path ++ [field]) v).bind fun prop =>
        if Strips spec then none else some (written spec prop) := by
  induction path generalizing v with
  | nil =>
    rw [List.nil_append, nodeAt_cons, nodeAt_cons, child_patchAt_self hv]
    cases child v field with
    | none => rfl
    | some prop =>
      simp only [Option.bind_some, if_true]
      split <;> rfl
  | cons s path ih =>
    rw [List.cons_append, nodeAt_cons, nodeAt_cons, child_patchAt_self hv]
    cases hc : child v s with
    | none => rfl
    | some prop =>
      rw [Option.bind_some, if_neg (by simp), Option.bind_some, Option.bind_some]
      exact ih (wf_child hv hc)

/-- `required` is changed in the object that holds the field, and in those that are patched
themselves. -/
theorem requiredAt_patchAt (spec : FieldSpec) {p q : List String} (field : String)
    (hqp : ¬ q ++ [field] <+: p) {v : Json} (hv : v.WF) :
    requiredAt p (patchAt spec (q ++ [field]) v) =
      if p = q ∧ (nodeAt (q ++ [field]) v).isSome then requiredBy spec field (requiredAt p v)
      else requiredAt p v := by
  induction p generalizing q v with
  | nil =>
    show (patchAt spec (q ++ [field]) v).get "required" = _
    cases q with
    | nil =>
      rw [List.nil_append, required_patchAt hv, nodeAt_cons]
      cases child v field with
      | none => rfl
      | some prop => rfl
    | cons s q =>
      rw [List.cons_append, required_patchAt hv, if_neg (by simp), if_neg (by simp)]
      rfl
  | cons s p ih =>
    have hstep : ∀ w : Json, requiredAt (s :: p) w = (child w s).bind (requiredAt p) := fun w =>
      Option.bind_assoc (child w s) (nodeAt p) _
    rw [hstep, hstep]
    cases q with
    | nil =>
      have hne : s ≠ field := by
        rintro rfl
        exact hqp ⟨p, rfl⟩
      rw [List.nil_append, child_patchAt_of_ne hv spec field [] hne, if_neg (by simp)]
    | cons t q =>
      rw [List.cons_append] at hqp ⊢
      by_cases hst : s = t
      · subst hst
        rw [List.cons_prefix_cons, not_and] at hqp
        rw [child_patchAt_self hv, nodeAt_cons]
        cases hc : child v s with
        | none => simp
        | some prop =>
          rw [Option.bind_some, if_neg (by simp), Option.bind_some, Option.bind_some, Option.bind_some,
            ih (hqp rfl) (wf_child hv hc)]
          simp only [List.cons.injEq, true_and]
      · rw [child_patchAt_of_ne hv spec t (q ++ [field]) hst, if_neg (by simp [hst])]

end MinMcp.L4.FieldPatches
