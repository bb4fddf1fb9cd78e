import MinMcp.Core.Json.Places
import MinMcp.Core.Json.Update

/-!
# The same value

`v.Same w` says that two values without repeated keys are equal up to the order of their keys.

* `Same.symm`, `Same.trans`: it is an equivalence of the values without repeated keys.
* `same_obj`: objects are the same key by key.
-/
namespace MinMcp.Core.Json

def Same (v w : Json) : Prop := v.WF ∧ w.WF ∧ v.eqv w = true

/-- Both are absent, or both are there and the same. -/
abbrev SameOpt : Option Json → Option Json → Prop := Option.Rel Same

variable {u v w : Json} {o o' o'' : Option Json}

theorem same_refl (h : v.WF) : v.Same v := ⟨h, h, eqv_refl h⟩

theorem Same.symm (h : v.Same w) : w.Same v := by
  obtain ⟨hv, hw, h⟩ := h
  exact ⟨hw, hv, (eqv_iff_below hw hv).mpr ((eqv_iff_below hv hw).mp h).symm⟩

theorem Same.trans (h : u.Same v) (h' : v.Same w) : u.Same w := by
  obtain ⟨hu, hv, h⟩ := h
  obtain ⟨-, hw, h'⟩ := h'
  rw [eqv_iff_below hu hv] at h
  rw [eqv_iff_below hv hw] at h'
  exact ⟨hu, hw, (eqv_iff_below hu hw).mpr ⟨h.1.trans h'.1, h'.2.trans h.2⟩⟩

theorem sameOpt_refl (h : ∀ v, o = some v → v.WF) : SameOpt o o := by
  cases o with
  | none => exact .none
  | some v => exact .some (same_refl (h v rfl))

theorem SameOpt.symm (h : SameOpt o o') : SameOpt o' o := by
  cases h with
  | some h => exact .some h.symm
  | none => exact .none

theorem SameOpt.trans (h : SameOpt o o') (h' : SameOpt o' o'') : SameOpt o o'' := by
  cases h with
  | none => exact h'
  | some h =>
    cases h' with
    | some h' => exact .some (h.trans h')

theorem SameOpt.wf (h : SameOpt (some v) o) : v.WF := by
  cases h with
  | some h => exact h.1

theorem same_obj {es fs : List (String × Json)} : (obj es).Same (obj fs) ↔ (OrderedMap.keys es).Nodup ∧
    (OrderedMap.keys fs).Nodup ∧ ∀ k, SameOpt (es.lookup k) (fs.lookup k) := by
  constructor
  · intro ⟨hv, hw, h⟩
    have he := (wf_obj.mp hv).1
    have hf := (wf_obj.mp hw).1
    refine ⟨he, hf, fun k => ?_⟩
    have hk := (eqv_obj_iff he hf).mp h k
    generalize hl : es.lookup k = o, hr : fs.lookup k = o' at hk
    cases hk with
    | some hab => exact .some ⟨wf_field hv hl, wf_field hw hr, hab⟩
    | none => exact .none
  · intro ⟨he, hf, h⟩
    refine ⟨wf_obj.mpr ⟨he, fun e hmem => ?_⟩, wf_obj.mpr ⟨hf, fun e hmem => ?_⟩,
      (eqv_obj_iff he hf).mpr fun k => ?_⟩
    · have hk := h e.1
      rw [OrderedMap.lookup_of_mem he hmem] at hk
      exact hk.wf
    · have hk := (h e.1).symm
      rw [OrderedMap.lookup_of_mem hf hmem] at hk
      exact hk.wf
    · have hk := h k
      generalize es.lookup k = o, fs.lookup k = o' at hk
      cases hk with
      | some hab => exact .some hab.2.2
      | none => exact .none

theorem same_arr {xs ys : List Json} : (arr xs).Same (arr ys) ↔ ∀ i : Nat, SameOpt xs[i]? ys[i]? := by
  constructor
  · intro ⟨hv, hw, h⟩ i
    have hi := eqvList_iff_getElem?.mp h i
    generalize hl : xs[i]? = o, hr : ys[i]? = o' at hi
    cases hi with
    | some hab =>
      exact .some ⟨wf_arr.mp hv _ (List.mem_of_getElem? hl), wf_arr.mp hw _ (List.mem_of_getElem? hr), hab⟩
    | none => exact .none
  · intro h
    refine ⟨wf_arr.mpr fun v hv => ?_, wf_arr.mpr fun v hv => ?_, eqvList_iff_getElem?.mpr fun i => ?_⟩
    · obtain ⟨i, hi⟩ := List.mem_iff_getElem?.mp hv
      exact (hi ▸ h i).wf
    · obtain ⟨i, hi⟩ := List.mem_iff_getElem?.mp hv
      exact (hi ▸ (h i).symm).wf
    · have hi := h i
      generalize xs[i]? = o, ys[i]? = o' at hi
      cases hi with
      | some hab => exact .some hab.2.2
      | none => exact .none

theorem Same.lookup {es fs : List (String × Json)} (h : (obj es).Same (obj fs)) (k : String) :
    SameOpt (es.lookup k) (fs.lookup k) := (same_obj.mp h).2.2 k

theorem wf_empty : (obj []).WF := wf_obj.mpr ⟨List.nodup_nil, fun _ h => nomatch h⟩

/-- An object is the same as objects only. -/
theorem Same.obj_cases (h : v.Same w) :
    (∃ es fs, v = obj es ∧ w = obj fs) ∨ ((∀ es, v ≠ obj es) ∧ ∀ fs, w ≠ obj fs) := eqv_ne_obj h.2.2

end MinMcp.Core.Json
