import MinMcp.L4App.FieldPatches
import MinMcp.L4App.Vet

/-!
# The binding check and the patches

`binding_status` looks every patched field up, `apply_field_patches` patches it
(src/surface/patch.rs). A path that does not lead to a field is skipped by the one and reported
by the other. A field that is there may be skipped too: nothing is written into a schema that
is no object, and nothing is added to a `required` that is no array.

* `nodeAt_patched`, `lists_patched`: a field behind all patches is as behind its own.
* `effective_iff`: a patch of a field that is there takes effect when the field is `Patchable`.
* `bound_iff`: the check and the patches agree exactly when all fields are, or one is missing.
* `boolean_property_is_not_patched`: a field with the schema `true`.
-/
namespace MinMcp.L4.FieldPatches

open MinMcp.Core MinMcp.L4.Catalogs MinMcp.L4.Vet

/-! ## What a patch is for -/

/-- `required` names the field. -/
def lists (list : Option Json) (field : String) : Bool :=
  match list with
  | some (.arr a) => a.any fun v => v.asStr == some field
  | _ => false

/-- A `required` that is no array. -/
def malformed (list : Option Json) : Bool :=
  match list with
  | none | some (.arr _) => false
  | some _ => true

/-- No path leads to or through the field of another. -/
def PrefixFree (fields : List (String × FieldSpec)) : Prop :=
  fields.Pairwise fun f g => ¬ dottedPath f.1 <+: dottedPath g.1 ∧ ¬ dottedPath g.1 <+: dottedPath f.1

/-- The field that a patch is for was there, and it has what the patch says: it is gone, or it
has its new attributes and `required` is as it should be. -/
def Effective (before after : Json) (f : String × FieldSpec) : Prop :=
  ∃ path field, dottedPath f.1 = path ++ [field] ∧ (nodeAt (path ++ [field]) before).isSome = true ∧
    if Strips f.2 then nodeAt (path ++ [field]) after = none ∧ lists (requiredAt path after) field = false
    else
      (∀ w ∈ f.2.writes, ((nodeAt (path ++ [field]) after).bind fun prop => prop.get w.1) = some w.2) ∧
        ∀ r, f.2.required = some r → lists (requiredAt path after) field = r

/-- Attributes are for a schema that is an object, and a field becomes required in a list. -/
def Patchable (schema : Json) (f : String × FieldSpec) : Prop :=
  ∀ path field, dottedPath f.1 = path ++ [field] → Strips f.2 = false →
    (f.2.writes ≠ [] → ∃ es, nodeAt (path ++ [field]) schema = some (.obj es)) ∧
      (f.2.required = some true → malformed (requiredAt path schema) = false)

theorem fieldPathExists_eq (path : List String) (v : Json) :
    fieldPathExists path v = (!path.isEmpty && (nodeAt path v).isSome) := by
  induction path generalizing v with
  | nil => rfl
  | cons s path ih =>
    rw [nodeAt_cons]
    cases path with
    | nil =>
      show (child v s).isSome = _
      cases child v s <;> rfl
    | cons t path =>
      rw [fieldPathExists, child]
      · cases (v.get "properties").bind fun p => p.get s with
        | none => rfl
        | some n => exact ih n
      · simp

/-! ## `required` -/

theorem any_str {a : List Json} {field : String} :
    (a.any fun v => v.asStr == some field) = true ↔ Json.str field ∈ a := by
  rw [List.any_eq_true]
  constructor
  · intro ⟨v, hv, hs⟩
    cases v with
    | str s =>
      obtain rfl : s = field := by simpa [Json.asStr] using hs
      exact hv
    | _ => simp [Json.asStr] at hs
  · intro h
    exact ⟨.str field, h, by simp [Json.asStr]⟩

theorem lists_arr {a : List Json} {field : String} : lists (some (.arr a)) field = true ↔ Json.str field ∈ a :=
  any_str

theorem mem_without {a : List Json} {field other : String} :
    Json.str field ∈ (a.filter fun v => v.asStr != some other) ↔ Json.str field ∈ a ∧ field ≠ other := by
  rw [List.mem_filter]
  simp [Json.asStr]

/-- The value of `required` behind `set_required`, as a list of what it names. -/
theorem lists_toggled_iff (list : Option Json) (field other : String) (r : Bool) :
    lists (toggled other r list) field = true ↔
      if field = other then r = true ∧ malformed list = false else lists list field = true := by
  cases r with
  | true =>
    rcases list with _ | v
    · rw [toggled, if_pos rfl, lists_arr, List.mem_singleton, Json.str.injEq]
      simp [lists, malformed]
    cases v with
    | arr a =>
      simp only [toggled, if_true, any_str]
      by_cases hmem : Json.str other ∈ a
      · rw [if_pos hmem]
        by_cases he : field = other
        · subst he
          simp [lists_arr, hmem, malformed]
        · rw [if_neg he]
      · rw [if_neg hmem, lists_arr, List.mem_append, List.mem_singleton, Json.str.injEq]
        by_cases he : field = other
        · simp [he, malformed]
        · rw [if_neg he, lists_arr, or_iff_left he]
    | _ => simp [toggled, lists, malformed]
  | false =>
    rcases list with _ | v
    · simp [toggled, lists]
    cases v with
    | arr a =>
      have hmem := @mem_without a field other
      simp only [toggled, Bool.false_eq_true, if_false]
      by_cases hnil : (a.filter fun v => v.asStr != some other) = []
      · rw [hnil] at hmem ⊢
        rw [List.isEmpty_nil, if_pos rfl]
        by_cases he : field = other
        · simp [he, lists]
        · rw [if_neg he, lists_arr]
          simp only [List.not_mem_nil, false_iff, not_and, not_not] at hmem
          simp only [lists, Bool.false_eq_true, false_iff]
          exact fun h => he (hmem h)
      · rw [if_neg (by simpa using hnil), lists_arr, hmem]
        by_cases he : field = other
        · simp [he]
        · rw [if_neg he, lists_arr, and_iff_left he]
    | _ => simp [toggled, lists]

theorem lists_toggled (list : Option Json) (field : String) (r : Bool) :
    lists (toggled field r list) field = (r && !malformed list) := by
  rw [Bool.eq_iff_iff, lists_toggled_iff, if_pos rfl, Bool.and_eq_true, Bool.not_eq_true']

theorem malformed_toggled (list : Option Json) (field : String) (r : Bool) :
    malformed (toggled field r list) = malformed list := by
  unfold toggled
  cases r with
  | true =>
    rw [if_pos rfl]
    split
    · rfl
    · split <;> rfl
    · rfl
  | false =>
    rw [if_neg (by decide)]
    split
    · split <;> rfl
    · rfl

/-- A patch of one field does not say of another whether it is required. -/
theorem lists_requiredBy_of_ne {field other : String} (h : field ≠ other) (spec : FieldSpec)
    (list : Option Json) : lists (requiredBy spec other list) field = lists list field := by
  have htoggled : ∀ r, lists (toggled other r list) field = lists list field := by
    intro r
    rw [Bool.eq_iff_iff, lists_toggled_iff, if_neg h]
  unfold requiredBy
  split
  · exact htoggled false
  · split
    · exact htoggled _
    · rfl

theorem malformed_requiredBy (spec : FieldSpec) (field : String) (list : Option Json) :
    malformed (requiredBy spec field list) = malformed list := by
  unfold requiredBy
  split
  · exact malformed_toggled list field false
  · split
    · exact malformed_toggled list field _
    · rfl

/-! ## All patches -/

theorem wf_applyFieldPatches {fields : List (String × FieldSpec)} (hs : ∀ f ∈ fields, Sound f.2) {v : Json}
    (hv : v.WF) : (applyFieldPatches v fields).WF := by
  unfold applyFieldPatches
  induction fields generalizing v with
  | nil => exact hv
  | cons f fields ih =>
    rw [List.forall_mem_cons] at hs
    exact ih hs.2 (wf_patchAt hs.1 _ hv)

/-- Patches of other fields leave a field as it is, and what `required` says of it. -/
theorem others_leave {fields : List (String × FieldSpec)} (hs : ∀ f ∈ fields, Sound f.2) {path : List String}
    {field : String}
    (hfree : ∀ f ∈ fields, ¬ path ++ [field] <+: dottedPath f.1 ∧ ¬ dottedPath f.1 <+: path ++ [field])
    {v : Json} (hv : v.WF) :
    nodeAt (path ++ [field]) (applyFieldPatches v fields) = nodeAt (path ++ [field]) v ∧
      lists (requiredAt path (applyFieldPatches v fields)) field = lists (requiredAt path v) field ∧
        malformed (requiredAt path (applyFieldPatches v fields)) = malformed (requiredAt path v) := by
  unfold applyFieldPatches
  induction fields generalizing v with
  | nil => exact ⟨rfl, rfl, rfl⟩
  | cons f fields ih =>
    rw [List.forall_mem_cons] at hs hfree
    obtain ⟨hpq, hqp⟩ := hfree.1
    have hstep : lists (requiredAt path (patchAt f.2 (dottedPath f.1) v)) field =
        lists (requiredAt path v) field ∧
          malformed (requiredAt path (patchAt f.2 (dottedPath f.1) v)) = malformed (requiredAt path v) := by
      rcases List.eq_nil_or_concat (dottedPath f.1) with hnil | ⟨q, other, hq⟩
      · exact absurd (hnil ▸ List.nil_prefix) hqp
      · rw [List.concat_eq_append] at hq
        rw [hq] at hpq hqp ⊢
        have hcontainer : ¬ q ++ [other] <+: path := fun h => hqp (h.trans (List.prefix_append path [field]))
        rw [requiredAt_patchAt f.2 other hcontainer hv]
        split
        · next h =>
          have hne : field ≠ other := by
            rintro rfl
            rw [h.1] at hpq
            exact hpq (List.prefix_refl _)
          exact ⟨lists_requiredBy_of_ne hne f.2 _, malformed_requiredBy f.2 other _⟩
        · exact ⟨rfl, rfl⟩
    obtain ⟨hnode, hlists, hmal⟩ := ih hs.2 hfree.2 (wf_patchAt hs.1 (dottedPath f.1) hv)
    exact ⟨hnode.trans (nodeAt_patchAt f.2 hpq hqp hv), hlists.trans hstep.1, hmal.trans hstep.2⟩

/-- Behind all patches a field is as behind its own. -/
theorem own_patch {before after : List (String × FieldSpec)} {f : String × FieldSpec}
    (hs : ∀ g ∈ before ++ f :: after, Sound g.2) (hfree : PrefixFree (before ++ f :: after))
    {path : List String} {field : String} (hp : dottedPath f.1 = path ++ [field]) {v : Json} (hv : v.WF) :
    nodeAt (path ++ [field]) (applyFieldPatches v (before ++ f :: after)) =
        ((nodeAt (path ++ [field]) v).bind fun prop =>
          if Strips f.2 then none else some (written f.2 prop)) ∧
      ((nodeAt (path ++ [field]) v).isSome = true →
        lists (requiredAt path (applyFieldPatches v (before ++ f :: after))) field =
            lists (requiredBy f.2 field (requiredAt path (applyFieldPatches v before))) field ∧
          lists (requiredAt path (applyFieldPatches v before)) field = lists (requiredAt path v) field ∧
            malformed (requiredAt path (applyFieldPatches v before)) = malformed (requiredAt path v)) := by
  have hbefore : ∀ g ∈ before, Sound g.2 := fun g hg => hs g (List.mem_append_left _ hg)
  have hafter : ∀ g ∈ after, Sound g.2 := fun g hg =>
    hs g (List.mem_append_right before (List.mem_cons_of_mem f hg))
  have hself : Sound f.2 := hs f (List.mem_append_right before List.mem_cons_self)
  obtain ⟨-, hrest, hfree⟩ := List.pairwise_append.mp hfree
  rw [List.pairwise_cons] at hrest
  have hv₁ := wf_applyFieldPatches hbefore hv
  have hb : ∀ g ∈ before, ¬ path ++ [field] <+: dottedPath g.1 ∧ ¬ dottedPath g.1 <+: path ++ [field] :=
    fun g hg => hp ▸ (hfree g hg f List.mem_cons_self).symm
  have ha : ∀ g ∈ after, ¬ path ++ [field] <+: dottedPath g.1 ∧ ¬ dottedPath g.1 <+: path ++ [field] :=
    fun g hg => hp ▸ hrest.1 g hg
  obtain ⟨hn₁, hl₁, hm₁⟩ := others_leave hbefore hb hv
  have hn₂ := nodeAt_patchAt_self f.2 path field hv₁
  obtain ⟨hn₃, hl₃, -⟩ := others_leave hafter ha (wf_patchAt hself (path ++ [field]) hv₁)
  have hrun : applyFieldPatches v (before ++ f :: after) =
      applyFieldPatches (patchAt f.2 (path ++ [field]) (applyFieldPatches v before)) after := by
    unfold applyFieldPatches
    rw [List.foldl_append, List.foldl_cons, hp]
  have hcontainer : ¬ path ++ [field] <+: path := by
    intro h
    have := h.length_le
    rw [List.length_append, List.length_singleton] at this
    omega
  rw [hrun, hn₃, hl₃, hn₂, hn₁]
  refine ⟨rfl, fun hthere => ⟨?_, hl₁, hm₁⟩⟩
  rw [requiredAt_patchAt f.2 field hcontainer hv₁, hn₁, if_pos ⟨rfl, hthere⟩]

/-- What the patch writes is there, if the schema is an object. -/
theorem get_written (spec : FieldSpec) (fs : List (String × Json)) {w : String × Json} (hw : w ∈ spec.writes) :
    (written spec (.obj fs)).get w.1 = some w.2 := by
  obtain ⟨fs', hfs, hl⟩ := written_obj spec fs
  rw [hfs, Json.get_obj, hl, OrderedMap.lookup_of_mem (nodup_writes spec) hw, Option.some_or]

/-- **When a patch takes effect.** Of a field that is there. -/
theorem effective_iff {before after : List (String × FieldSpec)} {f : String × FieldSpec}
    (hs : ∀ g ∈ before ++ f :: after, Sound g.2) (hfree : PrefixFree (before ++ f :: after)) {v : Json}
    (hv : v.WF) (hthere : fieldPathExists (dottedPath f.1) v = true) :
    Effective v (applyFieldPatches v (before ++ f :: after)) f ↔ Patchable v f := by
  rw [fieldPathExists_eq, Bool.and_eq_true, Bool.not_eq_true', List.isEmpty_eq_false_iff] at hthere
  obtain ⟨path, field, hp⟩ := (List.eq_nil_or_concat (dottedPath f.1)).resolve_left hthere.1
  rw [List.concat_eq_append] at hp
  rw [hp] at hthere
  obtain ⟨prop, hprop⟩ := Option.isSome_iff_exists.mp hthere.2
  obtain ⟨hnode, hlists⟩ := own_patch hs hfree hp hv
  obtain ⟨hl, -, hm⟩ := hlists hthere.2
  rw [hprop, Option.bind_some] at hnode
  have huniq : ∀ {path' : List String} {field' : String}, dottedPath f.1 = path' ++ [field'] →
      path' = path ∧ field' = field := by
    intro path' field' h
    obtain ⟨h₁, h₂⟩ := List.append_inj' (h.symm.trans hp) rfl
    exact ⟨h₁, List.singleton_inj.mp h₂⟩
  constructor
  · intro heff path₁ field₁ hp₁ hstays
    obtain ⟨path₂, field₂, hp₂, -, heff⟩ := heff
    obtain ⟨rfl, rfl⟩ := huniq hp₁
    obtain ⟨rfl, rfl⟩ := huniq hp₂
    rw [if_neg (by simp [hstays])] at hnode heff
    rw [hnode] at heff
    refine ⟨fun hw => ?_, fun hr => ?_⟩
    · obtain ⟨w, hw⟩ := List.exists_mem_of_ne_nil _ hw
      have := heff.1 w hw
      cases prop with
      | obj es => exact ⟨es, hprop⟩
      | _ => cases this
    · have := heff.2 true hr
      rw [hl, requiredBy, if_neg (by simp [hstays]), hr, lists_toggled, hm] at this
      simpa using this
  · intro hpatch
    refine ⟨path, field, hp, hthere.2, ?_⟩
    rw [hnode, hl, requiredBy]
    by_cases hstays : Strips f.2 = true
    · rw [if_pos hstays, if_pos hstays, if_pos hstays, lists_toggled]
      exact ⟨rfl, rfl⟩
    · rw [if_neg hstays, if_neg hstays, if_neg hstays]
      obtain ⟨hobj, hlist⟩ := hpatch path field hp (by simpa using hstays)
      refine ⟨fun w hw => ?_, fun r hr => ?_⟩
      · obtain ⟨es, hes⟩ := hobj (List.ne_nil_of_mem hw)
        obtain rfl := Option.some.inj (hprop.symm.trans hes)
        exact get_written f.2 es hw
      · rw [hr]
        simp only [lists_toggled, hm]
        cases r with
        | false => rfl
        | true => rw [hlist hr]; rfl

/-! ## The check -/

theorem bound_iff_exist {o : Overlay} {resolved : Json} :
    brokenReasons o (some resolved) = [] ↔ ∀ f ∈ o.fields, fieldPathExists (dottedPath f.1) resolved = true := by
  simp [brokenReasons]

/-- **When the check and the patches agree.** On a schema and a map of fields of which no path
leads to or through another: a field is missing, or every patch is one that can be made. -/
theorem bound_iff {o : Overlay} {resolved : Json} (hv : resolved.WF) (hs : ∀ f ∈ o.fields, Sound f.2)
    (hfree : PrefixFree o.fields) :
    (brokenReasons o (some resolved) = [] ↔
        ∀ f ∈ o.fields, Effective resolved (applyFieldPatches resolved o.fields) f) ↔
      ((∃ f ∈ o.fields, fieldPathExists (dottedPath f.1) resolved = false) ∨
        ∀ f ∈ o.fields, Patchable resolved f) := by
  have hone : ∀ f ∈ o.fields, fieldPathExists (dottedPath f.1) resolved = true →
      (Effective resolved (applyFieldPatches resolved o.fields) f ↔ Patchable resolved f) := by
    intro f hf hthere
    obtain ⟨before, after, hsplit⟩ := List.append_of_mem hf
    rw [hsplit] at hs hfree ⊢
    exact effective_iff hs hfree hv hthere
  have hback : (∀ f ∈ o.fields, Effective resolved (applyFieldPatches resolved o.fields) f) →
      ∀ f ∈ o.fields, fieldPathExists (dottedPath f.1) resolved = true := by
    intro h f hf
    obtain ⟨path, field, hp, hthere, -⟩ := h f hf
    rw [fieldPathExists_eq, hp, hthere]
    simp
  rw [bound_iff_exist]
  by_cases hall : ∀ f ∈ o.fields, fieldPathExists (dottedPath f.1) resolved = true
  · have hnone : ¬ ∃ f ∈ o.fields, fieldPathExists (dottedPath f.1) resolved = false := by
      intro ⟨f, hf, hmiss⟩
      rw [hall f hf] at hmiss
      cases hmiss
    rw [iff_true_left hall, or_iff_right hnone]
    exact forall_congr' fun f => forall_congr' fun hf => hone f hf (hall f hf)
  · have hsome : ∃ f ∈ o.fields, fieldPathExists (dottedPath f.1) resolved = false := by
      simpa using hall
    rw [iff_false_left hall]
    exact iff_of_true (fun h => hall (hback h)) (Or.inl hsome)

/-! ## A field with the schema `true` -/

def anyNote : Json :=
  .obj [("type", .str "object"), ("properties", .obj [("note", .bool true), ("title", .obj [])])]

def describe (field text : String) : String × FieldSpec :=
  (field, ⟨some text, none, none, none, none, none, none, none⟩)

theorem sound_describe (field text : String) : Sound (describe field text).2 := by
  intro w hw
  obtain rfl : w = ("description", .str text) := by simpa [describe, FieldSpec.writes] using hw
  simp [Json.WF]

def overlayOf (fields : List (String × FieldSpec)) : Overlay :=
  { tool := "notes.add", binding := none, description := none, fields := fields, headers := [] }

/-- The field is found, its description is written nowhere, and the binding is in order. -/
theorem boolean_property_is_not_patched :
    let o := overlayOf [describe "note" "What to write down."]
    anyNote.WF ∧ PrefixFree o.fields ∧ brokenReasons o (some anyNote) = [] ∧
      applyFieldPatches anyNote o.fields = anyNote ∧
        ¬ ∀ f ∈ o.fields, Effective anyNote (applyFieldPatches anyNote o.fields) f := by
  have hpath : dottedPath "note" = [] ++ ["note"] := by decide
  have hfree : PrefixFree [describe "note" "What to write down."] := List.pairwise_singleton ..
  have hwf : anyNote.WF := by simp [anyNote, Json.WF, Json.WFEntries]
  refine ⟨hwf, hfree, by decide +kernel, by decide +kernel, fun h => ?_⟩
  have hpatch := (@effective_iff [] [] _ (by simp [sound_describe]) hfree _ hwf (by decide +kernel)).mp
    (h _ List.mem_cons_self)
  obtain ⟨es, hes⟩ := (hpatch [] "note" hpath rfl).1 (by simp [describe, FieldSpec.writes])
  have hbool : nodeAt ([] ++ ["note"]) anyNote = some (.bool true) := by decide +kernel
  rw [hbool] at hes
  cases hes

/-- The field beside it is described. -/
theorem bound_iff_title :
    let o := overlayOf [describe "title" "The title."]
    brokenReasons o (some anyNote) = [] ↔
      ∀ f ∈ o.fields, Effective anyNote (applyFieldPatches anyNote o.fields) f := by
  intro o
  have hfree : PrefixFree o.fields := List.pairwise_singleton ..
  refine (bound_iff (by simp [anyNote, Json.WF, Json.WFEntries]) ?_ hfree).mpr (Or.inr ?_)
  · intro f hf
    obtain rfl := List.mem_singleton.mp hf
    exact sound_describe "title" "The title."
  · intro f hf path field hp _
    obtain rfl := List.mem_singleton.mp hf
    obtain ⟨rfl, hfield⟩ := List.append_inj' (hp.symm.trans (show dottedPath "title" = [] ++ ["title"] by decide)) rfl
    obtain rfl := List.singleton_inj.mp hfield
    exact ⟨fun _ => ⟨[], by decide +kernel⟩, nofun⟩

end MinMcp.L4.FieldPatches
