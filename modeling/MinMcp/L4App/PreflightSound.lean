import MinMcp.Core.Json.Schema
import MinMcp.L4App.Preflight

/-!
# What the pre-flight check refuses

The pre-flight walk is meant to be permissive: it "must never reject a call the
upstream accepts". Against the validation semantics of `Core.Json.Schema` it keeps to
that but in two kinds of property, reached from the root through object-typed
properties that the call sends:

* `UnseenNull`: a required property sent as `null`, whose schema admits `null` in a way
  `null_allowed` does not look for: no `type` at all, a branch of `anyOf` or `oneOf`,
  or the `type` `"null"` itself. The branches are set aside only after that check.
* `Respelled`: an `enum` member sent in another spelling of the same value, which
  `enum_value_matches` unifies for numbers inside the float range only: not inside an
  array or object, and not beyond that range.

`Overstrict` collects them. `walk_isSome` says when the walk refuses, without
recursion over the property list; from it `walk_isSome_of_overstrict` and, for a
valid call, `overstrict_of_walk`.
-/
namespace MinMcp.L4.Preflight

open MinMcp.Core

/-! ## When the walk refuses -/

/-- A property's error cannot fail to be built. -/
theorem structuredFieldError_isSome {container : Json} {ps : List (String × Json)}
    {e : String × Json} (hp : container.get "properties" = some (.obj ps)) (he : e ∈ ps)
    (display reason : String) : (structuredFieldError container e.1 display reason).isSome := by
  obtain ⟨p, hl⟩ := OrderedMap.lookup_isSome.mpr (List.mem_map_of_mem he)
  simp [structuredFieldError, hp, hl]

/-- The check on one property of the list, before its nested properties. -/
theorem checkProperty_isSome {container args : Json} {ps : List (String × Json)}
    {e : String × Json} (hp : container.get "properties" = some (.obj ps)) (he : e ∈ ps)
    (pre : String) : (checkProperty container args pre e.1 e.2).isSome ↔
      (e.1 ∈ requiredNames container ∧ args.get e.1 = none) ∨
      (e.1 ∈ requiredNames container ∧ args.get e.1 = some .null ∧ nullAllowed e.2 = false) ∨
      ∃ v en, args.get e.1 = some v ∧ v.isNull = false ∧ hasBranches e.2 = false ∧
        e.2.get "enum" = some (.arr en) ∧ ∀ x ∈ en, enumValueMatches x v = false := by
  have herr := structuredFieldError_isSome hp he
  unfold checkProperty
  cases hg : args.get e.1 with
  | none => by_cases hr : e.1 ∈ requiredNames container <;> simp [hr, herr]
  | some v =>
    cases hn : v.isNull with
    | true =>
      have hv : v = .null := by cases v <;> simp_all [Json.isNull]
      subst hv
      by_cases hr : e.1 ∈ requiredNames container <;> cases ha : nullAllowed e.2 <;>
        simp [hr, hn, herr]
    | false =>
      have hv : v ≠ .null := by rintro rfl; cases hn
      cases hb : hasBranches e.2 with
      | true => simp [hn, hv]
      | false =>
        cases hen : e.2.get "enum" with
        | none => simp [hn, hv]
        | some en =>
          cases en with
          | arr en =>
            cases hm : en.any fun x => enumValueMatches x v with
            | true =>
              obtain ⟨x, hx, hxm⟩ := List.any_eq_true.mp hm
              simpa [hn, hb, hen, hv, Json.asArray, hm] using ⟨x, hx, hxm⟩
            | false =>
              have hall := List.any_eq_false.mp hm
              simpa [hn, hb, hen, hv, Json.asArray, hm, herr] using hall
          | _ => simp [hn, hv, Json.asArray]

theorem walkProps_isSome (container args : Json) (pre : String) (ps : List (String × Json)) :
    (walkProps container ps args pre).isSome ↔ ∃ e ∈ ps,
      (checkProperty container args pre e.1 e.2).isSome ∨
        ∃ v, descends args e.1 e.2 = some v ∧ (walk e.2 v (fieldPath pre e.1)).isSome := by
  induction ps with
  | nil => simp [walkProps]
  | cons e ps ih =>
    rw [walkProps, List.exists_mem_cons_iff, ← ih]
    cases checkProperty container args pre e.1 e.2 with
    | some err => simp
    | none =>
      cases descends args e.1 e.2 with
      | none => simp
      | some v => cases hw : walk e.2 v (fieldPath pre e.1) <;> simp [hw]

/-- The walk refuses when one property is refused, or the walk over one property's own
properties refuses. -/
theorem walk_isSome (container args : Json) (pre : String) :
    (walk container args pre).isSome ↔ ∃ ps, container.get "properties" = some (.obj ps) ∧
      ∃ e ∈ ps, (checkProperty container args pre e.1 e.2).isSome ∨
        ∃ v, descends args e.1 e.2 = some v ∧ (walk e.2 v (fieldPath pre e.1)).isSome := by
  rw [walk_eq]
  cases container.get "properties" with
  | none => simp
  | some props =>
    cases props with
    | obj ps => simp [Json.asObject, walkProps_isSome]
    | _ => simp [Json.asObject]

theorem descends_eq_some {args v : Json} {name : String} {p : Json} :
    descends args name p = some v ↔ args.get name = some v ∧ v.isNull = false ∧
      hasBranches p = false ∧ p.get "type" = some (.str "object") := by
  have hty : (p.get "type").bind Json.asStr = some "object" ↔ p.get "type" = some (.str "object") := by
    cases p.get "type" with
    | none => simp
    | some t => cases t <;> simp [Json.asStr]
  unfold descends
  cases args.get name with
  | none => simp
  | some w => cases hn : w.isNull <;> cases hb : hasBranches p <;> simp [hty] <;> grind

/-! ## The two over-strict checks -/

/-- The schema admits `null`, but not in a way `null_allowed` looks for. -/
def UnseenNull (pschema : Json) : Prop := pschema.valid .null = true ∧ nullAllowed pschema = false

/-- The value is a member of the `enum`, but is written like none of them. -/
def Respelled (pschema v : Json) : Prop :=
  hasBranches pschema = false ∧ ∃ en, pschema.get "enum" = some (.arr en) ∧
    (∃ x ∈ en, x.sameValue v = true) ∧ ∀ x ∈ en, enumValueMatches x v = false

/-- Some property of the call, at the root or inside an object-typed property, is a
required `UnseenNull` or `Respelled`. -/
inductive Overstrict : (container args : Json) → Prop
  | null {container args : Json} {ps : List (String × Json)} {e : String × Json}
      (hp : container.get "properties" = some (.obj ps)) (he : e ∈ ps)
      (hr : e.1 ∈ requiredNames container) (hv : args.get e.1 = some .null) (hn : UnseenNull e.2) :
      Overstrict container args
  | enum {container args v : Json} {ps : List (String × Json)} {e : String × Json}
      (hp : container.get "properties" = some (.obj ps)) (he : e ∈ ps)
      (hv : args.get e.1 = some v) (hn : v.isNull = false) (hs : Respelled e.2 v) :
      Overstrict container args
  | nested {container args v : Json} {ps : List (String × Json)} {e : String × Json}
      (hp : container.get "properties" = some (.obj ps)) (he : e ∈ ps)
      (hv : descends args e.1 e.2 = some v) (hin : Overstrict e.2 v) :
      Overstrict container args

theorem walk_isSome_of_overstrict {container args : Json} (h : Overstrict container args)
    (pre : String) : (walk container args pre).isSome := by
  induction h generalizing pre with
  | null hp he hr hv hn =>
    refine (walk_isSome _ _ _).mpr ⟨_, hp, _, he, Or.inl ?_⟩
    exact (checkProperty_isSome hp he pre).mpr (Or.inr (Or.inl ⟨hr, hv, hn.2⟩))
  | enum hp he hv hn hs =>
    obtain ⟨hb, en, hen, -, hm⟩ := hs
    refine (walk_isSome _ _ _).mpr ⟨_, hp, _, he, Or.inl ?_⟩
    exact (checkProperty_isSome hp he pre).mpr (Or.inr (Or.inr ⟨_, en, hv, hn, hb, hen, hm⟩))
  | nested hp he hv hin ih =>
    exact (walk_isSome _ _ _).mpr ⟨_, hp, _, he, Or.inr ⟨_, hv, ih _⟩⟩

/-- A valid call is refused only for an over-strict check. -/
theorem overstrict_of_walk {container : Json} {as : List (String × Json)} {pre : String}
    (hv : container.valid (.obj as) = true) (h : (walk container (.obj as) pre).isSome) :
    Overstrict container (.obj as) := by
  induction container using Json.properties_ind generalizing as pre with
  | step container ih =>
    obtain ⟨ps, hp, e, he, hwhy⟩ := (walk_isSome _ _ _).mp h
    rcases hwhy with hc | ⟨v, hd, hw⟩
    · rcases (checkProperty_isSome hp he pre).mp hc with ⟨hr, hg⟩ | ⟨hr, hg, hn⟩ | ⟨v, en, hg, hn, hb, hen, hm⟩
      · -- a missing required property is invalid
        obtain ⟨ns, hns, hmem⟩ : ∃ ns, container.get "required" = some (.arr ns) ∧
            e.1 ∈ ns.filterMap Json.asStr := by
          unfold requiredNames at hr
          cases hq : container.get "required" with
          | none => simp [hq] at hr
          | some q =>
            cases q with
            | arr ns => exact ⟨ns, rfl, by simpa [hq, Json.asArray] using hr⟩
            | _ => simp [hq, Json.asArray] at hr
        obtain ⟨w, hw⟩ := Json.present_of_required hv hns hmem
        rw [Json.get_obj, hw] at hg
        cases hg
      · exact .null hp he hr hg ⟨Json.valid_of_property hv hp he hg, hn⟩
      · have hval : e.2.valid v = true := Json.valid_of_property hv hp he hg
        exact .enum hp he hg hn ⟨hb, en, hen, Json.member_of_enum hval hen, hm⟩
    · obtain ⟨hg, hn, -, hty⟩ := descends_eq_some.mp hd
      have hval : e.2.valid v = true := Json.valid_of_property hv hp he hg
      obtain ⟨as', rfl⟩ := Json.object_of_type hval hty hn
      exact .nested hp he hd (ih ps hp e he hval hw)

/-! ## The check against the schema -/

/-- The check is sound on a call exactly when the call is invalid anyway or no
over-strict check meets it. -/
theorem preflightError_sound_iff (schema : Json) (as : List (String × Json)) :
    ((preflightError schema (.obj as)).isSome → schema.valid (.obj as) = false) ↔
      (schema.valid (.obj as) = true → ¬ Overstrict schema (.obj as)) := by
  constructor
  · intro hsound hv hover
    have := hsound (walk_isSome_of_overstrict hover "")
    rw [hv] at this
    cases this
  · intro hfree herr
    by_contra hne
    have hv : schema.valid (.obj as) = true := by simpa using hne
    exact hfree hv (overstrict_of_walk hv herr)

/-- A required property whose schema offers `null` as a branch of `anyOf`. -/
def optionalNote : Json :=
  .obj [("type", .str "object"), ("required", .arr [.str "note"]),
    ("properties", .obj [("note", .obj [("anyOf", .arr [.obj [("type", .str "string")],
      .obj [("type", .str "null")]])])])]

theorem optionalNote_refused :
    ¬ ((preflightError optionalNote (.obj [("note", .null)])).isSome →
      optionalNote.valid (.obj [("note", .null)]) = false) := by
  decide +kernel

end MinMcp.L4.Preflight
