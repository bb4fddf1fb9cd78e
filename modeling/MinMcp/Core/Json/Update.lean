import MinMcp.Core.Json.Value
import Mathlib.Data.List.Infix

/-!
# Reading and writing at a key path

`getAt v p` follows the keys `p` through nested objects. `put v p x` writes `x`
there, creating the objects that are missing; a value that is in the way and is
no object stops it, and `v` stays as it was. `Placeable v p` says that nothing is
in the way.

* `getAt_put_append`: a placed value is found again, at the path and below it.
* `getAt_put_of_incomparable`: paths neither of which is a prefix of the other do
  not disturb each other.
* `placeable_put`, `not_placeable_put`: what a write does to the other paths.
-/
namespace MinMcp.Core.Json

def getAt : Json → List String → Option Json
  | v, [] => some v
  | .obj es, k :: ks => (es.lookup k).bind fun c => c.getAt ks
  | _, _ :: _ => none

/-- The child the write descends into: the one under `k`, or a new object. -/
def childAt (es : List (String × Json)) (k : String) : Json := (es.lookup k).getD (.obj [])

def put : Json → List String → Json → Json
  | _, [], x => x
  | .obj es, k :: ks, x => .obj (OrderedMap.insert k ((childAt es k).put ks x) es)
  | v, _ :: _, _ => v

def Placeable : Json → List String → Prop
  | _, [] => True
  | .obj es, k :: ks => (childAt es k).Placeable ks
  | _, _ :: _ => False

def decPlaceable : (v : Json) → (p : List String) → Decidable (v.Placeable p)
  | _, [] => isTrue (by simp [Placeable])
  | .obj es, k :: ks => decPlaceable (childAt es k) ks
  | .null, _ :: _ | .bool _, _ :: _ | .num _, _ :: _ | .str _, _ :: _ | .arr _, _ :: _ =>
    isFalse (by simp [Placeable])

instance (v : Json) (p : List String) : Decidable (v.Placeable p) := decPlaceable v p

@[simp] theorem getAt_nil (v : Json) : v.getAt [] = some v := by cases v <;> rfl

@[simp] theorem getAt_obj (es : List (String × Json)) (k : String) (ks : List String) :
    (Json.obj es).getAt (k :: ks) = (es.lookup k).bind fun c => c.getAt ks := rfl

@[simp] theorem put_nil (v x : Json) : v.put [] x = x := by cases v <;> rfl

@[simp] theorem put_obj (es : List (String × Json)) (k : String) (ks : List String) (x : Json) :
    (Json.obj es).put (k :: ks) x =
      .obj (OrderedMap.insert k ((childAt es k).put ks x) es) := rfl

@[simp] theorem placeable_nil (v : Json) : v.Placeable [] := by cases v <;> trivial

@[simp] theorem placeable_obj (es : List (String × Json)) (k : String) (ks : List String) :
    (Json.obj es).Placeable (k :: ks) ↔ (childAt es k).Placeable ks := Iff.rfl

theorem placeable_empty (p : List String) : (Json.obj []).Placeable p := by
  induction p with
  | nil => simp
  | cons k ks ih => exact ih

theorem asObject_cases (v : Json) : (∃ es, v = .obj es) ∨ ∀ es, v ≠ .obj es := by
  cases v <;> simp

theorem getAt_of_ne_obj {v : Json} (h : ∀ es, v ≠ .obj es) (k : String) (ks : List String) :
    v.getAt (k :: ks) = none := by
  cases v with
  | obj es => exact absurd rfl (h es)
  | _ => rfl

theorem put_of_ne_obj {v : Json} (h : ∀ es, v ≠ .obj es) (k : String) (ks : List String) (x : Json) :
    v.put (k :: ks) x = v := by
  cases v with
  | obj es => exact absurd rfl (h es)
  | _ => rfl

theorem not_placeable_of_ne_obj {v : Json} (h : ∀ es, v ≠ .obj es) (k : String) (ks : List String) :
    ¬ v.Placeable (k :: ks) := by
  cases v with
  | obj es => exact absurd rfl (h es)
  | _ => exact id

/-- A path that leads somewhere is placeable. -/
theorem placeable_of_getAt {v w : Json} {p : List String} (h : v.getAt p = some w) :
    v.Placeable p := by
  induction p generalizing v with
  | nil => simp
  | cons k ks ih =>
    rcases asObject_cases v with ⟨es, rfl⟩ | hv
    · rw [getAt_obj, Option.bind_eq_some_iff] at h
      obtain ⟨c, hc, h⟩ := h
      rw [placeable_obj, childAt, hc]
      exact ih h
    · rw [getAt_of_ne_obj hv] at h; cases h

/-- A placed value is found at its path, and its parts below. -/
theorem getAt_put_append {v : Json} {p : List String} (h : v.Placeable p) (x : Json)
    (rest : List String) : (v.put p x).getAt (p ++ rest) = x.getAt rest := by
  induction p generalizing v with
  | nil => simp
  | cons k ks ih =>
    rcases asObject_cases v with ⟨es, rfl⟩ | hv
    · rw [put_obj, List.cons_append, getAt_obj, OrderedMap.lookup_insert_self, Option.bind_some]
      exact ih h
    · exact absurd h (not_placeable_of_ne_obj hv k ks)

theorem getAt_put_self {v : Json} {p : List String} (h : v.Placeable p) (x : Json) :
    (v.put p x).getAt p = some x := by
  have := getAt_put_append h x []
  rwa [List.append_nil, getAt_nil] at this

theorem getAt_put_of_incomparable {v : Json} {p q : List String} (hpq : ¬ p <+: q) (hqp : ¬ q <+: p)
    (x : Json) : (v.put p x).getAt q = v.getAt q := by
  induction p generalizing v q with
  | nil => exact absurd (List.nil_prefix) hpq
  | cons k ks ih =>
    rcases asObject_cases v with ⟨es, rfl⟩ | hv
    · cases q with
      | nil => exact absurd (List.nil_prefix) hqp
      | cons l ls =>
        rw [put_obj, getAt_obj, getAt_obj]
        by_cases hl : l = k
        · subst hl
          rw [List.cons_prefix_cons] at hpq hqp
          simp only [true_and] at hpq hqp
          rw [OrderedMap.lookup_insert_self, Option.bind_some, ih hpq hqp, childAt]
          cases es.lookup l with
          | some c => rfl
          | none =>
            cases ls with
            | nil => exact absurd (List.nil_prefix) hqp
            | cons m ms => rfl
        · rw [OrderedMap.lookup_insert_of_ne hl]
    · rw [put_of_ne_obj hv]

/-- A write keeps the paths placeable that do not go through it. -/
theorem placeable_put {v : Json} {p q : List String} (hq : v.Placeable q)
    (h : p <+: q → p = q) (x : Json) : (v.put p x).Placeable q := by
  induction p generalizing v q with
  | nil =>
    have hnil : q = [] := (h List.nil_prefix).symm
    subst hnil; simp
  | cons k ks ih =>
    rcases asObject_cases v with ⟨es, rfl⟩ | hv
    · cases q with
      | nil => simp
      | cons l ls =>
        rw [put_obj, placeable_obj, childAt]
        by_cases hl : l = k
        · subst hl
          rw [OrderedMap.lookup_insert_self, Option.getD_some]
          refine ih hq fun hp => ?_
          have := h (List.cons_prefix_cons.mpr ⟨rfl, hp⟩)
          exact (List.cons.injEq .. ▸ this).2
        · rw [OrderedMap.lookup_insert_of_ne hl]; exact hq
    · rw [put_of_ne_obj hv]; exact hq

/-- Writing something that is no object unblocks no path. -/
theorem not_placeable_put {v : Json} {p q : List String} (hq : ¬ v.Placeable q) {x : Json}
    (hx : ∀ es, x ≠ .obj es) : ¬ (v.put p x).Placeable q := by
  induction p generalizing v q with
  | nil =>
    cases q with
    | nil => simp at hq
    | cons l ls => rw [put_nil]; exact not_placeable_of_ne_obj hx l ls
  | cons k ks ih =>
    rcases asObject_cases v with ⟨es, rfl⟩ | hv
    · cases q with
      | nil => simp at hq
      | cons l ls =>
        rw [put_obj, placeable_obj, childAt]
        by_cases hl : l = k
        · subst hl
          rw [OrderedMap.lookup_insert_self, Option.getD_some]
          exact ih hq
        · rw [OrderedMap.lookup_insert_of_ne hl]; exact hq
    · rw [put_of_ne_obj hv]; exact hq

theorem getAt_append {v x : Json} {p : List String} (h : v.getAt p = some x) (rest : List String) :
    v.getAt (p ++ rest) = x.getAt rest := by
  induction p generalizing v with
  | nil => rw [getAt_nil, Option.some.injEq] at h; rw [List.nil_append, h]
  | cons k ks ih =>
    rcases asObject_cases v with ⟨es, rfl⟩ | hv
    · rw [getAt_obj, Option.bind_eq_some_iff] at h
      obtain ⟨c, hc, h⟩ := h
      rw [List.cons_append, getAt_obj, hc, Option.bind_some]
      exact ih h
    · rw [getAt_of_ne_obj hv] at h; cases h

theorem isSome_getAt_of_append {v : Json} {p rest : List String} (h : (v.getAt (p ++ rest)).isSome) :
    (v.getAt p).isSome := by
  induction p generalizing v with
  | nil => rw [getAt_nil]; rfl
  | cons k ks ih =>
    rcases asObject_cases v with ⟨es, rfl⟩ | hv
    · rw [List.cons_append, getAt_obj] at h
      rw [getAt_obj]
      cases hl : es.lookup k with
      | none => rw [hl] at h; cases h
      | some c =>
        rw [hl] at h
        exact ih h
    · rw [List.cons_append, getAt_of_ne_obj hv] at h; cases h

/-- Nothing lies below a value that is no object. -/
theorem getAt_below {v x w : Json} {p q : List String} (hp : v.getAt p = some x)
    (hx : ∀ es, x ≠ .obj es) (hq : v.getAt q = some w) (h : p <+: q) : p = q := by
  obtain ⟨rest, rfl⟩ := h
  cases rest with
  | nil => rw [List.append_nil]
  | cons k ks => rw [getAt_append hp, getAt_of_ne_obj hx] at hq; cases hq

theorem placeable_of_append {v : Json} {p rest : List String} (h : v.Placeable (p ++ rest)) :
    v.Placeable p := by
  induction p generalizing v with
  | nil => simp
  | cons k ks ih =>
    rcases asObject_cases v with ⟨es, rfl⟩ | hv
    · exact ih h
    · exact absurd h (not_placeable_of_ne_obj hv k _)

/-- A write below a value is a write into the value. -/
theorem getAt_put_above {v c : Json} {p : List String} (h : v.getAt p = some c) (rest : List String)
    (x : Json) : (v.put (p ++ rest) x).getAt p = some (c.put rest x) := by
  induction p generalizing v with
  | nil =>
    rw [getAt_nil, Option.some.injEq] at h
    rw [List.nil_append, getAt_nil, h]
  | cons l ls ih =>
    rcases asObject_cases v with ⟨es, rfl⟩ | hv
    · rw [getAt_obj, Option.bind_eq_some_iff] at h
      obtain ⟨c', hc, h⟩ := h
      rw [List.cons_append, put_obj, getAt_obj, OrderedMap.lookup_insert_self, Option.bind_some, childAt,
        hc, Option.getD_some]
      exact ih h
    · rw [getAt_of_ne_obj hv] at h; cases h

/-- A write below a value that is no object leaves that value alone. -/
theorem getAt_put_below {v x : Json} {p : List String} (hp : v.getAt p = some x)
    (hx : ∀ es, x ≠ .obj es) (k : String) (ks : List String) (y : Json) :
    (v.put (p ++ k :: ks) y).getAt p = some x := by
  rw [getAt_put_above hp, put_of_ne_obj hx]

/-- Nothing can be placed below a value that is no object. -/
theorem not_placeable_below {v x : Json} {p : List String} (hp : v.getAt p = some x)
    (hx : ∀ es, x ≠ .obj es) (k : String) (ks : List String) : ¬ v.Placeable (p ++ k :: ks) := by
  intro h
  have hat := getAt_put_self h .null
  rw [getAt_append (getAt_put_below hp hx k ks .null), getAt_of_ne_obj hx] at hat
  cases hat

end MinMcp.Core.Json
