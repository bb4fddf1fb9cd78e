import MinMcp.Core.Json.Compare
import MinMcp.Core.Json.ReadWF
import MinMcp.Core.Json.Update
import MinMcp.Core.Text.Replace

/-!
# Dotted paths into arguments and results

`set` and `set_default` of src/project.rs: a write at a dotted path that creates
missing objects and silently does nothing when a value on the way is no object.
Away from the empty path `set_at` is `Json.put` (`setAt_eq_put`).

`setAll_holds_iff` is the law the injection of enforced fields rests on: writing
a list of strings one after the other leaves each of them at its path **iff**
each path was writable before and no path is a prefix of another.
-/
namespace MinMcp.L2.Project

open MinMcp.Core MinMcp.Core.Text

/-- `data[].id` is `data`, `[]`, `id`; empty parts are dropped.
mirrors src/project.rs:142-151 -/
def parsePath (p : String) : List String :=
  let dotted := replaceAll ".*.".toList ".[].".toList (replaceAll "[]".toList ".[].".toList p.toList)
  ((dotted.splitOn '.').filter fun s => !s.isEmpty).map String.ofList

/-- mirrors src/project.rs:126-140 -/
def setAt : Json → List String → Json → Json
  | v, [], _ => v
  | .obj es, [seg], val => .obj (OrderedMap.insert seg val es)
  | .obj es, seg :: rest, val =>
    .obj (OrderedMap.insert seg (setAt ((es.lookup seg).getD (.obj [])) rest val) es)
  | v, _ :: _, _ => v

/-- mirrors src/project.rs:97-101 -/
def set (v : Json) (path : String) (val : Json) : Json := setAt v (parsePath path) val

/-- `entry(seg).or_insert(val)`. -/
def orInsert (es : List (String × Json)) (seg : String) (val : Json) : List (String × Json) :=
  match es.lookup seg with
  | some _ => es
  | none => OrderedMap.insert seg val es

/-- mirrors src/project.rs:109-124 -/
def defaultAt : Json → List String → Json → Json
  | v, [], _ => v
  | .obj es, [seg], val => .obj (orInsert es seg val)
  | .obj es, seg :: rest, val =>
    .obj (OrderedMap.insert seg (defaultAt ((es.lookup seg).getD (.obj [])) rest val) es)
  | v, _ :: _, _ => v

/-- mirrors src/project.rs:103-107 -/
def setDefault (v : Json) (path : String) (val : Json) : Json := defaultAt v (parsePath path) val

example : parsePath "data[].id" = ["data", "[]", "id"] := by decide +kernel

theorem setAt_nil (v x : Json) : setAt v [] x = v := by cases v <;> rfl

theorem setAt_eq_put {v : Json} {p : List String} (h : p ≠ []) (x : Json) :
    setAt v p x = v.put p x := by
  induction p generalizing v with
  | nil => exact absurd rfl h
  | cons k ks ih =>
    rcases v.asObject_cases with ⟨es, rfl⟩ | hv
    · cases ks with
      | nil => simp [setAt]
      | cons l ls =>
        have := ih (v := (es.lookup k).getD (.obj [])) (by simp)
        rw [setAt, this, Json.put_obj, Json.childAt]
        simp
    · rw [Json.put_of_ne_obj hv]
      cases v with
      | obj es => exact absurd rfl (hv es)
      | _ => cases ks <;> rfl

theorem wf_childAt {es : List (String × Json)} (h : (Json.obj es).WF) (k : String) :
    (Json.childAt es k).WF := by
  unfold Json.childAt
  cases hl : es.lookup k with
  | none => exact JsonReader.wf_obj_nil
  | some c => exact Json.wf_field h hl

theorem wf_setAt {v x : Json} (hv : v.WF) (hx : x.WF) (p : List String) : (setAt v p x).WF := by
  induction p generalizing v with
  | nil => rwa [setAt_nil]
  | cons k ks ih =>
    rw [setAt_eq_put (by simp)]
    rcases v.asObject_cases with ⟨es, rfl⟩ | hne
    · rw [Json.put_obj]
      refine OrderedMap.wf_insert ?_ hv
      cases ks with
      | nil => rwa [Json.put_nil]
      | cons l ls =>
        rw [← setAt_eq_put (by simp)]
        exact ih (wf_childAt hv k)
    · rwa [Json.put_of_ne_obj hne]

theorem wf_set {v x : Json} (hv : v.WF) (hx : x.WF) (path : String) : (set v path x).WF :=
  wf_setAt hv hx _

theorem wf_orInsert {es : List (String × Json)} {x : Json} (h : (Json.obj es).WF) (hx : x.WF)
    (seg : String) : (Json.obj (orInsert es seg x)).WF := by
  unfold orInsert
  split
  · exact h
  · exact OrderedMap.wf_insert hx h

theorem wf_defaultAt {v x : Json} (hv : v.WF) (hx : x.WF) (p : List String) : (defaultAt v p x).WF := by
  induction p generalizing v with
  | nil => cases v <;> exact hv
  | cons k ks ih =>
    rcases v.asObject_cases with ⟨es, rfl⟩ | hne
    · cases ks with
      | nil => exact wf_orInsert hv hx k
      | cons l ls => exact OrderedMap.wf_insert (ih (wf_childAt hv k)) hv
    · cases v with
      | obj es => exact absurd rfl (hne es)
      | _ => cases ks <;> exact hv

/-- A write does not tell equal values apart. -/
theorem eqv_setAt {a b x : Json} (ha : a.WF) (hb : b.WF) (hx : x.WF) (h : a.eqv b = true)
    (p : List String) : (setAt a p x).eqv (setAt b p x) = true := by
  induction p generalizing a b with
  | nil => rwa [setAt_nil, setAt_nil]
  | cons k ks ih =>
    rw [setAt_eq_put (by simp), setAt_eq_put (by simp)]
    rcases Json.eqv_ne_obj h with ⟨es, fs, rfl, rfl⟩ | ⟨hna, hnb⟩
    · have hes := (Json.wf_obj.mp ha).1
      have hfs := (Json.wf_obj.mp hb).1
      rw [Json.eqv_obj_iff hes hfs] at h
      have hchild : (Json.childAt es k).eqv (Json.childAt fs k) = true := by
        unfold Json.childAt
        have hk := h k
        generalize es.lookup k = v, fs.lookup k = w at hk
        cases hk with
        | some hvw => exact hvw
        | none => exact Json.eqv_refl JsonReader.wf_obj_nil
      rw [Json.put_obj, Json.put_obj, Json.eqv_obj_iff (OrderedMap.nodup_insert _ _ hes)
        (OrderedMap.nodup_insert _ _ hfs)]
      intro k'
      by_cases hk : k' = k
      · subst hk
        rw [OrderedMap.lookup_insert_self, OrderedMap.lookup_insert_self]
        cases ks with
        | nil => rw [Json.put_nil, Json.put_nil]; exact .some (Json.eqv_refl hx)
        | cons l ls =>
          rw [← setAt_eq_put (by simp), ← setAt_eq_put (by simp)]
          exact .some (ih (wf_childAt ha k') (wf_childAt hb k') hchild)
      · rw [OrderedMap.lookup_insert_of_ne hk, OrderedMap.lookup_insert_of_ne hk]
        exact h k'
    · rwa [Json.put_of_ne_obj hna, Json.put_of_ne_obj hnb]

/-- A default for a path that leads nowhere is a write. -/
theorem defaultAt_eq_put {v : Json} {p : List String} (h : v.getAt p = none) (x : Json) :
    defaultAt v p x = v.put p x := by
  induction p generalizing v with
  | nil => cases h
  | cons k ks ih =>
    rcases v.asObject_cases with ⟨es, rfl⟩ | hne
    · rw [Json.getAt_obj] at h
      cases ks with
      | nil =>
        have hl : es.lookup k = none := by simpa using h
        rw [defaultAt, orInsert, hl, Json.put_obj, Json.put_nil]
      | cons l ls =>
        rw [Json.put_obj, Json.childAt, ← ih (v := (es.lookup k).getD (.obj []))]
        · rfl
        · cases hl : es.lookup k with
          | none => rfl
          | some c => simpa [hl] using h
    · rw [Json.put_of_ne_obj hne]
      cases v with
      | obj es => exact absurd rfl (hne es)
      | _ => cases ks <;> rfl

/-- A default for a path that leads somewhere does nothing. -/
theorem defaultAt_of_getAt {v c : Json} {p : List String} (h : v.getAt p = some c) (x : Json) :
    defaultAt v p x = v := by
  induction p generalizing v with
  | nil => cases v <;> rfl
  | cons k ks ih =>
    rcases v.asObject_cases with ⟨es, rfl⟩ | hne
    · rw [Json.getAt_obj, Option.bind_eq_some_iff] at h
      obtain ⟨c', hl, h⟩ := h
      cases ks with
      | nil => rw [defaultAt, orInsert, hl]
      | cons l ls =>
        rw [defaultAt, hl, Option.getD_some, ih h, OrderedMap.insert_of_lookup hl]
        simp
    · rw [Json.getAt_of_ne_obj hne] at h; cases h

/-- What a write leaves at a path that led somewhere: something, unless it replaces a value
above by one without the path. -/
theorem isSome_getAt_setAt {v x : Json} {p q : List String} (h : (v.getAt p).isSome)
    (hx : q ≠ [] → ∀ rest, p = q ++ rest → (x.getAt rest).isSome) : ((setAt v q x).getAt p).isSome := by
  obtain ⟨c, hc⟩ := Option.isSome_iff_exists.mp h
  by_cases hq : q = []
  · rw [hq, setAt_nil]; exact h
  rw [setAt_eq_put hq]
  by_cases hqp : q <+: p
  · obtain ⟨rest, rfl⟩ := hqp
    rw [Json.getAt_put_append (Json.placeable_of_append (Json.placeable_of_getAt hc))]
    exact hx hq rest rfl
  · by_cases hpq : p <+: q
    · obtain ⟨rest, rfl⟩ := hpq
      rw [Json.getAt_put_above hc]
      rfl
    · rw [Json.getAt_put_of_incomparable hqp hpq]; exact h

/-! ## Writing strings one after the other -/

abbrev Writes := List (List String × String)

def setAll (v : Json) (ws : Writes) : Json := ws.foldl (fun a w => setAt a w.1 (.str w.2)) v

theorem setAll_cons (v : Json) (u : List String × String) (us : Writes) :
    setAll v (u :: us) = setAll (setAt v u.1 (.str u.2)) us := rfl

/-- The write leaves its value at its path: nothing is in the way; at the empty
path, where `set_at` does nothing, the value is there already. -/
def Fits (v : Json) (w : List String × String) : Prop :=
  (w.1 = [] → v = .str w.2) ∧ v.Placeable w.1

/-- No path of the list goes through another one, and none is written twice with
different values. -/
def Compatible (ws : Writes) : Prop := ∀ u ∈ ws, ∀ w ∈ ws, u.1 <+: w.1 → u = w

theorem str_ne_obj (s : String) (es : List (String × Json)) : Json.str s ≠ .obj es := by simp

theorem getAt_setAt_self {v : Json} {w : List String × String} (h : Fits v w) :
    (setAt v w.1 (.str w.2)).getAt w.1 = some (.str w.2) := by
  by_cases hp : w.1 = []
  · rw [hp, setAt_nil, Json.getAt_nil, h.1 hp]
  · rw [setAt_eq_put hp, Json.getAt_put_self h.2]

/-- Writes whose paths have nothing to do with `p`, or that write the same value
at `p`, leave it there. -/
theorem getAt_setAll_of_compatible {v : Json} {w : List String × String} {ws : Writes}
    (h : v.getAt w.1 = some (.str w.2))
    (hc : ∀ u ∈ ws, (u.1 <+: w.1 ∨ w.1 <+: u.1) → u = w) :
    (setAll v ws).getAt w.1 = some (.str w.2) := by
  induction ws generalizing v with
  | nil => exact h
  | cons u us ih =>
    rw [setAll_cons]
    refine ih ?_ fun x hx => hc x (List.mem_cons_of_mem _ hx)
    by_cases hu : u = w
    · subst hu
      refine getAt_setAt_self ⟨fun hnil => ?_, Json.placeable_of_getAt h⟩
      rw [hnil, Json.getAt_nil, Option.some.injEq] at h
      exact h
    · have hno : ¬ (u.1 <+: w.1 ∨ w.1 <+: u.1) := fun hcmp => hu (hc u List.mem_cons_self hcmp)
      rw [not_or] at hno
      by_cases hnil : u.1 = []
      · rw [hnil, setAt_nil]; exact h
      · rw [setAt_eq_put hnil, Json.getAt_put_of_incomparable hno.1 hno.2]; exact h

theorem setAt_eq_str {v : Json} {p : List String} {x : Json} {s : String}
    (h : setAt v p x = .str s) : v = .str s := by
  cases p with
  | nil => rwa [setAt_nil] at h
  | cons k ks =>
    rcases v.asObject_cases with ⟨es, rfl⟩ | hv
    · rw [setAt_eq_put (by simp), Json.put_obj] at h; cases h
    · rwa [setAt_eq_put (by simp), Json.put_of_ne_obj hv] at h

theorem setAll_eq_str {v : Json} {ws : Writes} {s : String} (h : setAll v ws = .str s) :
    v = .str s := by
  induction ws generalizing v with
  | nil => exact h
  | cons u us ih => exact setAt_eq_str (ih h)

theorem not_placeable_setAll {v : Json} {p : List String} (h : ¬ v.Placeable p) (ws : Writes) :
    ¬ (setAll v ws).Placeable p := by
  induction ws generalizing v with
  | nil => exact h
  | cons u us ih =>
    rw [setAll_cons]
    apply ih
    by_cases hnil : u.1 = []
    · rw [hnil, setAt_nil]; exact h
    · rw [setAt_eq_put hnil]; exact Json.not_placeable_put h (str_ne_obj _)

theorem fits_setAt {v : Json} {u w : List String × String} (hw : Fits v w) (hc : u.1 <+: w.1 → u = w) :
    Fits (setAt v u.1 (.str u.2)) w := by
  by_cases hnil : u.1 = []
  · rw [hnil, setAt_nil]; exact hw
  · rw [setAt_eq_put hnil]
    refine ⟨fun hwn => ?_, Json.placeable_put hw.2 (fun hp => by rw [hc hp]) _⟩
    rw [hw.1 hwn]
    cases hu : u.1 with
    | nil => exact absurd hu hnil
    | cons k ks => exact Json.put_of_ne_obj (str_ne_obj _) k ks _

/-- **Writing law.** After the writes every string is at its path iff every write
fitted the value they started from and the paths are compatible. -/
theorem setAll_holds_iff (v : Json) (ws : Writes) :
    (∀ w ∈ ws, (setAll v ws).getAt w.1 = some (.str w.2)) ↔
      (∀ w ∈ ws, Fits v w) ∧ Compatible ws := by
  constructor
  · intro h
    refine ⟨fun w hw => ⟨fun hnil => ?_, ?_⟩, fun u hu w hw hp => ?_⟩
    · have hv := h w hw
      rw [hnil, Json.getAt_nil, Option.some.injEq] at hv
      exact setAll_eq_str hv
    · by_contra hno
      exact not_placeable_setAll hno ws (Json.placeable_of_getAt (h w hw))
    · have he := Json.getAt_below (h u hu) (str_ne_obj _) (h w hw) hp
      have hv := (he ▸ h u hu).symm.trans (h w hw)
      simp only [Option.some.injEq, Json.str.injEq] at hv
      exact Prod.ext he hv
  · intro ⟨hf, hc⟩
    induction ws generalizing v with
    | nil => intro w hw; cases hw
    | cons u us ih =>
      have hcu : ∀ w ∈ us, u.1 <+: w.1 → u = w := fun w hw =>
        hc u List.mem_cons_self w (List.mem_cons_of_mem _ hw)
      have hfu : ∀ w ∈ us, Fits (setAt v u.1 (.str u.2)) w := fun w hw =>
        fits_setAt (hf w (List.mem_cons_of_mem _ hw)) (hcu w hw)
      intro w hw
      rw [setAll_cons]
      rcases List.mem_cons.mp hw with rfl | hw
      · refine getAt_setAll_of_compatible (getAt_setAt_self (hf w List.mem_cons_self)) ?_
        rintro x hx (hp | hp)
        · exact hc x (List.mem_cons_of_mem _ hx) w List.mem_cons_self hp
        · exact (hcu x hx hp).symm
      · exact ih _ hfu (fun a ha b hb => hc a (List.mem_cons_of_mem _ ha) b (List.mem_cons_of_mem _ hb)) w hw

end MinMcp.L2.Project
