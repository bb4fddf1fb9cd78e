import MinMcp.Core.Json.Compare

/-!
# Places in a JSON value

A place is a list of keys and indices: at most one value stands there, unlike at a location
of `MinMcp.Core.Json.Locations`, whose steps may go into every element.

`w.Below v` says that what `w` has at a place `v` has there too, as far down as its scalars,
and `null` may stand for anything. It is an order on values up to the order of keys.

* `below_iff`: the order by the root and the children.
* `eqv_iff_below`: values below each other are the same, and the other way round.
-/
namespace MinMcp.Core.Json

inductive Place where
  | key (k : String)
  | index (i : Nat)
  deriving DecidableEq

def child : Json → Place → Option Json
  | .obj es, .key k => es.lookup k
  | .arr xs, .index i => xs[i]?
  | _, _ => none

def locate (v : Json) : List Place → Option Json
  | [] => some v
  | p :: ps => (child v p).bind fun c => locate c ps

/-- A scalar, or the kind of a container. -/
def head : Json → Json
  | .obj _ => .obj []
  | .arr _ => .arr []
  | v => v

variable {u v w x c : Json} {p : Place} {ps : List Place}

@[simp] theorem child_obj (es : List (String × Json)) (k : String) :
    (obj es).child (.key k) = es.lookup k := rfl

@[simp] theorem child_arr (xs : List Json) (i : Nat) : (arr xs).child (.index i) = xs[i]? := rfl

@[simp] theorem locate_nil (v : Json) : v.locate [] = some v := rfl

theorem locate_cons (h : v.child p = some c) (ps : List Place) : v.locate (p :: ps) = c.locate ps := by
  rw [locate, h, Option.bind_some]

theorem locate_cons_eq_some :
    v.locate (p :: ps) = some x ↔ ∃ c, v.child p = some c ∧ c.locate ps = some x :=
  Option.bind_eq_some_iff

theorem locate_null : Json.null.locate ps = some x ↔ ps = [] ∧ x = .null := by
  cases ps with
  | nil => simp [eq_comm]
  | cons p ps => exact iff_of_false (by cases p <;> simp [locate, child]) nofun

theorem locate_append (h : v.locate ps = some x) (qs : List Place) :
    v.locate (ps ++ qs) = x.locate qs := by
  induction ps generalizing v with
  | nil =>
    obtain rfl := Option.some.inj h
    rfl
  | cons p ps ih =>
    obtain ⟨c, hc, h⟩ := locate_cons_eq_some.mp h
    rw [List.cons_append, locate_cons hc, ih h]

theorem mem_of_child {xs : List Json} (h : (Json.arr xs).child p = some c) : c ∈ xs := by
  cases p with
  | key k => cases h
  | index i => exact List.mem_of_getElem? h

theorem wf_child (h : v.WF) (hc : v.child p = some c) : c.WF := by
  cases v with
  | obj es =>
    cases p with
    | key k => exact wf_field h hc
    | index i => cases hc
  | arr xs => exact wf_arr.mp h c (mem_of_child hc)
  | _ => cases p <;> cases hc

theorem wf_locate (h : v.WF) (hx : v.locate ps = some x) : x.WF := by
  induction ps generalizing v with
  | nil => exact Option.some.inj hx ▸ h
  | cons p ps ih =>
    obtain ⟨c, hc, hx⟩ := locate_cons_eq_some.mp hx
    exact ih (wf_child h hc) hx

/-- Induction over what stands below a value. -/
theorem below_ind {P : Json → Prop} (step : ∀ v, (∀ p ps c, v.locate (p :: ps) = some c → P c) → P v)
    (v : Json) : P v := by
  suffices h : ∀ ps c, v.locate ps = some c → P c from h [] v rfl
  have hroot : ∀ w : Json, (∀ p ps c, w.locate (p :: ps) = some c → P c) → ∀ ps c, w.locate ps = some c → P c := by
    intro w hbelow ps c hc
    cases ps with
    | nil => exact Option.some.inj hc ▸ step w hbelow
    | cons p ps => exact hbelow p ps c hc
  induction v using Json.ind with
  | obj es ih =>
    refine hroot _ fun p ps c hc => ?_
    obtain ⟨d, hd, hx⟩ := locate_cons_eq_some.mp hc
    cases p with
    | key k => exact ih (k, d) (OrderedMap.mem_of_lookup hd) ps c hx
    | index i => cases hd
  | arr xs ih =>
    refine hroot _ fun p ps c hc => ?_
    obtain ⟨d, hd, hc⟩ := locate_cons_eq_some.mp hc
    exact ih d (mem_of_child hd) ps c hc
  | _ =>
    refine hroot _ fun p ps c hc => ?_
    obtain ⟨d, hd, -⟩ := locate_cons_eq_some.mp hc
    cases p <;> cases hd

@[simp] theorem head_eq_null : v.head = .null ↔ v = .null := by cases v <;> simp [head]

theorem head_eq_obj {fs : List (String × Json)} (h : v.head = (Json.obj fs).head) : ∃ es, v = .obj es := by
  cases v <;> simp_all [head]

theorem head_eq_arr {ys : List Json} (h : v.head = (Json.arr ys).head) : ∃ xs, v = .arr xs := by
  cases v <;> simp_all [head]

/-! ## The order -/

def Below (w v : Json) : Prop :=
  ∀ ps x, w.locate ps = some x → ∃ y, v.locate ps = some y ∧ (x = .null ∨ x.head = y.head)

theorem below_refl (v : Json) : v.Below v := fun _ x hx => ⟨x, hx, Or.inr rfl⟩

theorem Below.trans (h : u.Below v) (h' : v.Below w) : u.Below w := by
  intro ps x hx
  obtain ⟨y, hy, hxy⟩ := h ps x hx
  obtain ⟨z, hz, hyz⟩ := h' ps y hy
  refine ⟨z, hz, ?_⟩
  rcases hxy with rfl | hxy
  · exact Or.inl rfl
  rcases hyz with rfl | hyz
  · exact Or.inl (head_eq_null.mp hxy)
  · exact Or.inr (hxy.trans hyz)

/-- A value is below another by its root and its children. -/
theorem below_iff : w.Below v ↔
    (w = .null ∨ w.head = v.head) ∧ ∀ p c, w.child p = some c → ∃ d, v.child p = some d ∧ c.Below d := by
  constructor
  · intro h
    refine ⟨?_, ?_⟩
    · obtain ⟨y, hy, hxy⟩ := h [] w rfl
      obtain rfl := Option.some.inj hy
      exact hxy
    · intro p c hc
      obtain ⟨y, hy, -⟩ := h [p] c (locate_cons hc [])
      obtain ⟨d, hd, -⟩ := locate_cons_eq_some.mp hy
      refine ⟨d, hd, fun ps x hx => ?_⟩
      rw [← locate_cons hd]
      exact h (p :: ps) x ((locate_cons hc ps).trans hx)
  · intro ⟨hroot, hchild⟩ ps x hx
    cases ps with
    | nil =>
      obtain rfl := Option.some.inj hx
      exact ⟨v, rfl, hroot⟩
    | cons p ps =>
      obtain ⟨c, hc, hx⟩ := locate_cons_eq_some.mp hx
      obtain ⟨d, hd, hcd⟩ := hchild p c hc
      rw [locate_cons hd]
      exact hcd ps x hx

theorem below_null (v : Json) : Json.null.Below v :=
  below_iff.mpr ⟨Or.inl rfl, fun p c hc => by cases p <;> cases hc⟩

theorem Below.child (h : w.Below v) (hc : w.child p = some c) : ∃ d, v.child p = some d ∧ c.Below d :=
  (below_iff.mp h).2 p c hc

theorem Below.head (h : w.Below v) (hn : w ≠ .null) : w.head = v.head :=
  (below_iff.mp h).1.resolve_left hn

theorem Below.locate (h : w.Below v) (hx : w.locate ps = some x) : ∃ y, v.locate ps = some y ∧ x.Below y := by
  obtain ⟨y, hy, -⟩ := h ps x hx
  refine ⟨y, hy, fun qs z hz => ?_⟩
  rw [← locate_append hy]
  exact h (ps ++ qs) z ((locate_append hx qs).trans hz)

theorem length_le_of_below {xs ys : List Json} (h : (arr xs).Below (arr ys)) : xs.length ≤ ys.length := by
  by_contra hlt
  have hlt : ys.length < xs.length := by omega
  have hx : (arr xs).child (.index ys.length) = some xs[ys.length] := List.getElem?_eq_getElem hlt
  obtain ⟨d, hd, -⟩ := h.child hx
  rw [child_arr] at hd
  obtain ⟨hi, -⟩ := List.getElem?_eq_some_iff.mp hd
  omega

/-- Values below each other have the same root. -/
theorem Below.antisymm_head (h : w.Below v) (h' : v.Below w) : w.head = v.head := by
  by_cases hn : w = .null
  · subst hn
    by_cases hv : v = .null
    · rw [hv]
    · exact (h'.head hv).symm
  · exact h.head hn

/-! ## Equality -/

/-- Induction on the children. -/
theorem child_induction {P : Json → Prop} (h : ∀ v : Json, (∀ p c, v.child p = some c → P c) → P v)
    (v : Json) : P v := by
  induction v using Json.ind with
  | arr xs ih => exact h _ fun p c hc => ih c (mem_of_child hc)
  | obj es ih =>
    refine h _ fun p c hc => ?_
    cases p with
    | key k => exact ih (k, c) (OrderedMap.mem_of_lookup hc)
    | index i => cases hc
  | _ => exact h _ fun p c hc => by cases p <;> cases hc

theorem eqvList_iff_getElem? {xs ys : List Json} :
    eqvList xs ys = true ↔ ∀ i : Nat, Option.Rel (fun x y => x.eqv y = true) xs[i]? ys[i]? := by
  induction xs generalizing ys with
  | nil =>
    cases ys with
    | nil => exact iff_of_true rfl fun i => .none
    | cons y ys => exact iff_of_false (by simp [eqvList]) fun h => by cases h 0
  | cons x xs ih =>
    cases ys with
    | nil => exact iff_of_false (by simp [eqvList]) fun h => by cases h 0
    | cons y ys =>
      rw [eqvList, Bool.and_eq_true, ih]
      constructor
      · rintro ⟨h0, h⟩ i
        cases i with
        | zero => exact .some h0
        | succ i => exact h i
      · intro h
        refine ⟨?_, fun i => h (i + 1)⟩
        cases h 0 with
        | some h0 => exact h0

theorem container_cases (v : Json) :
    (∃ es, v = .obj es) ∨ (∃ xs, v = .arr xs) ∨ (∀ es, v ≠ .obj es) ∧ ∀ xs, v ≠ .arr xs := by
  cases v <;> simp

/-- Scalars are compared at the root. -/
theorem eqv_iff_head (ho : ∀ es, v ≠ .obj es) (ha : ∀ xs, v ≠ .arr xs) :
    v.eqv w = true ↔ v.head = w.head := by
  cases v with
  | arr xs => exact absurd rfl (ha xs)
  | obj es => exact absurd rfl (ho es)
  | num m =>
    cases w with
    | num n => 
      obtain ⟨s, hs⟩ := m
      obtain ⟨t, ht⟩ := n
      simp [eqv, head]
    | _ => simp [eqv, head]
  | _ => cases w <;> simp [eqv, head]

theorem child_of_scalar (ho : ∀ es, v ≠ .obj es) (ha : ∀ xs, v ≠ .arr xs) (p : Place) : v.child p = none := by
  cases v with
  | arr xs => exact absurd rfl (ha xs)
  | obj es => exact absurd rfl (ho es)
  | _ => rfl

/-- Equality by the root and the children. -/
theorem eqv_iff_child (hv : v.WF) (hw : w.WF) : v.eqv w = true ↔
    v.head = w.head ∧ ∀ p, Option.Rel (fun x y => x.eqv y = true) (v.child p) (w.child p) := by
  obtain ⟨es, rfl⟩ | ⟨xs, rfl⟩ | ⟨ho, ha⟩ := container_cases v
  · constructor
    · intro h
      cases w with
      | obj fs =>
        rw [eqv_obj_iff (wf_obj.mp hv).1 (wf_obj.mp hw).1] at h
        refine ⟨rfl, fun p => ?_⟩
        cases p with
        | key k => exact h k
        | index i => exact .none
      | _ => cases h
    · intro ⟨hroot, h⟩
      obtain ⟨fs, rfl⟩ := head_eq_obj hroot.symm
      exact (eqv_obj_iff (wf_obj.mp hv).1 (wf_obj.mp hw).1).mpr fun k => h (.key k)
  · constructor
    · intro h
      cases w with
      | arr ys =>
        refine ⟨rfl, fun p => ?_⟩
        cases p with
        | key k => exact .none
        | index i => exact eqvList_iff_getElem?.mp h i
      | _ => cases h
    · intro ⟨hroot, h⟩
      obtain ⟨ys, rfl⟩ := head_eq_arr hroot.symm
      exact eqvList_iff_getElem?.mpr fun i => h (.index i)
  · rw [eqv_iff_head ho ha, iff_self_and]
    intro hroot p
    have hwo : ∀ es, w ≠ .obj es := by
      rintro es rfl
      obtain ⟨fs, rfl⟩ := head_eq_obj hroot
      exact ho fs rfl
    have hwa : ∀ xs, w ≠ .arr xs := by
      rintro xs rfl
      obtain ⟨ys, rfl⟩ := head_eq_arr hroot
      exact ha ys rfl
    rw [child_of_scalar ho ha, child_of_scalar hwo hwa]
    exact .none

/-- Equality looks at the places alone. -/
theorem eqv_iff_below (hv : v.WF) (hw : w.WF) : v.eqv w = true ↔ v.Below w ∧ w.Below v := by
  induction v using child_induction generalizing w with
  | h v ih =>
    rw [eqv_iff_child hv hw]
    constructor
    · intro ⟨hroot, hchild⟩
      constructor
      · refine below_iff.mpr ⟨Or.inr hroot, fun p c hc => ?_⟩
        have hp := hchild p
        rw [hc] at hp
        generalize hd : w.child p = o at hp
        cases hp with
        | some hcd => exact ⟨_, rfl, ((ih p c hc (wf_child hv hc) (wf_child hw hd)).mp hcd).1⟩
      · refine below_iff.mpr ⟨Or.inr hroot.symm, fun p d hd => ?_⟩
        have hp := hchild p
        rw [hd] at hp
        generalize hc : v.child p = o at hp
        cases hp with
        | some hcd => exact ⟨_, rfl, ((ih p _ hc (wf_child hv hc) (wf_child hw hd)).mp hcd).2⟩
    · intro ⟨h, h'⟩
      refine ⟨h.antisymm_head h', fun p => ?_⟩
      cases hc : v.child p with
      | some c =>
        obtain ⟨d, hd, hcd⟩ := h.child hc
        obtain ⟨c', hc', hdc⟩ := h'.child hd
        obtain rfl := Option.some.inj (hc.symm.trans hc')
        rw [hd]
        exact .some ((ih p c hc (wf_child hv hc) (wf_child hw hd)).mpr ⟨hcd, hdc⟩)
      | none =>
        cases hd : w.child p with
        | some d =>
          obtain ⟨c, hc', -⟩ := h'.child hd
          cases hc.symm.trans hc'
        | none => exact .none

end MinMcp.Core.Json
