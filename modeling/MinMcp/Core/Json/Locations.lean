import MinMcp.Core.Json.Value

/-!
# Locations in a JSON value

A location is a list of steps: into the field of an object, or into every element of
an array. `valuesAt` lists what stands there.

`w.Narrower v` says that `w` is `v` with parts taken away: whatever `w` has at a
location, `v` has a value there too, and the same one where it is a string. Elements
of an array may be dropped or replaced by `null`. The rules build it along the value:
`narrower_obj`, `narrower_arr`, and `narrower_trans` for one change after the other.
`Joins a b m` says the same of `m` and two values (`joins_obj`, `joins_arr`); joining what is
narrower gives something narrower (`narrower_of_joins`).
-/
namespace MinMcp.Core.Json

inductive Step where
  | key (k : String)
  | each
  deriving DecidableEq

def valuesAt : Json → List Step → List Json
  | v, [] => [v]
  | v, .key k :: p =>
    match v.get k with
    | some w => w.valuesAt p
    | none => []
  | v, .each :: p => (v.asArray.getD []).flatMap fun e => e.valuesAt p

variable {v w x : Json} {k : String} {p : List Step}

theorem mem_valuesAt_nil : x ∈ v.valuesAt [] ↔ x = v := by
  unfold valuesAt; exact List.mem_singleton

theorem mem_valuesAt_key : x ∈ v.valuesAt (.key k :: p) ↔ ∃ c, v.get k = some c ∧ x ∈ c.valuesAt p := by
  rw [valuesAt]
  cases v.get k <;> simp

theorem mem_valuesAt_each :
    x ∈ v.valuesAt (.each :: p) ↔ ∃ xs, v.asArray = some xs ∧ ∃ e ∈ xs, x ∈ e.valuesAt p := by
  rw [valuesAt]
  cases v.asArray <;> simp

/-- At a location inside it a scalar has nothing. -/
theorem valuesAt_scalar (ho : v.asObject = none) (ha : v.asArray = none) (hp : p ≠ []) :
    v.valuesAt p = [] := by
  cases p with
  | nil => exact absurd rfl hp
  | cons s p =>
    cases s with
    | key k => rw [valuesAt, Json.get, ho]; rfl
    | each => rw [valuesAt, ha]; rfl

/-- `y` can stand for `x`: it is the same string where `x` is one. -/
def SameText (x y : Json) : Prop := ∀ s, x = .str s → y = .str s

theorem sameText_refl (x : Json) : SameText x x := fun _ h => h

/-! ## Two values joined -/

/-- Whatever `m` has at a location, `a` or `b` has there. -/
def Joins (a b m : Json) : Prop :=
  ∀ p, ∀ x ∈ m.valuesAt p, ∃ y, (y ∈ a.valuesAt p ∨ y ∈ b.valuesAt p) ∧ SameText x y

theorem joins_left (a b : Json) : Joins a b a := fun _ x hx => ⟨x, Or.inl hx, sameText_refl x⟩

theorem joins_right (a b : Json) : Joins a b b := fun _ x hx => ⟨x, Or.inr hx, sameText_refl x⟩

theorem joins_obj {am bm fs : List (String × Json)}
    (h : ∀ k c, fs.lookup k = some c → am.lookup k = some c ∨ bm.lookup k = some c ∨
      ∃ u w, am.lookup k = some u ∧ bm.lookup k = some w ∧ Joins u w c) :
    Joins (.obj am) (.obj bm) (.obj fs) := by
  intro p x hx
  cases p with
  | nil =>
    rw [mem_valuesAt_nil] at hx
    exact ⟨.obj am, Or.inl (mem_valuesAt_nil.mpr rfl), fun s hs => by rw [hx] at hs; cases hs⟩
  | cons st p =>
    cases st with
    | key k =>
      obtain ⟨c, hc, hxc⟩ := mem_valuesAt_key.mp hx
      rw [get_obj] at hc
      simp only [mem_valuesAt_key, get_obj]
      rcases h k c hc with h | h | ⟨u, w, hu, hw, hj⟩
      · exact ⟨x, Or.inl ⟨c, h, hxc⟩, sameText_refl x⟩
      · exact ⟨x, Or.inr ⟨c, h, hxc⟩, sameText_refl x⟩
      · obtain ⟨y, hy, hs⟩ := hj p x hxc
        exact ⟨y, hy.imp (fun h => ⟨u, hu, h⟩) (fun h => ⟨w, hw, h⟩), hs⟩
    | each =>
      obtain ⟨xs, hxs, -⟩ := mem_valuesAt_each.mp hx
      cases hxs

theorem joins_arr {aa ba xs : List Json}
    (h : ∀ z ∈ xs, z ∈ aa ∨ z ∈ ba ∨ ∃ u ∈ aa, ∃ w ∈ ba, Joins u w z) :
    Joins (.arr aa) (.arr ba) (.arr xs) := by
  intro p x hx
  cases p with
  | nil =>
    rw [mem_valuesAt_nil] at hx
    exact ⟨.arr aa, Or.inl (mem_valuesAt_nil.mpr rfl), fun s hs => by rw [hx] at hs; cases hs⟩
  | cons st p =>
    cases st with
    | key k =>
      obtain ⟨c, hc, -⟩ := mem_valuesAt_key.mp hx
      cases hc
    | each =>
      obtain ⟨zs, hzs, z, hz, hxz⟩ := mem_valuesAt_each.mp hx
      cases hzs
      have hin : ∀ {ys : List Json} {u y : Json}, u ∈ ys → y ∈ u.valuesAt p →
          y ∈ (Json.arr ys).valuesAt (.each :: p) := fun hu hy =>
        mem_valuesAt_each.mpr ⟨_, rfl, _, hu, hy⟩
      rcases h z hz with h | h | ⟨u, hu, w, hw, hj⟩
      · exact ⟨x, Or.inl (hin h hxz), sameText_refl x⟩
      · exact ⟨x, Or.inr (hin h hxz), sameText_refl x⟩
      · obtain ⟨y, hy, hs⟩ := hj p x hxz
        exact ⟨y, hy.imp (hin hu) (hin hw), hs⟩

/-! ## Parts taken away -/

def Narrower (w v : Json) : Prop := ∀ p, ∀ x ∈ w.valuesAt p, ∃ y ∈ v.valuesAt p, SameText x y

theorem narrower_refl (v : Json) : v.Narrower v := fun _ x hx => ⟨x, hx, sameText_refl x⟩

theorem narrower_trans {u v w : Json} (h : w.Narrower v) (h' : v.Narrower u) : w.Narrower u := by
  intro p x hx
  obtain ⟨y, hy, hxy⟩ := h p x hx
  obtain ⟨z, hz, hyz⟩ := h' p y hy
  exact ⟨z, hz, fun s hs => hyz s (hxy s hs)⟩

/-- Whatever the narrower value has at a location, the other one has something there. -/
theorem valuesAt_of_narrower (h : w.Narrower v) (hp : v.valuesAt p = []) : w.valuesAt p = [] := by
  refine List.eq_nil_iff_forall_not_mem.mpr fun x hx => ?_
  obtain ⟨y, hy, -⟩ := h p x hx
  rw [hp] at hy
  cases hy

theorem narrower_str {s : String} (h : (Json.str s).Narrower v) : v = .str s := by
  obtain ⟨y, hy, hs⟩ := h [] (.str s) (mem_valuesAt_nil.mpr rfl)
  rw [mem_valuesAt_nil] at hy
  rw [← hy]
  exact hs s rfl

theorem get_of_narrower (h : w.Narrower v) {c : Json} (hk : w.get k = some c) :
    (v.get k).isSome = true := by
  obtain ⟨y, hy, -⟩ := h [.key k] c (mem_valuesAt_key.mpr ⟨c, hk, mem_valuesAt_nil.mpr rfl⟩)
  obtain ⟨d, hd, -⟩ := mem_valuesAt_key.mp hy
  rw [hd]; rfl

/-- A value inside which there are no locations is narrower than any that can stand for it. -/
theorem narrower_scalar (ho : w.asObject = none) (ha : w.asArray = none) (hs : SameText w v) :
    w.Narrower v := by
  intro p x hx
  cases p with
  | nil =>
    rw [mem_valuesAt_nil] at hx
    exact ⟨v, mem_valuesAt_nil.mpr rfl, hx ▸ hs⟩
  | cons s p =>
    rw [valuesAt_scalar ho ha (by simp)] at hx
    cases hx

theorem narrower_null (v : Json) : Json.null.Narrower v :=
  narrower_scalar rfl rfl (fun _ h => nomatch h)

theorem narrower_iff_joins : w.Narrower v ↔ Joins v v w := by simp only [Narrower, Joins, or_self]

theorem narrower_obj {es fs : List (String × Json)}
    (h : ∀ k w, es.lookup k = some w → ∃ v, fs.lookup k = some v ∧ w.Narrower v) :
    (Json.obj es).Narrower (.obj fs) := by
  refine narrower_iff_joins.mpr (joins_obj fun k w hw => ?_)
  obtain ⟨v, hv, hn⟩ := h k w hw
  exact Or.inr (Or.inr ⟨v, v, hv, hv, narrower_iff_joins.mp hn⟩)

theorem narrower_arr {xs ys : List Json} (h : ∀ w ∈ xs, ∃ v ∈ ys, w.Narrower v) :
    (Json.arr xs).Narrower (.arr ys) := by
  refine narrower_iff_joins.mpr (joins_arr fun w hw => ?_)
  obtain ⟨v, hv, hn⟩ := h w hw
  exact Or.inr (Or.inr ⟨v, hv, v, hv, narrower_iff_joins.mp hn⟩)

theorem narrower_of_joins {a b m v : Json} (h : Joins a b m) (ha : a.Narrower v) (hb : b.Narrower v) :
    m.Narrower v := by
  intro p x hx
  obtain ⟨y, hy, hxy⟩ := h p x hx
  obtain ⟨z, hz, hyz⟩ := hy.elim (ha p y) (hb p y)
  exact ⟨z, hz, fun s hs => hyz s (hxy s hs)⟩

end MinMcp.Core.Json
