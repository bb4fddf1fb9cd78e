import MinMcp.Core.Json.Same
import Mathlib.Data.List.Perm.Basic

/-!
# Values entered one after the other

A loop enters values at key paths. What it makes of a place that may be empty is `fill`, where
`base x o` is what a value `x` makes of its own place. The entries below a key are those `under`
it, and what the loop does below one key is the loop of these (`fill_obj`).

`Indep D` says that the order of the entries does not matter, for any content of the place.

* `indep_deep`: entries that all lie below the place are independent when those under each key are.
* `indep_iff_under`: a property of the places from a property of each single one.
-/
namespace MinMcp.Core.PlaceLoop

open Json

abbrev Entries (X : Type) := List (List String × X)

variable {X : Type}

/-- The entries below the key, from there on. -/
def under (k : String) (D : Entries X) : Entries X :=
  D.filterMap fun e => match e.1 with
    | [] => none
    | k' :: ks => if k' = k then some (ks, e.2) else none

def underPath : List String → Entries X → Entries X
  | [], D => D
  | k :: ks, D => underPath ks (under k D)

/-- Every entry lies below the place. -/
def Deep (D : Entries X) : Prop := ∀ e ∈ D, e.1 ≠ []

/-- The values entered at the place itself. -/
def here (D : Entries X) : List X := D.filterMap fun e => if e.1 = [] then some e.2 else none

/-- The entries of the place itself. -/
def hereEntries (D : Entries X) : Entries X := D.filter fun e => e.1 = []

/-- The entries below the place. -/
def deeper (D : Entries X) : Entries X := D.filter fun e => e.1 ≠ []

def Sound (D : Entries Json) : Prop := ∀ e ∈ D, e.2.WF

section Loop

variable (base : Json → Option Json → Json)

/-- One entry; what is no object has nothing below. -/
def enter : List String → Json → Option Json → Json
  | [], x, o => base x o
  | k :: ks, x, o =>
    match o.getD (.obj []) with
    | .obj es => .obj (OrderedMap.insert k (enter ks x (es.lookup k)) es)
    | v => v

def fill (D : Entries Json) (o : Option Json) : Option Json :=
  D.foldl (fun o e => some (enter base e.1 e.2 o)) o

/-- The order of the entries does not matter. -/
def Indep (D : Entries Json) : Prop :=
  ∀ σ : Entries Json, σ.Perm D → ∀ o, SameOpt o o → SameOpt (fill base σ o) (fill base D o)

/-- Whatever the order of the items, the loop makes the same of a value. -/
def OrderFree {α : Type} (loop : List α → Json → Json) (items : List α) : Prop :=
  ∀ a b : List α, a.Perm items → b.Perm items → ∀ v : Json, v.WF → (loop a v).Same (loop b v)

/-- The same values make the same of the same. -/
def Respects : Prop := ∀ {x x' o o'}, Same x x' → SameOpt o o' → Same (base x o) (base x' o')

end Loop

/-! ## Entries under a key -/

@[simp] theorem under_nil (k : String) : under k ([] : Entries X) = [] := rfl

theorem under_cons_self (k : String) (ks : List String) (x : X) (D : Entries X) :
    under k ((k :: ks, x) :: D) = (ks, x) :: under k D := by
  simp [under]

theorem under_cons_of_ne {k k' : String} (h : k' ≠ k) (ks : List String) (x : X) (D : Entries X) :
    under k ((k' :: ks, x) :: D) = under k D := by
  simp [under, h]

theorem mem_under {k : String} {D : Entries X} {ks : List String} {x : X} :
    (ks, x) ∈ under k D ↔ (k :: ks, x) ∈ D := by
  unfold under
  rw [List.mem_filterMap]
  constructor
  · rintro ⟨⟨p, y⟩, he, hk⟩
    cases p with
    | nil => cases hk
    | cons k' ks' =>
      simp only [Option.ite_none_right_eq_some, Option.some.injEq, Prod.mk.injEq] at hk
      obtain ⟨rfl, rfl, rfl⟩ := hk
      exact he
  · intro h
    exact ⟨_, h, by simp⟩

theorem mem_underPath {p : List String} {D : Entries X} {r : List String} {x : X} :
    (r, x) ∈ underPath p D ↔ (p ++ r, x) ∈ D := by
  induction p generalizing D with
  | nil => rfl
  | cons k ks ih => rw [underPath, ih, mem_under, List.cons_append]

theorem under_append (k : String) (D E : Entries X) : under k (D ++ E) = under k D ++ under k E :=
  List.filterMap_append

theorem perm_under {D E : Entries X} (h : D.Perm E) (k : String) : (under k D).Perm (under k E) :=
  h.filterMap _

/-- The entries under a key, as they stood in the whole. -/
def atKey (k : String) (D : Entries X) : Entries X := D.map fun e => (k :: e.1, e.2)

theorem under_atKey (k : String) (D : Entries X) : under k (atKey k D) = D := by
  induction D with
  | nil => rfl
  | cons e D ih => rw [atKey, List.map_cons, under_cons_self, ← atKey, ih]

/-- The entries that are not under the key. -/
def apart (k : String) (D : Entries X) : Entries X := D.filter fun e => e.1.head? ≠ some k

theorem under_apart (k : String) (D : Entries X) : under k (apart k D) = [] := by
  refine List.eq_nil_iff_forall_not_mem.mpr fun e he => ?_
  have hm := mem_under.mp he
  simp [apart] at hm

theorem perm_atKey_apart (k : String) (D : Entries X) : (atKey k (under k D) ++ apart k D).Perm D := by
  induction D with
  | nil => rfl
  | cons e D ih =>
    obtain ⟨p, x⟩ := e
    by_cases hk : p.head? = some k
    · obtain ⟨ks, rfl⟩ : ∃ ks, p = k :: ks := by
        cases p with
        | nil => cases hk
        | cons k' ks => exact ⟨ks, by rw [Option.some.inj hk]⟩
      rw [under_cons_self, atKey, List.map_cons, ← atKey, List.cons_append]
      have hno : apart k ((k :: ks, x) :: D) = apart k D := by simp [apart]
      rw [hno]
      exact ih.cons _
    · have hu : under k ((p, x) :: D) = under k D := by
        cases p with
        | nil => rfl
        | cons k' ks => exact under_cons_of_ne (fun h => hk (by rw [h]; rfl)) ks x D
      have ha : apart k ((p, x) :: D) = (p, x) :: apart k D := by simp [apart, hk]
      rw [hu, ha]
      exact List.perm_middle.trans (ih.cons _)

theorem sound_under {D : Entries Json} (h : Sound D) (k : String) : Sound (under k D) :=
  fun e he => h (k :: e.1, e.2) (mem_under.mp he)

theorem exists_depth (D : Entries X) : ∃ n, ∀ e ∈ D, e.1.length ≤ n := by
  refine ⟨(D.map fun e => e.1.length).max?.getD 0, fun e he => ?_⟩
  exact List.le_max?_getD_of_mem (List.mem_map_of_mem (f := fun e : List String × X => e.1.length) he)

/-- Under a key the entries are shorter. -/
theorem depth_under {D : Entries X} {n : Nat} (h : ∀ e ∈ D, e.1.length ≤ n + 1) (k : String) :
    ∀ e ∈ under k D, e.1.length ≤ n := by
  intro e he
  have := h (k :: e.1, e.2) (mem_under.mp he)
  simp only [List.length_cons] at this
  omega

theorem under_of_depth {D : Entries X} (h : ∀ e ∈ D, e.1.length ≤ 0) (k : String) : under k D = [] := by
  refine List.eq_nil_iff_forall_not_mem.mpr fun e he => ?_
  have := h (k :: e.1, e.2) (mem_under.mp he)
  simp at this

/-! ## The entries at a place and those below -/

section Parts

variable {D σ : Entries X}

theorem mem_here {x : X} : x ∈ here D ↔ ([], x) ∈ D := by
  unfold here
  rw [List.mem_filterMap]
  constructor
  · rintro ⟨⟨p, y⟩, he, hy⟩
    simp only [Option.ite_none_right_eq_some, Option.some.injEq] at hy
    obtain ⟨rfl, rfl⟩ := hy
    exact he
  · intro h
    exact ⟨_, h, by simp⟩

theorem here_eq_nil : here D = [] ↔ Deep D := by
  rw [List.eq_nil_iff_forall_not_mem]
  constructor
  · intro h e he hp
    exact h e.2 (mem_here.mpr (hp ▸ he))
  · intro h x hx
    exact h _ (mem_here.mp hx) rfl

theorem deep_deeper (D : Entries X) : Deep (deeper D) := fun e he => by
  simpa [deeper] using (List.mem_filter.mp he).2

theorem perm_deeper_here (D : Entries X) : (deeper D ++ hereEntries D).Perm D := by
  have h := List.filter_append_perm (fun e : List String × X => decide (e.1 ≠ [])) D
  have hrest : D.filter (fun e => !decide (e.1 ≠ [])) = hereEntries D :=
    List.filter_congr fun e _ => by simp
  rwa [hrest] at h

theorem perm_deeper (h : σ.Perm D) : (deeper σ).Perm (deeper D) := h.filter _

theorem deeper_eq_nil (h : deeper D = []) {e : List String × X} (he : e ∈ D) : e.1 = [] := by
  by_contra hne
  have : e ∈ deeper D := List.mem_filter.mpr ⟨he, by simpa using hne⟩
  rw [h] at this
  cases this

theorem deeper_of_deep (h : Deep D) : deeper D = D :=
  List.filter_eq_self.mpr fun e he => by simpa using h e he

theorem under_deeper (k : String) (D : Entries X) : under k (deeper D) = under k D := by
  induction D with
  | nil => rfl
  | cons e D ih =>
    obtain ⟨p, x⟩ := e
    cases p with
    | nil =>
      show under k (deeper D) = under k (([], x) :: D)
      rw [ih]
      rfl
    | cons k' ks =>
      have hd : deeper ((k' :: ks, x) :: D) = (k' :: ks, x) :: deeper D := by simp [deeper]
      rw [hd]
      by_cases hk : k' = k
      · subst hk
        rw [under_cons_self, under_cons_self, ih]
      · rw [under_cons_of_ne hk, under_cons_of_ne hk, ih]

/-- One entry can come last. -/
theorem perm_last {e : List String × X} (he : e ∈ D) : ∃ E, (E ++ [e]).Perm D := by
  obtain ⟨s, t, rfl⟩ := List.append_of_mem he
  exact ⟨s ++ t, (List.perm_append_singleton e (s ++ t)).trans List.perm_middle.symm⟩

/-- Two entries can come first. -/
theorem perm_first_two {e e' : List String × X} (he : e ∈ D) (he' : e' ∈ D) (hne : e ≠ e') :
    ∃ E, (e :: e' :: E).Perm D := by
  obtain ⟨s, t, rfl⟩ := List.append_of_mem he
  have hmem : e' ∈ s ++ t := by
    rcases List.mem_append.mp he' with h | h
    · exact List.mem_append_left _ h
    · exact List.mem_append_right _ ((List.mem_cons.mp h).resolve_left (Ne.symm hne))
  obtain ⟨s', t', hst⟩ := List.append_of_mem hmem
  refine ⟨s' ++ t', ?_⟩
  have hrest : (e' :: (s' ++ t')).Perm (s ++ t) := by
    rw [hst]
    exact List.perm_middle.symm
  exact (hrest.cons e).trans List.perm_middle.symm

end Parts

/-! ## The loop -/

section Loop

variable {base : Json → Option Json → Json} {D σ : Entries Json} {o o' : Option Json}

@[simp] theorem fill_nil (o : Option Json) : fill base [] o = o := rfl

theorem fill_cons (p : List String) (x : Json) (D : Entries Json) (o : Option Json) :
    fill base ((p, x) :: D) o = fill base D (some (enter base p x o)) := rfl

theorem fill_append (D E : Entries Json) (o : Option Json) : fill base (D ++ E) o = fill base E (fill base D o) :=
  List.foldl_append

theorem enter_obj (k : String) (ks : List String) (x : Json) (es : List (String × Json)) :
    enter base (k :: ks) x (some (.obj es)) =
      .obj (OrderedMap.insert k (enter base ks x (es.lookup k)) es) := rfl

theorem enter_none (k : String) (ks : List String) (x : Json) :
    enter base (k :: ks) x none = enter base (k :: ks) x (some (.obj [])) := rfl

theorem enter_of_ne_obj {v : Json} (h : ∀ es, v ≠ .obj es) (k : String) (ks : List String) (x : Json) :
    enter base (k :: ks) x (some v) = v := by
  cases v with
  | obj es => exact absurd rfl (h es)
  | _ => rfl

variable (base) in
/-- What the loop does below one key is the loop of the entries under it. -/
theorem fill_obj (h : Deep D) (es : List (String × Json)) : ∃ es', fill base D (some (.obj es)) = some (.obj es') ∧
    ((OrderedMap.keys es).Nodup → (OrderedMap.keys es').Nodup) ∧
    ∀ k, es'.lookup k = fill base (under k D) (es.lookup k) := by
  induction D generalizing es with
  | nil => exact ⟨es, rfl, id, fun _ => rfl⟩
  | cons e D ih =>
    obtain ⟨p, x⟩ := e
    obtain ⟨hp, hD⟩ := List.forall_mem_cons.mp h
    obtain ⟨k, ks, rfl⟩ := List.exists_cons_of_ne_nil hp
    rw [fill_cons, enter_obj]
    obtain ⟨es', hfill, hn, hl⟩ := ih hD (OrderedMap.insert k (enter base ks x (es.lookup k)) es)
    refine ⟨es', hfill, fun hes => hn (OrderedMap.nodup_insert _ _ hes), fun k' => ?_⟩
    rw [hl]
    by_cases hk : k' = k
    · subst hk
      rw [OrderedMap.lookup_insert_self, under_cons_self, fill_cons]
    · rw [OrderedMap.lookup_insert_of_ne hk, under_cons_of_ne (Ne.symm hk)]

theorem fill_of_ne_obj (h : Deep D) {v : Json} (hv : ∀ es, v ≠ .obj es) : fill base D (some v) = some v := by
  induction D with
  | nil => rfl
  | cons e D ih =>
    obtain ⟨p, x⟩ := e
    obtain ⟨hp, hD⟩ := List.forall_mem_cons.mp h
    obtain ⟨k, ks, rfl⟩ := List.exists_cons_of_ne_nil hp
    rw [fill_cons, enter_of_ne_obj hv, ih hD]

/-- An empty place becomes an object. -/
theorem fill_none (h : Deep D) (hne : D ≠ []) : fill base D none = fill base D (some (.obj [])) := by
  obtain ⟨⟨p, x⟩, D, rfl⟩ := List.exists_cons_of_ne_nil hne
  obtain ⟨k, ks, rfl⟩ := List.exists_cons_of_ne_nil (h _ List.mem_cons_self)
  rw [fill_cons, fill_cons, enter_none]

theorem enter_same (hb : Respects base) {x x' : Json} (hx : x.Same x') (p : List String)
    (h : SameOpt o o') : (enter base p x o).Same (enter base p x' o') := by
  induction p generalizing o o' with
  | nil => exact hb hx h
  | cons k ks ih =>
    have hstep : ∀ {v w : Json}, v.Same w →
        (enter base (k :: ks) x (some v)).Same (enter base (k :: ks) x' (some w)) := by
      intro v w hvw
      rcases hvw.obj_cases with ⟨es, fs, rfl, rfl⟩ | ⟨hv, hw⟩
      · obtain ⟨hes, hfs, hl⟩ := same_obj.mp hvw
        refine same_obj.mpr ⟨OrderedMap.nodup_insert _ _ hes, OrderedMap.nodup_insert _ _ hfs, fun k' => ?_⟩
        by_cases hk : k' = k
        · subst hk
          rw [OrderedMap.lookup_insert_self, OrderedMap.lookup_insert_self]
          exact .some (ih (hl k'))
        · rw [OrderedMap.lookup_insert_of_ne hk, OrderedMap.lookup_insert_of_ne hk]
          exact hl k'
      · rw [enter_of_ne_obj hv, enter_of_ne_obj hw]
        exact hvw
    cases h with
    | some h => exact hstep h
    | none => exact hstep (same_refl wf_empty)

theorem fill_same (hb : Respects base) (hD : Sound D) (h : SameOpt o o') :
    SameOpt (fill base D o) (fill base D o') := by
  induction D generalizing o o' with
  | nil => exact h
  | cons e D ih =>
    obtain ⟨hx, hD⟩ := List.forall_mem_cons.mp hD
    exact ih hD (.some (enter_same hb (same_refl hx) e.1 h))

variable (base) in
/-- **Key by key.** Entries that all lie below the place are independent when those under each
key are. -/
theorem indep_deep (h : Deep D) :
    (∀ σ : Entries Json, σ.Perm D → ∀ v : Json, v.WF → SameOpt (fill base σ (some v)) (fill base D (some v))) ↔
      ∀ k, Indep base (under k D) := by
  constructor
  · intro hall k σ hσ o ho
    -- the order `σ` below the key, and the rest of the entries behind it
    have hperm : (atKey k σ ++ apart k D).Perm D :=
      ((hσ.map _).append_right _).trans (perm_atKey_apart k D)
    have hunder : under k (atKey k σ ++ apart k D) = σ := by
      rw [under_append, under_atKey, under_apart, List.append_nil]
    obtain ⟨es, hes, hlk⟩ : ∃ es : List (String × Json), (Json.obj es).WF ∧ es.lookup k = o := by
      cases ho with
      | none => exact ⟨[], wf_empty, rfl⟩
      | @some v _ hv => exact ⟨[(k, v)], wf_obj.mpr ⟨by simp [OrderedMap.keys], by simpa using hv.1⟩, by simp⟩
    obtain ⟨es₁, h₁, -, hl₁⟩ := fill_obj base (D := atKey k σ ++ apart k D)
      (fun e he => h e (hperm.subset he)) es
    obtain ⟨es₂, h₂, -, hl₂⟩ := fill_obj base h es
    have hsame := hall _ hperm _ hes
    rw [h₁, h₂] at hsame
    cases hsame with
    | some hsame =>
      have hkey := hsame.lookup k
      rwa [hl₁, hl₂, hunder, hlk] at hkey
  · intro hall σ hσ v hv
    have hdeep : Deep σ := fun e he => h e (hσ.subset he)
    rcases v.asObject_cases with ⟨es, rfl⟩ | hne
    · obtain ⟨es₁, h₁, hn₁, hl₁⟩ := fill_obj base hdeep es
      obtain ⟨es₂, h₂, hn₂, hl₂⟩ := fill_obj base h es
      obtain ⟨hes, hfields⟩ := wf_obj.mp hv
      rw [h₁, h₂]
      refine .some (same_obj.mpr ⟨hn₁ hes, hn₂ hes, fun k => ?_⟩)
      rw [hl₁, hl₂]
      exact hall k _ (perm_under hσ k) _ (sameOpt_refl fun c hc => wf_field hv hc)
    · rw [fill_of_ne_obj hdeep hne, fill_of_ne_obj h hne]
      exact .some (same_refl hv)

theorem indep_nil : Indep base [] := fun σ hσ o ho => by
  rw [List.perm_nil.mp hσ]
  exact ho

/-- What independence asks of one place, asked of every place. -/
theorem indep_iff_under {Start : Entries Json → Prop}
    (step : ∀ D, Sound D → (Indep base D ↔ (∀ k, Indep base (under k D)) ∧ Start D)) (hD : Sound D) :
    Indep base D ↔ ∀ p, Start (underPath p D) := by
  constructor
  · intro h p
    induction p generalizing D with
    | nil => exact ((step D hD).mp h).2
    | cons k ks ih => exact ih (sound_under hD k) (((step D hD).mp h).1 k)
  · obtain ⟨n, hn⟩ := exists_depth D
    intro h
    induction n generalizing D with
    | zero =>
      refine (step D hD).mpr ⟨fun k => ?_, h []⟩
      rw [under_of_depth hn]
      exact indep_nil
    | succ n ih =>
      exact (step D hD).mpr ⟨fun k => ih (sound_under hD k) (depth_under hn k) fun p => h (k :: p), h []⟩

/-- An order of the entries comes from one of the items. -/
theorem exists_perm_map {α β : Type} {f : α → β} {l : List α} {σ : List β} (h : σ.Perm (l.map f)) :
    ∃ τ : List α, τ.Perm l ∧ σ = τ.map f := by
  have he := congrFun (congrFun (List.eq_map_comp_perm f) σ) l
  obtain ⟨τ, hτ, hp⟩ := he ▸ h
  exact ⟨τ, hp, hτ⟩

/-- The orders of some of the entries are those that the orders of the items give. -/
theorem forall_perm_filter {α β : Type} {f : α → β} {keep : β → Bool} {items : List α} {P : List β → Prop} :
    (∀ τ : List α, τ.Perm items → P ((τ.map f).filter keep)) ↔
      ∀ σ : List β, σ.Perm ((items.map f).filter keep) → P σ := by
  constructor
  · intro h σ hσ
    have hperm : (σ ++ (items.map f).filter fun e => !keep e).Perm (items.map f) :=
      (hσ.append_right _).trans (List.filter_append_perm keep _)
    obtain ⟨τ, hτ, hmap⟩ := exists_perm_map hperm
    have hkept : σ.filter keep = σ :=
      List.filter_eq_self.mpr fun e he => (List.mem_filter.mp (hσ.subset he)).2
    have hpart : (τ.map f).filter keep = σ := by
      rw [← hmap, List.filter_append, hkept, List.filter_filter]
      simp
    exact hpart ▸ h τ hτ
  · intro h τ hτ
    exact h _ ((hτ.map f).filter keep)

/-- One order against any other. -/
theorem orderFree_iff_one {α : Type} {loop : List α → Json → Json} {items : List α} : OrderFree loop items ↔
    ∀ τ : List α, τ.Perm items → ∀ v : Json, v.WF → (loop τ v).Same (loop items v) := by
  constructor
  · intro h τ hτ v hv
    exact h τ items hτ (List.Perm.refl _) v hv
  · intro h a b ha hb v hv
    exact (h a ha v hv).trans (h b hb v hv).symm

/-- A loop that enters its items below the place, whatever it does with the others. -/
theorem orderFree_iff {α : Type} {entry : α → List String × Json} {loop : List α → Json → Json}
    (hloop : ∀ items v, fill base (deeper (items.map entry)) (some v) = some (loop items v)) (items : List α) :
    OrderFree loop items ↔ ∀ k, Indep base (under k (items.map entry)) := by
  have hsame : ∀ (a b : List α) (v : Json), (loop a v).Same (loop b v) ↔
      SameOpt (fill base (deeper (a.map entry)) (some v)) (fill base (deeper (b.map entry)) (some v)) := by
    intro a b v
    rw [hloop, hloop]
    exact ⟨fun h => .some h, fun h => by cases h with | some h => exact h⟩
  have hkeys := indep_deep base (deep_deeper (items.map entry))
  simp only [under_deeper] at hkeys
  rw [← hkeys, orderFree_iff_one]
  simp only [hsame]
  exact forall_perm_filter (P := fun σ => ∀ v : Json, v.WF →
    SameOpt (fill base σ (some v)) (fill base (deeper (items.map entry)) (some v)))

end Loop

end MinMcp.Core.PlaceLoop
