import MinMcp.Core.Json.PlaceLoop
import MinMcp.L2Machine.Project
import Mathlib.Data.List.Perm.Basic

/-!
# The order of writes and of defaults

The `defaults` and the `set` of an overlay are hash maps, whose entries are applied in the order
of the iteration (src/surface/dispatch.rs:64-72, src/surface/results.rs:211-213).

* `defaults_orderFree_iff`: the order of the defaults does not matter **iff**, at every path, the
  defaults below make the same of its default as of an object they build, and defaults of one path
  are the same where there is none below.
* `set_orderFree_iff`: the order of the writes does not matter **iff** what is written at a path,
  with no write above, absorbs every other write at it or below.
-/
namespace MinMcp.L2.WriteOrder

open MinMcp.Core MinMcp.Core.Json MinMcp.Core.PlaceLoop MinMcp.L2.Project

/-! ## Defaults -/

section Defaults

variable {D σ : Entries Json}

/-- A default makes its value of an empty place, and leaves any other as it is. -/
def filled (x : Json) (o : Option Json) : Json := o.getD x

theorem respects_filled : Respects filled := by
  intro x x' o o' hx ho
  cases ho with
  | some h => exact h
  | none => exact hx

theorem enter_filled (p : List String) (x v : Json) : enter filled p x (some v) = defaultAt v p x := by
  induction p generalizing v with
  | nil => cases v <;> rfl
  | cons k ks ih =>
    rcases v.asObject_cases with ⟨es, rfl⟩ | hv
    · rw [enter_obj]
      cases ks with
      | nil =>
        rw [defaultAt, orInsert, enter, filled]
        cases hl : es.lookup k with
        | none => rfl
        | some c => rw [Option.getD_some, OrderedMap.insert_of_lookup hl]
      | cons l ls =>
        rw [defaultAt]
        · cases hl : es.lookup k with
          | none => rw [enter_none, ih]; rfl
          | some c => rw [ih]; rfl
        · simp
    · rw [enter_of_ne_obj hv]
      cases v with
      | obj es => exact absurd rfl (hv es)
      | _ => cases ks <;> rfl

/-- On a value the entries of its own place do nothing. -/
theorem fill_filled_some (D : Entries Json) (v : Json) :
    fill filled D (some v) = fill filled (deeper D) (some v) := by
  induction D generalizing v with
  | nil => rfl
  | cons e D ih =>
    obtain ⟨p, x⟩ := e
    rw [fill_cons, ih]
    cases p with
    | nil => rfl
    | cons k ks => rfl

/-- What independence of the defaults asks of one place. -/
structure Agree (D : Entries Json) : Prop where
  /-- With defaults below, a value is filled up to what they build from nothing. -/
  below : deeper D ≠ [] → ∀ x ∈ here D, SameOpt (fill filled (deeper D) (some x)) (fill filled (deeper D) none)
  alone : deeper D = [] → ∀ x ∈ here D, ∀ x' ∈ here D, x.Same x'

/-- The first entry at the place decides, or the entries below build an object. -/
theorem fill_filled_none (hk : ∀ k, Indep filled (under k D)) (hD : Sound D) (hagree : Agree D)
    (h : σ.Perm D) (hne : deeper D ≠ []) : SameOpt (fill filled σ none) (fill filled (deeper D) none) := by
  have hdeep : ∀ v : Json, v.WF → SameOpt (fill filled σ (some v)) (fill filled (deeper D) (some v)) := by
    intro v hv
    rw [fill_filled_some]
    exact (indep_deep filled (deep_deeper D)).mpr (fun k => by rw [under_deeper]; exact hk k) _ (perm_deeper h) v hv
  cases σ with
  | nil =>
    rw [List.nil_perm.mp h] at hne
    exact absurd rfl hne
  | cons e σ =>
    obtain ⟨p, x⟩ := e
    have hmem : (p, x) ∈ D := h.subset List.mem_cons_self
    cases p with
    | nil =>
      have hx : fill filled (([], x) :: σ) none = fill filled (([], x) :: σ) (some x) := rfl
      rw [hx]
      exact (hdeep x (hD _ hmem)).trans (hagree.below hne x (mem_here.mpr hmem))
    | cons k ks =>
      rw [fill_cons, enter_none, ← fill_cons, fill_none (deep_deeper D) hne]
      exact hdeep _ wf_empty

theorem fill_filled_alone (hD : Sound D) (hagree : Agree D) (h : σ.Perm D) (hnil : deeper D = []) :
    SameOpt (fill filled σ none) (fill filled D none) := by
  have hfirst : ∀ τ : Entries Json, τ.Perm D → τ ≠ [] → ∃ x ∈ here D, fill filled τ none = some x := by
    intro τ hτ hne
    obtain ⟨⟨p, x⟩, τ, rfl⟩ := List.exists_cons_of_ne_nil hne
    have hmem : (p, x) ∈ D := hτ.subset List.mem_cons_self
    have hp : p = [] := deeper_eq_nil hnil hmem
    subst hp
    refine ⟨x, mem_here.mpr hmem, ?_⟩
    have hτnil : deeper τ = [] := by
      have hd := perm_deeper hτ
      rw [hnil] at hd
      exact List.perm_nil.mp hd
    rw [fill_cons, fill_filled_some, hτnil]
    rfl
  by_cases hne : D = []
  · subst hne
    rw [List.perm_nil.mp h]
    exact .none
  · have hσ : σ ≠ [] := fun he => hne (List.nil_perm.mp (he ▸ h))
    obtain ⟨x, hx, hl⟩ := hfirst σ h hσ
    obtain ⟨x', hx', hr⟩ := hfirst D (List.Perm.refl _) hne
    rw [hl, hr]
    exact .some (hagree.alone hnil x hx x' hx')

/-- One place of the defaults. -/
theorem indep_filled_step (D : Entries Json) (hD : Sound D) :
    Indep filled D ↔ (∀ k, Indep filled (under k D)) ∧ Agree D := by
  constructor
  · intro h
    have hbelow : ∀ τ : Entries Json, τ.Perm (deeper D) → ∀ v : Json, v.WF →
        SameOpt (fill filled τ (some v)) (fill filled (deeper D) (some v)) := by
      intro τ hτ v hv
      have hdeep : Deep τ := fun e he => deep_deeper D e (hτ.subset he)
      have hall := h (τ ++ hereEntries D) ((hτ.append_right _).trans (perm_deeper_here D)) (some v)
        (.some (same_refl hv))
      have hpart : deeper (τ ++ hereEntries D) = τ := by
        rw [deeper, List.filter_append, ← deeper, deeper_of_deep hdeep]
        simp [hereEntries]
      rwa [fill_filled_some, hpart, fill_filled_some D] at hall
    refine ⟨fun k => ?_, ⟨fun hne x hx => ?_, fun hnil x hx x' hx' => ?_⟩⟩
    · have hk := (indep_deep filled (deep_deeper D)).mp hbelow k
      rwa [under_deeper] at hk
    · -- `x` first, against the entries below first
      obtain ⟨E, hE⟩ := perm_last (mem_here.mp hx)
      have hfirst := h (([], x) :: E) ((List.perm_append_singleton _ _).symm.trans hE) none .none
      have hlast := h (deeper D ++ hereEntries D) (perm_deeper_here D) none .none
      have hx' : fill filled (([], x) :: E) none = fill filled (([], x) :: E) (some x) := rfl
      have hbuilt : fill filled (deeper D ++ hereEntries D) none = fill filled (deeper D) none := by
        rw [fill_append, fill_none (deep_deeper D) hne]
        obtain ⟨es, hes, -⟩ := fill_obj filled (deep_deeper D) []
        rw [hes, fill_filled_some]
        have : deeper (hereEntries D) = [] := by simp [deeper, hereEntries]
        rw [this]
        rfl
      rw [hx', fill_filled_some] at hfirst
      rw [hbuilt] at hlast
      have hσ : (deeper (([], x) :: E)).Perm (deeper D) :=
        perm_deeper ((List.perm_append_singleton _ _).symm.trans hE)
      exact (hbelow _ hσ x (hD _ (mem_here.mp hx))).symm.trans (hfirst.trans hlast.symm)
    · have hone : ∀ y ∈ here D, SameOpt (some y) (fill filled D none) := by
        intro y hy
        obtain ⟨E, hE⟩ := perm_last (mem_here.mp hy)
        have hperm : (([], y) :: E).Perm D := (List.perm_append_singleton _ _).symm.trans hE
        have hfirst := h _ hperm none .none
        have hy' : fill filled (([], y) :: E) none = fill filled (([], y) :: E) (some y) := rfl
        have hEnil : deeper (([], y) :: E) = [] := List.perm_nil.mp (hnil ▸ perm_deeper hperm)
        rwa [hy', fill_filled_some, hEnil] at hfirst
      have := (hone x hx).trans (hone x' hx').symm
      cases this with
      | some h => exact h
  · rintro ⟨hk, hagree⟩ σ hσ o ho
    cases ho with
    | @some v _ hv =>
      rw [fill_filled_some σ, fill_filled_some D]
      exact (indep_deep filled (deep_deeper D)).mpr (fun k => by rw [under_deeper]; exact hk k) _ (perm_deeper hσ)
        v hv.1
    | none =>
      by_cases hne : deeper D = []
      · exact fill_filled_alone hD hagree hσ hne
      · exact (fill_filled_none hk hD hagree hσ hne).trans
          (fill_filled_none hk hD hagree (List.Perm.refl _) hne).symm

theorem indep_filled (hD : Sound D) : Indep filled D ↔ ∀ p, Agree (underPath p D) :=
  indep_iff_under indep_filled_step hD

end Defaults

/-! ## Writes -/

section Writes

variable {D σ : Entries Json}

/-- A write makes its value of any place. -/
def written (x : Json) (_ : Option Json) : Json := x

theorem respects_written : Respects written := fun hx _ => hx

theorem enter_written {p : List String} (hp : p ≠ []) (x v : Json) :
    enter written p x (some v) = setAt v p x := by
  induction p generalizing v with
  | nil => exact absurd rfl hp
  | cons k ks ih =>
    rw [setAt_eq_put (by simp)]
    rcases v.asObject_cases with ⟨es, rfl⟩ | hv
    · rw [enter_obj, Json.put_obj]
      cases ks with
      | nil => rw [Json.put_nil]; rfl
      | cons l ls =>
        rw [← setAt_eq_put (by simp), ← ih (by simp), Json.childAt]
        cases es.lookup k <;> rfl
    · rw [enter_of_ne_obj hv, Json.put_of_ne_obj hv]

/-- The write changes nothing in the value: it holds the same there, or something in it is in the
way. -/
def Absorbs (x : Json) (r : List String) (y : Json) : Prop :=
  (∃ z, x.getAt r = some z ∧ y.Same z) ∨ ¬ x.Placeable r

theorem enter_written_same {x y : Json} (hx : x.WF) (r : List String) :
    (enter written r y (some x)).Same x ↔ Absorbs x r y := by
  induction r generalizing x with
  | nil => simp [Absorbs, enter, written]
  | cons k ks ih =>
    unfold Absorbs
    rcases x.asObject_cases with ⟨es, rfl⟩ | hne
    · rw [enter_obj, same_obj, Json.getAt_obj, Json.placeable_obj, Json.childAt]
      have hkeys := (wf_obj.mp hx).1
      have hothers : (∀ k', SameOpt ((OrderedMap.insert k (enter written ks y (es.lookup k)) es).lookup k')
          (es.lookup k')) ↔ SameOpt (some (enter written ks y (es.lookup k))) (es.lookup k) := by
        constructor
        · intro h
          have := h k
          rwa [OrderedMap.lookup_insert_self] at this
        · intro h k'
          by_cases hk : k' = k
          · subst hk
            rwa [OrderedMap.lookup_insert_self]
          · rw [OrderedMap.lookup_insert_of_ne hk]
            exact sameOpt_refl fun c hc => wf_field hx hc
      rw [and_iff_right (OrderedMap.nodup_insert _ _ hkeys), and_iff_right hkeys, hothers]
      cases hl : es.lookup k with
      | none =>
        refine iff_of_false (fun h => by cases h) ?_
        simp [placeable_empty ks]
      | some c =>
        rw [Option.bind_some, Option.getD_some, ← Absorbs, ← ih (wf_field hx hl)]
        constructor
        · intro h
          cases h with
          | some h => exact h
        · intro h
          exact .some h
    · rw [enter_of_ne_obj hne]
      exact iff_of_true (same_refl hx) (Or.inr (Json.not_placeable_of_ne_obj hne k ks))

/-- What independence of the writes asks of a place that is written itself. -/
def Absorbing (D : Entries Json) : Prop := ∀ x ∈ here D, ∀ e ∈ D, Absorbs x e.1 e.2

/-- A write absorbs those before it and those behind it. -/
theorem fill_absorbed (hD : Sound D) (habs : Absorbing D) {x : Json} (hx : x ∈ here D) {τ : Entries Json}
    (hτ : ∀ e ∈ τ, e ∈ D) {o : Option Json} (h : (∃ y, ([], y) ∈ τ) ∨ SameOpt o (some x)) :
    SameOpt (fill written τ o) (some x) := by
  have hwf := hD _ (mem_here.mp hx)
  induction τ generalizing o with
  | nil => exact h.resolve_left fun ⟨y, hy⟩ => nomatch hy
  | cons e τ ih =>
    obtain ⟨he, hrest⟩ := List.forall_mem_cons.mp hτ
    obtain ⟨p, y⟩ := e
    have hself := (enter_written_same hwf p).mpr (habs x hx _ he)
    rw [fill_cons]
    refine ih hrest ?_
    cases p with
    | nil => exact Or.inr (.some hself)
    | cons k ks =>
      rcases h with ⟨z, hz⟩ | h
      · refine Or.inl ⟨z, (List.mem_cons.mp hz).resolve_left fun he => ?_⟩
        cases he
      · exact Or.inr (.some ((enter_same respects_written (same_refl (hD _ he)) _ h).trans hself))

/-- One place of the writes. -/
theorem indep_written_step (D : Entries Json) (hD : Sound D) : Indep written D ↔
    (here D ≠ [] ∧ Absorbing D) ∨ (here D = [] ∧ ∀ k, Indep written (under k D)) := by
  by_cases hh : here D = []
  · have hdeep := here_eq_nil.mp hh
    rw [or_iff_right fun h => h.1 hh, and_iff_right hh, ← indep_deep written hdeep]
    constructor
    · intro h σ hσ v hv
      exact h σ hσ _ (.some (same_refl hv))
    · intro h σ hσ o ho
      cases ho with
      | @some v _ hv => exact h σ hσ v hv.1
      | none =>
        by_cases hne : D = []
        · subst hne
          rw [List.perm_nil.mp hσ]
          exact .none
        · have hσne : σ ≠ [] := fun he => hne (List.nil_perm.mp (he ▸ hσ))
          rw [fill_none hdeep hne, fill_none (fun e he => hdeep e (hσ.subset he)) hσne]
          exact h σ hσ _ wf_empty
  · rw [or_iff_left fun h => hh h.1, and_iff_right hh]
    constructor
    · intro h x hx e he
      obtain ⟨E, hE⟩ := perm_last (mem_here.mp hx)
      have hlast : fill written (E ++ [([], x)]) none = some x := by
        rw [fill_append]
        rfl
      have hwf := hD _ (mem_here.mp hx)
      rw [← enter_written_same hwf]
      by_cases hex : e = ([], x)
      · rw [hex]
        exact same_refl hwf
      · -- `x` last, against `x` and then `e`
        obtain ⟨F, hF⟩ := perm_first_two (mem_here.mp hx) he (Ne.symm hex)
        have hperm : (F ++ [([], x), e]).Perm D := List.perm_append_comm.trans hF
        have hboth : fill written (F ++ [([], x), e]) none = some (enter written e.1 e.2 (some x)) := by
          rw [fill_append]
          rfl
        have h1 := h _ hperm none .none
        have h2 := h _ hE none .none
        rw [hboth] at h1
        rw [hlast] at h2
        have := h1.trans h2.symm
        cases this with
        | some h => exact h
    · intro habs σ hσ o ho
      obtain ⟨x, hx⟩ := List.exists_mem_of_ne_nil _ hh
      have hmem := mem_here.mp hx
      have hall : ∀ τ : Entries Json, τ.Perm D → SameOpt (fill written τ o) (some x) := fun τ hτ =>
        fill_absorbed hD habs hx (fun e he => hτ.subset he) (Or.inl ⟨x, (hτ.mem_iff).mpr hmem⟩)
      exact (hall σ hσ).trans (hall D (List.Perm.refl _)).symm

/-- No write at a place above, so far as the path leads through the entries. -/
def Uncovered (p : List String) (D : Entries Json) : Prop := ∀ q, q <+: p → q ≠ p → here (underPath q D) = []

theorem indep_written (hD : Sound D) : Indep written D ↔
    ∀ p, Uncovered p D → here (underPath p D) ≠ [] → Absorbing (underPath p D) := by
  constructor
  · intro h p hp hne
    induction p generalizing D with
    | nil => exact (((indep_written_step D hD).mp h).resolve_right fun hn => hne hn.1).2
    | cons k ks ih =>
      have hhere : here D = [] := hp [] List.nil_prefix (by simp)
      have hk := (((indep_written_step D hD).mp h).resolve_left fun hn => hn.1 hhere).2 k
      refine ih (sound_under hD k) hk (fun q hq hne => ?_) hne
      exact hp (k :: q) (List.cons_prefix_cons.mpr ⟨rfl, hq⟩) fun he => hne (List.cons.inj he).2
  · obtain ⟨n, hn⟩ := exists_depth D
    intro h
    induction n generalizing D with
    | zero =>
      rw [indep_written_step D hD]
      by_cases hhere : here D = []
      · exact Or.inr ⟨hhere, fun k => by rw [under_of_depth hn]; exact indep_nil⟩
      · exact Or.inl ⟨hhere, h [] (fun q hq hne => absurd (List.prefix_nil.mp hq) hne) hhere⟩
    | succ n ih =>
      rw [indep_written_step D hD]
      by_cases hhere : here D = []
      · refine Or.inr ⟨hhere, fun k => ih (sound_under hD k) (depth_under hn k) fun p hp hne => ?_⟩
        refine h (k :: p) (fun q hq hqne => ?_) hne
        cases q with
        | nil => exact hhere
        | cons k' q =>
          obtain ⟨rfl, hq'⟩ := List.cons_prefix_cons.mp hq
          exact hp q hq' fun he => hqne (by rw [he])
      · exact Or.inl ⟨hhere, h [] (fun q hq hne => absurd (List.prefix_nil.mp hq) hne) hhere⟩

end Writes

/-! ## The loops -/

/-- mirrors src/surface/dispatch.rs:66-70 -/
def setDefaults (ds : List (String × Json)) (v : Json) : Json :=
  ds.foldl (fun a d => setDefault a d.1 d.2) v

/-- mirrors src/surface/results.rs:211-213 -/
def setEach (ws : List (String × Json)) (v : Json) : Json := ws.foldl (fun v s => set v s.1 s.2) v

def parsed (d : String × Json) : List String × Json := (parsePath d.1, d.2)

/-- The defaults below the path, from there on. -/
def defaultsBelow (p : List String) (ds : List (String × Json)) : Entries Json := deeper (underPath p (ds.map parsed))

/-- The defaults that lead below a value, applied to it. -/
def fillIn (D : Entries Json) (v : Json) : Json := D.foldl (fun v e => defaultAt v e.1 e.2) v

/-- The defaults below the path of a default make the same of its value as of an empty object;
where there are none, its value is that of every default of the path. -/
def DefaultsAgree (ds : List (String × Json)) : Prop :=
  ∀ d ∈ ds, parsePath d.1 ≠ [] → if defaultsBelow (parsePath d.1) ds = [] then
      ∀ d' ∈ ds, parsePath d'.1 = parsePath d.1 → d.2.Same d'.2
    else (fillIn (defaultsBelow (parsePath d.1) ds) d.2).Same (fillIn (defaultsBelow (parsePath d.1) ds) (.obj []))

/-- A value with no write above absorbs every write at its path or below. -/
def WritesAgree (ws : List (String × Json)) : Prop :=
  ∀ u ∈ ws, parsePath u.1 ≠ [] →
    (∀ w ∈ ws, parsePath w.1 ≠ [] → parsePath w.1 <+: parsePath u.1 → parsePath w.1 = parsePath u.1) →
    ∀ w ∈ ws, ∀ r, parsePath w.1 = parsePath u.1 ++ r → Absorbs u.2 r w.2

section Loops

variable {ds ws : List (String × Json)}

theorem fill_setDefaults (ds : List (String × Json)) (v : Json) :
    fill filled (deeper (ds.map parsed)) (some v) = some (setDefaults ds v) := by
  rw [← fill_filled_some]
  induction ds generalizing v with
  | nil => rfl
  | cons d ds ih =>
    rw [List.map_cons, parsed, fill_cons, enter_filled, ih]
    rfl

theorem fill_setEach (ws : List (String × Json)) (v : Json) :
    fill written (deeper (ws.map parsed)) (some v) = some (setEach ws v) := by
  induction ws generalizing v with
  | nil => rfl
  | cons w ws ih =>
    rw [List.map_cons, parsed, setEach, List.foldl_cons, ← setEach, ← ih]
    by_cases hp : parsePath w.1 = []
    · rw [Project.set, hp, setAt_nil, deeper, List.filter_cons_of_neg (by simp), ← deeper]
    · rw [deeper, List.filter_cons_of_pos (by simpa using hp), ← deeper, fill_cons, enter_written hp]
      rfl

theorem fill_fillIn (D : Entries Json) (v : Json) : fill filled D (some v) = some (fillIn D v) := by
  induction D generalizing v with
  | nil => rfl
  | cons e D ih =>
    rw [fill_cons, enter_filled, ih]
    rfl

theorem sound_parsed (h : ∀ d ∈ ds, d.2.WF) : Sound (ds.map parsed) := by
  intro e he
  obtain ⟨d, hd, rfl⟩ := List.mem_map.mp he
  exact h d hd

theorem mem_here_underPath {p : List String} {x : Json} :
    x ∈ here (underPath p (ds.map parsed)) ↔ ∃ d ∈ ds, parsePath d.1 = p ∧ d.2 = x := by
  rw [mem_here, mem_underPath, List.append_nil, List.mem_map]
  simp [parsed]

theorem agree_iff {p : List String} : Agree (underPath p (ds.map parsed)) ↔ ∀ d ∈ ds, parsePath d.1 = p →
    if defaultsBelow p ds = [] then ∀ d' ∈ ds, parsePath d'.1 = p → d.2.Same d'.2
    else (fillIn (defaultsBelow p ds) d.2).Same (fillIn (defaultsBelow p ds) (.obj [])) := by
  constructor
  · intro h d hd hp
    split
    · next hnil =>
      intro d' hd' hp'
      exact h.alone hnil _ (mem_here_underPath.mpr ⟨d, hd, hp, rfl⟩) _ (mem_here_underPath.mpr ⟨d', hd', hp', rfl⟩)
    · next hne =>
      have := h.below hne _ (mem_here_underPath.mpr ⟨d, hd, hp, rfl⟩)
      rw [fill_none (deep_deeper _) hne, fill_fillIn, fill_fillIn] at this
      cases this with
      | some h => exact h
  · intro h
    refine ⟨fun hne x hx => ?_, fun hnil x hx x' hx' => ?_⟩
    · obtain ⟨d, hd, hp, rfl⟩ := mem_here_underPath.mp hx
      have := h d hd hp
      rw [if_neg (show defaultsBelow p ds ≠ [] from hne)] at this
      rw [fill_none (deep_deeper _) hne, fill_fillIn, fill_fillIn]
      exact .some this
    · obtain ⟨d, hd, hp, rfl⟩ := mem_here_underPath.mp hx
      obtain ⟨d', hd', hp', rfl⟩ := mem_here_underPath.mp hx'
      have := h d hd hp
      rw [if_pos (show defaultsBelow p ds = [] from hnil)] at this
      exact this d' hd' hp'

/-- **Defaults.** When their order does not matter. -/
theorem defaults_orderFree_iff (hs : ∀ d ∈ ds, d.2.WF) : OrderFree setDefaults ds ↔ DefaultsAgree ds := by
  rw [orderFree_iff fill_setDefaults]
  simp only [indep_filled (sound_under (sound_parsed hs) _)]
  constructor
  · intro h d hd hp
    obtain ⟨k, ks, hk⟩ := List.exists_cons_of_ne_nil hp
    have := agree_iff.mp (show Agree (underPath (k :: ks) (ds.map parsed)) from h k ks) d hd hk
    rwa [← hk] at this
  · intro h k ks
    have hplace : Agree (underPath (k :: ks) (ds.map parsed)) := agree_iff.mpr fun d hd hp => by
      have := h d hd (by rw [hp]; simp)
      rwa [hp] at this
    exact hplace

/-- **Writes.** When their order does not matter. -/
theorem set_orderFree_iff (hs : ∀ w ∈ ws, w.2.WF) : OrderFree setEach ws ↔ WritesAgree ws := by
  rw [orderFree_iff fill_setEach]
  simp only [indep_written (sound_under (sound_parsed hs) _)]
  have hcover : ∀ k ks, Uncovered ks (under k (ws.map parsed)) ↔ ∀ w ∈ ws, parsePath w.1 ≠ [] →
      parsePath w.1 <+: k :: ks → parsePath w.1 = k :: ks := by
    intro k ks
    constructor
    · intro h w hw hne hp
      obtain ⟨k', q, hq⟩ := List.exists_cons_of_ne_nil hne
      rw [hq] at hp ⊢
      obtain ⟨rfl, hprefix⟩ := List.cons_prefix_cons.mp hp
      by_contra hcon
      have hnil := h q hprefix fun he => hcon (by rw [he])
      have hmem : w.2 ∈ here (underPath (k' :: q) (ws.map parsed)) := mem_here_underPath.mpr ⟨w, hw, hq, rfl⟩
      rw [underPath, hnil] at hmem
      cases hmem
    · intro h q hq hne
      refine List.eq_nil_iff_forall_not_mem.mpr fun x hx => ?_
      obtain ⟨w, hw, hp, -⟩ := mem_here_underPath.mp
        (show x ∈ here (underPath (k :: q) (ws.map parsed)) from hx)
      have := h w hw (by rw [hp]; simp) (by rw [hp]; exact List.cons_prefix_cons.mpr ⟨rfl, hq⟩)
      rw [hp] at this
      exact hne (List.cons.inj this).2
  simp only [hcover]
  constructor
  · intro h u hu hne habove w hw r hr
    obtain ⟨k, ks, hk⟩ := List.exists_cons_of_ne_nil hne
    have hmem : u.2 ∈ here (underPath (k :: ks) (ws.map parsed)) := mem_here_underPath.mpr ⟨u, hu, hk, rfl⟩
    have hentry : (r, w.2) ∈ underPath (k :: ks) (ws.map parsed) :=
      mem_underPath.mpr (List.mem_map.mpr ⟨w, hw, by rw [parsed, hr, hk]⟩)
    rw [hk] at habove
    exact h k ks habove (List.ne_nil_of_mem hmem) _ hmem _ hentry
  · intro h k ks habove _ x hx e he
    obtain ⟨u, hu, hk, rfl⟩ := mem_here_underPath.mp
      (show x ∈ here (underPath (k :: ks) (ws.map parsed)) from hx)
    have hentry : (k :: ks ++ e.1, e.2) ∈ ws.map parsed :=
      mem_underPath.mp (show (e.1, e.2) ∈ underPath (k :: ks) (ws.map parsed) from he)
    obtain ⟨w, hw, hpair⟩ := List.mem_map.mp hentry
    simp only [parsed, Prod.mk.injEq] at hpair
    rw [← hpair.2]
    refine h u hu (by rw [hk]; simp) (by rw [hk]; exact habove) w hw e.1 ?_
    rw [hpair.1, hk]

end Loops

end MinMcp.L2.WriteOrder
