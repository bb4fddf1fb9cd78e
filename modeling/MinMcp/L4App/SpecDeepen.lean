import MinMcp.L4App.SpecResolve
import Mathlib.Algebra.GroupWithZero.Nat
import Mathlib.Algebra.Order.BigOperators.Group.List
import Mathlib.Algebra.Order.Group.Nat
import Mathlib.Data.Nat.Find
import Mathlib.Order.Bounds.Basic

/-!
# Iterative deepening

What a pass of `Spec::resolve` (src/spec.rs) costs and leaves out, counted beside it. `tally`
adds up over the nodes a pass visits: `visits` is what it is charged, `cutRefs` the references
it stops at. A pass is then the expansion `inline`, when it is charged no more than the budget
(`expand_eq`), and a deeper pass is charged at least as much (`visits_mono`).

* `walk_induction`: over the nodes of a pass, references followed.
* `expand_eq`: a pass in terms of what it is charged.
* `levels_complete`, `levels_deepest`: which pass is kept.
* `resolve_deepens`: a node is resolved to the first complete expansion when the passes up to it
  fit, otherwise to the deepest that fits.
-/
namespace MinMcp.L4.OpenApi

open MinMcp.Core

/-! ## The references of a pass -/

/-- Why a reference stays where it is. -/
inductive Kept where
  | circular | external | cut | dangling
  deriving DecidableEq

/-- The reference `r` with `left` levels to go, `none` when it is followed. -/
def kept (root : Json) (left : Nat) (seen : List String) (r : String) : Option Kept :=
  if r ∈ seen then some .circular
  else
    match localRef r with
    | none => some .external
    | some path =>
      match left with
      | 0 => some .cut
      | _ + 1 => if (follow root path).isSome then none else some .dangling

/-- What stands for a reference that is not followed. -/
def Kept.put (limit : Nat) (r : String) (node : Json) : Kept → Json
  | circular => .obj [("$circular", .str r)]
  | cut => if limit = maxRefChain then node else .obj [("$omitted", .str r)]
  | external | dangling => node

/-- The value a local reference leads to. -/
def followed (root : Json) (r : String) : Option Json := (localRef r).bind (follow root)

theorem kept_eq_none {root : Json} {left : Nat} {seen : List String} {r : String}
    (h : kept root left seen r = none) :
    r ∉ seen ∧ ∃ left' target, left = left' + 1 ∧ followed root r = some target := by
  unfold kept at h
  split at h
  · cases h
  · next hr =>
    refine ⟨hr, ?_⟩
    unfold followed
    cases hl : localRef r with
    | none => simp [hl] at h
    | some path =>
      cases left with
      | zero => simp [hl] at h
      | succ left =>
        cases hf : follow root path with
        | none => simp [hl, hf] at h
        | some target => exact ⟨left, target, rfl, hf⟩

theorem kept_succ {root : Json} {left : Nat} {seen : List String} {r : String} {target : Json}
    (hr : r ∉ seen) (ht : followed root r = some target) : kept root (left + 1) seen r = none := by
  obtain ⟨path, hl, hf⟩ := Option.bind_eq_some_iff.mp ht
  simp [kept, hr, hl, hf]

/-- **Induction over a pass.** The nodes below a node, and the targets of the references that
are followed, with one level less. -/
theorem walk_induction (root : Json) {P : Nat → List String → Json → Prop}
    (leaf : ∀ left seen v, v.asObject = none → v.asArray = none → P left seen v)
    (arr : ∀ left seen xs, (∀ v ∈ xs, P left seen v) → P left seen (.arr xs))
    (obj : ∀ left seen es, refOf (.obj es) = none → (∀ e ∈ es, P left seen e.2) → P left seen (.obj es))
    (stays : ∀ left seen es r k, refOf (.obj es) = some r → kept root left seen r = some k →
      P left seen (.obj es))
    (follows : ∀ left seen es r target, refOf (.obj es) = some r → r ∉ seen →
      followed root r = some target → P left (seen ++ [r]) target → P (left + 1) seen (.obj es))
    (left : Nat) (seen : List String) (v : Json) : P left seen v := by
  have walk : ∀ left, (∀ seen es r, refOf (.obj es) = some r → P left seen (.obj es)) →
      ∀ seen v, P left seen v := by
    intro left hrefs seen v
    induction v using Json.ind with
    | arr xs ih => exact arr left seen xs ih
    | obj es ih =>
      cases hr : refOf (.obj es) with
      | none => exact obj left seen es hr ih
      | some r => exact hrefs seen es r hr
    | _ => exact leaf left seen _ rfl rfl
  induction left generalizing seen v with
  | zero =>
    refine walk 0 (fun seen es r hr => ?_) seen v
    cases hk : kept root 0 seen r with
    | none =>
      obtain ⟨-, left', -, h, -⟩ := kept_eq_none hk
      cases h
    | some k => exact stays 0 seen es r k hr hk
  | succ left ih =>
    refine walk (left + 1) (fun seen es r hr => ?_) seen v
    cases hk : kept root (left + 1) seen r with
    | none =>
      obtain ⟨hn, left', target, -, ht⟩ := kept_eq_none hk
      exact follows left seen es r target hr hn ht (ih (seen ++ [r]) target)
    | some k => exact stays (left + 1) seen es r k hr hk

/-! ## Counting over a pass -/

mutual
def tallyWith (weight : Nat) (visit : String → Json → Nat) : Json → Nat
  | .obj es =>
    weight + match (es.lookup "$ref").bind Json.asStr with
      | some r => visit r (.obj es)
      | none => tallyEntries weight visit es
  | .arr xs => weight + tallyElems weight visit xs
  | _ => weight
termination_by structural v => v
def tallyEntries (weight : Nat) (visit : String → Json → Nat) : List (String × Json) → Nat
  | [] => 0
  | (_, v) :: es => tallyWith weight visit v + tallyEntries weight visit es
termination_by structural es => es
def tallyElems (weight : Nat) (visit : String → Json → Nat) : List Json → Nat
  | [] => 0
  | v :: xs => tallyWith weight visit v + tallyElems weight visit xs
termination_by structural xs => xs
end

/-- Over the nodes a pass visits: `weight` for each, `step` for each reference followed, `stay`
for one that stays. -/
def tally (root : Json) (weight step : Nat) (stay : Kept → Json → Nat) :
    Nat → List String → Json → Nat
  | 0, seen =>
    tallyWith weight fun r node => (kept root 0 seen r).elim 0 fun k => stay k node
  | left + 1, seen =>
    tallyWith weight fun r node =>
      match kept root (left + 1) seen r with
      | some k => stay k node
      | none => step + (followed root r).elim 0 (tally root weight step stay left (seen ++ [r]))

/-- The nodes a pass visits, which it is charged for. -/
def visits (root : Json) : Nat → List String → Json → Nat := tally root 1 0 fun _ _ => 0

/-- The references a pass stops at for want of levels. -/
def cutRefs (root : Json) : Nat → List String → Json → Nat :=
  tally root 0 0 fun k _ => if k = .cut then 1 else 0

section Tally

variable (root : Json) (weight step : Nat) (stay : Kept → Json → Nat) (left : Nat) (seen : List String)

theorem tally_eq_walk : ∃ visit, tally root weight step stay left seen = tallyWith weight visit := by
  cases left with
  | zero => exact ⟨_, rfl⟩
  | succ left => exact ⟨_, rfl⟩

theorem tally_leaf {v : Json} (ho : v.asObject = none) (ha : v.asArray = none) :
    tally root weight step stay left seen v = weight := by
  obtain ⟨visit, hv⟩ := tally_eq_walk root weight step stay left seen
  rw [hv]
  cases v with
  | obj es => cases ho
  | arr xs => cases ha
  | _ => rfl

theorem tallyEntries_eq (visit : String → Json → Nat) (es : List (String × Json)) :
    tallyEntries weight visit es = (es.map fun e => tallyWith weight visit e.2).sum := by
  induction es with
  | nil => rfl
  | cons e es ih => rw [tallyEntries, ih, List.map_cons, List.sum_cons]

theorem tallyElems_eq (visit : String → Json → Nat) (xs : List Json) :
    tallyElems weight visit xs = (xs.map (tallyWith weight visit)).sum := by
  induction xs with
  | nil => rfl
  | cons v xs ih => rw [tallyElems, ih, List.map_cons, List.sum_cons]

theorem tally_arr (xs : List Json) :
    tally root weight step stay left seen (.arr xs) =
      weight + (xs.map (tally root weight step stay left seen)).sum := by
  obtain ⟨visit, hv⟩ := tally_eq_walk root weight step stay left seen
  rw [hv, tallyWith, tallyElems_eq]

theorem tally_obj {es : List (String × Json)} (h : refOf (.obj es) = none) :
    tally root weight step stay left seen (.obj es) =
      weight + (es.map fun e => tally root weight step stay left seen e.2).sum := by
  obtain ⟨visit, hv⟩ := tally_eq_walk root weight step stay left seen
  rw [hv, tallyWith, show (es.lookup "$ref").bind Json.asStr = none from h]
  exact congrArg (weight + ·) (tallyEntries_eq weight _ es)

theorem tally_stays {es : List (String × Json)} {r : String} {k : Kept} (h : refOf (.obj es) = some r)
    (hk : kept root left seen r = some k) :
    tally root weight step stay left seen (.obj es) = weight + stay k (.obj es) := by
  cases left with
  | zero =>
    rw [tally, tallyWith, show (es.lookup "$ref").bind Json.asStr = some r from h]
    simp only [hk, Option.elim_some]
  | succ left =>
    rw [tally, tallyWith, show (es.lookup "$ref").bind Json.asStr = some r from h]
    simp only [hk]

theorem tally_follows {es : List (String × Json)} {r : String} {target : Json}
    (h : refOf (.obj es) = some r) (hr : r ∉ seen) (ht : followed root r = some target) :
    tally root weight step stay (left + 1) seen (.obj es) =
      weight + (step + tally root weight step stay left (seen ++ [r]) target) := by
  rw [tally, tallyWith, show (es.lookup "$ref").bind Json.asStr = some r from h]
  simp only [kept_succ hr ht, ht, Option.elim_some]

end Tally

/-! ## The expansion, case by case -/

section Inline

variable (root : Json) (limit left : Nat) (seen : List String)

theorem inline_leaf {v : Json} (ho : v.asObject = none) (ha : v.asArray = none) :
    inline root limit left seen v = v := by
  obtain ⟨visit, hv⟩ := inline_eq_walk root limit left seen
  rw [hv]
  cases v with
  | obj es => cases ho
  | arr xs => cases ha
  | _ => rfl

theorem inlineEntries_eq (visit : String → Json → Json) (es : List (String × Json)) :
    inlineEntries visit es = es.map fun e => (e.1, inlineWith visit e.2) := by
  induction es with
  | nil => rfl
  | cons e es ih => rw [inlineEntries, ih, List.map_cons]

theorem inline_obj {es : List (String × Json)} (h : refOf (.obj es) = none) :
    inline root limit left seen (.obj es) = .obj (es.map fun e => (e.1, inline root limit left seen e.2)) := by
  obtain ⟨visit, hv⟩ := inline_eq_walk root limit left seen
  rw [hv, inlineWith, show (es.lookup "$ref").bind Json.asStr = none from h]
  exact congrArg Json.obj (inlineEntries_eq visit es)

theorem inline_stays {es : List (String × Json)} {r : String} {k : Kept} (h : refOf (.obj es) = some r)
    (hk : kept root left seen r = some k) :
    inline root limit left seen (.obj es) = k.put limit r (.obj es) := by
  unfold kept at hk
  cases left with
  | zero =>
    rw [inline, inlineWith, show (es.lookup "$ref").bind Json.asStr = some r from h]
    by_cases hr : r ∈ seen
    · simp only [hr, if_true] at hk ⊢
      cases hk
      rfl
    · simp only [hr, if_false] at hk ⊢
      cases hl : localRef r with
      | none =>
        simp only [hl] at hk
        cases hk
        rfl
      | some path =>
        simp only [hl] at hk
        cases hk
        rfl
  | succ left =>
    rw [inline, inlineWith, show (es.lookup "$ref").bind Json.asStr = some r from h]
    by_cases hr : r ∈ seen
    · simp only [hr, if_true] at hk ⊢
      cases hk
      rfl
    · simp only [hr, if_false] at hk ⊢
      cases hl : localRef r with
      | none =>
        simp only [hl] at hk
        cases hk
        rfl
      | some path =>
        simp only [hl] at hk ⊢
        cases hf : follow root path with
        | none =>
          simp only [hf] at hk
          cases hk
          rfl
        | some target => simp [hf] at hk

theorem inline_follows {es : List (String × Json)} {r : String} {target : Json}
    (h : refOf (.obj es) = some r) (hr : r ∉ seen) (ht : followed root r = some target) :
    inline root limit (left + 1) seen (.obj es) = inline root limit left (seen ++ [r]) target := by
  obtain ⟨path, hl, hf⟩ := Option.bind_eq_some_iff.mp ht
  rw [inline, inlineWith, show (es.lookup "$ref").bind Json.asStr = some r from h]
  simp only [hr, if_false, hl, hf]

end Inline

/-! ## A pass and its charge -/

/-- A pass that has visited `cost` nodes and stopped at `cuts` references. -/
def Expansion.after (pass : Expansion) (cost cuts : Nat) : Expansion :=
  ⟨pass.limit, pass.budget - cost, pass.cut || decide (0 < cuts)⟩

/-- The outcome of a walk that costs `cost`. -/
def charged {α : Type} (pass : Expansion) (cost cuts : Nat) (out : α) : Option (α × Expansion) :=
  if cost ≤ pass.budget then some (out, pass.after cost cuts) else none

@[simp] theorem after_limit (pass : Expansion) (cost cuts : Nat) : (pass.after cost cuts).limit = pass.limit :=
  rfl

theorem after_after (pass : Expansion) (cost cost' cuts cuts' : Nat) :
    (pass.after cost cuts).after cost' cuts' = pass.after (cost + cost') (cuts + cuts') := by
  simp only [Expansion.after, Nat.sub_sub, Bool.or_assoc, Expansion.mk.injEq, true_and]
  congr 1
  rw [← Bool.decide_or]
  exact decide_eq_decide.mpr (by omega)

/-- Two walks, one after the other. -/
theorem charged_bind {α β γ : Type} (pass : Expansion) (cost cost' cuts cuts' : Nat) (out : α) (out' : β)
    (both : α → β → γ) :
    ((charged pass cost cuts out).bind fun first =>
      (charged first.2 cost' cuts' out').map fun second => (both first.1 second.1, second.2)) =
    charged pass (cost + cost') (cuts + cuts') (both out out') := by
  unfold charged
  by_cases hfirst : cost ≤ pass.budget
  · rw [if_pos hfirst, Option.bind_some]
    by_cases hsecond : cost' ≤ pass.budget - cost
    · rw [if_pos (show cost' ≤ (pass.after cost cuts).budget from hsecond), if_pos (by omega), Option.map_some,
        after_after]
    · rw [if_neg (show ¬ cost' ≤ (pass.after cost cuts).budget from hsecond), if_neg (by omega), Option.map_none]
  · rw [if_neg hfirst, if_neg (by omega), Option.bind_none]

theorem spend_eq (pass : Expansion) : pass.spend = (charged pass 1 0 ()).map Prod.snd := by
  unfold Expansion.spend charged
  by_cases hb : pass.budget = 0
  · rw [if_pos hb, if_neg (by omega), Option.map_none]
  · rw [if_neg hb, if_pos (by omega), Option.map_some]
    simp [Expansion.after]

/-- A visitor at a node, before it goes on. -/
theorem spend_bind {α β : Type} (pass : Expansion) (cost cuts : Nat) (out : α) (wrap : α → β) :
    (pass.spend.bind fun pass => (charged pass cost cuts out).map fun o => (wrap o.1, o.2)) =
      charged pass (1 + cost) cuts (wrap out) := by
  have := charged_bind pass 1 cost 0 cuts () out fun _ o => wrap o
  rw [Nat.zero_add] at this
  rw [← this, spend_eq]
  cases charged pass 1 0 () <;> rfl

section Walk

variable {visit : Visitor} {cost cuts : Json → Nat} {out : Nat → Json → Json}

/-- A walk that costs what `cost` says. -/
def Costs (visit : Visitor) (cost cuts : Json → Nat) (out : Nat → Json → Json) (v : Json) : Prop :=
  ∀ pass : Expansion, expandWith visit v pass = charged pass (cost v) (cuts v) (out pass.limit v)

theorem expandElems_eq {xs : List Json} (h : ∀ v ∈ xs, Costs visit cost cuts out v) (pass : Expansion) :
    expandElems visit xs pass =
      charged pass (xs.map cost).sum (xs.map cuts).sum (xs.map (out pass.limit)) := by
  induction xs generalizing pass with
  | nil => simp [expandElems, charged, Expansion.after]
  | cons v xs ih =>
    rw [List.forall_mem_cons] at h
    rw [expandElems, h.1 pass, List.map_cons, List.map_cons, List.map_cons, List.sum_cons, List.sum_cons,
      ← charged_bind pass _ _ _ _ _ _ List.cons]
    unfold charged
    by_cases hc : cost v ≤ pass.budget
    · rw [if_pos hc, Option.bind_some, Option.bind_some, ih h.2]
      rfl
    · rw [if_neg hc, Option.bind_none, Option.bind_none]

theorem expandEntries_eq {es : List (String × Json)} (h : ∀ e ∈ es, Costs visit cost cuts out e.2)
    (pass : Expansion) :
    expandEntries visit es pass =
      charged pass (es.map fun e => cost e.2).sum (es.map fun e => cuts e.2).sum
        (es.map fun e => (e.1, out pass.limit e.2)) := by
  induction es generalizing pass with
  | nil => simp [expandEntries, charged, Expansion.after]
  | cons e es ih =>
    obtain ⟨k, v⟩ := e
    rw [List.forall_mem_cons] at h
    rw [expandEntries, h.1 pass, List.map_cons, List.map_cons, List.map_cons, List.sum_cons, List.sum_cons,
      ← charged_bind pass _ _ _ _ _ _ fun w rest => (k, w) :: rest]
    unfold charged
    by_cases hc : cost v ≤ pass.budget
    · rw [if_pos hc, Option.bind_some, Option.bind_some, ih h.2]
      rfl
    · rw [if_neg hc, Option.bind_none, Option.bind_none]

end Walk

theorem expand_eq_walk (root : Json) (left : Nat) (seen : List String) :
    ∃ visit, expand root left seen = expandWith visit := by
  unfold expand
  exact ⟨_, rfl⟩

theorem expand_stays {root : Json} {left : Nat} {seen : List String} {es : List (String × Json)} {r : String}
    {k : Kept} (h : refOf (.obj es) = some r) (hk : kept root left seen r = some k) (pass : Expansion) :
    expand root left seen (.obj es) pass =
      charged pass 1 (if k = .cut then 1 else 0) (k.put pass.limit r (.obj es)) := by
  unfold expand
  rw [expandWith, show (es.lookup "$ref").bind Json.asStr = some r from h]
  by_cases hb : pass.budget = 0
  · rw [Expansion.spend, charged, if_pos hb, if_neg (by omega), Option.bind_none]
  rw [Expansion.spend, charged, if_neg hb, if_pos (by omega), Option.bind_some]
  unfold kept at hk
  by_cases hr : r ∈ seen
  · simp only [hr, if_true] at hk ⊢
    cases hk
    simp [Expansion.after, Kept.put]
  simp only [hr, if_false] at hk ⊢
  cases hl : localRef r with
  | none =>
    simp only [hl] at hk
    cases hk
    simp [Expansion.after, Kept.put]
  | some path =>
    simp only [hl] at hk ⊢
    cases left with
    | zero =>
      cases hk
      simp [Expansion.after, Kept.put]
    | succ left =>
      cases hf : follow root path with
      | none =>
        simp only [hf] at hk
        cases hk
        simp [Expansion.after, Kept.put]
      | some target => simp [hf] at hk

/-- At a reference that is followed the walk goes on at its target. -/
theorem expand_follows {root : Json} {left : Nat} {seen : List String} {es : List (String × Json)} {r : String}
    {target : Json} (h : refOf (.obj es) = some r) (hr : r ∉ seen) (ht : followed root r = some target)
    (pass : Expansion) :
    expand root (left + 1) seen (.obj es) pass =
      pass.spend.bind (expand root left (seen ++ [r]) target) := by
  obtain ⟨path, hl, hf⟩ := Option.bind_eq_some_iff.mp ht
  rw [expand, expandWith, show (es.lookup "$ref").bind Json.asStr = some r from h]
  simp only [hr, if_false, hl, hf]

/-- **A pass is an expansion within its charge.** It comes to its end exactly when the nodes it
visits keep to its budget, and is cut exactly when it stops at a reference. -/
theorem expand_eq (root : Json) (left : Nat) (seen : List String) (v : Json) :
    ∀ pass : Expansion, expand root left seen v pass =
      charged pass (visits root left seen v) (cutRefs root left seen v) (inline root pass.limit left seen v) := by
  induction left, seen, v using walk_induction root with
  | leaf left seen v ho ha =>
    intro pass
    obtain ⟨visit, hv⟩ := expand_eq_walk root left seen
    rw [hv, visits, cutRefs, tally_leaf root _ _ _ _ _ ho ha, tally_leaf root _ _ _ _ _ ho ha,
      inline_leaf root _ _ _ ho ha]
    cases v with
    | obj es => cases ho
    | arr xs => cases ha
    | null | bool _ | num _ | str _ =>
      show pass.spend.map _ = _
      rw [spend_eq]
      unfold charged
      split <;> rfl
  | arr left seen xs ih =>
    intro pass
    obtain ⟨visit, hv⟩ := expand_eq_walk root left seen
    rw [hv] at ih ⊢
    rw [expandWith, visits, cutRefs, tally_arr, tally_arr, inline_arr, Nat.zero_add, ← spend_bind]
    unfold Expansion.spend
    split
    · rfl
    · have hxs : ∀ v ∈ xs, Costs visit (visits root left seen) (cutRefs root left seen)
          (fun limit => inline root limit left seen) v := ih
      rw [Option.bind_some, Option.bind_some, expandElems_eq hxs]
      rfl
  | obj left seen es hr ih =>
    intro pass
    obtain ⟨visit, hv⟩ := expand_eq_walk root left seen
    rw [hv] at ih ⊢
    rw [expandWith, visits, cutRefs, tally_obj root _ _ _ _ _ hr, tally_obj root _ _ _ _ _ hr,
      inline_obj root _ _ _ hr, Nat.zero_add, ← spend_bind]
    unfold Expansion.spend
    split
    · rfl
    · have hes : ∀ e ∈ es, Costs visit (visits root left seen) (cutRefs root left seen)
          (fun limit => inline root limit left seen) e.2 := ih
      rw [Option.bind_some, Option.bind_some, show (es.lookup "$ref").bind Json.asStr = none from hr]
      simp only [expandEntries_eq hes]
      rfl
  | stays left seen es r k hr hk =>
    intro pass
    rw [expand_stays hr hk, visits, cutRefs, tally_stays root _ _ _ _ _ hr hk, tally_stays root _ _ _ _ _ hr hk,
      inline_stays root _ _ _ hr hk, Nat.zero_add]
  | follows left seen es r target hr hn ht ih =>
    intro pass
    rw [expand_follows hr hn ht, visits, cutRefs, tally_follows root _ _ _ _ _ hr hn ht,
      tally_follows root _ _ _ _ _ hr hn ht, inline_follows root _ _ _ hr hn ht, Nat.zero_add, Nat.zero_add,
      Nat.zero_add]
    have := spend_bind pass (visits root left (seen ++ [r]) target) (cutRefs root left (seen ++ [r]) target)
      (inline root pass.limit left (seen ++ [r]) target) id
    refine Eq.trans ?_ this
    unfold Expansion.spend
    split
    · rfl
    · simp only [Option.bind_some, ih, id_eq, Option.map_id']

/-! ## Deeper passes -/

/-- A deeper pass visits all that a shallower one does. -/
theorem visits_succ (root : Json) (left : Nat) (seen : List String) (v : Json) :
    visits root left seen v ≤ visits root (left + 1) seen v := by
  unfold visits
  induction left, seen, v using walk_induction root with
  | leaf left seen v ho ha =>
    rw [tally_leaf root _ _ _ _ _ ho ha, tally_leaf root _ _ _ _ _ ho ha]
  | arr left seen xs ih =>
    rw [tally_arr, tally_arr]
    exact Nat.add_le_add_left (List.sum_le_sum ih) 1
  | obj left seen es hr ih =>
    rw [tally_obj root _ _ _ _ _ hr, tally_obj root _ _ _ _ _ hr]
    exact Nat.add_le_add_left (List.sum_le_sum ih) 1
  | stays left seen es r k hr hk =>
    -- what it was charged for the reference is charged in any case
    rw [tally_stays root _ _ _ _ _ hr hk]
    cases hk' : kept root (left + 1) seen r with
    | some k' => rw [tally_stays root _ _ _ _ _ hr hk']
    | none =>
      obtain ⟨hn, left', target, hl, ht⟩ := kept_eq_none hk'
      rw [tally_follows root _ _ _ _ _ hr hn ht]
      omega
  | follows left seen es r target hr hn ht ih =>
    rw [tally_follows root _ _ _ _ _ hr hn ht, tally_follows root _ _ _ _ _ hr hn ht]
    omega

/-- The expansion of a node with `L` levels of references, cycles cut along the path. -/
def expansion (root node : Json) (L : Nat) : Json := inline root L L [] node

/-- The pass with `L` levels keeps to the budget. -/
def Fits (root node : Json) (L : Nat) : Prop := visits root L [] node ≤ maxResolvedNodes

instance (root node : Json) (L : Nat) : Decidable (Fits root node L) :=
  inferInstanceAs (Decidable (visits root L [] node ≤ maxResolvedNodes))

/-- With `L` levels nothing is left to cut. -/
def Complete (root node : Json) (L : Nat) : Prop := cutRefs root L [] node = 0

instance (root node : Json) (L : Nat) : Decidable (Complete root node L) :=
  inferInstanceAs (Decidable (cutRefs root L [] node = 0))

theorem Fits.mono {root node : Json} {L M : Nat} (hle : L ≤ M) (h : Fits root node M) : Fits root node L := by
  induction M, hle using Nat.le_induction with
  | base => exact h
  | succ M _ ih => exact ih (Nat.le_trans (visits_succ root M [] node) h)

/-- The pass that is kept: the first complete one or the last, unless one before runs out. -/
theorem deepest_cons (root node : Json) (best : Option Nat) (L : Nat) (limits : List Nat) :
    deepest root node best (L :: limits) =
      if Fits root node L then
        if Complete root node L then some L else deepest root node (some L) limits
      else best := by
  rw [deepest, expand_eq, charged]
  by_cases hf : Fits root node L
  · rw [if_pos hf, if_pos (show visits root L [] node ≤ maxResolvedNodes from hf)]
    by_cases hc : Complete root node L
    · rw [if_pos hc]
      unfold Complete at hc
      simp [Expansion.after, hc]
    · rw [if_neg hc]
      unfold Complete at hc
      simp [Expansion.after, Nat.pos_of_ne_zero hc]
  · rw [if_neg hf, if_neg (show ¬ visits root L [] node ≤ maxResolvedNodes from hf)]

/-- All passes fit up to one that is complete or the last. -/
theorem deepest_complete {root node : Json} {f : Nat} (best : Option Nat) {start count : Nat}
    (hs : start ≤ f) (hf : f < start + count) (hfits : ∀ L, start ≤ L → L ≤ f → Fits root node L)
    (hcut : ∀ L, start ≤ L → L < f → ¬ Complete root node L)
    (hend : Complete root node f ∨ f + 1 = start + count) :
    deepest root node best (List.range' start count) = some f := by
  induction count generalizing start best with
  | zero => omega
  | succ count ih =>
    rw [List.range'_succ, deepest_cons, if_pos (hfits start (Nat.le_refl start) hs)]
    by_cases he : start = f
    · subst he
      by_cases hc : Complete root node start
      · rw [if_pos hc]
      · have hlast : count = 0 := by
          rcases hend with h | h
          · exact absurd h hc
          · omega
        rw [if_neg hc, hlast]
        rfl
    · rw [if_neg (hcut start (Nat.le_refl start) (by omega))]
      refine ih (some start) (by omega) (by omega) (fun L hL => hfits L (by omega))
        (fun L hL => hcut L (by omega)) ?_
      rcases hend with h | h
      · exact Or.inl h
      · exact Or.inr (by omega)

/-- The passes run out of budget at `M`. -/
theorem deepest_of_exhausted {root node : Json} {M : Nat} (best : Option Nat) {start count : Nat}
    (hs : start ≤ M) (hM : M < start + count) (hfits : ∀ L, start ≤ L → L < M → Fits root node L)
    (hcut : ∀ L, start ≤ L → L < M → ¬ Complete root node L) (hout : ¬ Fits root node M) :
    deepest root node best (List.range' start count) = if start = M then best else some (M - 1) := by
  induction count generalizing start best with
  | zero => omega
  | succ count ih =>
    rw [List.range'_succ, deepest_cons]
    by_cases he : start = M
    · subst he
      rw [if_neg hout, if_pos rfl]
    · rw [if_pos (hfits start (Nat.le_refl start) (by omega)),
        if_neg (hcut start (Nat.le_refl start) (by omega)), if_neg he,
        ih (some start) (by omega) (by omega) (fun L hL => hfits L (by omega)) fun L hL => hcut L (by omega)]
      split
      · congr 1
        omega
      · rfl

/-- The first number of levels with nothing left to cut, or 12. -/
def firstComplete (root node : Json) : Nat :=
  Nat.find (p := fun L => Complete root node L ∨ L = maxRefChain) ⟨maxRefChain, Or.inr rfl⟩

theorem isLeast_firstComplete (root node : Json) :
    IsLeast {L | Complete root node L ∨ L = maxRefChain} (firstComplete root node) :=
  ⟨Nat.find_spec _, fun _ hL => Nat.find_min' _ hL⟩

theorem levels_complete {root node : Json} (h : ∀ L ≤ firstComplete root node, Fits root node L) :
    levels root node = some (firstComplete root node) := by
  have hleast := isLeast_firstComplete root node
  have hle : firstComplete root node ≤ maxRefChain := hleast.2 (Or.inr rfl)
  rw [levels, List.range_eq_range']
  refine deepest_complete none (Nat.zero_le _) (by omega) (fun L _ => h L) (fun L _ hlt hc => ?_) ?_
  · have := hleast.2 (Or.inl hc)
    omega
  · rcases hleast.1 with h | h
    · exact Or.inl h
    · exact Or.inr (by omega)

theorem levels_deepest {root node : Json} (h : ¬ ∀ L ≤ firstComplete root node, Fits root node L) :
    (∃ L, IsGreatest {L | Fits root node L} L ∧ levels root node = some L) ∨
      (∀ L, ¬ Fits root node L) ∧ levels root node = none := by
  have hex : ∃ L, L ≤ firstComplete root node ∧ ¬ Fits root node L := by simpa using h
  have hleast := isLeast_firstComplete root node
  have hle : firstComplete root node ≤ maxRefChain := hleast.2 (Or.inr rfl)
  -- the first pass that runs out: those before it fit and are cut, those behind it run out too
  obtain ⟨M, ⟨hM, hout⟩, hmin⟩ : ∃ M, (M ≤ firstComplete root node ∧ ¬ Fits root node M) ∧
      ∀ L < M, ¬ (L ≤ firstComplete root node ∧ ¬ Fits root node L) :=
    ⟨Nat.find hex, Nat.find_spec hex, fun L hL => Nat.find_min hex hL⟩
  have hfits : ∀ L, L < M → Fits root node L := fun L hL =>
    by_contra fun hn => hmin L hL ⟨by omega, hn⟩
  have hbelow : ∀ L, Fits root node L → L < M := by
    intro L hL
    by_contra hge
    exact hout (Fits.mono (by omega) hL)
  have hlevels : levels root node = if 0 = M then none else some (M - 1) := by
    rw [levels, List.range_eq_range']
    refine deepest_of_exhausted none (Nat.zero_le M) (by omega) (fun L _ => hfits L) (fun L _ hL hc => ?_) hout
    have := hleast.2 (Or.inl hc)
    omega
  by_cases h0 : 0 = M
  · rw [if_pos h0] at hlevels
    refine Or.inr ⟨fun L hL => ?_, hlevels⟩
    have := hbelow L hL
    omega
  · rw [if_neg h0] at hlevels
    refine Or.inl ⟨M - 1, ⟨hfits (M - 1) (by omega), fun L hL => ?_⟩, hlevels⟩
    have := hbelow L hL
    omega

/-! ## Markers -/

/-- A complete expansion has no marker: it is the one that leaves a reference in place. -/
theorem inline_of_complete (root : Json) (limit limit' left : Nat) (seen : List String) (v : Json)
    (h : cutRefs root left seen v = 0) : inline root limit left seen v = inline root limit' left seen v := by
  unfold cutRefs at h
  induction left, seen, v using walk_induction root with
  | leaf left seen v ho ha => rw [inline_leaf root _ _ _ ho ha, inline_leaf root _ _ _ ho ha]
  | arr left seen xs ih =>
    rw [tally_arr, Nat.zero_add, List.sum_eq_zero_iff] at h
    rw [inline_arr, inline_arr]
    congr 1
    exact List.map_congr_left fun v hv => ih v hv (h _ (List.mem_map_of_mem hv))
  | obj left seen es hr ih =>
    rw [tally_obj root _ _ _ _ _ hr, Nat.zero_add, List.sum_eq_zero_iff] at h
    rw [inline_obj root _ _ _ hr, inline_obj root _ _ _ hr]
    congr 1
    exact List.map_congr_left fun e he => by rw [ih e he (h _ (List.mem_map_of_mem he))]
  | stays left seen es r k hr hk =>
    rw [tally_stays root _ _ _ _ _ hr hk] at h
    rw [inline_stays root _ _ _ hr hk, inline_stays root _ _ _ hr hk]
    cases k with
    | cut => simp at h
    | _ => rfl
  | follows left seen es r target hr hn ht ih =>
    rw [tally_follows root _ _ _ _ _ hr hn ht, Nat.zero_add, Nat.zero_add] at h
    rw [inline_follows root _ _ _ hr hn ht, inline_follows root _ _ _ hr hn ht, ih h]

/-- A key of an object somewhere in a value. -/
inductive HasKey (k : String) : Json → Prop
  | here {es : List (String × Json)} : k ∈ OrderedMap.keys es → HasKey k (.obj es)
  | field {es : List (String × Json)} {e : String × Json} : e ∈ es → HasKey k e.2 → HasKey k (.obj es)
  | elem {xs : List Json} {v : Json} : v ∈ xs → HasKey k v → HasKey k (.arr xs)

theorem HasKey.of_get {k key : String} {v w : Json} (hw : v.get key = some w) (h : HasKey k w) : HasKey k v := by
  cases v with
  | obj es => exact .field (OrderedMap.mem_of_lookup hw) h
  | _ => cases hw

theorem follow_cons (root : Json) (part : String) (path : List String) :
    follow root (part :: path) = (root.get part).bind fun t => follow t path := by
  unfold follow
  rw [List.foldl_cons, Option.bind_some]
  cases root.get part with
  | some t => rfl
  | none =>
    induction path with
    | nil => rfl
    | cons _ path ih => exact ih

theorem HasKey.of_followed {k r : String} {root target : Json} (ht : followed root r = some target)
    (h : HasKey k target) : HasKey k root := by
  obtain ⟨path, -, hf⟩ := Option.bind_eq_some_iff.mp ht
  clear ht
  induction path generalizing root with
  | nil =>
    cases hf
    exact h
  | cons part path ih =>
    rw [follow_cons] at hf
    obtain ⟨t, hp, hf⟩ := Option.bind_eq_some_iff.mp hf
    exact HasKey.of_get hp (ih hf)

/-- What is left in place has the keys of the document and the node, and `$circular`. -/
theorem hasKey_unmarked {k : String} (hc : k ≠ "$circular") (root : Json) (left : Nat) (seen : List String)
    (v : Json) (h : HasKey k (inline root maxRefChain left seen v)) : HasKey k root ∨ HasKey k v := by
  induction left, seen, v using walk_induction root with
  | leaf left seen v ho ha =>
    rw [inline_leaf root _ _ _ ho ha] at h
    exact Or.inr h
  | arr left seen xs ih =>
    rw [inline_arr] at h
    cases h with
    | elem hw hk =>
      obtain ⟨v, hv, rfl⟩ := List.mem_map.mp hw
      exact (ih v hv hk).imp_right (HasKey.elem hv)
  | obj left seen es hr ih =>
    rw [inline_obj root _ _ _ hr] at h
    cases h with
    | here hk => exact Or.inr (.here (by simpa [OrderedMap.keys] using hk))
    | field hf hk =>
      obtain ⟨e, he, rfl⟩ := List.mem_map.mp hf
      exact (ih e he hk).imp_right (HasKey.field he)
  | stays left seen es r k' hr hk =>
    rw [inline_stays root _ _ _ hr hk] at h
    cases k' with
    | circular =>
      cases h with
      | here hk => simp [hc] at hk
      | field he hk =>
        obtain rfl := List.mem_singleton.mp he
        cases hk
    | _ => exact Or.inr h
  | follows left seen es r target hr hn ht ih =>
    rw [inline_follows root _ _ _ hr hn ht] at h
    exact Or.inl ((ih h).elim id (HasKey.of_followed ht))

/-- **Iterative deepening is direct expansion.** -/
theorem resolve_deepens (root node : Json) :
    ((∀ L ≤ firstComplete root node, Fits root node L) →
        resolve root node = expansion root node (firstComplete root node) ∧
          resolve root node = inline root maxRefChain (firstComplete root node) [] node ∧
            (HasKey "$omitted" (resolve root node) → HasKey "$omitted" root ∨ HasKey "$omitted" node)) ∧
      ((¬ ∀ L ≤ firstComplete root node, Fits root node L) →
        (∃ L, IsGreatest {L | Fits root node L} L ∧ resolve root node = expansion root node L) ∨
          (∀ L, ¬ Fits root node L) ∧ resolve root node = node) := by
  constructor
  · intro h
    have hres : resolve root node = expansion root node (firstComplete root node) := by
      rw [resolve_eq_inline, levels_complete h]
      rfl
    have hraw : resolve root node = inline root maxRefChain (firstComplete root node) [] node := by
      rw [hres, expansion]
      rcases (isLeast_firstComplete root node).1 with hc | h12
      · exact inline_of_complete root _ _ _ _ _ hc
      · rw [h12]
    refine ⟨hres, hraw, fun hk => ?_⟩
    rw [hraw] at hk
    exact hasKey_unmarked (by decide) root _ _ _ hk
  · intro h
    rw [resolve_eq_inline]
    rcases levels_deepest h with ⟨L, hL, hlev⟩ | ⟨hnone, hlev⟩
    · exact Or.inl ⟨L, hL, by rw [hlev]; rfl⟩
    · exact Or.inr ⟨hnone, by rw [hlev]⟩

end MinMcp.L4.OpenApi
