import MinMcp.Core.Json.Value

/-!
# References in an API description

`Spec::resolve` of src/spec.rs: `$ref`s are replaced by what they refer to, level by
level, as long as the result stays within a budget of nodes.

`expand` is a structural walk (`expandWith`) that hands every reference to a visitor; the
visitor walks the target with one reference level less. The source counts the levels up
to `pass.limit`, here `left` counts them down.

* `expandWith_obj`: an object that is no reference keeps its keys, each value walked.
* `resolve_eq`: a node is left as it is, or is the outcome of one pass.
* `resolve_eq_inline`: it is the node with the references replaced, `levels` of them in a row.
-/
namespace MinMcp.L4.OpenApi

open MinMcp.Core

/-- mirrors src/spec.rs:16, 19 -/
def maxRefChain : Nat := 12

def maxResolvedNodes : Nat := 10000

/-- mirrors src/spec.rs:22-26 -/
structure Expansion where
  limit : Nat
  budget : Nat
  cut : Bool
  deriving DecidableEq

/-- `pass.budget.checked_sub(1)?` -/
def Expansion.spend (pass : Expansion) : Option Expansion :=
  if pass.budget = 0 then none else some { pass with budget := pass.budget - 1 }

/-- The reference an object is, if it is one. -/
def refOf (v : Json) : Option String := (v.get "$ref").bind Json.asStr

/-- The parts of a reference into the document, `none` of any other.
mirrors src/spec.rs:184, 193 -/
def localRef (r : String) : Option (List String) :=
  match r.toList with
  | '#' :: '/' :: path => some ((path.splitOn '/').map String.ofList)
  | _ => none

/-- mirrors src/spec.rs:192-198 -/
def follow (root : Json) (path : List String) : Option Json :=
  path.foldl (fun target part => target.bind fun t => t.get part) (some root)

abbrev Visitor := String → Json → Expansion → Option (Json × Expansion)

mutual
/-- The walk over a node, down to the references in it. -/
def expandWith (visit : Visitor) : Json → Expansion → Option (Json × Expansion)
  | .obj es, pass =>
    pass.spend.bind fun pass =>
      match (es.lookup "$ref").bind Json.asStr with
      | some r => visit r (.obj es) pass
      | none => (expandEntries visit es pass).map fun out => (.obj out.1, out.2)
  | .arr xs, pass =>
    pass.spend.bind fun pass => (expandElems visit xs pass).map fun out => (.arr out.1, out.2)
  | v, pass => pass.spend.map fun pass => (v, pass)
termination_by structural v => v
def expandEntries (visit : Visitor) :
    List (String × Json) → Expansion → Option (List (String × Json) × Expansion)
  | [], pass => some ([], pass)
  | (k, v) :: es, pass =>
    (expandWith visit v pass).bind fun out =>
      (expandEntries visit es out.2).map fun rest => ((k, out.1) :: rest.1, rest.2)
termination_by structural es => es
def expandElems (visit : Visitor) : List Json → Expansion → Option (List Json × Expansion)
  | [], pass => some ([], pass)
  | v :: xs, pass =>
    (expandWith visit v pass).bind fun out =>
      (expandElems visit xs out.2).map fun rest => (out.1 :: rest.1, rest.2)
termination_by structural xs => xs
end

/-- One pass, with `left` of its reference levels left; `none` when the budget is spent.
mirrors src/spec.rs:168-212 -/
def expand (root : Json) : Nat → List String → Json → Expansion → Option (Json × Expansion)
  | left, seen =>
    expandWith fun r node pass =>
      if r ∈ seen then some (.obj [("$circular", .str r)], pass)
      else
        match localRef r with
        | none => some (node, pass)
        | some path =>
          match left with
          | 0 =>
            some (if pass.limit = maxRefChain then node else .obj [("$omitted", .str r)],
              { pass with cut := true })
          | left + 1 =>
            match follow root path with
            | none => some (node, pass)
            | some target => expand root left (seen ++ [r]) target pass

/-- The passes with the limits still to try, after one that gave `best`. -/
def deepen (root node : Json) (best : Option Json) : List Nat → Json
  | [] => best.getD node
  | limit :: limits =>
    match expand root limit [] node ⟨limit, maxResolvedNodes, false⟩ with
    | none => best.getD node
    | some (v, pass) => if pass.cut then deepen root node (some v) limits else v

/-- mirrors src/spec.rs:152-163 -/
def resolve (root node : Json) : Json := deepen root node none (List.range (maxRefChain + 1))

/-! ## What resolving keeps -/

theorem expandEntries_keys {visit : Visitor} {es es' : List (String × Json)} {pass pass' : Expansion}
    (h : expandEntries visit es pass = some (es', pass')) :
    OrderedMap.keys es' = OrderedMap.keys es ∧
      ∀ k v, es.lookup k = some v →
        ∃ v' p p', es'.lookup k = some v' ∧ expandWith visit v p = some (v', p') := by
  induction es generalizing pass es' with
  | nil =>
    obtain ⟨rfl, -⟩ := Prod.mk.inj (Option.some.inj h)
    exact ⟨rfl, fun k v hk => by cases hk⟩
  | cons e es ih =>
    obtain ⟨k₀, v₀⟩ := e
    unfold expandEntries at h
    rw [Option.bind_eq_some_iff] at h
    obtain ⟨⟨w, pw⟩, hw, h⟩ := h
    rw [Option.map_eq_some_iff] at h
    obtain ⟨⟨rest, pr⟩, hrest, h⟩ := h
    obtain ⟨rfl, rfl⟩ := Prod.mk.inj h
    obtain ⟨hkeys, hlook⟩ := ih hrest
    refine ⟨by rw [OrderedMap.keys_cons, OrderedMap.keys_cons, hkeys], fun k v hk => ?_⟩
    by_cases he : k = k₀
    · subst he
      rw [List.lookup_cons_self] at hk ⊢
      obtain rfl := Option.some.inj hk
      exact ⟨w, pass, pw, rfl, hw⟩
    · rw [OrderedMap.lookup_cons_of_ne he] at hk ⊢
      exact hlook k v hk

/-- An object that is no reference keeps its keys, and each value is walked. -/
theorem expandWith_obj {visit : Visitor} {es : List (String × Json)} {v : Json} {pass pass' : Expansion}
    (hr : refOf (.obj es) = none) (h : expandWith visit (.obj es) pass = some (v, pass')) :
    ∃ es', v = .obj es' ∧ OrderedMap.keys es' = OrderedMap.keys es ∧
      ∀ k w, es.lookup k = some w →
        ∃ w' p p', es'.lookup k = some w' ∧ expandWith visit w p = some (w', p') := by
  unfold expandWith at h
  rw [Option.bind_eq_some_iff] at h
  obtain ⟨p, -, h⟩ := h
  rw [show (es.lookup "$ref").bind Json.asStr = none from hr] at h
  obtain ⟨⟨es', p'⟩, hes, h⟩ := Option.map_eq_some_iff.mp h
  obtain ⟨rfl, rfl⟩ := Prod.mk.inj h
  obtain ⟨hkeys, hlook⟩ := expandEntries_keys hes
  exact ⟨es', rfl, hkeys, hlook⟩

/-- Nothing but an object or a reference becomes an object. -/
theorem expandWith_of_not_obj {visit : Visitor} {v w : Json} {pass pass' : Expansion}
    (hv : v.asObject = none) (h : expandWith visit v pass = some (w, pass')) : w.asObject = none := by
  cases v with
  | obj es => cases hv
  | arr xs =>
    unfold expandWith at h
    obtain ⟨p, -, h⟩ := Option.bind_eq_some_iff.mp h
    obtain ⟨⟨xs', p'⟩, -, h⟩ := Option.map_eq_some_iff.mp h
    obtain ⟨rfl, -⟩ := Prod.mk.inj h
    rfl
  | null | bool _ | num _ | str _ =>
    unfold expandWith at h
    obtain ⟨p, -, h⟩ := Option.map_eq_some_iff.mp h
    obtain ⟨rfl, -⟩ := Prod.mk.inj h
    rfl

theorem deepen_eq (root node : Json) (best : Option Json) (limits : List Nat)
    (hb : ∀ v, best = some v → ∃ visit p p', expandWith visit node p = some (v, p')) :
    deepen root node best limits = node ∨
      ∃ visit p p', expandWith visit node p = some (deepen root node best limits, p') := by
  have hdefault : best.getD node = node ∨
      ∃ visit p p', expandWith visit node p = some (best.getD node, p') := by
    cases best with
    | none => exact Or.inl rfl
    | some v => exact Or.inr (hb v rfl)
  induction limits generalizing best with
  | nil => exact hdefault
  | cons limit limits ih =>
    unfold deepen
    split
    · exact hdefault
    · next v pass he =>
      unfold expand at he
      split
      · apply ih
        · intro w hw
          obtain rfl := Option.some.inj hw
          exact ⟨_, _, _, he⟩
        · exact Or.inr ⟨_, _, _, he⟩
      · exact Or.inr ⟨_, _, _, he⟩

/-- A node is left as it is, or is the outcome of one pass. -/
theorem resolve_eq (root node : Json) :
    resolve root node = node ∨
      ∃ visit p p', expandWith visit node p = some (resolve root node, p') :=
  deepen_eq root node none _ fun v hv => by cases hv

/-! ## The outcome of a pass -/

mutual
/-- The walk when there is no budget. -/
def inlineWith (visit : String → Json → Json) : Json → Json
  | .obj es =>
    match (es.lookup "$ref").bind Json.asStr with
    | some r => visit r (.obj es)
    | none => .obj (inlineEntries visit es)
  | .arr xs => .arr (inlineElems visit xs)
  | v => v
termination_by structural v => v
def inlineEntries (visit : String → Json → Json) : List (String × Json) → List (String × Json)
  | [] => []
  | (k, v) :: es => (k, inlineWith visit v) :: inlineEntries visit es
termination_by structural es => es
def inlineElems (visit : String → Json → Json) : List Json → List Json
  | [] => []
  | v :: xs => inlineWith visit v :: inlineElems visit xs
termination_by structural xs => xs
end

@[simp] theorem inlineElems_eq (visit : String → Json → Json) (xs : List Json) :
    inlineElems visit xs = xs.map (inlineWith visit) := by
  induction xs with
  | nil => rfl
  | cons v xs ih => rw [inlineElems, ih, List.map_cons]

theorem lookup_inlineEntries (visit : String → Json → Json) (k : String) (es : List (String × Json)) :
    (inlineEntries visit es).lookup k = (es.lookup k).map (inlineWith visit) := by
  induction es with
  | nil => rfl
  | cons e es ih =>
    obtain ⟨k', v⟩ := e
    rw [inlineEntries]
    by_cases hk : k = k'
    · rw [hk, List.lookup_cons_self, List.lookup_cons_self, Option.map_some]
    · rw [OrderedMap.lookup_cons_of_ne hk, OrderedMap.lookup_cons_of_ne hk, ih]

/-- A node with its references replaced, at most `left` of them in a row. -/
def inline (root : Json) (limit : Nat) : Nat → List String → Json → Json
  | left, seen =>
    inlineWith fun r node =>
      if r ∈ seen then .obj [("$circular", .str r)]
      else
        match localRef r with
        | none => node
        | some path =>
          match left with
          | 0 => if limit = maxRefChain then node else .obj [("$omitted", .str r)]
          | left + 1 =>
            match follow root path with
            | none => node
            | some target => inline root limit left (seen ++ [r]) target

theorem inline_eq_walk (root : Json) (limit left : Nat) (seen : List String) :
    ∃ visit, inline root limit left seen = inlineWith visit := by
  unfold inline
  exact ⟨_, rfl⟩

theorem inline_arr (root : Json) (limit left : Nat) (seen : List String) (xs : List Json) :
    inline root limit left seen (.arr xs) = .arr (xs.map (inline root limit left seen)) := by
  obtain ⟨visit, hv⟩ := inline_eq_walk root limit left seen
  rw [hv, inlineWith, inlineElems_eq]

/-- The fields of an object that is no reference. -/
theorem inline_get (root : Json) (limit left : Nat) (seen : List String) {v : Json} (hr : refOf v = none)
    (k : String) :
    (inline root limit left seen v).get k = (v.get k).map (inline root limit left seen) := by
  obtain ⟨visit, hv⟩ := inline_eq_walk root limit left seen
  rw [hv]
  cases v with
  | obj es =>
    unfold inlineWith
    rw [show (es.lookup "$ref").bind Json.asStr = none from hr]
    exact lookup_inlineEntries visit k es
  | null | bool _ | num _ | str _ | arr _ => rfl

/-- A scalar stays, and an array stays an array. -/
theorem inline_of_not_obj (root : Json) (limit left : Nat) (seen : List String) {v : Json}
    (hv : v.asObject = none) :
    (inline root limit left seen v).asStr = v.asStr ∧ (inline root limit left seen v).asBool = v.asBool := by
  obtain ⟨visit, hw⟩ := inline_eq_walk root limit left seen
  rw [hw]
  cases v with
  | obj es => cases hv
  | null | bool _ | num _ | str _ | arr _ => exact ⟨rfl, rfl⟩

/-- The limit of the pass that `deepen` takes, `none` when none keeps to the budget. -/
def deepest (root node : Json) (best : Option Nat) : List Nat → Option Nat
  | [] => best
  | limit :: limits =>
    match expand root limit [] node ⟨limit, maxResolvedNodes, false⟩ with
    | none => best
    | some (_, pass) => if pass.cut then deepest root node (some limit) limits else some limit

/-- How many references in a row are followed from a node. -/
def levels (root node : Json) : Option Nat := deepest root node none (List.range (maxRefChain + 1))

theorem spend_limit {pass pass' : Expansion} (h : pass.spend = some pass') : pass'.limit = pass.limit := by
  unfold Expansion.spend at h
  split at h
  · cases h
  · obtain rfl := Option.some.inj h
    rfl

section Budget

/-- A visitor keeps the limit of the pass and hands out what `visit` says. -/
def Follows (limit : Nat) (walk : Visitor) (visit : String → Json → Json) : Prop :=
  ∀ r node pass out, walk r node pass = some out → pass.limit = limit →
    out.1 = visit r node ∧ out.2.limit = limit

variable {limit : Nat} {walk : Visitor} {visit : String → Json → Json}

/-- The outcome of a walk that keeps to its budget. -/
def Walked (limit : Nat) (walk : Visitor) (visit : String → Json → Json) (v : Json) : Prop :=
  ∀ pass out, expandWith walk v pass = some out → pass.limit = limit →
    out.1 = inlineWith visit v ∧ out.2.limit = limit

theorem walked_entries {es : List (String × Json)} (h : ∀ e ∈ es, Walked limit walk visit e.2)
    {pass : Expansion} {out : List (String × Json) × Expansion} (hout : expandEntries walk es pass = some out)
    (hl : pass.limit = limit) : out.1 = inlineEntries visit es ∧ out.2.limit = limit := by
  induction es generalizing pass out with
  | nil =>
    obtain rfl := Option.some.inj hout
    exact ⟨rfl, hl⟩
  | cons e es ih =>
    obtain ⟨k, v⟩ := e
    unfold expandEntries at hout
    obtain ⟨w, hw, hout⟩ := Option.bind_eq_some_iff.mp hout
    obtain ⟨rest, hrest, rfl⟩ := Option.map_eq_some_iff.mp hout
    obtain ⟨hv, hl'⟩ := h (k, v) (List.mem_cons_self ..) pass w hw hl
    obtain ⟨hes, hl''⟩ := ih (fun e he => h e (List.mem_cons_of_mem _ he)) hrest hl'
    exact ⟨by rw [inlineEntries, hv, hes], hl''⟩

theorem walked_elems {xs : List Json} (h : ∀ v ∈ xs, Walked limit walk visit v)
    {pass : Expansion} {out : List Json × Expansion} (hout : expandElems walk xs pass = some out)
    (hl : pass.limit = limit) : out.1 = inlineElems visit xs ∧ out.2.limit = limit := by
  induction xs generalizing pass out with
  | nil =>
    obtain rfl := Option.some.inj hout
    exact ⟨rfl, hl⟩
  | cons v xs ih =>
    unfold expandElems at hout
    obtain ⟨w, hw, hout⟩ := Option.bind_eq_some_iff.mp hout
    obtain ⟨rest, hrest, rfl⟩ := Option.map_eq_some_iff.mp hout
    obtain ⟨hv, hl'⟩ := h v (List.mem_cons_self ..) pass w hw hl
    obtain ⟨hxs, hl''⟩ := ih (fun v hv => h v (List.mem_cons_of_mem _ hv)) hrest hl'
    exact ⟨by rw [inlineElems, hv, hxs], hl''⟩

theorem walked (hv : Follows limit walk visit) (v : Json) : Walked limit walk visit v := by
  induction v using Json.ind with
  | null | bool _ | num _ | str _ =>
    intro pass out hout hl
    unfold expandWith at hout
    obtain ⟨p, hp, rfl⟩ := Option.map_eq_some_iff.mp hout
    exact ⟨rfl, (spend_limit hp).trans hl⟩
  | arr xs ih =>
    intro pass out hout hl
    unfold expandWith at hout
    obtain ⟨p, hp, hout⟩ := Option.bind_eq_some_iff.mp hout
    obtain ⟨rest, hrest, rfl⟩ := Option.map_eq_some_iff.mp hout
    obtain ⟨hxs, hl'⟩ := walked_elems ih hrest ((spend_limit hp).trans hl)
    exact ⟨by rw [inlineWith, hxs], hl'⟩
  | obj es ih =>
    intro pass out hout hl
    unfold expandWith at hout
    obtain ⟨p, hp, hout⟩ := Option.bind_eq_some_iff.mp hout
    have hlp := (spend_limit hp).trans hl
    unfold inlineWith
    split at hout
    · next r hr => exact hv r _ p out hout hlp
    · next hr =>
      obtain ⟨rest, hrest, rfl⟩ := Option.map_eq_some_iff.mp hout
      obtain ⟨hes, hl'⟩ := walked_entries ih hrest hlp
      exact ⟨by rw [hes], hl'⟩

end Budget

/-- A pass that keeps to its budget replaces the references. -/
theorem expand_eq_inline (root : Json) {limit left : Nat} {seen : List String} {v : Json} {pass : Expansion}
    {out : Json × Expansion} (h : expand root left seen v pass = some out) (hl : pass.limit = limit) :
    out.1 = inline root limit left seen v ∧ out.2.limit = limit := by
  induction left generalizing seen v pass out with
  | zero =>
    unfold expand at h
    unfold inline
    refine walked ?_ v pass out h hl
    intro r node pass out hout hl
    by_cases hr : r ∈ seen
    · simp only [hr, if_true, Option.some.injEq] at hout ⊢
      exact hout ▸ ⟨rfl, hl⟩
    · cases hlocal : localRef r with
      | none =>
        simp only [hr, if_false, hlocal, Option.some.injEq] at hout ⊢
        exact hout ▸ ⟨rfl, hl⟩
      | some path =>
        simp only [hr, if_false, hlocal, hl, Option.some.injEq] at hout ⊢
        exact hout ▸ ⟨rfl, rfl⟩
  | succ left ih =>
    unfold expand at h
    unfold inline
    refine walked ?_ v pass out h hl
    intro r node pass out hout hl
    by_cases hr : r ∈ seen
    · simp only [hr, if_true, Option.some.injEq] at hout ⊢
      exact hout ▸ ⟨rfl, hl⟩
    · cases hlocal : localRef r with
      | none =>
        simp only [hr, if_false, hlocal, Option.some.injEq] at hout ⊢
        exact hout ▸ ⟨rfl, hl⟩
      | some path =>
        simp only [hr, if_false, hlocal] at hout ⊢
        cases hf : follow root path with
        | none =>
          simp only [hf, Option.some.injEq] at hout ⊢
          exact hout ▸ ⟨rfl, hl⟩
        | some target =>
          simp only [hf] at hout ⊢
          exact ih hout hl

theorem deepen_eq_inline (root node : Json) (best : Option Nat) (limits : List Nat) :
    deepen root node (best.map fun limit => inline root limit limit [] node) limits =
      match deepest root node best limits with
      | none => node
      | some limit => inline root limit limit [] node := by
  induction limits generalizing best with
  | nil => cases best <;> rfl
  | cons limit limits ih =>
    unfold deepen deepest
    cases he : expand root limit [] node ⟨limit, maxResolvedNodes, false⟩ with
    | none => cases best <;> rfl
    | some out =>
      obtain ⟨v, pass⟩ := out
      obtain ⟨rfl, -⟩ := expand_eq_inline root he rfl
      simp only []
      split
      · exact ih (some limit)
      · rfl

/-- A node is resolved to itself with its references replaced, `levels` of them in a row. -/
theorem resolve_eq_inline (root node : Json) :
    resolve root node =
      match levels root node with
      | none => node
      | some limit => inline root limit limit [] node :=
  deepen_eq_inline root node none _

end MinMcp.L4.OpenApi
