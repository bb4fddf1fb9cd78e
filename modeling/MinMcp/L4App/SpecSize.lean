import MinMcp.L4App.SpecDeepen

/-!
# The size of a resolved node

`MAX_RESOLVED_NODES` is the number of nodes one resolved schema may hold (src/spec.rs:17-19).
The budget is charged for what a pass visits. A reference that is followed is visited and
leaves no node; one that stays is charged as one node and is put out whole: as a marker with a
text in it, or as it is, with all that stands beside `$ref`.

* `nodes_inline`: the size of an expansion, from what was visited, followed and left in place.
* `reach`: the levels a node is resolved with.
* `resolve_bounded_iff`: the bound holds exactly when what stands below the references left in
  place is made up for.
* `nodes_resolve_le`: a bound for the documents in which little stands beside a reference.
* `unbounded`: two nodes resolved to as many as one likes.
-/
namespace MinMcp.L4.OpenApi

open MinMcp.Core

mutual
/-- mirrors src/spec.rs:680-686 -/
def nodes : Json → Nat
  | .obj es => 1 + nodesEntries es
  | .arr xs => 1 + nodesElems xs
  | _ => 1
termination_by structural v => v
def nodesEntries : List (String × Json) → Nat
  | [] => 0
  | (_, v) :: es => nodes v + nodesEntries es
termination_by structural es => es
def nodesElems : List Json → Nat
  | [] => 0
  | v :: xs => nodes v + nodesElems xs
termination_by structural xs => xs
end

theorem nodes_arr (xs : List Json) : nodes (.arr xs) = 1 + (xs.map nodes).sum := by
  rw [nodes]
  induction xs with
  | nil => rfl
  | cons v xs ih => rw [nodesElems, List.map_cons, List.sum_cons]; omega

theorem nodes_obj (es : List (String × Json)) : nodes (.obj es) = 1 + (es.map fun e => nodes e.2).sum := by
  rw [nodes]
  induction es with
  | nil => rfl
  | cons e es ih => rw [nodesEntries, List.map_cons, List.sum_cons]; omega

/-- The nodes below the root of what stands for a reference that stays. -/
def Kept.below (limit : Nat) (node : Json) (k : Kept) : Nat := nodes (k.put limit "" node) - 1

/-- The nodes below the references that a pass leaves in place. -/
def belowKept (root : Json) (limit : Nat) : Nat → List String → Json → Nat :=
  tally root 0 0 fun k node => k.below limit node

/-- The references a pass follows. -/
def followedRefs (root : Json) : Nat → List String → Json → Nat := tally root 0 1 fun _ _ => 0

theorem nodes_pos (v : Json) : 0 < nodes v := by
  cases v with
  | obj es => rw [nodes_obj]; omega
  | arr xs => rw [nodes_arr]; omega
  | _ => exact Nat.one_pos

/-- The text of a marker does not count. -/
theorem Kept.nodes_put (limit : Nat) (r : String) (node : Json) (k : Kept) :
    nodes (k.put limit r node) = 1 + k.below limit node := by
  have hsame : nodes (k.put limit r node) = nodes (k.put limit "" node) := by
    cases k with
    | circular => rfl
    | cut => by_cases hl : limit = maxRefChain <;> simp [Kept.put, hl, nodes_obj, nodes]
    | _ => rfl
  have := nodes_pos (k.put limit "" node)
  unfold Kept.below
  omega

/-- Sums of two equations, entry by entry. -/
theorem sum_add_congr {α : Type} {xs : List α} {f g f' g' : α → Nat} (h : ∀ x ∈ xs, f x + g x = f' x + g' x) :
    (xs.map f).sum + (xs.map g).sum = (xs.map f').sum + (xs.map g').sum := by
  induction xs with
  | nil => rfl
  | cons x xs ih =>
    rw [List.forall_mem_cons] at h
    have := ih h.2
    simp only [List.map_cons, List.sum_cons]
    omega

/-- **The size of an expansion.** What is visited, without the references followed and with
what stands below those left in place. -/
theorem nodes_inline (root : Json) (limit left : Nat) (seen : List String) (v : Json) :
    nodes (inline root limit left seen v) + followedRefs root left seen v =
      visits root left seen v + belowKept root limit left seen v := by
  unfold followedRefs visits belowKept
  induction left, seen, v using walk_induction root with
  | leaf left seen v ho ha =>
    simp only [tally_leaf root _ _ _ _ _ ho ha, inline_leaf root _ _ _ ho ha]
    cases v with
    | obj es => cases ho
    | arr xs => cases ha
    | _ => rfl
  | arr left seen xs ih =>
    simp only [tally_arr, inline_arr, nodes_arr, List.map_map, Function.comp_def]
    have := sum_add_congr ih
    omega
  | obj left seen es hr ih =>
    simp only [tally_obj root _ _ _ _ _ hr, inline_obj root _ _ _ hr, nodes_obj, List.map_map, Function.comp_def]
    have := sum_add_congr ih
    omega
  | stays left seen es r k hr hk =>
    simp only [tally_stays root _ _ _ _ _ hr hk, inline_stays root _ _ _ hr hk, Kept.nodes_put]
    omega
  | follows left seen es r target hr hn ht ih =>
    simp only [tally_follows root _ _ _ _ _ hr hn ht, inline_follows root _ _ _ hr hn ht]
    omega

/-! ## The bound -/

/-- The first pass visits nothing but the node. -/
theorem visits_zero_le (root : Json) (seen : List String) (v : Json) : visits root 0 seen v ≤ nodes v := by
  unfold visits
  induction v using Json.ind with
  | arr xs ih =>
    rw [tally_arr, nodes_arr]
    exact Nat.add_le_add_left (List.sum_le_sum ih) 1
  | obj es ih =>
    cases hr : refOf (.obj es) with
    | none =>
      rw [tally_obj root _ _ _ _ _ hr, nodes_obj]
      exact Nat.add_le_add_left (List.sum_le_sum ih) 1
    | some r =>
      cases hk : kept root 0 seen r with
      | none =>
        obtain ⟨-, left, -, hl, -⟩ := kept_eq_none hk
        cases hl
      | some k =>
        rw [tally_stays root _ _ _ _ _ hr hk]
        exact nodes_pos _
  | _ => rw [tally_leaf root _ _ _ _ _ rfl rfl]; exact nodes_pos _

theorem fits_zero {root node : Json} (h : nodes node ≤ maxResolvedNodes) : Fits root node 0 :=
  Nat.le_trans (visits_zero_le root [] node) h

/-- The levels a node is resolved with: the most that fit, up to the first with nothing left. -/
def reach (root node : Json) : Nat := Nat.findGreatest (Fits root node) (firstComplete root node)

theorem resolve_eq_expansion {root node : Json} (h : nodes node ≤ maxResolvedNodes) :
    resolve root node = expansion root node (reach root node) := by
  have hdeep := resolve_deepens root node
  by_cases hall : ∀ L ≤ firstComplete root node, Fits root node L
  · have hreach : reach root node = firstComplete root node :=
      Nat.findGreatest_eq (hall _ (Nat.le_refl _))
    rw [hreach]
    exact (hdeep.1 hall).1
  · rcases hdeep.2 hall with ⟨L, hL, hres⟩ | ⟨hnone, -⟩
    · have hle : L ≤ firstComplete root node := by
        by_contra hgt
        exact hall fun M hM => Fits.mono (by omega) hL.1
      have hreach : reach root node = L :=
        Nat.le_antisymm (hL.2 (Nat.findGreatest_spec (Nat.zero_le _) (fits_zero h)))
          (Nat.le_findGreatest hle hL.1)
      rw [hreach, hres]
    · exact absurd (fits_zero h) (hnone 0)

theorem fits_reach (root : Json) {node : Json} (h : nodes node ≤ maxResolvedNodes) :
    visits root (reach root node) [] node ≤ maxResolvedNodes :=
  Nat.findGreatest_spec (P := Fits root node) (Nat.zero_le _) (fits_zero h)

/-- **When the bound holds.** What stands below the references left in place is made up for by
the references that are followed and by what is left of the budget. -/
theorem resolve_bounded_iff (root : Json) {node : Json} (h : nodes node ≤ maxResolvedNodes) :
    nodes (resolve root node) ≤ maxResolvedNodes ↔
      belowKept root (reach root node) (reach root node) [] node ≤
        followedRefs root (reach root node) [] node +
          (maxResolvedNodes - visits root (reach root node) [] node) := by
  have hsize := nodes_inline root (reach root node) (reach root node) [] node
  have hfits := fits_reach root h
  rw [resolve_eq_expansion h, expansion]
  omega

/-! ## Documents with a bound -/

/-- A value somewhere in another. -/
inductive Occurs (o : Json) : Json → Prop
  | here : Occurs o o
  | field {es : List (String × Json)} {e : String × Json} : e ∈ es → Occurs o e.2 → Occurs o (.obj es)
  | elem {xs : List Json} {v : Json} : v ∈ xs → Occurs o v → Occurs o (.arr xs)

theorem Occurs.of_get {o v w : Json} {key : String} (hw : v.get key = some w) (h : Occurs o w) : Occurs o v := by
  cases v with
  | obj es => exact .field (OrderedMap.mem_of_lookup hw) h
  | _ => cases hw

theorem Occurs.of_followed {o root target : Json} {r : String} (ht : followed root r = some target)
    (h : Occurs o target) : Occurs o root := by
  obtain ⟨path, -, hf⟩ := Option.bind_eq_some_iff.mp ht
  clear ht
  induction path generalizing root with
  | nil =>
    cases hf
    exact h
  | cons part path ih =>
    rw [follow_cons] at hf
    obtain ⟨t, hp, hf⟩ := Option.bind_eq_some_iff.mp hf
    exact Occurs.of_get hp (ih hf)

/-- An object with a reference has at most `b` nodes below it. -/
def Beside (b : Nat) (v : Json) : Prop :=
  ∀ es, Occurs (.obj es) v → refOf (.obj es) ≠ none → nodes (.obj es) ≤ b + 1

theorem Kept.below_le {b limit : Nat} {node : Json} (hb : 1 ≤ b) (h : nodes node ≤ b + 1) (k : Kept) :
    k.below limit node ≤ b := by
  unfold Kept.below
  cases k with
  | circular => simpa [Kept.put, nodes_obj, nodes] using hb
  | cut =>
    by_cases hl : limit = maxRefChain
    · simp only [Kept.put, if_pos hl]
      omega
    · simpa [Kept.put, hl, nodes_obj, nodes] using hb
  | external | dangling =>
    simp only [Kept.put]
    omega

theorem sum_le_mul_sum {α : Type} {xs : List α} {f g : α → Nat} {b : Nat} (h : ∀ x ∈ xs, f x ≤ b * g x) :
    (xs.map f).sum ≤ b * (xs.map g).sum := by
  induction xs with
  | nil => exact Nat.zero_le _
  | cons x xs ih =>
    rw [List.forall_mem_cons] at h
    rw [List.map_cons, List.map_cons, List.sum_cons, List.sum_cons, Nat.mul_add]
    exact Nat.add_le_add h.1 (ih h.2)

/-- Every reference left in place was charged for. -/
theorem belowKept_le {b : Nat} (hb : 1 ≤ b) {root : Json} (hroot : Beside b root) (limit left : Nat)
    (seen : List String) (v : Json) (hv : Beside b v) :
    belowKept root limit left seen v ≤ b * visits root left seen v := by
  unfold belowKept visits
  induction left, seen, v using walk_induction root with
  | leaf left seen v ho ha =>
    simp only [tally_leaf root _ _ _ _ _ ho ha]
    exact Nat.zero_le _
  | arr left seen xs ih =>
    simp only [tally_arr, Nat.zero_add]
    have := sum_le_mul_sum fun v hm => ih v hm fun es ho => hv es (.elem hm ho)
    exact this.trans (Nat.mul_le_mul_left b (Nat.le_add_left _ _))
  | obj left seen es hr ih =>
    simp only [tally_obj root _ _ _ _ _ hr, Nat.zero_add]
    have := sum_le_mul_sum fun e hm => ih e hm fun os ho => hv os (.field hm ho)
    exact this.trans (Nat.mul_le_mul_left b (Nat.le_add_left _ _))
  | stays left seen es r k hr hk =>
    simp only [tally_stays root _ _ _ _ _ hr hk, Nat.zero_add, Nat.add_zero, Nat.mul_one]
    exact k.below_le hb (hv es .here (by rw [hr]; exact Option.some_ne_none r))
  | follows left seen es r target hr hn ht ih =>
    simp only [tally_follows root _ _ _ _ _ hr hn ht, Nat.zero_add]
    refine (ih fun os ho => hroot os (.of_followed ht ho)).trans (Nat.mul_le_mul_left b (Nat.le_add_left _ _))

/-- Where at most `b` nodes stand below each object with a reference, a node is resolved to at most
`b + 1` times the budget: to twice the budget where nothing stands beside the references. -/
theorem nodes_resolve_le {b : Nat} (hb : 1 ≤ b) {root node : Json} (hroot : Beside b root)
    (hnode : Beside b node) (h : nodes node ≤ maxResolvedNodes) :
    nodes (resolve root node) ≤ (b + 1) * maxResolvedNodes := by
  have hsize := nodes_inline root (reach root node) (reach root node) [] node
  have hbelow := belowKept_le hb hroot (reach root node) (reach root node) [] node hnode
  have hfits := fits_reach root h
  calc nodes (resolve root node)
      ≤ visits root (reach root node) [] node + belowKept root (reach root node) (reach root node) [] node := by
        rw [resolve_eq_expansion h, expansion]
        omega
    _ ≤ visits root (reach root node) [] node + b * visits root (reach root node) [] node :=
        Nat.add_le_add_left hbelow _
    _ = (b + 1) * visits root (reach root node) [] node := by rw [Nat.add_mul, Nat.one_mul, Nat.add_comm]
    _ ≤ (b + 1) * maxResolvedNodes := Nat.mul_le_mul_left _ hfits

/-! ## Without a bound -/

/-- A document whose one schema refers to another document, with more beside the reference. -/
def besideReference (beside : List Json) : Json :=
  .obj [("Note", .obj [("$ref", .str "notes.json"), ("enum", .arr beside)])]

def noteNode : Json := .obj [("$ref", .str "#/Note")]

section Beside

variable (beside : List Json)

theorem note_followed : followed (besideReference beside) "#/Note" =
    some (.obj [("$ref", .str "notes.json"), ("enum", .arr beside)]) := by
  rw [followed, show localRef "#/Note" = some ["Note"] by decide, Option.bind_some, follow_cons]
  rfl

theorem note_external : kept (besideReference beside) 0 ["#/Note"] "notes.json" = some .external := by
  rw [kept, if_neg (by decide), show localRef "notes.json" = none by decide]

theorem tally_note (weight step : Nat) (stay : Kept → Json → Nat) :
    tally (besideReference beside) weight step stay 1 [] noteNode =
      weight + (step +
        (weight + stay .external (.obj [("$ref", .str "notes.json"), ("enum", .arr beside)]))) := by
  rw [noteNode, tally_follows _ _ _ _ _ _ rfl (by simp) (note_followed beside), List.nil_append,
    tally_stays _ _ _ _ _ _ rfl (note_external beside)]

theorem firstComplete_note : firstComplete (besideReference beside) noteNode = 1 := by
  have hleast := isLeast_firstComplete (besideReference beside) noteNode
  have hone : Complete (besideReference beside) noteNode 1 := tally_note beside 0 0 _
  have hzero : ¬ Complete (besideReference beside) noteNode 0 := by
    have hk : kept (besideReference beside) 0 [] "#/Note" = some .cut := by
      rw [kept, if_neg (by simp), show localRef "#/Note" = some ["Note"] by decide]
    rw [Complete, cutRefs, noteNode, tally_stays _ _ _ _ _ _ rfl hk]
    simp
  have hle := hleast.2 (Or.inl hone)
  by_contra hne
  have h0 : firstComplete (besideReference beside) noteNode = 0 := by omega
  rcases hleast.1 with h | h
  · exact hzero (h0 ▸ h)
  · rw [h0] at h
    cases h

theorem resolve_beside :
    resolve (besideReference beside) noteNode = .obj [("$ref", .str "notes.json"), ("enum", .arr beside)] := by
  have hfits : ∀ L ≤ firstComplete (besideReference beside) noteNode, Fits (besideReference beside) noteNode L := by
    intro L hL
    rw [firstComplete_note] at hL
    refine Fits.mono hL ?_
    rw [Fits, visits, tally_note]
    decide
  rw [((resolve_deepens _ _).1 hfits).1, firstComplete_note, expansion, noteNode,
    inline_follows _ _ _ _ rfl (by simp) (note_followed beside), List.nil_append,
    inline_stays _ _ _ _ rfl (note_external beside)]
  rfl

theorem nodes_beside : nodes (resolve (besideReference beside) noteNode) = 3 + (beside.map nodes).sum := by
  rw [resolve_beside, nodes_obj, List.map_cons, List.map_cons, List.map_nil, nodes_arr]
  simp [nodes]
  omega

end Beside

/-- **No bound.** Two nodes are resolved to more than any number of nodes. -/
theorem unbounded (n : Nat) : ∃ root, n < nodes (resolve root noteNode) := by
  refine ⟨besideReference (List.replicate n .null), ?_⟩
  rw [nodes_beside, List.map_replicate, List.sum_replicate]
  simp [nodes]

/-- The reference is charged as one node, and put out with ten thousand beside it. -/
theorem beside_reference_is_not_charged :
    nodes noteNode ≤ maxResolvedNodes ∧
      ¬ nodes (resolve (besideReference (List.replicate 10000 .null)) noteNode) ≤ maxResolvedNodes := by
  refine ⟨by decide, ?_⟩
  rw [nodes_beside, List.map_replicate, List.sum_replicate]
  decide

/-- A schema with a text beside its reference is within the bound. -/
theorem resolve_bounded_iff_note :
    nodes (resolve (besideReference [.str "a"]) noteNode) ≤ maxResolvedNodes :=
  (resolve_bounded_iff (besideReference [.str "a"]) (by decide)).mpr (by decide +kernel)

end MinMcp.L4.OpenApi
