import MinMcp.Core.Json.Compare
import MinMcp.Core.Json.Injective
import Mathlib.Data.List.Sort
import Mathlib.Data.String.Basic

/-!
# Canonical arguments

The text of a call's arguments with the keys of every object sorted
(`surface/cache.rs:12-48`). It keys the read cache and the idempotency hash.

* `canonicalArgs_perm`: the order of an object's keys does not matter.
* `eqv_of_canonicalArgs`: nothing else is lost, two arguments with one text are equal.
  The text is the printed value of `sortKeys`, and printing is injective.
* `canonicalArgs_eq_iff`: both, at every depth. Two arguments have one text exactly when
  they are equal up to the order of their keys.
-/
namespace MinMcp.L1.CanonicalArgs

open MinMcp.Core

/-- The entries of an object in the order of `ks`, from the texts of its values. -/
def writeEntries (texts : List (String × List Char)) (ks : List String) : List Char :=
  List.intercalate [','] (ks.map fun k => Json.printString k ++ ':' :: (texts.lookup k).getD [])

mutual
/-- mirrors src/surface/cache.rs:17-44 -/
def writeCanon : Json → List Char
  | .obj es =>
    '{' :: writeEntries (canonEntries es) ((OrderedMap.keys es).insertionSort (· ≤ ·)) ++ ['}']
  | .arr xs => '[' :: List.intercalate [','] (canonItems xs) ++ [']']
  | v => v.print
termination_by structural v => v
def canonEntries : List (String × Json) → List (String × List Char)
  | [] => []
  | (k, v) :: es => (k, writeCanon v) :: canonEntries es
termination_by structural es => es
def canonItems : List Json → List (List Char)
  | [] => []
  | v :: xs => writeCanon v :: canonItems xs
termination_by structural xs => xs
end

/-- mirrors src/surface/cache.rs:16, 45-48 -/
def canonicalArgs (v : Json) : String := String.ofList (writeCanon v)

theorem canonEntries_eq (es : List (String × Json)) :
    canonEntries es = es.map fun e => (e.1, writeCanon e.2) := by
  induction es with
  | nil => rfl
  | cons e es ih => rw [canonEntries, ih, List.map_cons]

theorem keys_canonEntries (es : List (String × Json)) :
    OrderedMap.keys (canonEntries es) = OrderedMap.keys es := by
  unfold OrderedMap.keys
  rw [canonEntries_eq, List.map_map]
  rfl

/-- **Order.** Two objects with the same entries have one canonical text. -/
theorem canonicalArgs_perm {es fs : List (String × Json)} (h : es.Perm fs)
    (hn : (OrderedMap.keys fs).Nodup) : canonicalArgs (.obj es) = canonicalArgs (.obj fs) := by
  have hk : (OrderedMap.keys es).insertionSort (· ≤ ·) = (OrderedMap.keys fs).insertionSort (· ≤ ·) := by
    apply List.Perm.eq_of_pairwise (fun a b _ _ hab hba => le_antisymm hab hba)
      (List.pairwise_insertionSort (· ≤ ·) _) (List.pairwise_insertionSort (· ≤ ·) _)
    have hp := h.map Prod.fst
    exact (List.perm_insertionSort _ _).trans (hp.trans (List.perm_insertionSort _ _).symm)
  have ht : ∀ k, (canonEntries es).lookup k = (canonEntries fs).lookup k := by
    intro k
    apply OrderedMap.lookup_of_perm
    · rw [canonEntries_eq, canonEntries_eq]
      exact h.map _
    · rwa [keys_canonEntries]
  unfold canonicalArgs
  rw [writeCanon, writeCanon, hk]
  unfold writeEntries
  simp only [ht]

/-! ## What the text determines -/

mutual
/-- The value with the keys of every object sorted. -/
def sortKeys : Json → Json
  | .obj es => .obj (((OrderedMap.keys es).insertionSort (· ≤ ·)).map fun k =>
      (k, ((sortEntries es).lookup k).getD .null))
  | .arr xs => .arr (sortItems xs)
  | v => v
termination_by structural v => v
def sortEntries : List (String × Json) → List (String × Json)
  | [] => []
  | (k, v) :: es => (k, sortKeys v) :: sortEntries es
termination_by structural es => es
def sortItems : List Json → List Json
  | [] => []
  | v :: xs => sortKeys v :: sortItems xs
termination_by structural xs => xs
end

theorem sortEntries_eq (es : List (String × Json)) :
    sortEntries es = es.map fun e => (e.1, sortKeys e.2) := by
  induction es with
  | nil => rfl
  | cons e es ih => rw [sortEntries, ih, List.map_cons]

theorem sortItems_eq (xs : List Json) : sortItems xs = xs.map sortKeys := by
  induction xs with
  | nil => rfl
  | cons x xs ih => rw [sortItems, ih, List.map_cons]

theorem canonItems_eq (xs : List Json) : canonItems xs = xs.map writeCanon := by
  induction xs with
  | nil => rfl
  | cons x xs ih => rw [canonItems, ih, List.map_cons]

theorem lookup_map_snd {α β : Type} (f : α → β) (es : List (String × α)) (k : String) :
    (es.map fun e => (e.1, f e.2)).lookup k = (es.lookup k).map f := by
  induction es with
  | nil => rfl
  | cons e es ih =>
    obtain ⟨k', v⟩ := e
    rw [List.map_cons]
    by_cases hk : k = k'
    · subst hk; simp
    · rw [OrderedMap.lookup_cons_of_ne hk, OrderedMap.lookup_cons_of_ne hk, ih]

theorem printElems_eq (xs : List Json) :
    Json.printElems true xs = List.intercalate [','] (xs.map Json.print) ++ [']'] := by
  cases xs with
  | nil => rfl
  | cons v xs =>
    rw [Json.printElems]
    induction xs generalizing v with
    | nil => simp [Json.printElems, Json.sep]
    | cons w xs ih =>
      have := ih w
      simp only [Json.sep, if_true, List.nil_append] at this
      simp [Json.printElems, Json.sep, this]

theorem printEntries_eq (es : List (String × Json)) :
    Json.printEntries true es =
      List.intercalate [','] (es.map fun e => Json.printString e.1 ++ ':' :: e.2.print) ++ ['\x7d'] := by
  cases es with
  | nil => rfl
  | cons e es =>
    obtain ⟨k, v⟩ := e
    rw [Json.printEntries]
    induction es generalizing k v with
    | nil => simp [Json.printEntries, Json.sep]
    | cons f es ih =>
      have := ih f.1 f.2
      simp only [Json.sep, if_true, List.nil_append] at this
      simp [Json.printEntries, Json.sep, this]

/-- The canonical text is a printed value. -/
theorem writeCanon_eq (v : Json) : writeCanon v = (sortKeys v).print := by
  induction v using Json.ind with
  | arr xs ih =>
    rw [writeCanon, sortKeys, Json.print, printElems_eq, canonItems_eq, sortItems_eq, List.map_map,
      List.map_congr_left ih]
    rfl
  | obj es ih =>
    rw [writeCanon, sortKeys, Json.print, printEntries_eq, writeEntries, List.map_map]
    have hentry : ∀ k ∈ (OrderedMap.keys es).insertionSort (· ≤ ·),
        Json.printString k ++ ':' :: ((canonEntries es).lookup k).getD [] =
          Json.printString k ++ ':' :: (((sortEntries es).lookup k).getD .null).print := by
      intro k hk
      obtain ⟨v, hv⟩ := OrderedMap.lookup_isSome.mpr ((List.mem_insertionSort _).mp hk)
      rw [canonEntries_eq, sortEntries_eq, lookup_map_snd, lookup_map_snd, hv]
      have := ih _ (OrderedMap.mem_of_lookup hv)
      simp [this]
    rw [List.map_congr_left hentry]
    rfl
  | _ => rfl

theorem eqv_of_sortKeys {a b : Json} (ha : a.WF) (hb : b.WF) (h : sortKeys a = sortKeys b) :
    a.eqv b = true := by
  induction a using Json.ind generalizing b with
  | arr xs ih =>
    cases b with
    | arr ys =>
      rw [sortKeys, sortKeys, Json.arr.injEq, sortItems_eq, sortItems_eq] at h
      rw [Json.WF, Json.wfList_iff] at ha hb
      rw [Json.eqv, Json.eqvList_eq_true]
      induction xs generalizing ys with
      | nil =>
        obtain rfl := List.map_eq_nil_iff.mp h.symm
        exact .nil
      | cons x xs ihx =>
        cases ys with
        | nil => cases h
        | cons y ys =>
          rw [List.map_cons, List.map_cons, List.cons.injEq] at h
          rw [List.forall_mem_cons] at ih ha hb
          exact .cons (ih.1 ha.1 hb.1 h.1) (ihx ih.2 ha.2 ys hb.2 h.2)
    | _ => cases h
  | obj es ih =>
    cases b with
    | obj fs =>
      rw [sortKeys, sortKeys, Json.obj.injEq] at h
      rw [Json.wf_obj] at ha hb
      -- the sorted keys are the first components, and below them stand the sorted values
      have hkeys : (OrderedMap.keys es).insertionSort (· ≤ ·) =
          (OrderedMap.keys fs).insertionSort (· ≤ ·) := by
        have := congrArg (List.map Prod.fst) h
        simpa [Function.comp_def] using this
      have hmem : ∀ k, k ∈ OrderedMap.keys es ↔ k ∈ OrderedMap.keys fs := by
        intro k
        rw [← List.mem_insertionSort (· ≤ ·), hkeys, List.mem_insertionSort]
      rw [hkeys] at h
      rw [Json.eqv_obj_iff ha.1 hb.1]
      intro k
      cases hv : es.lookup k with
      | none =>
        rw [OrderedMap.lookup_eq_none.mpr fun hk => OrderedMap.lookup_eq_none.mp hv ((hmem k).mpr hk)]
        exact .none
      | some v =>
        have hk := (hmem k).mp (OrderedMap.mem_keys_of_lookup hv)
        obtain ⟨w, hw⟩ := OrderedMap.lookup_isSome.mpr hk
        have hsorted := List.map_inj_left.mp h k ((List.mem_insertionSort _).mpr hk)
        rw [sortEntries_eq, sortEntries_eq, lookup_map_snd, lookup_map_snd, hv, hw, Prod.mk.injEq] at hsorted
        rw [hw]
        have hme := OrderedMap.mem_of_lookup hv
        exact .some (ih _ hme (ha.2 _ hme) (hb.2 _ (OrderedMap.mem_of_lookup hw)) hsorted.2)
    | _ => cases h
  | _ => cases b <;> simp_all [sortKeys, Json.eqv]

/-- **The text is a key.** Arguments with one canonical text are equal up to the order
of their keys. -/
theorem eqv_of_canonicalArgs {a b : Json} (ha : a.WF) (hb : b.WF)
    (h : canonicalArgs a = canonicalArgs b) : a.eqv b = true := by
  unfold canonicalArgs at h
  rw [String.ofList_inj, writeCanon_eq, writeCanon_eq] at h
  exact eqv_of_sortKeys ha hb (Json.print_injective h)

/-! ## Order at every depth -/

/-- Equal arguments are sorted to one value: the keys of two equal objects are the same
set, and under each key stand equal values. -/
theorem sortKeys_of_eqv {a b : Json} (ha : a.WF) (hb : b.WF) (h : a.eqv b = true) :
    sortKeys a = sortKeys b := by
  induction a using Json.ind generalizing b with
  | arr xs ih =>
    cases b with
    | arr ys =>
      rw [Json.eqv, Json.eqvList_eq_true] at h
      rw [Json.WF, Json.wfList_iff] at ha hb
      rw [sortKeys, sortKeys, sortItems_eq, sortItems_eq]
      congr 1
      induction h with
      | nil => rfl
      | cons hxy _ ihx =>
        rw [List.forall_mem_cons] at ih ha hb
        rw [List.map_cons, List.map_cons, ih.1 ha.1 hb.1 hxy, ihx ih.2 ha.2 hb.2]
    | _ => simp [Json.eqv] at h
  | obj es ih =>
    cases b with
    | obj fs =>
      rw [Json.wf_obj] at ha hb
      rw [Json.eqv_obj_iff ha.1 hb.1] at h
      have hkeys : (OrderedMap.keys es).insertionSort (· ≤ ·) =
          (OrderedMap.keys fs).insertionSort (· ≤ ·) := by
        apply List.Perm.eq_of_pairwise (fun a b _ _ hab hba => le_antisymm hab hba)
          (List.pairwise_insertionSort (· ≤ ·) _) (List.pairwise_insertionSort (· ≤ ·) _)
        have hperm : (OrderedMap.keys es).Perm (OrderedMap.keys fs) := by
          rw [List.perm_ext_iff_of_nodup ha.1 hb.1]
          intro k
          have hk := h k
          rw [← OrderedMap.lookup_isSome, ← OrderedMap.lookup_isSome]
          generalize es.lookup k = v at hk
          generalize fs.lookup k = w at hk
          cases hk <;> simp
        exact (List.perm_insertionSort _ _).trans (hperm.trans (List.perm_insertionSort _ _).symm)
      rw [sortKeys, sortKeys, hkeys, sortEntries_eq, sortEntries_eq]
      congr 1
      apply List.map_congr_left
      intro k _
      rw [lookup_map_snd, lookup_map_snd]
      have hk := h k
      generalize hv : es.lookup k = v at hk
      generalize hw : fs.lookup k = w at hk
      cases hk with
      | none => rfl
      | some hvw =>
        have hmem := OrderedMap.mem_of_lookup hv
        rw [Option.map_some, Option.map_some, ih _ hmem (ha.2 _ hmem) (hb.2 _ (OrderedMap.mem_of_lookup hw)) hvw]
    | _ => simp [Json.eqv] at h
  | num n =>
    cases b with
    | num m =>
      rw [Json.eqv, decide_eq_true_iff] at h
      cases n
      cases m
      cases h
      rfl
    | _ => simp [Json.eqv] at h
  | _ => cases b <;> simp_all [sortKeys, Json.eqv]

theorem canonicalArgs_of_eqv {a b : Json} (ha : a.WF) (hb : b.WF) (h : a.eqv b = true) :
    canonicalArgs a = canonicalArgs b := by
  unfold canonicalArgs
  rw [writeCanon_eq, writeCanon_eq, sortKeys_of_eqv ha hb h]

/-- **One text, one call.** The cache key, the idempotency hash and the audit digest of two
calls agree exactly when their arguments are equal up to the order of object keys. -/
theorem canonicalArgs_eq_iff {a b : Json} (ha : a.WF) (hb : b.WF) :
    canonicalArgs a = canonicalArgs b ↔ a.eqv b = true :=
  ⟨eqv_of_canonicalArgs ha hb, canonicalArgs_of_eqv ha hb⟩

/-- Keys in another order below a key that holds a quote and a brace. -/
theorem canonicalArgs_eq_iff_reordered :
    let a : Json := .obj [("\"\x7b", .obj [("x", .arr []), ("y", .null)]), ("b", .str ",")]
    let b : Json := .obj [("b", .str ","), ("\"\x7b", .obj [("y", .null), ("x", .arr [])])]
    canonicalArgs a = canonicalArgs b :=
  (canonicalArgs_eq_iff (by simp [Json.WF, Json.WFEntries, Json.WFList])
    (by simp [Json.WF, Json.WFEntries, Json.WFList])).mpr (by decide)

end MinMcp.L1.CanonicalArgs
