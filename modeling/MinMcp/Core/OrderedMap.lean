import Mathlib.Data.List.Basic

/-!
# Insertion-ordered maps

An insertion-ordered map is an association list with unique keys. `insert`
keeps the position of a key it replaces and appends a new one; `swapRemove`
moves the last entry into the hole. The lookup of the core library (`List.lookup`)
is used as it is.

* `lookup_insert_self`, `lookup_insert_of_ne`: what an insertion changes.
* `keys_insert_of_mem`: replacing keeps the order of the keys.
* `swapRemove_insert`: removing a key undoes an insertion at it;
  `lookup_swapRemove_of_ne`: it leaves the other keys alone.
* `lookup_extend`: what a map extended by another one leads to.
-/
namespace MinMcp.Core.OrderedMap

variable {κ α : Type}

def keys (es : List (κ × α)) : List κ := es.map Prod.fst

@[simp] theorem keys_nil : keys ([] : List (κ × α)) = [] := rfl

@[simp] theorem keys_cons (e : κ × α) (es : List (κ × α)) : keys (e :: es) = e.1 :: keys es := rfl

@[simp] theorem keys_append (xs ys : List (κ × α)) : keys (xs ++ ys) = keys xs ++ keys ys :=
  List.map_append

variable [DecidableEq κ]

def insert (k : κ) (v : α) : List (κ × α) → List (κ × α)
  | [] => [(k, v)]
  | (k', v') :: es => if k' = k then (k, v) :: es else (k', v') :: insert k v es

def swapRemove (k : κ) : List (κ × α) → List (κ × α)
  | [] => []
  | (k', v') :: es =>
    if k' = k then
      match es.getLast? with
      | none => []
      | some e => e :: es.dropLast
    else (k', v') :: swapRemove k es

/-- `Map::extend`: the entries are inserted one after the other. -/
def extend (es more : List (κ × α)) : List (κ × α) := more.foldl (fun m e => insert e.1 e.2 m) es

theorem lookup_cons_of_ne {k k' : κ} (h : k ≠ k') (v : α) (es : List (κ × α)) :
    ((k', v) :: es).lookup k = es.lookup k := by
  rw [List.lookup_cons, beq_false_of_ne h]

theorem lookup_eq_none {k : κ} {es : List (κ × α)} : es.lookup k = none ↔ k ∉ keys es := by
  induction es with
  | nil => simp
  | cons e es ih =>
    obtain ⟨k', v'⟩ := e
    by_cases h : k = k'
    · simp [h]
    · rw [lookup_cons_of_ne h, ih]; simp [h]

theorem mem_of_lookup {k : κ} {v : α} {es : List (κ × α)} (h : es.lookup k = some v) :
    (k, v) ∈ es := by
  induction es with
  | nil => simp at h
  | cons e es ih =>
    obtain ⟨k', v'⟩ := e
    by_cases he : k = k'
    · subst he
      rw [List.lookup_cons_self, Option.some.injEq] at h
      exact h ▸ List.mem_cons_self
    · rw [lookup_cons_of_ne he] at h
      exact List.mem_cons_of_mem _ (ih h)

theorem mem_keys_of_lookup {k : κ} {v : α} {es : List (κ × α)} (h : es.lookup k = some v) :
    k ∈ keys es := List.mem_map_of_mem (mem_of_lookup h)

theorem lookup_isSome {k : κ} {es : List (κ × α)} : (∃ v, es.lookup k = some v) ↔ k ∈ keys es := by
  rw [← not_iff_not, ← lookup_eq_none]
  cases es.lookup k <;> simp

theorem lookup_of_mem {k : κ} {v : α} {es : List (κ × α)} (hn : (keys es).Nodup)
    (h : (k, v) ∈ es) : es.lookup k = some v := by
  induction es with
  | nil => simp at h
  | cons e es ih =>
    obtain ⟨k', v'⟩ := e
    simp only [keys_cons, List.nodup_cons] at hn
    rcases List.mem_cons.mp h with h | h
    · obtain ⟨rfl, rfl⟩ := Prod.mk.injEq .. ▸ h; simp
    · have hk : k ≠ k' := fun he => hn.1 (he ▸ List.mem_map_of_mem h)
      rw [lookup_cons_of_ne hk, ih hn.2 h]

theorem lookup_insert_self (k : κ) (v : α) (es : List (κ × α)) :
    (insert k v es).lookup k = some v := by
  induction es with
  | nil => simp [insert]
  | cons e es ih =>
    unfold insert
    split
    · exact List.lookup_cons_self
    · next h => rw [lookup_cons_of_ne (Ne.symm h), ih]

theorem lookup_insert_of_ne {k k' : κ} (h : k' ≠ k) (v : α) (es : List (κ × α)) :
    (insert k v es).lookup k' = es.lookup k' := by
  induction es with
  | nil => rw [insert, lookup_cons_of_ne h]
  | cons e es ih =>
    obtain ⟨k₁, v₁⟩ := e
    unfold insert
    split
    · next he => rw [lookup_cons_of_ne h, lookup_cons_of_ne (he ▸ h)]
    · by_cases hk : k' = k₁
      · simp [hk]
      · rw [lookup_cons_of_ne hk, lookup_cons_of_ne hk, ih]

theorem keys_insert_of_mem {k : κ} (v : α) {es : List (κ × α)} (h : k ∈ keys es) :
    keys (insert k v es) = keys es := by
  induction es with
  | nil => simp at h
  | cons e es ih =>
    unfold insert
    split
    · next he => simp [he]
    · next he =>
      have hk : k ∈ keys es := by
        rcases List.mem_cons.mp h with rfl | h
        · exact absurd rfl he
        · exact h
      simp [ih hk]

theorem insert_of_notMem {k : κ} (v : α) {es : List (κ × α)} (h : k ∉ keys es) :
    insert k v es = es ++ [(k, v)] := by
  induction es with
  | nil => rfl
  | cons e es ih =>
    simp only [keys_cons, List.mem_cons, not_or] at h
    rw [insert, if_neg (Ne.symm h.1), ih h.2]; rfl

theorem insert_of_lookup {k : κ} {v : α} {es : List (κ × α)} (h : es.lookup k = some v) :
    insert k v es = es := by
  induction es with
  | nil => cases h
  | cons e es ih =>
    obtain ⟨k', v'⟩ := e
    unfold insert
    split
    · next hk =>
      subst hk
      rw [List.lookup_cons_self] at h
      rw [Option.some.inj h]
    · next hk =>
      rw [lookup_cons_of_ne (Ne.symm hk)] at h
      rw [ih h]

theorem insert_insert (k : κ) (v w : α) (es : List (κ × α)) :
    insert k v (insert k w es) = insert k v es := by
  induction es with
  | nil => simp [insert]
  | cons e es ih =>
    unfold insert
    by_cases hk : e.1 = k
    · simp [hk, insert]
    · simp [hk, insert, ih]

/-- Replacing a value commutes with insertions at other keys. -/
theorem insert_comm {k k' : κ} (h : k ≠ k') (v w : α) {es : List (κ × α)} (hk : k ∈ keys es) :
    insert k v (insert k' w es) = insert k' w (insert k v es) := by
  induction es with
  | nil => cases hk
  | cons e es ih =>
    by_cases h1 : e.1 = k
    · have h2 : e.1 ≠ k' := fun he => h (h1.symm.trans he)
      simp [insert, h1, h]
    · have hk : k ∈ keys es := (List.mem_cons.mp hk).resolve_left (Ne.symm h1)
      by_cases h2 : e.1 = k'
      · simp [insert, h2, Ne.symm h]
      · simp [insert, h1, h2, ih hk]

theorem mem_keys_insert {k k' : κ} (v : α) (es : List (κ × α)) :
    k' ∈ keys (insert k v es) ↔ k' = k ∨ k' ∈ keys es := by
  by_cases h : k ∈ keys es
  · rw [keys_insert_of_mem v h]
    exact ⟨Or.inr, fun hk => hk.elim (fun he => he ▸ h) id⟩
  · rw [insert_of_notMem v h]; simp [or_comm]

theorem nodup_insert (k : κ) (v : α) {es : List (κ × α)} (hn : (keys es).Nodup) :
    (keys (insert k v es)).Nodup := by
  by_cases h : k ∈ keys es
  · rwa [keys_insert_of_mem v h]
  · rw [insert_of_notMem v h, keys_append]
    exact List.nodup_append.mpr ⟨hn, by simp, by simp; exact fun a ha he => h (he ▸ ha)⟩

theorem mem_insert {k : κ} {v : α} {es : List (κ × α)} {e : κ × α} (h : e ∈ insert k v es) :
    e = (k, v) ∨ e ∈ es := by
  induction es with
  | nil => simpa [insert] using h
  | cons e' es ih =>
    unfold insert at h
    split at h
    · rcases List.mem_cons.mp h with h | h
      · exact Or.inl h
      · exact Or.inr (List.mem_cons_of_mem _ h)
    · rcases List.mem_cons.mp h with h | h
      · exact Or.inr (h ▸ List.mem_cons_self)
      · exact (ih h).imp_right (List.mem_cons_of_mem _)

theorem swapRemove_of_notMem {k : κ} {es : List (κ × α)} (h : k ∉ keys es) :
    swapRemove k es = es := by
  induction es with
  | nil => rfl
  | cons e es ih =>
    simp only [keys_cons, List.mem_cons, not_or] at h
    rw [swapRemove, if_neg (Ne.symm h.1), ih h.2]

/-- Removing the entry that was appended last restores the map. -/
theorem swapRemove_append_last {k : κ} (v : α) {es : List (κ × α)} (h : k ∉ keys es) :
    swapRemove k (es ++ [(k, v)]) = es := by
  induction es with
  | nil => simp [swapRemove]
  | cons e es ih =>
    simp only [keys_cons, List.mem_cons, not_or] at h
    rw [List.cons_append, swapRemove, if_neg (Ne.symm h.1), ih h.2]

/-- Removing a key after an insertion at it is removing it before. -/
theorem swapRemove_insert (k : κ) (v : α) (es : List (κ × α)) :
    swapRemove k (insert k v es) = swapRemove k es := by
  by_cases h : k ∈ keys es
  · induction es with
    | nil => simp at h
    | cons e es ih =>
      unfold insert
      split
      · next he => rw [swapRemove, if_pos rfl, swapRemove, if_pos he]
      · next he =>
        have hk : k ∈ keys es := (List.mem_cons.mp h).resolve_left (Ne.symm he)
        rw [swapRemove, if_neg he, ih hk, swapRemove, if_neg he]
  · rw [insert_of_notMem v h, swapRemove_append_last v h, swapRemove_of_notMem h]

theorem swapRemove_perm (k : κ) (es : List (κ × α)) :
    (swapRemove k es).Perm (es.eraseP fun e => e.1 = k) := by
  induction es with
  | nil => exact .nil
  | cons e es ih =>
    obtain ⟨k', v'⟩ := e
    unfold swapRemove
    split
    · next he =>
      rw [List.eraseP_cons_of_pos (by simp [he])]
      split
      · next hl => rw [List.getLast?_eq_none_iff.mp hl]
      · next e hl =>
        -- the last entry comes first
        obtain ⟨xs, rfl⟩ := List.getLast?_eq_some_iff.mp hl
        rw [List.dropLast_concat]
        show ([e] ++ xs).Perm (xs ++ [e])
        exact List.perm_append_comm
    · next he =>
      rw [List.eraseP_cons_of_neg (by simp [he])]
      exact ih.cons _

/-- With unique keys the order of the entries does not matter for a lookup. -/
theorem lookup_of_perm {xs ys : List (κ × α)} (h : xs.Perm ys) (hn : (keys ys).Nodup) (k : κ) :
    xs.lookup k = ys.lookup k := by
  have hx : (keys xs).Nodup := (h.map Prod.fst).nodup_iff.mpr hn
  cases hl : xs.lookup k with
  | some v => exact (lookup_of_mem hn (h.subset (mem_of_lookup hl))).symm
  | none =>
    rw [lookup_eq_none] at hl
    refine (lookup_eq_none.mpr fun hk => hl ?_).symm
    exact (h.map Prod.fst).mem_iff.mpr hk

theorem lookup_eraseP_of_ne {k k' : κ} (h : k' ≠ k) (es : List (κ × α)) :
    (es.eraseP fun e => e.1 = k).lookup k' = es.lookup k' := by
  induction es with
  | nil => rfl
  | cons e es ih =>
    obtain ⟨k₁, v₁⟩ := e
    by_cases he : k₁ = k
    · rw [List.eraseP_cons_of_pos (by simp [he]), lookup_cons_of_ne (he ▸ h)]
    · rw [List.eraseP_cons_of_neg (by simp [he])]
      by_cases hk : k' = k₁
      · rw [hk, List.lookup_cons_self, List.lookup_cons_self]
      · rw [lookup_cons_of_ne hk, lookup_cons_of_ne hk, ih]

theorem lookup_swapRemove_of_ne {k k' : κ} (h : k' ≠ k) {es : List (κ × α)} (hn : (keys es).Nodup) :
    (swapRemove k es).lookup k' = es.lookup k' := by
  have hs : (es.eraseP fun e => e.1 = k).Sublist es := List.eraseP_sublist
  rw [lookup_of_perm (swapRemove_perm k es) ((hs.map Prod.fst).nodup hn), lookup_eraseP_of_ne h]

/-- An entry that is looked up, in front of the others. -/
theorem perm_of_lookup {k : κ} {v : α} {es : List (κ × α)} (h : es.lookup k = some v) :
    es.Perm ((k, v) :: swapRemove k es) := by
  suffices hp : es.Perm ((k, v) :: es.eraseP fun e => e.1 = k) from
    hp.trans ((swapRemove_perm k es).symm.cons _)
  induction es with
  | nil => simp at h
  | cons e es ih =>
    obtain ⟨k', v'⟩ := e
    by_cases hk : k = k'
    · subst hk
      rw [List.lookup_cons_self, Option.some.injEq] at h
      rw [List.eraseP_cons_of_pos (by simp), h]
    · rw [lookup_cons_of_ne hk] at h
      rw [List.eraseP_cons_of_neg (by simp [Ne.symm hk])]
      exact ((ih h).cons _).trans (List.Perm.swap _ _ _)

theorem lookup_swapRemove_self {k : κ} {es : List (κ × α)} (hn : (keys es).Nodup) :
    (swapRemove k es).lookup k = none := by
  cases h : es.lookup k with
  | none => rw [swapRemove_of_notMem (lookup_eq_none.mp h), h]
  | some v =>
    have hk := ((perm_of_lookup h).map Prod.fst).nodup_iff.mp hn
    exact lookup_eq_none.mpr (List.nodup_cons.mp hk).1

theorem nodup_swapRemove (k : κ) {es : List (κ × α)} (hn : (keys es).Nodup) :
    (keys (swapRemove k es)).Nodup := by
  have hs : (es.eraseP fun e => e.1 = k).Sublist es := List.eraseP_sublist
  exact ((swapRemove_perm k es).map Prod.fst).nodup_iff.mpr ((hs.map Prod.fst).nodup hn)

/-- Of the entries that extend a map the last one counts. -/
theorem lookup_extend (k : κ) (es more : List (κ × α)) :
    (extend es more).lookup k = (more.reverse.lookup k).or (es.lookup k) := by
  unfold extend
  induction more generalizing es with
  | nil => rfl
  | cons e more ih =>
    rw [List.foldl_cons, ih, List.reverse_cons, List.lookup_append, Option.or_assoc]
    congr 1
    by_cases h : k = e.1
    · rw [h, lookup_insert_self, List.lookup_cons_self, Option.some_or]
    · rw [lookup_insert_of_ne h, lookup_cons_of_ne h, List.lookup_nil, Option.none_or]

theorem lookup_reverse {es : List (κ × α)} (hn : (keys es).Nodup) (k : κ) :
    es.reverse.lookup k = es.lookup k :=
  lookup_of_perm es.reverse_perm hn k

theorem nodup_extend {es : List (κ × α)} (hn : (keys es).Nodup) (more : List (κ × α)) :
    (keys (extend es more)).Nodup := by
  unfold extend
  induction more generalizing es with
  | nil => exact hn
  | cons e more ih => exact ih (nodup_insert e.1 e.2 hn)

/-! ## Every value changed by its key -/

section Values

variable {β : Type} (f : κ → α → β) (es : List (κ × α))

def mapValues : List (κ × β) := es.map fun e => (e.1, f e.1 e.2)

theorem lookup_mapValues (k : κ) : (mapValues f es).lookup k = (es.lookup k).map (f k) := by
  induction es with
  | nil => rfl
  | cons e es ih =>
    show List.lookup k ((e.1, f e.1 e.2) :: mapValues f es) = _
    by_cases h : k = e.1
    · rw [h, List.lookup_cons_self, List.lookup_cons_self, Option.map_some]
    · rw [lookup_cons_of_ne h, lookup_cons_of_ne h, ih]

omit [DecidableEq κ] in
@[simp] theorem keys_mapValues : keys (mapValues f es) = keys es := by
  simp [keys, mapValues]

theorem swapRemove_mapValues (k : κ) : swapRemove k (mapValues f es) = mapValues f (swapRemove k es) := by
  induction es with
  | nil => rfl
  | cons e es ih =>
    show swapRemove k ((e.1, f e.1 e.2) :: mapValues f es) = _
    rw [swapRemove, swapRemove]
    split
    · rw [mapValues, List.getLast?_map]
      cases es.getLast? with
      | none => rfl
      | some e' =>
        show (e'.1, f e'.1 e'.2) :: (List.map _ es).dropLast = _
        rw [← List.map_dropLast]
        rfl
    · rw [ih]
      rfl

theorem mapValues_insert (k : κ) (v : α) : mapValues f (insert k v es) = insert k (f k v) (mapValues f es) := by
  induction es with
  | nil => rfl
  | cons e es ih =>
    show mapValues f (insert k v ((e.1, e.2) :: es)) = insert k (f k v) ((e.1, f e.1 e.2) :: mapValues f es)
    rw [insert, insert]
    split
    · rfl
    · rw [← ih]
      rfl

omit [DecidableEq κ] in
theorem mapValues_congr {f g : κ → α → β} {es : List (κ × α)} (h : ∀ e ∈ es, f e.1 e.2 = g e.1 e.2) :
    mapValues f es = mapValues g es :=
  List.map_congr_left fun e he => by rw [h e he]

omit [DecidableEq κ] in
theorem mapValues_mapValues {γ : Type} (g : κ → β → γ) :
    mapValues g (mapValues f es) = mapValues (fun k v => g k (f k v)) es :=
  List.map_map ..

end Values

end MinMcp.Core.OrderedMap
