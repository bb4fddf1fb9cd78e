import Mathlib.Data.List.Basic

/-!
# The Levenshtein distance

The fewest insertions, deletions and replacements that make one list of another. `levenshtein` is
the recursive definition, on the first elements; `Aligned xs ys n` says that `n` edits are enough.

* `levenshtein_le_iff`: the distance is the least number of edits.
* `levenshtein_reverse`: read from the end it is the same, so a table over prefixes computes it.
* `length_le_add_levenshtein`: the difference of the lengths is a lower bound.
* `cells`: a row of that table; `getLastD_cells` is what its last cell holds.
-/
namespace MinMcp.Core

variable {α : Type} [DecidableEq α]

def levenshtein : List α → List α → Nat
  | [], ys => ys.length
  | xs, [] => xs.length
  | x :: xs, y :: ys =>
    min (min (levenshtein xs ys + if x ≠ y then 1 else 0) (levenshtein xs (y :: ys) + 1))
      (levenshtein (x :: xs) ys + 1)

@[simp] theorem levenshtein_nil_left (ys : List α) : levenshtein [] ys = ys.length := by
  rw [levenshtein]

@[simp] theorem levenshtein_nil_right (xs : List α) : levenshtein xs [] = xs.length := by
  cases xs <;> simp [levenshtein]

/-! ## The least number of edits -/

inductive Aligned : List α → List α → Nat → Prop
  | nil : Aligned [] [] 0
  | keep {xs ys n} (x : α) : Aligned xs ys n → Aligned (x :: xs) (x :: ys) n
  | replace {xs ys n} (x y : α) : Aligned xs ys n → Aligned (x :: xs) (y :: ys) (n + 1)
  | delete {xs ys n} (x : α) : Aligned xs ys n → Aligned (x :: xs) ys (n + 1)
  | insert {xs ys n} (y : α) : Aligned xs ys n → Aligned xs (y :: ys) (n + 1)

theorem levenshtein_cons_left (x : α) (xs ys : List α) :
    levenshtein (x :: xs) ys ≤ levenshtein xs ys + 1 := by
  cases ys with
  | nil => simp
  | cons y ys => rw [levenshtein]; omega

theorem levenshtein_cons_right (xs : List α) (y : α) (ys : List α) :
    levenshtein xs (y :: ys) ≤ levenshtein xs ys + 1 := by
  cases xs with
  | nil => simp
  | cons x xs => rw [levenshtein]; omega

theorem levenshtein_cons_cons (x y : α) (xs ys : List α) :
    levenshtein (x :: xs) (y :: ys) ≤ levenshtein xs ys + if x ≠ y then 1 else 0 := by
  rw [levenshtein]; omega

/-- The last edit is one of three. -/
theorem levenshtein_cons_cons_eq (x y : α) (xs ys : List α) :
    levenshtein (x :: xs) (y :: ys) = levenshtein xs ys + (if x ≠ y then 1 else 0) ∨
      levenshtein (x :: xs) (y :: ys) = levenshtein xs (y :: ys) + 1 ∨
      levenshtein (x :: xs) (y :: ys) = levenshtein (x :: xs) ys + 1 := by
  rw [levenshtein]; omega

omit [DecidableEq α] in
theorem aligned_insert_all (ys : List α) : Aligned [] ys ys.length := by
  induction ys with
  | nil => exact .nil
  | cons y ys ih => exact .insert y ih

omit [DecidableEq α] in
theorem aligned_delete_all (xs : List α) : Aligned xs [] xs.length := by
  induction xs with
  | nil => exact .nil
  | cons x xs ih => exact .delete x ih

theorem aligned_levenshtein (xs ys : List α) : Aligned xs ys (levenshtein xs ys) := by
  induction xs, ys using levenshtein.induct with
  | case1 ys => simpa using aligned_insert_all ys
  | case2 xs h => simpa using aligned_delete_all xs
  | case3 x xs y ys hsub hdel hins =>
    obtain h | h | h := levenshtein_cons_cons_eq x y xs ys <;> rw [h]
    · by_cases hxy : x = y
      · subst hxy
        simpa using hsub.keep x
      · simpa [hxy] using hsub.replace x y
    · exact hdel.delete x
    · exact hins.insert y

theorem levenshtein_le_iff {xs ys : List α} {n : Nat} : levenshtein xs ys ≤ n ↔ ∃ m ≤ n, Aligned xs ys m := by
  constructor
  · exact fun h => ⟨_, h, aligned_levenshtein xs ys⟩
  · rintro ⟨m, hm, h⟩
    refine Nat.le_trans ?_ hm
    clear hm
    induction h with
    | nil => simp
    | @keep xs ys n x _ ih =>
      have := levenshtein_cons_cons x x xs ys
      rw [if_neg (by simp)] at this
      omega
    | @replace xs ys n x y _ ih =>
      have := levenshtein_cons_cons x y xs ys
      split at this <;> omega
    | @delete xs ys n x _ ih =>
      have := levenshtein_cons_left x xs ys
      omega
    | @insert xs ys n y _ ih =>
      have := levenshtein_cons_right xs y ys
      omega

theorem levenshtein_le_of_aligned {xs ys : List α} {n : Nat} (h : Aligned xs ys n) : levenshtein xs ys ≤ n :=
  levenshtein_le_iff.mpr ⟨n, Nat.le_refl n, h⟩

/-- One edit changes the length by one at most. -/
theorem length_le_add_levenshtein (xs ys : List α) :
    xs.length ≤ ys.length + levenshtein xs ys ∧ ys.length ≤ xs.length + levenshtein xs ys := by
  have h := aligned_levenshtein xs ys
  generalize levenshtein xs ys = n at h
  induction h with
  | nil => simp
  | _ => simp only [List.length_cons]; omega

/-! ## From the end -/

omit [DecidableEq α] in
theorem Aligned.append {xs ys us vs : List α} {m n : Nat} (h : Aligned xs ys m) (h' : Aligned us vs n) :
    Aligned (xs ++ us) (ys ++ vs) (n + m) := by
  induction h with
  | nil => exact h'
  | keep x _ ih => exact ih.keep x
  | replace x y _ ih => exact ih.replace x y
  | delete x _ ih => exact ih.delete x
  | insert y _ ih => exact ih.insert y

omit [DecidableEq α] in
theorem Aligned.reverse {xs ys : List α} {n : Nat} (h : Aligned xs ys n) : Aligned xs.reverse ys.reverse n := by
  induction h with
  | nil => exact .nil
  | keep x _ ih => simpa using ih.append (.keep x .nil)
  | replace x y _ ih => simpa [Nat.add_comm] using ih.append (.replace x y .nil)
  | delete x _ ih => simpa [Nat.add_comm] using ih.append (.delete x .nil)
  | insert y _ ih => simpa [Nat.add_comm] using ih.append (.insert y .nil)

theorem levenshtein_reverse (xs ys : List α) : levenshtein xs.reverse ys.reverse = levenshtein xs ys := by
  apply Nat.le_antisymm
  · exact levenshtein_le_of_aligned (aligned_levenshtein xs ys).reverse
  · simpa using levenshtein_le_of_aligned (aligned_levenshtein xs.reverse ys.reverse).reverse

/-! ## The table -/

/-- The row of a prefix, from the column behind `done` on; both are read from the end. -/
def cells (pre done : List α) : List α → List Nat
  | [] => [levenshtein pre done]
  | c :: rest => levenshtein pre done :: cells pre (c :: done) rest

theorem cells_eq_cons (pre done rest : List α) :
    ∃ row, cells pre done rest = levenshtein pre done :: row := by
  cases rest with
  | nil => exact ⟨_, rfl⟩
  | cons c rest => exact ⟨_, rfl⟩

theorem cells_nil (done rest : List α) : cells [] done rest = List.range' done.length (rest.length + 1) := by
  induction rest generalizing done with
  | nil => simp [cells]
  | cons c rest ih =>
    rw [cells, ih, levenshtein_nil_left]
    rfl

theorem getLastD_cells (pre done rest : List α) (d : Nat) :
    (cells pre done rest).getLastD d = levenshtein pre (rest.reverse ++ done) := by
  induction rest generalizing done d with
  | nil => rfl
  | cons c rest ih => rw [cells, List.getLastD_cons, ih]; simp

end MinMcp.Core
