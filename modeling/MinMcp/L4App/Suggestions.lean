import MinMcp.Core.Text.Debug
import MinMcp.Core.Text.Levenshtein
import Mathlib.Data.String.Basic

/-!
# Near misses of a mistyped id

`did_you_mean` of src/surface/ids.rs: the two candidates closest to a string by edit
distance over lower-cased letters and digits. `Unicode` holds the two tables of the
character database it reads.

* `didYouMean_perm`: the candidates come from a hash map; their order makes no difference.
* `editDistance_eq`: the two rows compute the Levenshtein distance.
* `closestMatches_exact`: what is suggested are the closest of all candidates within the budget;
  nothing, where the string has no letter or digit.
-/
namespace MinMcp.L4.Suggestions

open MinMcp.Core MinMcp.Core.Text

/-- `char::is_alphanumeric` and `char::to_lowercase`. -/
structure Unicode where
  isAlphanumeric : Char → Bool
  toLowercase : Char → List Char

/-- On ASCII text. -/
def ascii : Unicode := ⟨Char.isAlphanum, fun c => [c.toLower]⟩

/-- The rest of a row, right of `left`, under the rest of the row before.
mirrors src/surface/ids.rs:53-57 -/
def rowFrom (ca : Char) (left : Nat) : List Nat → List Char → List Nat
  | p :: q :: prev, cb :: bs =>
    let sub := p + if ca ≠ cb then 1 else 0
    let cur := min (min sub (q + 1)) (left + 1)
    cur :: rowFrom ca cur (q :: prev) bs
  | _, _ => []

def rows (b : List Char) : Nat → List Nat → List Char → List Nat
  | _, prev, [] => prev
  | i, prev, ca :: as => rows b (i + 1) ((i + 1) :: rowFrom ca (i + 1) prev b) as

/-- mirrors src/surface/ids.rs:47-62 -/
def editDistance (a b : List Char) : Nat :=
  (rows b 0 (List.range (b.length + 1)) a).getLastD 0

example : editDistance "kitten".toList "sitting".toList = 3 := by decide +kernel

variable (u : Unicode)

/-- mirrors src/index.rs:113-115 -/
def normalizeId (s : String) : List Char := (s.toList.filter u.isAlphanumeric).flatMap u.toLowercase

/-- A candidate within the budget, with its distance. -/
def score (wnorm : List Char) (cand : String) : Option (Nat × String) :=
  let maxD := max 2 (wnorm.length / 4)
  let cnorm := normalizeId u cand
  if maxD < max cnorm.length wnorm.length - min cnorm.length wnorm.length then none
  else
    let d := editDistance wnorm cnorm
    if d ≤ maxD then some (d, cand) else none

/-- By distance, then by the string. -/
def closer (a b : Nat × String) : Bool := a.1 < b.1 || (a.1 = b.1 && a.2 ≤ b.2)

/-- mirrors src/surface/ids.rs:21-41 -/
def closestMatches (wrong : String) (candidates : List String) (n : Nat) : List String :=
  let wnorm := normalizeId u wrong
  if wnorm.isEmpty then []
  else (((candidates.filterMap (score u wnorm)).mergeSort closer).take n).map Prod.snd

/-- mirrors src/surface/ids.rs:66-74 -/
def didYouMean (wrong : String) (candidates : List String) : String :=
  let close := closestMatches u wrong candidates 2
  if close.isEmpty then ""
  else
    " did you mean " ++ " or ".intercalate (close.map fun s => String.ofList (debugStr s.toList)) ++ "?"

example : didYouMean ascii "crm_get" ["crm.list", "crm.get", "billing.pay"] =
    " did you mean \"crm.get\"?" := by decide +kernel

/-! ## The order of the candidates -/

theorem closer_iff (a b : Nat × String) : closer a b = true ↔ a.1 < b.1 ∨ (a.1 = b.1 ∧ a.2 ≤ b.2) := by
  simp [closer]

theorem closer_trans (a b c : Nat × String) (hab : closer a b = true) (hbc : closer b c = true) :
    closer a c = true := by
  rw [closer_iff] at *
  rcases hab with hab | ⟨hab, sab⟩
  · left
    rcases hbc with hbc | ⟨hbc, -⟩ <;> omega
  · rcases hbc with hbc | ⟨hbc, sbc⟩
    · left; omega
    · exact Or.inr ⟨hab.trans hbc, sab.trans sbc⟩

theorem closer_total (a b : Nat × String) : (closer a b || closer b a) = true := by
  rw [Bool.or_eq_true, closer_iff, closer_iff]
  rcases Nat.lt_trichotomy a.1 b.1 with h | h | h
  · exact Or.inl (Or.inl h)
  · rcases le_total a.2 b.2 with hs | hs
    · exact Or.inl (Or.inr ⟨h, hs⟩)
    · exact Or.inr (Or.inr ⟨h.symm, hs⟩)
  · exact Or.inr (Or.inl h)

theorem closer_antisymm (a b : Nat × String) (hab : closer a b = true) (hba : closer b a = true) :
    a = b := by
  rw [closer_iff] at hab hba
  rcases hab with hab | ⟨hab, sab⟩
  · rcases hba with hba | ⟨hba, -⟩ <;> omega
  · rcases hba with hba | ⟨-, sba⟩
    · omega
    · exact Prod.ext hab (le_antisymm sab sba)

theorem mergeSort_perm_eq {xs ys : List (Nat × String)} (h : xs.Perm ys) :
    xs.mergeSort closer = ys.mergeSort closer := by
  have hp : (xs.mergeSort closer).Perm (ys.mergeSort closer) :=
    (List.mergeSort_perm xs closer).trans (h.trans (List.mergeSort_perm ys closer).symm)
  apply hp.eq_of_pairwise
  · intro a b _ _ hab hba
    exact closer_antisymm a b hab hba
  · exact List.pairwise_mergeSort closer_trans closer_total xs
  · exact List.pairwise_mergeSort closer_trans closer_total ys

theorem closestMatches_perm (wrong : String) {xs ys : List String} (h : xs.Perm ys) (n : Nat) :
    closestMatches u wrong xs n = closestMatches u wrong ys n := by
  have hs := mergeSort_perm_eq (h.filterMap (score u (normalizeId u wrong)))
  unfold closestMatches
  simp only [hs]

theorem didYouMean_perm (wrong : String) {xs ys : List String} (h : xs.Perm ys) :
    didYouMean u wrong xs = didYouMean u wrong ys := by
  unfold didYouMean
  rw [closestMatches_perm u wrong h]

/-! ## The distance -/

/-- One row from the one above, from the column behind `done` on. -/
theorem rowFrom_cells (ca : Char) (pre done bs : List Char) :
    levenshtein (ca :: pre) done :: rowFrom ca (levenshtein (ca :: pre) done) (cells pre done bs) bs =
      cells (ca :: pre) done bs := by
  induction bs generalizing done with
  | nil => rfl
  | cons cb bs ih =>
    obtain ⟨row, hrow⟩ := cells_eq_cons pre (cb :: done) bs
    have ih := ih (cb :: done)
    rw [cells, cells, hrow, rowFrom]
    rw [hrow] at ih
    rw [← ih, levenshtein]

theorem rows_cells (b pre as : List Char) :
    rows b pre.length (cells pre [] b) as = cells (as.reverse ++ pre) [] b := by
  induction as generalizing pre with
  | nil => rfl
  | cons ca as ih =>
    have hrow := rowFrom_cells ca pre [] b
    rw [levenshtein_nil_right, List.length_cons] at hrow
    rw [rows, hrow, ← List.length_cons (a := ca), ih]
    simp

theorem editDistance_eq (a b : List Char) : editDistance a b = levenshtein a b := by
  have hfirst : List.range (b.length + 1) = cells [] [] b := by rw [cells_nil, List.range_eq_range']; rfl
  have hrows := rows_cells b [] a
  rw [editDistance, hfirst]
  rw [List.length_nil] at hrows
  rw [hrows, getLastD_cells, List.append_nil, List.append_nil, levenshtein_reverse]

/-! ## The closest candidates -/

def budget (wnorm : List Char) : Nat := max 2 (wnorm.length / 4)

/-- Every candidate within the budget, with its distance. -/
def near (wrong : String) (candidates : List String) : List (Nat × String) :=
  (candidates.map fun cand => (levenshtein (normalizeId u wrong) (normalizeId u cand), cand)).filter
    fun scored => scored.1 ≤ budget (normalizeId u wrong)

/-- The first `n` candidates within the budget, by distance and then by the string. -/
def ClosestAre (wrong : String) (candidates : List String) (n : Nat) (found : List String) : Prop :=
  ∃ sorted : List (Nat × String), sorted.Perm (near u wrong candidates) ∧
    sorted.Pairwise (fun a b => a.1 < b.1 ∨ a.1 = b.1 ∧ a.2 ≤ b.2) ∧ found = (sorted.take n).map Prod.snd

/-- The length is no reason to leave out a candidate that is near. -/
theorem score_eq (wnorm : List Char) (cand : String) :
    score u wnorm cand = if levenshtein wnorm (normalizeId u cand) ≤ budget wnorm
      then some (levenshtein wnorm (normalizeId u cand), cand) else none := by
  have hlen := length_le_add_levenshtein wnorm (normalizeId u cand)
  unfold score budget
  simp only [editDistance_eq]
  split
  · rw [if_neg (by omega)]
  · rfl

theorem filterMap_score (wrong : String) (candidates : List String) :
    candidates.filterMap (score u (normalizeId u wrong)) = near u wrong candidates := by
  unfold near
  induction candidates with
  | nil => rfl
  | cons cand candidates ih =>
    rw [List.filterMap_cons, score_eq, List.map_cons, List.filter_cons, ih]
    split <;> simp_all

theorem closestMatches_exact :
    (∀ a b, editDistance a b = levenshtein a b) ∧
    ∀ (wrong : String) (candidates : List String) (n : Nat),
      (normalizeId u wrong ≠ [] →
        ClosestAre u wrong candidates n (closestMatches u wrong candidates n)) ∧
      (normalizeId u wrong = [] → closestMatches u wrong candidates n = []) := by
  refine ⟨editDistance_eq, fun wrong candidates n => ⟨fun hne => ?_, fun hnil => ?_⟩⟩
  · refine ⟨(near u wrong candidates).mergeSort closer, List.mergeSort_perm _ closer, ?_, ?_⟩
    · exact (List.pairwise_mergeSort closer_trans closer_total _).imp fun h => (closer_iff _ _).mp h
    · unfold closestMatches
      simp only [List.isEmpty_iff, hne, if_false, filterMap_score]
  · simp [closestMatches, hnil]

/-- A string without letters and digits is two edits away from `id`, which is not suggested. -/
theorem nothing_for_punctuation : ¬ClosestAre ascii "--" ["id"] 1 (closestMatches ascii "--" ["id"] 1) := by
  rintro ⟨sorted, hperm, -, hfound⟩
  have hwrong : normalizeId ascii "--" = [] := by decide +kernel
  have hcand : normalizeId ascii "id" = ['i', 'd'] := by decide +kernel
  have hnear : near ascii "--" ["id"] = [(2, "id")] := by simp [near, hwrong, hcand, budget]
  have hnone : closestMatches ascii "--" ["id"] 1 = [] := by decide +kernel
  rw [hnear, List.perm_singleton] at hperm
  rw [hnone, hperm] at hfound
  cases hfound

end MinMcp.L4.Suggestions
