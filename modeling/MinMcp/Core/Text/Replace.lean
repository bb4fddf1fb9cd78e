import Mathlib.Data.List.Basic
import Mathlib.Data.List.Infix

/-!
# Text replacement

`replaceAll pat new cs` is the leftmost, non-overlapping replacement of a string
library (`str.replace`) for a non-empty pattern, over any type of characters.
The scan is structural: after a match the rest of the matched text is skipped.

* `replaceAll_append_match`, `replaceAll_cons_of_mismatch`: the two moves of
  the scan.
* `occ pat cs`: the number of positions of `cs` where `pat` occurs.
* `replaceAll_eq_self`: no occurrence, no change.
* `count_replaceAll_lt`: an occurrence removes a character that the pattern has
  and the replacement does not.
-/
namespace MinMcp.Core.Text

variable {α : Type} [DecidableEq α]

/-- `n` characters are still to be skipped. -/
def replaceGo (pat new : List α) : Nat → List α → List α
  | _, [] => []
  | n + 1, _ :: cs => replaceGo pat new n cs
  | 0, c :: cs =>
    if pat.isPrefixOf (c :: cs) then new ++ replaceGo pat new (pat.length - 1) cs
    else c :: replaceGo pat new 0 cs

def replaceAll (pat new cs : List α) : List α := replaceGo pat new 0 cs

/-- Positions of `cs` at which `pat` occurs. -/
def occ (pat : List α) : List α → Nat
  | [] => 0
  | c :: cs => (if pat.isPrefixOf (c :: cs) then 1 else 0) + occ pat cs

@[simp] theorem replaceAll_nil (pat new : List α) : replaceAll pat new [] = [] := rfl

theorem replaceGo_drop (pat new : List α) (n : Nat) (cs : List α) :
    replaceGo pat new n cs = replaceAll pat new (cs.drop n) := by
  induction cs generalizing n with
  | nil => cases n <;> simp [replaceGo]
  | cons c cs ih =>
    cases n with
    | zero => rfl
    | succ n => rw [replaceGo, ih, List.drop_succ_cons]

theorem replaceAll_cons_of_match {pat new cs : List α} {c : α} (h : pat <+: c :: cs) :
    replaceAll pat new (c :: cs) = new ++ replaceAll pat new (cs.drop (pat.length - 1)) := by
  rw [replaceAll, replaceGo, if_pos (List.isPrefixOf_iff_prefix.mpr h), replaceGo_drop]

theorem replaceAll_cons_of_mismatch {pat new cs : List α} {c : α} (h : ¬ pat <+: c :: cs) :
    replaceAll pat new (c :: cs) = c :: replaceAll pat new cs := by
  rw [replaceAll, replaceGo, if_neg (by rwa [List.isPrefixOf_iff_prefix])]; rfl

theorem replaceAll_append_match {pat : List α} (hp : pat ≠ []) (new cs : List α) :
    replaceAll pat new (pat ++ cs) = new ++ replaceAll pat new cs := by
  cases pat with
  | nil => exact absurd rfl hp
  | cons p ps =>
    have h : p :: ps <+: p :: (ps ++ cs) := List.prefix_append (p :: ps) cs
    rw [List.cons_append, replaceAll_cons_of_match h]
    simp

/-- Text in which the first character of the pattern does not occur is copied. -/
theorem replaceAll_append_of_notMem {p : α} {ps new xs : List α} (h : p ∉ xs) (cs : List α) :
    replaceAll (p :: ps) new (xs ++ cs) = xs ++ replaceAll (p :: ps) new cs := by
  induction xs with
  | nil => rfl
  | cons x xs ih =>
    simp only [List.mem_cons, not_or] at h
    rw [List.cons_append, replaceAll_cons_of_mismatch, ih h.2, List.cons_append]
    intro hp
    exact h.1 (List.cons_prefix_cons.mp hp).1

theorem occ_cons_of_mismatch {pat cs : List α} {c : α} (h : ¬ pat <+: c :: cs) :
    occ pat (c :: cs) = occ pat cs := by
  rw [occ, if_neg (by rwa [List.isPrefixOf_iff_prefix]), Nat.zero_add]

theorem occ_cons_of_match {pat cs : List α} {c : α} (h : pat <+: c :: cs) :
    occ pat (c :: cs) = 1 + occ pat cs := by
  rw [occ, if_pos (List.isPrefixOf_iff_prefix.mpr h)]

theorem occ_append_of_notMem {p : α} {ps xs : List α} (h : p ∉ xs) (cs : List α) :
    occ (p :: ps) (xs ++ cs) = occ (p :: ps) cs := by
  induction xs with
  | nil => rfl
  | cons x xs ih =>
    simp only [List.mem_cons, not_or] at h
    rw [List.cons_append, occ_cons_of_mismatch, ih h.2]
    intro hp
    exact h.1 (List.cons_prefix_cons.mp hp).1

theorem replaceAll_eq_self {pat new cs : List α} (h : occ pat cs = 0) : replaceAll pat new cs = cs := by
  induction cs with
  | nil => rfl
  | cons c cs ih =>
    by_cases hp : pat <+: c :: cs
    · rw [occ_cons_of_match hp] at h; omega
    · rw [occ_cons_of_mismatch hp] at h
      rw [replaceAll_cons_of_mismatch hp, ih h]

/-! ## Counting

A character `x` of the pattern that the replacement does not have: its count
never grows, and every replaced occurrence takes at least one away. -/

theorem count_replaceAll_le {pat new : List α} (hp : pat ≠ []) {x : α} (ht : x ∉ new) (cs : List α) :
    (replaceAll pat new cs).count x ≤ cs.count x := by
  induction hn : cs.length using Nat.strongRecOn generalizing cs with
  | ind n ih =>
    cases cs with
    | nil => simp
    | cons c cs =>
      by_cases h : pat <+: c :: cs
      · obtain ⟨rest, hr⟩ := h
        have hl : rest.length < n := by
          have := congrArg List.length hr
          have := List.length_pos_of_ne_nil hp
          simp only [List.length_append, List.length_cons] at *
          omega
        rw [← hr, replaceAll_append_match hp, List.count_append, List.count_append,
          List.count_eq_zero.mpr ht]
        have := ih _ hl rest rfl
        omega
      · rw [replaceAll_cons_of_mismatch h, List.count_cons, List.count_cons]
        have := ih _ (by simp at hn; omega) cs rfl
        omega

theorem count_replaceAll_lt {pat new : List α} (hp : pat ≠ []) {x : α} (hx : x ∈ pat) (ht : x ∉ new)
    {cs : List α} (h : occ pat cs ≠ 0) : (replaceAll pat new cs).count x < cs.count x := by
  induction cs with
  | nil => simp [occ] at h
  | cons c cs ih =>
    by_cases hc : pat <+: c :: cs
    · obtain ⟨rest, hr⟩ := hc
      have := count_replaceAll_le hp ht rest
      have hpos := List.count_pos_iff.mpr hx
      rw [← hr, replaceAll_append_match hp, List.count_append, List.count_append,
        List.count_eq_zero.mpr ht]
      omega
    · rw [occ_cons_of_mismatch hc] at h
      rw [replaceAll_cons_of_mismatch hc, List.count_cons, List.count_cons]
      have := ih h
      omega

/-- When the pattern has `p` at its head only, every occurrence is replaced and
takes exactly one `p` away. -/
theorem count_replaceAll_add_occ {p : α} {ps new : List α} (hp : p ∉ ps) (hn : p ∉ new)
    (cs : List α) : (replaceAll (p :: ps) new cs).count p + occ (p :: ps) cs = cs.count p := by
  induction hl : cs.length using Nat.strongRecOn generalizing cs with
  | ind n ih =>
    cases cs with
    | nil => simp [occ]
    | cons c cs =>
      by_cases h : p :: ps <+: c :: cs
      · obtain ⟨rest, hr⟩ := h
        have hlt : rest.length < n := by
          have := congrArg List.length hr
          simp only [List.length_append, List.length_cons] at *
          omega
        have hc : c = p ∧ cs = ps ++ rest := by
          simp only [List.cons_append, List.cons.injEq] at hr
          exact ⟨hr.1.symm, hr.2.symm⟩
        rw [occ_cons_of_match ⟨rest, hr⟩, hc.2, occ_append_of_notMem hp, hc.1, ← List.cons_append,
          replaceAll_append_match (by simp), List.count_append, List.count_append, List.count_cons_self,
          List.count_eq_zero.mpr hn, List.count_eq_zero.mpr hp]
        have := ih _ hlt rest rfl
        omega
      · rw [occ_cons_of_mismatch h, replaceAll_cons_of_mismatch h, List.count_cons, List.count_cons]
        have := ih _ (by simp at hl; omega) cs rfl
        omega

end MinMcp.Core.Text
