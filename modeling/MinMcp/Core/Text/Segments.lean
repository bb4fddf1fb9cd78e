import MinMcp.Core.Text.Replace

/-!
# Replacing a whole part of a text

A text of parts with a separator between them, in which `sep x sep` is replaced by `sep y sep`
with the aim of replacing every part `x` by `y`. A replacement takes both separators, so none is
left for a part `x` that stands right behind; and the first and the last part have a separator
on one side only.

* `replaceAll_intercalate`: what becomes of the parts.
* `replaceParts_eq_map_iff`: every part `x` is replaced **iff** none is first, last, or right
  behind another.
-/
namespace MinMcp.Core.Text

variable {α : Type} [DecidableEq α] {sep : α} {x y s : List α} {lead : Bool} {parts : List (List α)}

/-- `lead`: there is a separator in front that no replacement has taken. -/
def replaceParts (x y : List α) : Bool → List (List α) → List (List α)
  | _, [] => []
  | _, [s] => [s]
  | lead, s :: t :: parts =>
    if lead = true ∧ s = x then y :: replaceParts x y false (t :: parts)
    else s :: replaceParts x y true (t :: parts)

/-- No part `x` is first, last, or right behind another. -/
def Apart (x : List α) (parts : List (List α)) : Prop :=
  parts.head? ≠ some x ∧ parts.getLast? ≠ some x ∧ ¬ [x, x] <:+: parts

theorem replaceParts_ne_nil (x y : List α) (lead : Bool) (s : List α) (parts : List (List α)) :
    replaceParts x y lead (s :: parts) ≠ [] := by
  cases parts with
  | nil => simp [replaceParts]
  | cons t parts =>
    rw [replaceParts]
    split <;> simp

theorem mem_replaceParts (h : s ∈ replaceParts x y lead parts) : s ∈ parts ∨ s = y := by
  fun_induction replaceParts x y lead parts with
  | case1 lead => cases h
  | case2 lead t => exact Or.inl h
  | case3 lead t u parts _ ih =>
    rcases List.mem_cons.mp h with h | h
    · exact Or.inr h
    · exact (ih h).imp_left (List.mem_cons_of_mem t)
  | case4 lead t u parts _ ih =>
    rcases List.mem_cons.mp h with h | h
    · exact Or.inl (h ▸ List.mem_cons_self)
    · exact (ih h).imp_left (List.mem_cons_of_mem t)

/-- A part that is replaced is one that should be. -/
theorem replaceParts_forall₂ (x y : List α) (lead : Bool) (parts : List (List α)) :
    List.Forall₂ (fun s t => s = t ∨ s = x ∧ t = y) (replaceParts x y lead parts)
      (parts.map fun s => if s = x then y else s) := by
  fun_induction replaceParts x y lead parts with
  | case1 lead => exact .nil
  | case2 lead s =>
    refine .cons ?_ .nil
    by_cases hs : s = x
    · exact Or.inr ⟨hs, if_pos hs⟩
    · exact Or.inl (if_neg hs).symm
  | case3 lead s t parts h ih =>
    rw [List.map_cons, if_pos h.2]
    exact .cons (Or.inl rfl) ih
  | case4 lead s t parts h ih =>
    refine .cons ?_ ih
    by_cases hs : s = x
    · exact Or.inr ⟨hs, if_pos hs⟩
    · exact Or.inl (if_neg hs).symm

omit [DecidableEq α] in
/-- The first separator of a text. -/
theorem cut_inj {r r' : List α} (hx : sep ∉ x) (hy : sep ∉ y) (h : x ++ sep :: r = y ++ sep :: r') :
    x = y ∧ r = r' := by
  induction x generalizing y with
  | nil =>
    cases y with
    | nil => exact ⟨rfl, (List.cons.inj h).2⟩
    | cons c y => exact absurd (List.cons.inj h).1 fun e => hy (e ▸ List.mem_cons_self)
  | cons c x ih =>
    cases y with
    | nil => exact absurd (List.cons.inj h).1 fun e => hx (e ▸ List.mem_cons_self)
    | cons d y =>
      obtain ⟨hcd, hrest⟩ := List.cons.inj h
      obtain ⟨hxy, hr⟩ := ih (fun hs => hx (by simp [hs])) (fun hs => hy (by simp [hs])) hrest
      exact ⟨by rw [hcd, hxy], hr⟩

/-- By the length of the text, which the first separator cuts. -/
theorem notMem_of_mem_splitOn {cs : List α} (h : s ∈ cs.splitOn sep) : sep ∉ s := by
  induction hn : cs.length using Nat.strongRecOn generalizing cs with
  | ind n ih =>
    by_cases hc : sep ∈ cs
    · obtain ⟨front, rest, rfl, hfront⟩ := List.eq_append_cons_of_mem hc
      rw [List.splitOn_append_cons_self_of_not_mem hfront] at h
      rcases List.mem_cons.mp h with rfl | h
      · exact hfront
      · refine ih rest.length ?_ h rfl
        rw [← hn, List.length_append, List.length_cons]
        omega
    · rw [List.splitOn_eq_singleton hc, List.mem_singleton] at h
      exact h ▸ hc

/-- A part has no character that the text does not have. -/
theorem subset_of_mem_splitOn {cs : List α} (h : s ∈ cs.splitOn sep) : s ⊆ cs := by
  induction hn : cs.length using Nat.strongRecOn generalizing cs with
  | ind n ih =>
    by_cases hc : sep ∈ cs
    · obtain ⟨front, rest, rfl, hfront⟩ := List.eq_append_cons_of_mem hc
      rw [List.splitOn_append_cons_self_of_not_mem hfront] at h
      rcases List.mem_cons.mp h with rfl | h
      · exact List.subset_append_left s (sep :: rest)
      · have hsub : s ⊆ rest := by
          refine ih rest.length ?_ h rfl
          rw [← hn, List.length_append, List.length_cons]
          omega
        exact fun c hcs => List.mem_append_right front (List.mem_cons_of_mem sep (hsub hcs))
    · rw [List.splitOn_eq_singleton hc, List.mem_singleton] at h
      rw [h]
      exact List.Subset.refl cs

/-- `sep x sep` stands only where a part is `x`. -/
theorem not_prefix_of_ne (hx : sep ∉ x) (hs : sep ∉ s) (h : s ≠ x) (cs : List α) :
    ¬ sep :: (x ++ [sep]) <+: sep :: (s ++ sep :: cs) := by
  intro ⟨rest, hr⟩
  rw [List.cons_append, List.cons.injEq, List.append_assoc] at hr
  have hr : x ++ sep :: rest = s ++ sep :: cs := hr.2
  have hsplit := congrArg (List.splitOn sep) hr
  rw [List.splitOn_append_cons_self_of_not_mem hx, List.splitOn_append_cons_self_of_not_mem hs] at hsplit
  exact h (List.cons.inj hsplit).1.symm

/-- By the parts, with and without a separator in front. -/
theorem replaceAll_parts (hx : sep ∉ x) (hparts : ∀ s ∈ parts, sep ∉ s) (hne : parts ≠ []) :
    replaceAll (sep :: (x ++ [sep])) (sep :: (y ++ [sep])) ([sep].intercalate parts) =
        [sep].intercalate (replaceParts x y false parts) ∧
      replaceAll (sep :: (x ++ [sep])) (sep :: (y ++ [sep])) (sep :: [sep].intercalate parts) =
        sep :: [sep].intercalate (replaceParts x y true parts) := by
  induction parts with
  | nil => exact absurd rfl hne
  | cons s parts ih =>
    have hs : sep ∉ s := hparts s List.mem_cons_self
    cases parts with
    | nil =>
      have hcopy : replaceAll (sep :: (x ++ [sep])) (sep :: (y ++ [sep])) (s ++ []) = s ++ [] :=
        replaceAll_append_of_notMem hs []
      rw [List.append_nil] at hcopy
      have hmiss : ¬ sep :: (x ++ [sep]) <+: sep :: s := by
        intro hp
        have hmem : sep ∈ x ++ [sep] := by simp
        exact hs ((List.cons_prefix_cons.mp hp).2.subset hmem)
      refine ⟨by rw [replaceParts, List.intercalate_singleton, hcopy], ?_⟩
      rw [replaceParts, List.intercalate_singleton, replaceAll_cons_of_mismatch hmiss, hcopy]
    | cons t parts =>
      obtain ⟨ih, ih'⟩ := ih (fun s hs => hparts s (List.mem_cons_of_mem _ hs)) (by simp)
      have htext : [sep].intercalate (s :: t :: parts) = s ++ sep :: [sep].intercalate (t :: parts) := by
        rw [List.intercalate_cons_cons, List.append_assoc, List.singleton_append]
      have hskip : replaceAll (sep :: (x ++ [sep])) (sep :: (y ++ [sep]))
            ([sep].intercalate (s :: t :: parts)) =
          [sep].intercalate (s :: replaceParts x y true (t :: parts)) := by
        rw [htext, replaceAll_append_of_notMem hs, ih',
          List.intercalate_cons_of_ne_nil (replaceParts_ne_nil x y true t parts), List.append_assoc,
          List.singleton_append]
      refine ⟨hskip, ?_⟩
      by_cases hsx : s = x
      · have hsplit : sep :: (x ++ sep :: [sep].intercalate (t :: parts)) =
            sep :: (x ++ [sep]) ++ [sep].intercalate (t :: parts) := by simp
        rw [replaceParts, if_pos ⟨rfl, hsx⟩, htext, hsx, hsplit, replaceAll_append_match (by simp), ih,
          List.intercalate_cons_of_ne_nil (replaceParts_ne_nil x y false t parts), List.cons_append]
      · rw [replaceParts, if_neg fun h => hsx h.2, ← hskip, htext,
          replaceAll_cons_of_mismatch (not_prefix_of_ne hx hs hsx _)]

theorem replaceAll_intercalate (hx : sep ∉ x) (hparts : ∀ s ∈ parts, sep ∉ s) (hne : parts ≠ []) :
    replaceAll (sep :: (x ++ [sep])) (sep :: (y ++ [sep])) ([sep].intercalate parts) =
      [sep].intercalate (replaceParts x y false parts) :=
  (replaceAll_parts hx hparts hne).1

omit [DecidableEq α] in
theorem pair_infix_cons {t : List α} :
    [x, x] <:+: s :: t :: parts ↔ (s = x ∧ t = x) ∨ [x, x] <:+: t :: parts := by
  rw [List.infix_cons_iff, List.cons_prefix_cons, List.cons_prefix_cons, eq_comm (b := s), eq_comm (b := t)]
  simp

/-- By the parts: what stands in front of a part is told by `lead`. -/
theorem replaceParts_eq_map (hxy : x ≠ y) :
    replaceParts x y lead parts = parts.map (fun s => if s = x then y else s) ↔
      (lead = false → parts.head? ≠ some x) ∧ parts.getLast? ≠ some x ∧ ¬ [x, x] <:+: parts := by
  fun_induction replaceParts x y lead parts with
  | case1 lead => simp
  | case2 lead s =>
    have hshort : ¬ [x, x] <:+: [s] := fun h => absurd h.length_le (by simp)
    by_cases hs : s = x
    · simp [hs, hxy]
    · simp [hs, hshort]
  | case3 lead s t parts h ih =>
    obtain ⟨rfl, rfl⟩ := h
    rw [List.map_cons, if_pos rfl, List.cons.injEq, ih, pair_infix_cons, List.getLast?_cons_cons]
    simp only [List.head?_cons, Option.some.injEq, ne_eq, true_and, forall_const, reduceCtorEq, false_imp_iff]
    tauto
  | case4 lead s t parts h ih =>
    rw [List.map_cons, List.cons.injEq, ih, pair_infix_cons, List.getLast?_cons_cons]
    by_cases hs : s = x
    · have hlead : lead = false := by simpa [hs] using h
      simp [hs, hxy, hlead]
    · simp [hs]

/-- **Replacing whole parts.** Every part `x` is replaced iff these parts stand apart. -/
theorem replaceParts_eq_map_iff (hxy : x ≠ y) :
    replaceParts x y false parts = parts.map (fun s => if s = x then y else s) ↔ Apart x parts := by
  rw [replaceParts_eq_map hxy, Apart]
  simp

end MinMcp.Core.Text
