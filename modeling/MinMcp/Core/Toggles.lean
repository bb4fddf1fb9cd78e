import Mathlib.Data.List.Induction
import Mathlib.Data.List.Nodup

/-!
# Names toggled in a list

A list of items, some of which carry a name. A toggle enters a name at the end unless it is there,
or takes out all that carry it.

* `run_outcome`: what a run of toggles leaves of the list, and which names stand behind it.
* `run_congr`: the order of the toggles does not matter when the last ones of each name are the
  same and enter one name at most.
-/
namespace MinMcp.Core.Toggles

/-- The name of an item, and the item entered for a name. -/
structure Naming (ν α : Type) where
  name : α → Option ν
  item : ν → α
  name_item : ∀ n, name (item n) = some n

section

variable {ν α : Type} [DecidableEq ν] (N : Naming ν α)

def has (n : ν) (l : List α) : Bool := l.any fun v => N.name v == some n

def toggle (l : List α) (t : ν × Bool) : List α :=
  if t.2 then if has N t.1 l then l else l ++ [N.item t.1] else l.filter fun v => N.name v != some t.1

def run (l : List α) (T : List (ν × Bool)) : List α := T.foldl (toggle N) l

/-- What the last toggle of the name does. -/
def last (n : ν) (T : List (ν × Bool)) : Option Bool := ((T.filter fun t => t.1 = n).getLast?).map (·.2)

/-- The items whose name is never taken out. -/
def kept (T : List (ν × Bool)) (v : α) : Bool := (N.name v).all fun n => !T.contains (n, false)

end

section

variable {ν α : Type} [DecidableEq ν] {N : Naming ν α}

theorem has_iff {n : ν} {l : List α} : has N n l = true ↔ ∃ v ∈ l, N.name v = some n := by
  simp [has]

theorem last_append_self (T : List (ν × Bool)) (n : ν) (b : Bool) : last n (T ++ [(n, b)]) = some b := by
  simp [last, List.filter_append]

theorem last_append_of_ne {n m : ν} (h : m ≠ n) (T : List (ν × Bool)) (b : Bool) :
    last n (T ++ [(m, b)]) = last n T := by
  simp [last, List.filter_append, h]

theorem kept_iff {T : List (ν × Bool)} {v : α} :
    kept N T v = true ↔ ∀ n, N.name v = some n → (n, false) ∉ T := by
  unfold kept
  cases N.name v <;> simp

theorem kept_push (T : List (ν × Bool)) (n : ν) : kept N (T ++ [(n, true)]) = kept N T := by
  funext v
  rw [Bool.eq_iff_iff, kept_iff, kept_iff]
  simp

theorem run_append (l : List α) (T U : List (ν × Bool)) : run N l (T ++ U) = run N (run N l T) U :=
  List.foldl_append

/-- The items never taken out stand in front, in their order, and behind them each name that was
entered last. -/
def Outcome (N : Naming ν α) (l : List α) (T : List (ν × Bool)) (out : List α) : Prop :=
  ∃ q : List ν, out = l.filter (kept N T) ++ q.map N.item ∧ q.Nodup ∧
    ∀ n, n ∈ q ↔ last n T = some true ∧ (has N n l = false ∨ (n, false) ∈ T)

theorem has_outcome {l : List α} {T : List (ν × Bool)} {q : List ν} (n : ν) :
    has N n (l.filter (kept N T) ++ q.map N.item) = true ↔ n ∈ q ∨ (has N n l = true ∧ (n, false) ∉ T) := by
  rw [has_iff, has_iff]
  constructor
  · intro ⟨v, hv, hn⟩
    rcases List.mem_append.mp hv with hv | hv
    · obtain ⟨hl, hk⟩ := List.mem_filter.mp hv
      exact Or.inr ⟨⟨v, hl, hn⟩, kept_iff.mp hk n hn⟩
    · obtain ⟨m, hm, rfl⟩ := List.mem_map.mp hv
      rw [N.name_item, Option.some.injEq] at hn
      exact Or.inl (hn ▸ hm)
  · intro h
    rcases h with h | ⟨⟨v, hv, hn⟩, hT⟩
    · exact ⟨N.item n, List.mem_append_right _ (List.mem_map_of_mem h), N.name_item n⟩
    · refine ⟨v, List.mem_append_left _ (List.mem_filter.mpr ⟨hv, kept_iff.mpr fun m hm => ?_⟩), hn⟩
      obtain rfl : n = m := Option.some.inj (hn.symm.trans hm)
      exact hT

theorem outcome_enter {l out : List α} {T : List (ν × Bool)} (h : Outcome N l T out) (n : ν) :
    Outcome N l (T ++ [(n, true)]) (toggle N out (n, true)) := by
  obtain ⟨q, rfl, hq, hmem⟩ := h
  unfold Outcome
  rw [kept_push, toggle, if_pos rfl]
  -- the other names stay where they are
  have hothers : ∀ m, m ≠ n → ((last m (T ++ [(n, true)]) = some true ∧
      (has N m l = false ∨ (m, false) ∈ T ++ [(n, true)])) ↔ m ∈ q) := by
    intro m hm
    rw [last_append_of_ne (Ne.symm hm), hmem m]
    simp
  have hself : (last n (T ++ [(n, true)]) = some true ∧
      (has N n l = false ∨ (n, false) ∈ T ++ [(n, true)])) ↔ ¬ (has N n l = true ∧ (n, false) ∉ T) := by
    rw [last_append_self]
    cases has N n l <;> simp
  by_cases hfront : has N n l = true ∧ (n, false) ∉ T
  · have hnot : n ∉ q := fun hin => by
      have := ((hmem n).mp hin).2
      simp [hfront.1, hfront.2] at this
    rw [if_pos ((has_outcome n).mpr (Or.inr hfront))]
    refine ⟨q, rfl, hq, fun m => ?_⟩
    by_cases hm : m = n
    · subst hm
      exact iff_of_false hnot fun h => hself.mp h hfront
    · exact (hothers m hm).symm
  · by_cases hin : n ∈ q
    · rw [if_pos ((has_outcome n).mpr (Or.inl hin))]
      refine ⟨q, rfl, hq, fun m => ?_⟩
      by_cases hm : m = n
      · subst hm
        exact iff_of_true hin (hself.mpr hfront)
      · exact (hothers m hm).symm
    · rw [if_neg fun h => ((has_outcome n).mp h).elim hin hfront]
      refine ⟨q ++ [n], by simp, hq.append (List.nodup_singleton n) (by simpa using hin), fun m => ?_⟩
      rw [List.mem_append, List.mem_singleton]
      by_cases hm : m = n
      · subst hm
        exact iff_of_true (Or.inr rfl) (hself.mpr hfront)
      · rw [or_iff_left hm]
        exact (hothers m hm).symm

theorem outcome_takeOut {l out : List α} {T : List (ν × Bool)} (h : Outcome N l T out) (n : ν) :
    Outcome N l (T ++ [(n, false)]) (toggle N out (n, false)) := by
  obtain ⟨q, rfl, hq, hmem⟩ := h
  rw [toggle, if_neg Bool.false_ne_true]
  refine ⟨q.filter fun m => m ≠ n, ?_, hq.filter _, fun m => ?_⟩
  · rw [List.filter_append, List.filter_filter, List.filter_map]
    congr 1
    · refine List.filter_congr fun v _ => ?_
      rw [Bool.eq_iff_iff, Bool.and_eq_true, kept_iff, kept_iff]
      simp only [List.mem_append, List.mem_singleton, not_or, Prod.mk.injEq, and_true, bne_iff_ne, ne_eq]
      constructor
      · intro ⟨hne, hk⟩ m hm
        exact ⟨hk m hm, fun he => hne (he ▸ hm)⟩
      · intro hk
        exact ⟨fun hn => (hk n hn).2 rfl, fun m hm => (hk m hm).1⟩
    · refine congrArg _ (List.filter_congr fun m _ => ?_)
      rw [Function.comp_apply, N.name_item, Bool.eq_iff_iff]
      simp
  · rw [List.mem_filter, hmem m]
    by_cases hm : m = n
    · subst hm
      simp [last_append_self]
    · rw [last_append_of_ne (Ne.symm hm)]
      simp [hm]

/-- **A run.** -/
theorem run_outcome (l : List α) (T : List (ν × Bool)) : Outcome N l T (run N l T) := by
  induction T using List.reverseRecOn with
  | nil =>
    refine ⟨[], ?_, List.nodup_nil, fun n => by simp [last]⟩
    simp [run, List.filter_eq_self.mpr (fun v _ => kept_iff.mpr fun n _ => List.not_mem_nil)]
  | append_singleton T t ih =>
    rw [run_append]
    obtain ⟨n, b⟩ := t
    cases b with
    | true => exact outcome_enter ih n
    | false => exact outcome_takeOut ih n

/-- Runs that end the same for each name and enter one name at most. -/
theorem run_congr {T U : List (ν × Bool)} (hlast : ∀ n, last n T = last n U)
    (hout : ∀ n, (n, false) ∈ T ↔ (n, false) ∈ U)
    (hone : ∀ n m, last n T = some true → last m T = some true → n = m) (l : List α) :
    run N l T = run N l U := by
  obtain ⟨q, hq, hqn, hqm⟩ := run_outcome (N := N) l T
  obtain ⟨r, hr, hrn, hrm⟩ := run_outcome (N := N) l U
  have hmem : ∀ n, n ∈ q ↔ n ∈ r := fun n => by rw [hqm, hrm, hlast, hout]
  have hperm := (List.perm_ext_iff_of_nodup hqn hrn).mpr hmem
  have hshort : q = r := by
    cases q with
    | nil => exact (List.nil_perm.mp hperm).symm
    | cons a q =>
      have hall : q = [] := List.eq_nil_iff_forall_not_mem.mpr fun b hb => by
        have hab := hone a b ((hqm a).mp List.mem_cons_self).1 ((hqm b).mp (List.mem_cons_of_mem a hb)).1
        exact (List.nodup_cons.mp hqn).1 (hab ▸ hb)
      subst hall
      exact (List.singleton_perm.mp hperm)
  have hkept : kept N T = kept N U := by
    funext v
    rw [Bool.eq_iff_iff, kept_iff, kept_iff]
    simp only [hout]
  rw [hq, hr, hshort, hkept]

end

end MinMcp.Core.Toggles
