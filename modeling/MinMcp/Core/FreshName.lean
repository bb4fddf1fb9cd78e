import Mathlib.Data.List.Perm.Subperm
import Mathlib.Data.List.Nodup
import Std.Data.String.ToNat

/-!
# Making names distinct

Names come one after another; one that is taken already is replaced by the first of its
numbered variants, from number 2 on, that is not. The search is a loop without a bound:
`fuel` bounds it here.

* `exists_free`: among one more variant than there are names taken, one is free.
* `search_spec`: what the search finds is the first free variant, and its number is small.
* `choose_total`: the search ends.
* `distinct_spec`: every name gets one, and all are distinct.
* `distinct_of_nodup`: names that are distinct already stay.
-/
namespace MinMcp.Core.FreshName

variable {α : Type} [DecidableEq α] (variant : α → Nat → α)

/-- The first free variant of `base` from number `i` on. -/
def search (taken : List α) (base : α) : Nat → Nat → Option α
  | 0, _ => none
  | fuel + 1, i =>
    if variant base i ∈ taken then search taken base fuel (i + 1) else some (variant base i)

def choose (fuel : Nat) (taken : List α) (name : α) : Option α :=
  if name ∈ taken then search variant taken name fuel 2 else some name

/-- The names in their order, each made distinct from those before it. -/
def distinct (fuel : Nat) (taken : List α) : List α → Option (List α)
  | [] => some []
  | name :: names =>
    (choose variant fuel taken name).bind fun chosen =>
      (distinct fuel (chosen :: taken) names).map (chosen :: ·)

variable {variant}

theorem search_spec {taken : List α} {base name : α} {fuel i : Nat}
    (h : search variant taken base fuel i = some name) :
    name ∉ taken ∧ ∃ j, i ≤ j ∧ j < i + fuel ∧ name = variant base j ∧
      ∀ n, i ≤ n → n < j → variant base n ∈ taken := by
  induction fuel generalizing i with
  | zero => cases h
  | succ fuel ih =>
    rw [search] at h
    split at h
    · next htaken =>
      obtain ⟨hfree, j, hij, hj, hname, hbelow⟩ := ih h
      refine ⟨hfree, j, by omega, by omega, hname, fun n hn hlt => ?_⟩
      rcases Nat.eq_or_lt_of_le hn with rfl | hn
      · exact htaken
      · exact hbelow n hn hlt
    · next hfree =>
      cases h
      exact ⟨hfree, i, Nat.le_refl i, by omega, rfl, fun n hn hlt => absurd hlt (by omega)⟩

/-- Variants that differ are not all taken. -/
theorem exists_free {f : Nat → α} (hf : Function.Injective f) (taken : List α) (n : Nat) :
    ∃ k, k ≤ taken.length ∧ f (n + k) ∉ taken := by
  by_contra hall
  let tried := (List.range (taken.length + 1)).map fun k => f (n + k)
  have hnodup : tried.Nodup := by
    refine List.Nodup.map (fun i j h => ?_) List.nodup_range
    have := hf h
    omega
  have hsub : tried ⊆ taken := by
    intro x hx
    obtain ⟨k, hk, rfl⟩ := List.mem_map.mp hx
    have := List.mem_range.mp hk
    by_contra hfree
    exact hall ⟨k, by omega, hfree⟩
  have hlen : tried.length ≤ taken.length := (hnodup.subperm hsub).length_le
  simp only [tried, List.length_map, List.length_range] at hlen
  omega

theorem search_isSome {taken : List α} {base : α} {fuel i k : Nat} (hk : k < fuel)
    (hfree : variant base (i + k) ∉ taken) : (search variant taken base fuel i).isSome = true := by
  induction fuel generalizing i k with
  | zero => omega
  | succ fuel ih =>
    rw [search]
    split
    · next htaken =>
      have hk0 : k ≠ 0 := by
        rintro rfl
        exact hfree htaken
      exact ih (k := k - 1) (by omega) (by rwa [show i + 1 + (k - 1) = i + k by omega])
    · rfl

/-- More turns change nothing. -/
theorem search_mono {taken : List α} {base name : α} {fuel more i : Nat} (hle : fuel ≤ more)
    (h : search variant taken base fuel i = some name) : search variant taken base more i = some name := by
  induction fuel generalizing more i with
  | zero => cases h
  | succ fuel ih =>
    cases more with
    | zero => omega
    | succ more =>
      rw [search] at h ⊢
      split
      · next htaken =>
        rw [if_pos htaken] at h
        exact ih (by omega) h
      · next hfree =>
        rwa [if_neg hfree] at h

theorem choose_free {fuel : Nat} {taken : List α} {name chosen : α}
    (h : choose variant fuel taken name = some chosen) : chosen ∉ taken := by
  unfold choose at h
  split at h
  · exact (search_spec h).1
  · next hfree =>
    cases h
    exact hfree

theorem choose_mono {fuel more : Nat} (hle : fuel ≤ more) {taken : List α} {name chosen : α}
    (h : choose variant fuel taken name = some chosen) : choose variant more taken name = some chosen := by
  unfold choose at h ⊢
  split
  · next htaken =>
    rw [if_pos htaken] at h
    exact search_mono hle h
  · next hfree =>
    rwa [if_neg hfree] at h

/-- **The search ends**, with a turn for each name taken and one more. -/
theorem choose_total (hv : ∀ base, Function.Injective (variant base)) (taken : List α) (name : α) :
    ∃ chosen, ∀ fuel, taken.length < fuel → choose variant fuel taken name = some chosen := by
  have hsome : (choose variant (taken.length + 1) taken name).isSome = true := by
    unfold choose
    split
    · obtain ⟨k, hk, hfree⟩ := exists_free (hv name) taken 2
      exact search_isSome (Nat.lt_succ_of_le hk) hfree
    · rfl
  obtain ⟨chosen, hchosen⟩ := Option.isSome_iff_exists.mp hsome
  exact ⟨chosen, fun fuel hfuel => choose_mono hfuel hchosen⟩

/-- Each of the names is new, and so is it among the others. -/
theorem distinct_spec {fuel : Nat} {taken names chosen : List α}
    (h : distinct variant fuel taken names = some chosen) :
    chosen.length = names.length ∧ chosen.Nodup ∧ ∀ name ∈ chosen, name ∉ taken := by
  induction names generalizing taken chosen with
  | nil =>
    cases h
    exact ⟨rfl, List.nodup_nil, by simp⟩
  | cons name names ih =>
    rw [distinct, Option.bind_eq_some_iff] at h
    obtain ⟨first, hfirst, h⟩ := h
    rw [Option.map_eq_some_iff] at h
    obtain ⟨rest, hrest, rfl⟩ := h
    obtain ⟨hlen, hnodup, hnew⟩ := ih hrest
    refine ⟨by simp [hlen], List.nodup_cons.mpr ⟨?_, hnodup⟩, ?_⟩
    · intro hmem
      exact hnew first hmem List.mem_cons_self
    · intro other hother
      rcases List.mem_cons.mp hother with rfl | hother
      · exact choose_free hfirst
      · exact fun ht => hnew other hother (List.mem_cons_of_mem _ ht)

/-- **Names that are distinct already stay.** -/
theorem distinct_of_nodup (fuel : Nat) {taken names : List α} (hn : names.Nodup)
    (hnew : ∀ name ∈ names, name ∉ taken) : distinct variant fuel taken names = some names := by
  induction names generalizing taken with
  | nil => rfl
  | cons name names ih =>
    rw [List.nodup_cons] at hn
    rw [List.forall_mem_cons] at hnew
    rw [distinct, choose, if_neg hnew.1, Option.bind_some, ih hn.2 ?_, Option.map_some]
    intro other hother ht
    rcases List.mem_cons.mp ht with rfl | ht
    · exact hn.1 hother
    · exact hnew.2 other hother ht

/-- A name with a number behind it. -/
def numbered (base : String) (i : Nat) : String := base ++ "_" ++ Nat.repr i

theorem numbered_injective (base : String) : Function.Injective (numbered base) := by
  intro i j h
  refine Nat.repr_injective (String.toList_inj.mp ?_)
  have := congrArg String.toList h
  simp only [numbered, String.toList_append] at this
  exact List.append_cancel_left this

example : distinct numbered 4 [] ["dup", "dup", "dup_2"] = some ["dup", "dup_2", "dup_2_2"] := by decide

end MinMcp.Core.FreshName
