import Mathlib.Data.List.Nodup
import Mathlib.Data.List.Perm.Basic
import Mathlib.Data.List.Perm.Subperm
import Mathlib.Logic.Function.Basic

/-!
# A fair counting semaphore

`cap` permits, and a queue of those who wait for one. A permit that comes back goes to the first
in the queue, who finds it its own when it runs; it is free only while nobody waits. With one
permit this is a mutex.

* `Semaphore`: the permits are counted, and nobody waits beside a free one, by construction.
* `cases_request`, `cases_release`: what an operation does.
* `moved_up`: a permit that comes back moves all who wait one place up.
* `Consistent`: users who are outside, wait or are inside, and the semaphore's own account of them;
  `consistent_request`, `consistent_wake`, `consistent_release`, `consistent_withdraw` keep it.
* `length_inside_le`: at most `cap` users are inside.
-/
namespace MinMcp.Core

/-- `holders` have a permit; some of them were handed it while they waited. -/
structure Semaphore (cap : Nat) (ι : Type) where
  free : Nat
  holders : List ι
  queue : List ι
  counted : free + holders.length = cap
  handed : queue = [] ∨ free = 0
  once : (holders ++ queue).Nodup

namespace Semaphore

variable {cap : Nat} {ι : Type}

def new (cap : Nat) (ι : Type) : Semaphore cap ι := ⟨cap, [], [], rfl, Or.inl rfl, List.nodup_nil⟩

section Operations

variable [DecidableEq ι] (s : Semaphore cap ι) (i : ι)

/-- Take a permit, or wait for one. -/
def request : Semaphore cap ι :=
  if hi : i ∈ s.holders ++ s.queue then s
  else if hf : s.free = 0 then
    { free := 0, holders := s.holders, queue := s.queue ++ [i]
      counted := by have := s.counted; omega
      handed := Or.inr rfl
      once := by
        rw [← List.append_assoc]
        exact List.nodup_append_comm.mp (List.nodup_cons.mpr ⟨hi, s.once⟩) }
  else
    { free := s.free - 1, holders := s.holders ++ [i], queue := []
      counted := by have := s.counted; rw [List.length_append, List.length_singleton]; omega
      handed := Or.inl rfl
      once := by
        have hq : s.queue = [] := s.handed.resolve_right hf
        rw [hq, List.append_nil] at hi
        have hn := s.once
        rw [hq, List.append_nil] at hn
        rw [List.append_nil]
        exact List.nodup_append_comm.mp (List.nodup_cons.mpr ⟨hi, hn⟩) }

/-- Give a permit back. -/
def release : Semaphore cap ι :=
  if hi : i ∈ s.holders then
    match hq : s.queue with
    | [] =>
      { free := s.free + 1, holders := s.holders.erase i, queue := []
        counted := by
          have := s.counted
          have := List.length_pos_of_mem hi
          rw [List.length_erase_of_mem hi]
          omega
        handed := Or.inl rfl
        once := by
          have hn := s.once
          rw [hq, List.append_nil] at hn
          rw [List.append_nil]
          exact hn.erase i }
    | j :: q =>
      { free := s.free, holders := s.holders.erase i ++ [j], queue := q
        counted := by
          have := s.counted
          have := List.length_pos_of_mem hi
          rw [List.length_append, List.length_erase_of_mem hi, List.length_singleton]
          omega
        handed := Or.inr (s.handed.resolve_left (by rw [hq]; exact List.cons_ne_nil j q))
        once := by
          have hn := s.once
          rw [hq] at hn
          rw [List.append_assoc, List.singleton_append]
          exact hn.sublist ((List.erase_sublist).append_right _) }
  else s

/-- Give up waiting. -/
def withdraw : Semaphore cap ι :=
  { s with
    queue := s.queue.erase i
    handed := s.handed.imp_left fun h => by rw [h]; rfl
    once := s.once.sublist ((List.erase_sublist).append_left _) }

end Operations

/-! ## What holds of every semaphore -/

variable {s : Semaphore cap ι} {i j : ι}

theorem length_holders_le (s : Semaphore cap ι) : s.holders.length ≤ cap := by
  have := s.counted
  omega

theorem nodup_holders (s : Semaphore cap ι) : s.holders.Nodup := s.once.of_append_left

theorem nodup_queue (s : Semaphore cap ι) : s.queue.Nodup := s.once.of_append_right

theorem notMem_queue (h : i ∈ s.holders) : i ∉ s.queue :=
  fun hq => (List.disjoint_of_nodup_append s.once) h hq

/-- Who waits finds all permits taken. -/
theorem full_of_waiting (h : i ∈ s.queue) : s.holders.length = cap := by
  have := s.counted
  rcases s.handed with hq | hf
  · rw [hq] at h
    cases h
  · omega

/-- One permit has one holder. -/
theorem eq_of_holders (s : Semaphore 1 ι) {i j : ι} (hi : i ∈ s.holders) (hj : j ∈ s.holders) : i = j := by
  have hlen := s.length_holders_le
  match hs : s.holders with
  | [] => rw [hs] at hi; cases hi
  | [k] =>
    rw [hs, List.mem_singleton] at hi hj
    rw [hi, hj]
  | _ :: _ :: _ =>
    rw [hs, List.length_cons, List.length_cons] at hlen
    omega

section Cases

variable [DecidableEq ι]

/-- A permit is taken, or the queue is joined. -/
theorem cases_request (hi : i ∉ s.holders) (hq : i ∉ s.queue) :
    ((s.request i).holders = s.holders ++ [i] ∧ (s.request i).queue = s.queue) ∨
      ((s.request i).holders = s.holders ∧ (s.request i).queue = s.queue ++ [i]) := by
  have hn : i ∉ s.holders ++ s.queue := by simp [hi, hq]
  unfold request
  rw [dif_neg hn]
  split
  · exact Or.inr ⟨rfl, rfl⟩
  · next hf => exact Or.inl ⟨rfl, (s.handed.resolve_right hf).symm⟩

theorem mem_holders_request (hf : s.free ≠ 0) (i : ι) : i ∈ (s.request i).holders := by
  unfold request
  split
  · next hi =>
    have hq : s.queue = [] := s.handed.resolve_right hf
    rwa [hq, List.append_nil] at hi
  · exact List.mem_append_right _ (List.mem_singleton.mpr rfl)

/-- The permit is free again, or handed to the first in the queue. -/
theorem cases_release (hi : i ∈ s.holders) :
    (s.queue = [] ∧ (s.release i).holders = s.holders.erase i ∧ (s.release i).queue = []) ∨
      ∃ j q, s.queue = j :: q ∧ (s.release i).holders = s.holders.erase i ++ [j] ∧
        (s.release i).queue = q := by
  unfold release
  rw [dif_pos hi]
  split
  · next hq => exact Or.inl ⟨hq, rfl, rfl⟩
  · next j q hq => exact Or.inr ⟨j, q, hq, rfl, rfl⟩

theorem mem_holders_release (hi : i ∈ s.holders) :
    j ∈ (s.release i).holders ↔ (j ∈ s.holders ∧ j ≠ i) ∨ s.queue.head? = some j := by
  have herase : j ∈ s.holders.erase i ↔ j ∈ s.holders ∧ j ≠ i := by
    rw [s.nodup_holders.mem_erase_iff, and_comm]
  rcases cases_release hi with ⟨hq, hh, -⟩ | ⟨k, q, hq, hh, -⟩
  · rw [hh, hq, herase, List.head?_nil]
    simp
  · rw [hh, hq, List.mem_append, herase, List.mem_singleton, List.head?_cons, Option.some.injEq,
      eq_comm (a := j) (b := k)]

theorem queue_release (hi : i ∈ s.holders) : (s.release i).queue = s.queue.tail := by
  rcases cases_release hi with ⟨hq, -, h⟩ | ⟨k, q, hq, -, h⟩
  · rw [h, hq]
    rfl
  · rw [h, hq]
    rfl

@[simp] theorem holders_withdraw (s : Semaphore cap ι) (i : ι) : (s.withdraw i).holders = s.holders := rfl

@[simp] theorem queue_withdraw (s : Semaphore cap ι) (i : ι) : (s.withdraw i).queue = s.queue.erase i := rfl

/-! ## The order of the queue -/

/-- How many wait in front. -/
def ahead (s : Semaphore cap ι) (i : ι) : Nat := s.queue.idxOf i

/-- Who comes later stands behind. -/
theorem ahead_request (hi : i ∉ s.holders) (hq : i ∉ s.queue) (hj : j ∈ s.queue) :
    (s.request i).ahead j = s.ahead j := by
  unfold ahead
  rcases cases_request hi hq with ⟨-, h⟩ | ⟨-, h⟩
  · rw [h]
  · rw [h, List.idxOf_append_of_mem hj]

/-- A permit that comes back moves all who wait one place up. -/
theorem moved_up (hi : i ∈ s.holders) (hj : j ∈ (s.release i).queue) :
    (s.release i).ahead j + 1 = s.ahead j := by
  unfold ahead
  rcases cases_release hi with ⟨-, -, h⟩ | ⟨k, q, hq, -, h⟩
  · rw [h] at hj
    cases hj
  · rw [h] at hj ⊢
    have hn := s.nodup_queue
    rw [hq, List.nodup_cons] at hn
    have hne : k ≠ j := fun he => hn.1 (by rw [he]; exact hj)
    rw [hq, List.idxOf_cons_ne _ hne]

theorem ahead_withdraw (hj : j ∈ s.queue) (hne : j ≠ i) : (s.withdraw i).ahead j ≤ s.ahead j := by
  have hmem : j ∈ s.queue.erase i := (List.mem_erase_of_ne hne).mpr hj
  unfold ahead
  rw [queue_withdraw]
  generalize s.queue = q at hj hmem
  induction q with
  | nil => cases hj
  | cons k q ih =>
    by_cases hk : k = i
    · subst hk
      rw [List.erase_cons_head, List.idxOf_cons_ne _ hne.symm]
      omega
    · rw [List.erase_cons_tail (by simpa using hk)] at hmem ⊢
      by_cases hkj : k = j
      · subst hkj
        rw [List.idxOf_cons_self]
        omega
      · rw [List.idxOf_cons_ne _ hkj, List.idxOf_cons_ne _ hkj]
        have hq : j ∈ q := (List.mem_cons.mp hj).resolve_left (Ne.symm hkj)
        have := ih hq ((List.mem_cons.mp hmem).resolve_left (Ne.symm hkj))
        omega

end Cases

/-! ## Users -/

/-- Where a user is; who was handed a permit waits until it runs. -/
inductive Place where
  | outside | waiting | inside
  deriving DecidableEq

/-- The semaphore's account of one user. -/
def Seated (s : Semaphore cap ι) (i : ι) : Place → Prop
  | .outside => i ∉ s.holders ∧ i ∉ s.queue
  | .waiting => i ∈ s.holders ∨ i ∈ s.queue
  | .inside => i ∈ s.holders

def Consistent (s : Semaphore cap ι) (places : ι → Place) : Prop := ∀ i, s.Seated i (places i)

/-- The others keep their permits, and may get one only from the queue. -/
structure Keeps (s s' : Semaphore cap ι) (i : ι) : Prop where
  holds : ∀ j, j ≠ i → j ∈ s.holders → j ∈ s'.holders
  waits : ∀ j, j ≠ i → j ∈ s.queue → j ∈ s'.holders ∨ j ∈ s'.queue
  held : ∀ j, j ≠ i → j ∈ s'.holders → j ∈ s.holders ∨ j ∈ s.queue
  waited : ∀ j, j ≠ i → j ∈ s'.queue → j ∈ s.queue

theorem Keeps.seated {s' : Semaphore cap ι} (h : Keeps s s' i) (hne : j ≠ i) {p : Place}
    (hj : s.Seated j p) : s'.Seated j p := by
  cases p with
  | outside =>
    refine ⟨fun hh => ?_, fun hq => hj.2 (h.waited j hne hq)⟩
    exact (h.held j hne hh).elim hj.1 hj.2
  | waiting => exact hj.elim (fun hh => Or.inl (h.holds j hne hh)) (h.waits j hne)
  | inside => exact h.holds j hne hj

theorem consistent_new (cap : Nat) : Consistent (new cap ι) fun _ => .outside := fun i => by
  simp [Seated, new]

section Users

variable [DecidableEq ι] {places : ι → Place}

theorem Consistent.update {s' : Semaphore cap ι} (h : Consistent s places) (hk : Keeps s s' i) {p : Place}
    (hi : s'.Seated i p) : Consistent s' (Function.update places i p) := by
  intro j
  by_cases hj : j = i
  · subst hj
    rw [Function.update_self]
    exact hi
  · rw [Function.update_of_ne hj]
    exact hk.seated hj (h j)

theorem keeps_request (hi : i ∉ s.holders) (hq : i ∉ s.queue) : Keeps s (s.request i) i := by
  rcases cases_request hi hq with ⟨hh, hw⟩ | ⟨hh, hw⟩
  · constructor <;> intro j hj hm <;> simp_all
  · constructor <;> intro j hj hm <;> simp_all

theorem keeps_release (hi : i ∈ s.holders) : Keeps s (s.release i) i where
  holds j hj hm := (mem_holders_release hi).mpr (Or.inl ⟨hm, hj⟩)
  waits j hj hm := by
    rw [mem_holders_release hi, queue_release hi]
    cases hs : s.queue with
    | nil => rw [hs] at hm; cases hm
    | cons k q =>
      rw [hs] at hm
      rcases List.mem_cons.mp hm with rfl | hm
      · exact Or.inl (Or.inr rfl)
      · exact Or.inr hm
  held _ _ hm := by
    rcases (mem_holders_release hi).mp hm with hm | hm
    · exact Or.inl hm.1
    · exact Or.inr (List.mem_of_mem_head? hm)
  waited _ _ hm := by
    rw [queue_release hi] at hm
    exact List.mem_of_mem_tail hm

theorem keeps_withdraw (s : Semaphore cap ι) (i : ι) : Keeps s (s.withdraw i) i where
  holds _ _ hm := hm
  waits j hj hm := Or.inr ((List.mem_erase_of_ne hj).mpr hm)
  held _ _ hm := Or.inl hm
  waited _ _ hm := List.mem_of_mem_erase hm

theorem consistent_request (h : Consistent s places) (hi : places i = .outside) :
    Consistent (s.request i)
      (Function.update places i (if i ∈ (s.request i).holders then .inside else .waiting)) := by
  have ho : s.Seated i .outside := hi ▸ h i
  refine h.update (keeps_request ho.1 ho.2) ?_
  split
  · next hh => exact hh
  · next hh =>
    rcases cases_request ho.1 ho.2 with ⟨hs, -⟩ | ⟨-, hq⟩
    · exact absurd (by rw [hs]; simp) hh
    · exact Or.inr (by rw [hq]; simp)

theorem consistent_wake (h : Consistent s places) (hi : i ∈ s.holders) :
    Consistent s (Function.update places i .inside) :=
  h.update ⟨fun _ _ hm => hm, fun _ _ hm => Or.inr hm, fun _ _ hm => Or.inl hm, fun _ _ hm => hm⟩ hi

theorem consistent_release (h : Consistent s places) (hi : i ∈ s.holders) :
    Consistent (s.release i) (Function.update places i .outside) := by
  refine h.update (keeps_release hi) ⟨fun hh => ?_, fun hq => ?_⟩
  · rcases (mem_holders_release hi).mp hh with hh | hh
    · exact hh.2 rfl
    · exact notMem_queue hi (List.mem_of_mem_head? hh)
  · rw [queue_release hi] at hq
    exact notMem_queue hi (List.mem_of_mem_tail hq)

theorem consistent_withdraw (h : Consistent s places) (hi : i ∉ s.holders) :
    Consistent (s.withdraw i) (Function.update places i .outside) :=
  h.update (keeps_withdraw s i) ⟨hi, s.nodup_queue.not_mem_erase⟩

end Users

/-- At most `cap` users are inside. -/
theorem length_inside_le {places : ι → Place} (h : Consistent s places) {is : List ι} (hn : is.Nodup)
    (hi : ∀ i ∈ is, places i = .inside) : is.length ≤ cap := by
  have hsub : is ⊆ s.holders := fun i hm => by
    have := h i
    rw [hi i hm] at this
    exact this
  exact Nat.le_trans (hn.subperm hsub).length_le s.length_holders_le

end Semaphore

end MinMcp.Core
