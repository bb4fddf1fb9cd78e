import Mathlib.Data.List.Basic

/-!
# Reads of a value that may be swapped

A program that looks things up, one after the other, in a value that somebody else may
replace between any two of its looks. A query `q` is answered in `R q`, and `ask` reads
the answer off a snapshot.

* `run ask s p`: the run whose `i`-th look meets the snapshot `s i`, with what it saw.
* `whole ask c p`: the run on one snapshot; `asked` are its queries.
* `swapAt old new n`: the first `n` looks meet `old`, all others `new`.

Results: `run_eq_whole_iff`, a run is the one on `c` exactly when the queries of the run
on `c` are answered as in `c`; for one swap `run_swapAt_eq_old` and `run_swapAt_eq_new`.
`run_bind` runs a program part by part, `eval_bind` evaluates one on one snapshot.
-/
namespace MinMcp.Core.Snapshots

inductive Prog {Q : Type} (R : Q → Type) (α : Type) where
  | ret (a : α)
  | look (q : Q) (next : R q → Prog R α)

namespace Prog

variable {Q : Type} {R : Q → Type} {α β C : Type}

def bind : Prog R α → (α → Prog R β) → Prog R β
  | ret a, f => f a
  | look q next, f => look q fun r => bind (next r) f

instance : Monad (Prog R) where
  pure := ret
  bind := bind

/-- One look. -/
def read (q : Q) : Prog R (R q) := look q ret

end Prog

open Prog

/-- The answer of a run, and what it saw on the way. -/
@[ext] structure Outcome {Q : Type} (R : Q → Type) (α : Type) where
  answer : α
  seen : List (Σ q, R q)

variable {Q : Type} {R : Q → Type} {α β C : Type} (ask : C → (q : Q) → R q)

def run (s : Nat → C) : Prog R α → Outcome R α
  | .ret a => ⟨a, []⟩
  | .look q next =>
    let o := run (fun i => s (i + 1)) (next (ask (s 0) q))
    ⟨o.answer, ⟨q, ask (s 0) q⟩ :: o.seen⟩

def whole (c : C) (p : Prog R α) : Outcome R α := run ask (fun _ => c) p

/-- The queries of the run on one snapshot. -/
def asked (c : C) (p : Prog R α) : List Q := (whole ask c p).seen.map Sigma.fst

def eval (c : C) (p : Prog R α) : α := (whole ask c p).answer

def swapAt (old new : C) (n : Nat) : Nat → C := fun i => if i < n then old else new

@[simp] theorem whole_look (c : C) (q : Q) (next : R q → Prog R α) :
    whole ask c (.look q next) = ⟨(whole ask c (next (ask c q))).answer,
      ⟨q, ask c q⟩ :: (whole ask c (next (ask c q))).seen⟩ := rfl

/-! ## Programs on one snapshot -/

@[simp] theorem eval_pure (c : C) (a : α) : eval ask c (pure a : Prog R α) = a := rfl

@[simp] theorem eval_bind (c : C) (p : Prog R α) (f : α → Prog R β) :
    eval ask c (p >>= f) = eval ask c (f (eval ask c p)) := by
  induction p with
  | ret a => rfl
  | look q next ih => exact ih (ask c q)

@[simp] theorem asked_pure (c : C) (a : α) : asked ask c (pure a : Prog R α) = [] := rfl

theorem asked_bind (c : C) (p : Prog R α) (f : α → Prog R β) :
    asked ask c (p >>= f) = asked ask c p ++ asked ask c (f (eval ask c p)) := by
  induction p with
  | ret a => rfl
  | look q next ih => exact congrArg (q :: ·) (ih (ask c q))

/-! ## Programs over snapshots -/

@[simp] theorem run_pure (s : Nat → C) (a : α) : run ask s (pure a : Prog R α) = ⟨a, []⟩ := rfl

@[simp] theorem run_look_bind (s : Nat → C) (q : Q) (f : R q → Prog R α) :
    run ask s (Prog.read q >>= f) =
      ⟨(run ask (fun i => s (i + 1)) (f (ask (s 0) q))).answer,
        ⟨q, ask (s 0) q⟩ :: (run ask (fun i => s (i + 1)) (f (ask (s 0) q))).seen⟩ := rfl

/-- The second part begins where the looks of the first end. -/
theorem run_bind (s : Nat → C) (p : Prog R α) (f : α → Prog R β) :
    run ask s (p >>= f) =
      ⟨(run ask (fun i => s (i + (run ask s p).seen.length)) (f (run ask s p).answer)).answer,
        (run ask s p).seen ++
          (run ask (fun i => s (i + (run ask s p).seen.length)) (f (run ask s p).answer)).seen⟩ := by
  induction p generalizing s with
  | ret a => rfl
  | look q next ih =>
    have h := ih (ask (s 0) q) fun i => s (i + 1)
    show (⟨(run ask _ (next (ask (s 0) q) >>= f)).answer, _ :: (run ask _ (next (ask (s 0) q) >>= f)).seen⟩ :
      Outcome R β) = _
    rw [h]
    rfl

/-- One look: it is answered as in `c`, and so is all that follows. -/
theorem run_look_eq_iff (s : Nat → C) (c : C) (q : Q) (next : R q → Prog R α) :
    run ask s (.look q next) = whole ask c (.look q next) ↔
      ask (s 0) q = ask c q ∧
        run ask (fun i => s (i + 1)) (next (ask c q)) = whole ask c (next (ask c q)) := by
  rw [whole_look, run, Outcome.mk.injEq, List.cons.injEq, Sigma.mk.injEq]
  constructor
  · intro h
    obtain ⟨ha, ⟨-, hq⟩, hs⟩ := h
    have hq := eq_of_heq hq
    rw [hq] at ha hs
    exact ⟨hq, Outcome.ext ha hs⟩
  · intro ⟨hq, h⟩
    simp only [hq, h, heq_eq_eq, and_self]

/-- A run is the one on `c` exactly when each query of the one on `c` is answered in its
place as in `c`. -/
theorem run_eq_whole_iff (s : Nat → C) (c : C) (p : Prog R α) :
    run ask s p = whole ask c p ↔ ∀ i q, (asked ask c p)[i]? = some q → ask (s i) q = ask c q := by
  induction p generalizing s with
  | ret a =>
    constructor
    · intro _ i q h
      cases h
    · intro _
      rfl
  | look q next ih =>
    rw [run_look_eq_iff, ih]
    constructor
    · intro ⟨h0, h⟩ i q' hi
      cases i with
      | zero =>
        obtain rfl : q = q' := Option.some.inj hi
        exact h0
      | succ i => exact h i q' hi
    · intro h
      exact ⟨h 0 q rfl, fun i q' hi => h (i + 1) q' hi⟩

/-- Behind the first look, the swap is one look nearer. -/
theorem swapAt_shift (old new : C) (n : Nat) : (fun i => swapAt old new n (i + 1)) = swapAt old new (n - 1) := by
  funext i
  simp [swapAt, Nat.lt_sub_iff_add_lt]

/-- What holds of the old snapshot holds of what a look meets, in front of the swap or where it
holds of the new one too. -/
theorem swapAt_old_iff {P : C → Prop} {old : C} (new : C) (n i : Nat) (h : P old) :
    P (swapAt old new n i) ↔ i < n ∨ P new := by
  unfold swapAt
  split
  · next hi => simp [h, hi]
  · next hi => simp [hi]

theorem swapAt_new_iff {P : C → Prop} (old : C) {new : C} (n i : Nat) (h : P new) :
    P (swapAt old new n i) ↔ n ≤ i ∨ P old := by
  unfold swapAt
  split
  · next hi => simp [Nat.not_le.mpr hi]
  · next hi => simp [h, Nat.not_lt.mp hi]

/-- What the run on the old snapshot asks behind the swap, the new one answers alike. -/
theorem run_swapAt_eq_old {p : Prog R α} {old new : C} {n : Nat}
    (h : ∀ q ∈ (asked ask old p).drop n, ask new q = ask old q) :
    run ask (swapAt old new n) p = whole ask old p := by
  rw [run_eq_whole_iff]
  intro i q hi
  refine (swapAt_old_iff (P := fun c => ask c q = ask old q) new n i rfl).mpr (or_iff_not_imp_left.mpr fun hin => ?_)
  refine h q (List.mem_iff_getElem?.mpr ⟨i - n, ?_⟩)
  rw [List.getElem?_drop, Nat.add_sub_cancel' (by omega), hi]

/-- What the run on the new snapshot asks in front of the swap, the old one answers alike. -/
theorem run_swapAt_eq_new {p : Prog R α} {old new : C} {n : Nat}
    (h : ∀ q ∈ (asked ask new p).take n, ask old q = ask new q) :
    run ask (swapAt old new n) p = whole ask new p := by
  rw [run_eq_whole_iff]
  intro i q hi
  refine (swapAt_new_iff (P := fun c => ask c q = ask new q) old n i rfl).mpr (or_iff_not_imp_left.mpr fun hin => ?_)
  refine h q (List.mem_iff_getElem?.mpr ⟨i, ?_⟩)
  rw [List.getElem?_take, if_pos (by omega), hi]

end MinMcp.Core.Snapshots
