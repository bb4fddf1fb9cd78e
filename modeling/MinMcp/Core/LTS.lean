import Mathlib.Data.List.Basic

/-!
# Labelled transition systems

A label says who moves and what the environment answered. `step` is a partial
function, so a concrete run is evaluated.

* `LTS.exec s ls`: the state after the labels `ls`, `none` when one is disabled.
* `LTS.Guarded G s ls`: every step of the run meets `G` in its pre-state.
* `LTS.Preserves`: guarded steps keep a predicate; `.exec` carries it along runs.
* `LTS.Invariant`: initial states have it as well; `.exec`, and `.reachable` when
  no guard is needed.
* `LTS.count`: how many steps of a run are of a kind; `countdown` bounds them by a measure.
* `LTS.watch`: the system with a history of its steps, which has the same runs.
-/
namespace MinMcp.Core

structure LTS (S L : Type) where
  init : S → Prop
  step : S → L → Option S

namespace LTS

variable {S L : Type}

def exec (m : LTS S L) (s : S) : List L → Option S
  | [] => some s
  | l :: ls => (m.step s l).bind fun s' => m.exec s' ls

/-- Every step of the run from `s` is taken in a state where `G` allows its
label. -/
def Guarded (m : LTS S L) (G : S → L → Prop) (s : S) : List L → Prop
  | [] => True
  | l :: ls => G s l ∧ ∀ s', m.step s l = some s' → m.Guarded G s' ls

def Reachable (m : LTS S L) (s : S) : Prop := ∃ s₀ ls, m.init s₀ ∧ m.exec s₀ ls = some s

@[simp] theorem exec_nil (m : LTS S L) (s : S) : m.exec s [] = some s := rfl

theorem exec_cons (m : LTS S L) (s : S) (l : L) (ls : List L) :
    m.exec s (l :: ls) = (m.step s l).bind fun s' => m.exec s' ls := rfl

theorem exec_append (m : LTS S L) (s : S) (xs ys : List L) :
    m.exec s (xs ++ ys) = (m.exec s xs).bind fun s' => m.exec s' ys := by
  induction xs generalizing s with
  | nil => rfl
  | cons l ls ih =>
    simp only [List.cons_append, exec_cons]
    cases m.step s l with
    | none => rfl
    | some s' => exact ih s'

theorem Reachable.exec {m : LTS S L} {s s' : S} (h : m.Reachable s) (ls : List L)
    (he : m.exec s ls = some s') : m.Reachable s' := by
  obtain ⟨s₀, ls₀, h₀, hr⟩ := h
  refine ⟨s₀, ls₀ ++ ls, h₀, ?_⟩
  rw [exec_append, hr]; exact he

theorem guarded_true (m : LTS S L) (s : S) (ls : List L) : m.Guarded (fun _ _ => True) s ls := by
  induction ls generalizing s with
  | nil => trivial
  | cons l ls ih => exact ⟨trivial, fun s' _ => ih s'⟩

/-- A run whose labels are allowed in every state. -/
theorem guarded_of_forall {m : LTS S L} {G : S → L → Prop} {ls : List L} (h : ∀ l ∈ ls, ∀ s, G s l)
    (s : S) : m.Guarded G s ls := by
  induction ls generalizing s with
  | nil => trivial
  | cons l ls ih =>
    rw [List.forall_mem_cons] at h
    exact ⟨h.1 s, fun s' _ => ih h.2 s'⟩

theorem Guarded.and {m : LTS S L} {G H : S → L → Prop} {s : S} {ls : List L} (hG : m.Guarded G s ls)
    (hH : m.Guarded H s ls) : m.Guarded (fun s l => G s l ∧ H s l) s ls := by
  induction ls generalizing s with
  | nil => trivial
  | cons l ls ih => exact ⟨⟨hG.1, hH.1⟩, fun s' hs => ih (hG.2 s' hs) (hH.2 s' hs)⟩

/-- A guarded run is checked by running it. -/
instance decidableGuarded (m : LTS S L) (G : S → L → Prop) [∀ s l, Decidable (G s l)] :
    (ls : List L) → (s : S) → Decidable (m.Guarded G s ls)
  | [], _ => isTrue trivial
  | l :: ls, s =>
    match h : m.step s l with
    | none => decidable_of_iff (G s l)
        ⟨fun hg => ⟨hg, fun _ hs => absurd (h ▸ hs) (by simp)⟩, And.left⟩
    | some t =>
      have := decidableGuarded m G ls t
      decidable_of_iff (G s l ∧ m.Guarded G t ls)
        ⟨fun hg => ⟨hg.1, fun _ hs => Option.some.inj (h.symm.trans hs) ▸ hg.2⟩,
          fun hg => ⟨hg.1, hg.2 t h⟩⟩

/-- Every step allowed by `G` keeps `P`. -/
def Preserves (m : LTS S L) (G : S → L → Prop) (P : S → Prop) : Prop :=
  ∀ s l s', P s → G s l → m.step s l = some s' → P s'

/-- **Run rule.** What guarded steps keep, guarded runs keep. -/
theorem Preserves.exec {m : LTS S L} {G : S → L → Prop} {P : S → Prop} (h : m.Preserves G P)
    {s s' : S} {ls : List L} (hs : P s) (hg : m.Guarded G s ls) (he : m.exec s ls = some s') : P s' := by
  induction ls generalizing s with
  | nil => simp only [exec_nil, Option.some.injEq] at he; exact he ▸ hs
  | cons l ls ih =>
    rw [exec_cons, Option.bind_eq_some_iff] at he
    obtain ⟨t, ht, he⟩ := he
    exact ih (h s l t hs hg.1 ht) (hg.2 t ht) he

/-- A guarded run goes on guarded behind its first part. -/
theorem Guarded.append {m : LTS S L} {G : S → L → Prop} {s t : S} {xs ys : List L}
    (hg : m.Guarded G s (xs ++ ys)) (he : m.exec s xs = some t) :
    m.Guarded G s xs ∧ m.Guarded G t ys := by
  induction xs generalizing s with
  | nil =>
    obtain rfl : s = t := Option.some.inj he
    exact ⟨trivial, hg⟩
  | cons l ls ih =>
    rw [exec_cons, Option.bind_eq_some_iff] at he
    obtain ⟨s₁, hs₁, he⟩ := he
    refine ⟨⟨hg.1, fun s' hs' => ?_⟩, (ih (hg.2 s₁ hs₁) he).2⟩
    obtain rfl : s₁ = s' := Option.some.inj (hs₁.symm.trans hs')
    exact (ih (hg.2 s₁ hs₁) he).1

/-- Where guarded steps keep `P`, a guard may be read in states that have `P`. -/
theorem Guarded.imp {m : LTS S L} {G H : S → L → Prop} {P : S → Prop} {s : S} {ls : List L}
    (hg : m.Guarded G s ls) (hP : m.Preserves G P) (hs : P s) (himp : ∀ s l, P s → G s l → H s l) :
    m.Guarded H s ls := by
  induction ls generalizing s with
  | nil => trivial
  | cons l ls ih => exact ⟨himp s l hs hg.1, fun t ht => ih (hg.2 t ht) (hP s l t hs hg.1 ht)⟩

/-- `P` holds initially and every step allowed by `G` keeps it. -/
structure Invariant (m : LTS S L) (G : S → L → Prop) (P : S → Prop) : Prop where
  init : ∀ s, m.init s → P s
  step : m.Preserves G P

/-- An invariant holds after every guarded run from an initial state. -/
theorem Invariant.exec {m : LTS S L} {G : S → L → Prop} {P : S → Prop} (h : m.Invariant G P)
    {s s' : S} {ls : List L} (hs : m.init s) (hg : m.Guarded G s ls) (he : m.exec s ls = some s') :
    P s' :=
  h.step.exec (h.init s hs) hg he

theorem Invariant.reachable {m : LTS S L} {P : S → Prop}
    (h : m.Invariant (fun _ _ => True) P) {s : S} (hr : m.Reachable s) : P s := by
  obtain ⟨s₀, ls, h₀, he⟩ := hr
  exact h.exec h₀ (guarded_true m s₀ ls) he

/-- How many steps of the run are of the kind `B`. -/
def count (m : LTS S L) (B : S → L → Bool) (s : S) : List L → Nat
  | [] => 0
  | l :: ls => (B s l).toNat + (m.step s l).elim 0 fun s' => m.count B s' ls

/-- Steps that each use up some of a measure are at most as many as it was at first. -/
theorem countdown {m : LTS S L} {B : S → L → Bool} {P : S → Prop} {μ : S → Nat}
    (hstep : ∀ s l s', P s → P s' → m.step s l = some s' → (B s l).toNat + μ s' ≤ μ s) {s s' : S}
    {ls : List L} (hg : m.Guarded (fun s _ => P s) s ls) (he : m.exec s ls = some s') (hs' : P s') :
    m.count B s ls + μ s' ≤ μ s := by
  induction ls generalizing s with
  | nil =>
    obtain rfl : s = s' := Option.some.inj he
    exact Nat.le_of_eq (Nat.zero_add _)
  | cons l ls ih =>
    rw [exec_cons, Option.bind_eq_some_iff] at he
    obtain ⟨t, ht, he⟩ := he
    have hPt : P t := by
      cases ls with
      | nil =>
        obtain rfl : t = s' := Option.some.inj he
        exact hs'
      | cons l' ls => exact (hg.2 t ht).1
    have := hstep s l t hg.1 hPt ht
    have := ih (hg.2 t ht) he
    rw [count, ht, Option.elim_some]
    omega

/-- The system with a history that `note` keeps of its steps. -/
def watch {H : Type} (m : LTS S L) (start : S → H) (note : S → L → H → H) : LTS (S × H) L where
  init p := m.init p.1 ∧ p.2 = start p.1
  step p l := (m.step p.1 l).map fun s => (s, note p.1 l p.2)

/-- A history changes no run. -/
theorem exec_watch {H : Type} (m : LTS S L) (start : S → H) (note : S → L → H → H) (p : S × H) (ls : List L) :
    ((m.watch start note).exec p ls).map Prod.fst = m.exec p.1 ls := by
  induction ls generalizing p with
  | nil => rfl
  | cons l ls ih =>
    rw [exec_cons, exec_cons]
    show ((Option.map _ (m.step p.1 l)).bind _).map Prod.fst = _
    cases m.step p.1 l with
    | none => rfl
    | some s => exact ih (s, note p.1 l p.2)

end LTS

end MinMcp.Core
