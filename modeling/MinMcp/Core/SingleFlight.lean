import MinMcp.Core.LTS
import MinMcp.Core.Semaphore

/-!
# Single flight

Callers share a value and make it anew when it is good no more. Who finds no good one takes a
lock, looks again, and makes one; the others queue for the lock and then find what was made. Each
look, taking and leaving the lock, the begin of a flight and its end are steps of their own: time
passes between any two of them, and the environment may change what is shared. A caller may be
dropped where it awaits, in the queue or in its flight, which frees the lock.

* `Flight`: what is shared, what is good, what a flight does.
* `Rule`: predicates on what is shared, between flights and during one, and on every answer. What a
  caller finds spent stays spent until it begins its flight.
* `Rule.reachable`: they hold in every run, and the lock is kept.
* `Kept.eq_of_flying`: one flight at a time.
-/
namespace MinMcp.Core

/-- `σ` is shared, `ε` is what the environment does to it, `ω` is how a flight comes out, `φ` why
there is no value, `ρ` a value. -/
structure Flight (σ ε ω φ ρ : Type) where
  current : σ → Nat → Option ρ
  begins : σ → Nat → Except φ σ
  ends : σ → Nat → ω → σ × Except φ ρ
  /-- The flight is dropped. -/
  drops : σ → Nat → σ
  env : σ → Nat → ε → σ

namespace Flight

inductive Task (φ ρ : Type) where
  | idle
  | looking
  | locking
  | queued
  | locked
  /-- No good value; the flight is to begin. -/
  | due
  | flying
  | leaving (r : Except φ ρ)
  | done (r : Except φ ρ)
  | dropped

def Task.place {φ ρ : Type} : Task φ ρ → Semaphore.Place
  | .queued => .waiting
  | .locked | .due | .flying | .leaving _ => .inside
  | .idle | .looking | .locking | .done _ | .dropped => .outside

/-- `answers` is what callers got, and when they had it. -/
structure State (σ φ ρ : Type) where
  now : Nat
  shared : σ
  lock : Semaphore 1 Nat
  tasks : Nat → Task φ ρ
  answers : List (ρ × Nat)

inductive Label (ε ω : Type) where
  | call (task : Nat)
  | run (task : Nat)
  | land (task : Nat) (outcome : ω)
  | cancel (task : Nat)
  | env (e : ε)
  | wait (ns : Nat)

section Steps

variable {σ ε ω φ ρ : Type}

namespace State

def goto (s : State σ φ ρ) (i : Nat) (t : Task φ ρ) : State σ φ ρ :=
  { s with tasks := Function.update s.tasks i t }

def answer (s : State σ φ ρ) (r : ρ) : State σ φ ρ := { s with answers := s.answers ++ [(r, s.now)] }

/-- The guard is dropped. -/
def leave (s : State σ φ ρ) (i : Nat) : State σ φ ρ := { s with lock := s.lock.release i }

def run (F : Flight σ ε ω φ ρ) (s : State σ φ ρ) (i : Nat) : Option (State σ φ ρ) :=
  match s.tasks i with
  | .looking =>
    match F.current s.shared s.now with
    | some r => some ((s.answer r).goto i (.done (.ok r)))
    | none => some (s.goto i .locking)
  | .locking =>
    some ({ s with lock := s.lock.request i }.goto i
      (if i ∈ (s.lock.request i).holders then .locked else .queued))
  | .queued => if i ∈ s.lock.holders then some (s.goto i .locked) else none
  | .locked =>
    match F.current s.shared s.now with
    | some r => some ((s.answer r).goto i (.leaving (.ok r)))
    | none => some (s.goto i .due)
  | .due =>
    match F.begins s.shared s.now with
    | .ok shared => some ({ s with shared := shared }.goto i .flying)
    | .error e => some (s.goto i (.leaving (.error e)))
  | .leaving r => some ((s.leave i).goto i (.done r))
  | .idle | .flying | .done _ | .dropped => none

def land (F : Flight σ ε ω φ ρ) (s : State σ φ ρ) (i : Nat) (outcome : ω) : Option (State σ φ ρ) :=
  match s.tasks i with
  | .flying =>
    let s' := { s with shared := (F.ends s.shared s.now outcome).1 }
    match (F.ends s.shared s.now outcome).2 with
    | .ok r => some ((s'.answer r).goto i (.leaving (.ok r)))
    | .error e => some (s'.goto i (.leaving (.error e)))
  | _ => none

def cancel (F : Flight σ ε ω φ ρ) (s : State σ φ ρ) (i : Nat) : Option (State σ φ ρ) :=
  match s.tasks i with
  | .queued =>
    if i ∈ s.lock.holders then some ((s.leave i).goto i .dropped)
    else some ({ s with lock := s.lock.withdraw i }.goto i .dropped)
  | .flying => some (({ s with shared := F.drops s.shared s.now }.leave i).goto i .dropped)
  | _ => none

def step (F : Flight σ ε ω φ ρ) (s : State σ φ ρ) : Label ε ω → Option (State σ φ ρ)
  | .call i =>
    match s.tasks i with
    | .idle => some (s.goto i .looking)
    | _ => none
  | .run i => s.run F i
  | .land i outcome => s.land F i outcome
  | .cancel i => s.cancel F i
  | .env e => some { s with shared := F.env s.shared s.now e }
  | .wait ns => some { s with now := s.now + ns }

def initial (shared : σ) (now : Nat) : State σ φ ρ := ⟨now, shared, .new 1 Nat, fun _ => .idle, []⟩

end State

/-- Runs from what is shared at first. -/
def system (F : Flight σ ε ω φ ρ) (start : σ → Nat → Prop) : LTS (State σ φ ρ) (Label ε ω) :=
  ⟨fun s => ∃ shared now, start shared now ∧ s = .initial shared now, State.step F⟩

/-! ## What a step does -/

/-- What a step does to a caller who has the lock, to the lock, and to what is shared. -/
inductive Moves (F : Flight σ ε ω φ ρ) (s : State σ φ ρ) : State σ φ ρ → Prop where
  /-- Nothing but the caller's own place in the code. -/
  | on {i t} (hp : t.place = (s.tasks i).place) (hold : s.tasks i ≠ .flying) (hnew : t ≠ .flying)
    (hdue : t = .due → F.current s.shared s.now = none) : Moves F s (s.goto i t)
  | gets {i t r} (hp : t.place = (s.tasks i).place) (hold : s.tasks i ≠ .flying) (hnew : t ≠ .flying)
    (hdue : t ≠ .due) (hr : F.current s.shared s.now = some r) : Moves F s ((s.answer r).goto i t)
  | requests {i} (ht : s.tasks i = .locking) :
    Moves F s ({ s with lock := s.lock.request i }.goto i
      (if i ∈ (s.lock.request i).holders then .locked else .queued))
  | wakes {i} (ht : s.tasks i = .queued) (hi : i ∈ s.lock.holders) : Moves F s (s.goto i .locked)
  | takesOff {i shared} (ht : s.tasks i = .due) (hb : F.begins s.shared s.now = .ok shared) :
    Moves F s ({ s with shared := shared }.goto i .flying)
  | lands {i o e} (ht : s.tasks i = .flying) (he : (F.ends s.shared s.now o).2 = .error e) :
    Moves F s ({ s with shared := (F.ends s.shared s.now o).1 }.goto i (.leaving (.error e)))
  | brings {i o r} (ht : s.tasks i = .flying) (hr : (F.ends s.shared s.now o).2 = .ok r) :
    Moves F s (({ s with shared := (F.ends s.shared s.now o).1 }.answer r).goto i (.leaving (.ok r)))
  | leaves {i t} (ht : i ∈ s.lock.holders ∨ (s.tasks i).place = .inside) (hold : s.tasks i ≠ .flying)
    (hp : t.place = .outside) : Moves F s ((s.leave i).goto i t)
  | loses {i} (ht : s.tasks i = .flying) :
    Moves F s (({ s with shared := F.drops s.shared s.now }.leave i).goto i .dropped)
  | withdraws {i} (ht : s.tasks i = .queued) (hi : i ∉ s.lock.holders) :
    Moves F s ({ s with lock := s.lock.withdraw i }.goto i .dropped)
  | env {e} : Moves F s { s with shared := F.env s.shared s.now e }
  | waits {ns} : Moves F s { s with now := s.now + ns }

theorem moves_of_run {F : Flight σ ε ω φ ρ} {s s' : State σ φ ρ} {i : Nat} (hs : s.run F i = some s') :
    Moves F s s' := by
  unfold State.run at hs
  cases ht : s.tasks i with
  | idle | flying | done | dropped => simp [ht] at hs
  | looking =>
    simp only [ht] at hs
    split at hs
    · next r hr =>
      obtain rfl := Option.some.inj hs
      exact .gets (by rw [ht]; rfl) (by rw [ht]; nofun) nofun nofun hr
    · obtain rfl := Option.some.inj hs
      exact .on (by rw [ht]; rfl) (by rw [ht]; nofun) nofun nofun
  | locking =>
    simp only [ht] at hs
    obtain rfl := Option.some.inj hs
    exact .requests ht
  | queued =>
    simp only [ht] at hs
    split at hs
    · next hi =>
      obtain rfl := Option.some.inj hs
      exact .wakes ht hi
    · cases hs
  | locked =>
    simp only [ht] at hs
    split at hs
    · next r hr =>
      obtain rfl := Option.some.inj hs
      exact .gets (by rw [ht]; rfl) (by rw [ht]; nofun) nofun nofun hr
    · next hr =>
      obtain rfl := Option.some.inj hs
      exact .on (by rw [ht]; rfl) (by rw [ht]; nofun) nofun fun _ => hr
  | due =>
    simp only [ht] at hs
    split at hs
    · next shared hb =>
      obtain rfl := Option.some.inj hs
      exact .takesOff ht hb
    · obtain rfl := Option.some.inj hs
      exact .on (by rw [ht]; rfl) (by rw [ht]; nofun) nofun nofun
  | leaving r =>
    simp only [ht] at hs
    obtain rfl := Option.some.inj hs
    exact .leaves (Or.inr (by rw [ht]; rfl)) (by rw [ht]; nofun) rfl

theorem moves_of_step {F : Flight σ ε ω φ ρ} {s s' : State σ φ ρ} {l : Label ε ω}
    (hs : State.step F s l = some s') : Moves F s s' := by
  cases l with
  | call i =>
    simp only [State.step] at hs
    split at hs
    · next ht =>
      obtain rfl := Option.some.inj hs
      exact .on (by rw [ht]; rfl) (by rw [ht]; nofun) nofun nofun
    · cases hs
  | run i => exact moves_of_run hs
  | land i outcome =>
    simp only [State.step, State.land] at hs
    split at hs
    · next ht =>
      split at hs
      · next r hr =>
        obtain rfl := Option.some.inj hs
        exact .brings ht hr
      · next e he =>
        obtain rfl := Option.some.inj hs
        exact .lands ht he
    · cases hs
  | cancel i =>
    simp only [State.step, State.cancel] at hs
    split at hs
    · next ht =>
      split at hs
      · next hi =>
        obtain rfl := Option.some.inj hs
        exact .leaves (Or.inl hi) (by rw [ht]; nofun) rfl
      · next hi =>
        obtain rfl := Option.some.inj hs
        exact .withdraws ht hi
    · next ht =>
      obtain rfl := Option.some.inj hs
      exact .loses ht
    · cases hs
  | env e =>
    obtain rfl := Option.some.inj hs
    exact .env
  | wait ns =>
    obtain rfl := Option.some.inj hs
    exact .waits

/-! ## Runs -/

/-- A flight's rule: `Rest` between flights, `Busy` during one, and `Right`, which may speak of all
that was shared so far, of an answer and when it was given. -/
structure Rule (F : Flight σ ε ω φ ρ) (start Rest Busy : σ → Nat → Prop) (Right : σ → ρ → Nat → Prop) :
    Prop where
  starts : ∀ {x now}, start x now → Rest x now
  rest_later : ∀ {x now ns}, Rest x now → Rest x (now + ns)
  busy_later : ∀ {x now ns}, Busy x now → Busy x (now + ns)
  rest_env : ∀ {x now e}, Rest x now → Rest (F.env x now e) now
  busy_env : ∀ {x now e}, Busy x now → Busy (F.env x now e) now
  spent_later : ∀ {x now ns}, F.current x now = none → F.current x (now + ns) = none
  spent_env : ∀ {x now e}, F.current x now = none → F.current (F.env x now e) now = none
  takesOff : ∀ {x y now}, Rest x now → F.current x now = none → F.begins x now = .ok y → Busy y now
  lands : ∀ {x now o}, Busy x now → Rest (F.ends x now o).1 now
  lost : ∀ {x now}, Busy x now → Rest (F.drops x now) now
  finds : ∀ {x now r}, Rest x now ∨ Busy x now → F.current x now = some r → Right x r now
  brings : ∀ {x now o r}, Busy x now → (F.ends x now o).2 = .ok r → Right (F.ends x now o).1 r now
  right_env : ∀ {x now e r t}, t ≤ now → Right x r t → Right (F.env x now e) r t
  right_begins : ∀ {x y now r t}, F.begins x now = .ok y → t ≤ now → Right x r t → Right y r t
  right_ends : ∀ {x now o r t}, t ≤ now → Right x r t → Right (F.ends x now o).1 r t
  right_drops : ∀ {x now r t}, t ≤ now → Right x r t → Right (F.drops x now) r t

/-- What a run keeps. -/
structure Kept (F : Flight σ ε ω φ ρ) (Rest Busy : σ → Nat → Prop) (Right : σ → ρ → Nat → Prop)
    (s : State σ φ ρ) : Prop where
  lock : s.lock.Consistent fun i => (s.tasks i).place
  spent : ∀ i, s.tasks i = .due → F.current s.shared s.now = none
  busy : ∀ i, s.tasks i = .flying → Busy s.shared s.now
  rest : (∀ i, s.tasks i ≠ .flying) → Rest s.shared s.now
  right : ∀ a ∈ s.answers, Right s.shared a.1 a.2
  past : ∀ a ∈ s.answers, a.2 ≤ s.now

variable {F : Flight σ ε ω φ ρ} {start Rest Busy : σ → Nat → Prop} {Right : σ → ρ → Nat → Prop}
  {s s' : State σ φ ρ} {i j : Nat}

namespace Kept

theorem holds (h : Kept F Rest Busy Right s) (hi : (s.tasks i).place = .inside) : i ∈ s.lock.holders := by
  have hs : s.lock.Seated i (s.tasks i).place := h.lock i
  rw [hi] at hs
  exact hs

/-- The lock is exclusive. -/
theorem eq_of_inside (h : Kept F Rest Busy Right s) (hi : (s.tasks i).place = .inside)
    (hj : (s.tasks j).place = .inside) : i = j :=
  s.lock.eq_of_holders (h.holds hi) (h.holds hj)

/-- Whoever else has the lock, nobody flies. -/
theorem rest_of_inside (h : Kept F Rest Busy Right s) (hi : (s.tasks i).place = .inside)
    (ht : s.tasks i ≠ .flying) : Rest s.shared s.now :=
  h.rest fun j hj => ht (by rw [h.eq_of_inside hi (by rw [hj]; rfl)]; exact hj)

theorem rest_or_busy (h : Kept F Rest Busy Right s) :
    Rest s.shared s.now ∨ Busy s.shared s.now := by
  by_cases hf : ∃ i, s.tasks i = .flying
  · obtain ⟨i, hi⟩ := hf
    exact Or.inr (h.busy i hi)
  · exact Or.inl (h.rest fun i hi => hf ⟨i, hi⟩)

/-- A caller moves on in the code, and what is shared stays. -/
theorem on (h : Kept F Rest Busy Right s) {lock : Semaphore 1 Nat} {t : Task φ ρ}
    (hl : lock.Consistent (Function.update (fun j => (s.tasks j).place) i t.place))
    (hold : s.tasks i ≠ .flying) (hnew : t ≠ .flying) (hdue : t = .due → F.current s.shared s.now = none) :
    Kept F Rest Busy Right ({ s with lock := lock }.goto i t) where
  lock := by
    rw [← Function.comp_def, State.goto, Function.comp_update]
    exact hl
  spent j hj := by
    by_cases hji : j = i
    · subst hji
      exact hdue (by simpa [State.goto] using hj)
    · exact h.spent j (by simpa [State.goto, hji] using hj)
  busy j hj := by
    by_cases hji : j = i
    · subst hji
      exact absurd (by simpa [State.goto] using hj) hnew
    · exact h.busy j (by simpa [State.goto, hji] using hj)
  rest hn := h.rest fun j hj => by
    by_cases hji : j = i
    · subst hji
      exact hold hj
    · exact hn j (by simpa [State.goto, hji] using hj)
  right := h.right
  past := h.past

/-- The caller in flight goes on; nobody else is due. -/
theorem landed (h : Kept F Rest Busy Right s) {lock : Semaphore 1 Nat} {x : σ} {t : Task φ ρ}
    (ht : s.tasks i = .flying)
    (hl : lock.Consistent (Function.update (fun j => (s.tasks j).place) i t.place))
    (hnew : t ≠ .flying) (hdue : t ≠ .due) (hrest : Rest x s.now)
    (hright : ∀ a ∈ s.answers, Right x a.1 a.2) :
    Kept F Rest Busy Right ({ s with lock := lock, shared := x }.goto i t) where
  lock := by
    rw [← Function.comp_def, State.goto, Function.comp_update]
    exact hl
  spent j hj := by
    by_cases hji : j = i
    · subst hji
      exact absurd (by simpa [State.goto] using hj) hdue
    · have hj : s.tasks j = .due := by simpa [State.goto, hji] using hj
      exact absurd (h.eq_of_inside (by rw [hj]; rfl) (by rw [ht]; rfl)) hji
  busy j hj := by
    by_cases hji : j = i
    · subst hji
      exact absurd (by simpa [State.goto] using hj) hnew
    · have hj : s.tasks j = .flying := by simpa [State.goto, hji] using hj
      exact absurd (h.eq_of_inside (by rw [hj]; rfl) (by rw [ht]; rfl)) hji
  rest _ := hrest
  right := hright
  past := h.past

theorem answered (h : Kept F Rest Busy Right s) {r : ρ} (hr : Right s.shared r s.now) :
    Kept F Rest Busy Right (s.answer r) where
  lock := h.lock
  spent := h.spent
  busy := h.busy
  rest := h.rest
  right a ha := by
    rcases List.mem_append.mp ha with ha | ha
    · exact h.right a ha
    · rw [List.mem_singleton.mp ha]
      exact hr
  past a ha := by
    rcases List.mem_append.mp ha with ha | ha
    · exact h.past a ha
    · rw [List.mem_singleton.mp ha]
      exact Nat.le_refl _

theorem same_place (h : Kept F Rest Busy Right s) {t : Task φ ρ} (hp : t.place = (s.tasks i).place) :
    s.lock.Consistent (Function.update (fun j => (s.tasks j).place) i t.place) := by
  rw [hp, Function.update_eq_self]
  exact h.lock

end Kept

namespace Rule

theorem kept_initial (R : Rule F start Rest Busy Right) {x : σ} {now : Nat} (hs : start x now) :
    Kept F Rest Busy Right (State.initial x now) where
  lock := Semaphore.consistent_new 1
  spent i hi := by cases hi
  busy i hi := by cases hi
  rest _ := R.starts hs
  right a ha := by cases ha
  past a ha := by cases ha

theorem kept_move (R : Rule F start Rest Busy Right) (h : Kept F Rest Busy Right s) (hm : Moves F s s') :
    Kept F Rest Busy Right s' := by
  cases hm with
  | on hp hold hnew hdue => exact h.on (h.same_place hp) hold hnew hdue
  | gets hp hold hnew hdue hr =>
    have ha := h.answered (R.finds h.rest_or_busy hr)
    exact ha.on (ha.same_place hp) hold hnew fun he => absurd he hdue
  | @requests i ht =>
    have hc := Semaphore.consistent_request h.lock (i := i) (by rw [ht]; rfl)
    refine h.on ?_ (by rw [ht]; nofun) (by split <;> nofun) (by split <;> nofun)
    split
    · next hi => rwa [if_pos hi] at hc
    · next hi => rwa [if_neg hi] at hc
  | wakes ht hi =>
    exact h.on (Semaphore.consistent_wake h.lock hi) (by rw [ht]; nofun) nofun nofun
  | @takesOff i x ht hb =>
    have hin : (s.tasks i).place = .inside := by rw [ht]; rfl
    have hbusy : Busy x s.now :=
      R.takesOff (h.rest_of_inside hin (by rw [ht]; nofun)) (h.spent i ht) hb
    refine ⟨?_, fun j hj => ?_, fun _ _ => hbusy, fun hn => ?_, fun a ha => ?_, h.past⟩
    · have := h.same_place (i := i) (t := .flying) hin.symm
      rw [← Function.comp_def, State.goto, Function.comp_update]
      exact this
    · by_cases hji : j = i
      · subst hji
        simp [State.goto] at hj
      · have hj : s.tasks j = .due := by simpa [State.goto, hji] using hj
        exact absurd (h.eq_of_inside (by rw [hj]; rfl) hin) hji
    · exact absurd (by simp [State.goto]) (hn i)
    · exact R.right_begins hb (h.past a ha) (h.right a ha)
  | @lands i o e ht he =>
    exact h.landed ht (h.same_place (by rw [ht]; rfl)) nofun nofun (R.lands (h.busy i ht))
      fun a ha => R.right_ends (h.past a ha) (h.right a ha)
  | @brings i o r ht hr =>
    have hl := h.landed (x := (F.ends s.shared s.now o).1) (t := .leaving (.ok r)) ht
      (h.same_place (by rw [ht]; rfl)) nofun nofun (R.lands (h.busy i ht))
      fun a ha => R.right_ends (h.past a ha) (h.right a ha)
    exact hl.answered (R.brings (h.busy i ht) hr)
  | @leaves i t ht hold hp =>
    have hi : i ∈ s.lock.holders := ht.elim id h.holds
    have hc := Semaphore.consistent_release h.lock hi
    rw [← hp] at hc
    exact h.on hc hold (by rintro rfl; cases hp) (by rintro rfl; cases hp)
  | @loses i ht =>
    have hc := Semaphore.consistent_release h.lock (h.holds (i := i) (by rw [ht]; rfl))
    exact h.landed ht hc nofun nofun (R.lost (h.busy i ht))
      fun a ha => R.right_drops (h.past a ha) (h.right a ha)
  | withdraws ht hi =>
    exact h.on (Semaphore.consistent_withdraw h.lock hi) (by rw [ht]; nofun) nofun nofun
  | env =>
    exact ⟨h.lock, fun i hi => R.spent_env (h.spent i hi), fun i hi => R.busy_env (h.busy i hi),
      fun hn => R.rest_env (h.rest hn), fun a ha => R.right_env (h.past a ha) (h.right a ha), h.past⟩
  | waits =>
    exact ⟨h.lock, fun i hi => R.spent_later (h.spent i hi), fun i hi => R.busy_later (h.busy i hi),
      fun hn => R.rest_later (h.rest hn), h.right, fun a ha => Nat.le_add_right_of_le (h.past a ha)⟩

theorem reachable (R : Rule F start Rest Busy Right) (hr : (system F start).Reachable s) :
    Kept F Rest Busy Right s := by
  refine LTS.Invariant.reachable (P := Kept F Rest Busy Right) ⟨fun s₀ h₀ => ?_, ?_⟩ hr
  · obtain ⟨x, now, hx, rfl⟩ := h₀
    exact R.kept_initial hx
  · intro t l t' h _ hs
    exact R.kept_move h (moves_of_step hs)

end Rule

/-- One flight at a time. -/
theorem Kept.eq_of_flying (h : Kept F Rest Busy Right s) (hi : s.tasks i = .flying) (hj : s.tasks j = .flying) :
    i = j :=
  h.eq_of_inside (by rw [hi]; rfl) (by rw [hj]; rfl)

end Steps

end Flight

end MinMcp.Core
