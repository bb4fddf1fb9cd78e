import MinMcp.Core.LTS
import MinMcp.Core.Semaphore
import Mathlib.Data.List.Pairwise

/-!
# Refreshing the key set

`JwtVerifier::claims` of src/auth.rs looks a token's key up in a set that `Jwks::refresh` fetches
anew: when the set is old, without waiting for a fetch that is under way, and when the key id is
unknown, waiting for its turn (`Core.Semaphore`, with one permit). Each look at what calls share
(the set, the time of the last attempt, the lock) is a step of its own, so calls overlap freely and
time passes in between. A fetch starts in the step that notes the attempt, lasts as long as it
likes, and brings a key set or none. A call may be dropped where it awaits, which frees the lock or
leaves the queue.

* `Moves`: what a step does to the lock, the attempt and the fetches.
* `Inv`: the lock's account of the calls, and no attempt is newer than the noted one.
* `refresh_limited`: fetches start a minute apart, and one at most is under way.
-/
namespace MinMcp.L5.JwksRefresh

open MinMcp.Core

/-- A second, in ns. -/
def second : Nat := 1000000000

/-- mirrors src/auth.rs:52 -/
def jwksMinRefresh : Nat := 60 * second

/-- mirrors src/auth.rs:55 -/
def jwksMaxAge : Nat := 600 * second

/-- What a call does next; `wait` is the argument of the refresh it is in. -/
inductive Task (κ : Type) where
  | idle
  | ageCheck (kid : String)
  | tryLock (kid : String) (wait : Bool)
  | lock (kid : String)
  | queued (kid : String)
  | locked (kid : String) (wait : Bool)
  /-- The last attempt is long enough ago; this one is to be noted. -/
  | due (kid : String) (wait : Bool)
  | fetching (kid : String) (wait : Bool)
  | unlocking (kid : String) (wait : Bool)
  | lookup (kid : String)
  | lookupAgain (kid : String)
  | done (key : Option κ)
  | dropped

def Task.place {κ : Type} : Task κ → Semaphore.Place
  | .queued _ => .waiting
  | .locked .. | .due .. | .fetching .. | .unlocking .. => .inside
  | .idle | .ageCheck _ | .tryLock .. | .lock _ | .lookup _ | .lookupAgain _ | .done _ | .dropped => .outside

def Task.isDue {κ : Type} : Task κ → Bool
  | .due .. => true
  | _ => false

/-- Where `claims` goes on behind a refresh. -/
def Task.refreshed {κ : Type} (kid : String) (wait : Bool) : Task κ :=
  if wait then .lookupAgain kid else .lookup kid

/-- `fetches` is when the fetches started. -/
structure State (κ : Type) where
  now : Nat
  keys : List (String × κ)
  attemptedAt : Nat
  lock : Semaphore 1 Nat
  tasks : Nat → Task κ
  fetches : List Nat

inductive Label (κ : Type) where
  /-- A call with the key id of its token's header; `none` when there is none. -/
  | claims (task : Nat) (kid : Option String)
  | run (task : Nat)
  | fetched (task : Nat) (keys : Option (List (String × κ)))
  | cancel (task : Nat)
  | wait (ns : Nat)

section Steps

variable {κ : Type}

namespace State

def goto (s : State κ) (i : Nat) (t : Task κ) : State κ := { s with tasks := Function.update s.tasks i t }

/-- The guard is dropped. -/
def leave (s : State κ) (i : Nat) : State κ := { s with lock := s.lock.release i }

/-- mirrors src/auth.rs:162-175 -/
def claims (s : State κ) (i : Nat) (kid : Option String) : Option (State κ) :=
  match s.tasks i with
  | .idle => some (s.goto i (match kid with
      | some kid => .ageCheck kid
      | none => .done none))
  | _ => none

/-- mirrors src/auth.rs:94-103, 178-187 -/
def run (hasSource : Bool) (s : State κ) (i : Nat) : Option (State κ) :=
  match s.tasks i with
  | .ageCheck kid =>
    some (s.goto i (if hasSource && jwksMaxAge < s.now - s.attemptedAt then .tryLock kid false
      else .lookup kid))
  | .tryLock kid wait =>
    if hasSource then
      if s.lock.free = 0 then some (s.goto i (if wait then .lock kid else .lookup kid))
      else some ({ s with lock := s.lock.request i }.goto i (.locked kid wait))
    else some (s.goto i (.refreshed kid wait))
  | .lock kid =>
    some ({ s with lock := s.lock.request i }.goto i
      (if i ∈ (s.lock.request i).holders then .locked kid true else .queued kid))
  | .queued kid => if i ∈ s.lock.holders then some (s.goto i (.locked kid true)) else none
  | .locked kid wait =>
    some (s.goto i (if s.now - s.attemptedAt < jwksMinRefresh then .unlocking kid wait else .due kid wait))
  | .due kid wait =>
    some ({ s with attemptedAt := s.now, fetches := s.fetches ++ [s.now] }.goto i (.fetching kid wait))
  | .unlocking kid wait => some ((s.leave i).goto i (.refreshed kid wait))
  | .lookup kid =>
    some (s.goto i (match s.keys.lookup kid with
      | some k => .done (some k)
      | none => .tryLock kid true))
  | .lookupAgain kid => some (s.goto i (.done (s.keys.lookup kid)))
  | .idle | .fetching .. | .done _ | .dropped => none

/-- A failed fetch keeps the current keys.
mirrors src/auth.rs:104-113 -/
def fetched (s : State κ) (i : Nat) (keys : Option (List (String × κ))) : Option (State κ) :=
  match s.tasks i with
  | .fetching kid wait => some ({ s with keys := keys.getD s.keys }.goto i (.unlocking kid wait))
  | _ => none

def cancel (s : State κ) (i : Nat) : Option (State κ) :=
  match s.tasks i with
  | .queued _ =>
    if i ∈ s.lock.holders then some ((s.leave i).goto i .dropped)
    else some ({ s with lock := s.lock.withdraw i }.goto i .dropped)
  | .fetching .. => some ((s.leave i).goto i .dropped)
  | _ => none

def step (hasSource : Bool) (s : State κ) : Label κ → Option (State κ)
  | .claims i kid => s.claims i kid
  | .run i => s.run hasSource i
  | .fetched i keys => s.fetched i keys
  | .cancel i => s.cancel i
  | .wait ns => some { s with now := s.now + ns }

/-- Behind the fetch at startup, if there is a source.
mirrors src/auth.rs:294-303 -/
def initial (hasSource : Bool) (startedAt now : Nat) (keys : List (String × κ)) : State κ :=
  ⟨now, keys, now, .new 1 Nat, fun _ => .idle, if hasSource then [startedAt] else []⟩

end State

def system (κ : Type) (hasSource : Bool) : LTS (State κ) (Label κ) :=
  ⟨fun s => ∃ startedAt now keys, startedAt ≤ now ∧ s = .initial hasSource startedAt now keys,
    State.step hasSource⟩

/-! ## What a step does -/

/-- What a step does to the lock, the attempt and the fetches. -/
inductive Moves (s : State κ) : State κ → Prop where
  /-- Nothing but the call's own place in the code. -/
  | on {i t} (hp : t.place = (s.tasks i).place) (ht : t.isDue = false) : Moves s (s.goto i t)
  | requests {i t} (ho : (s.tasks i).place = .outside)
    (hp : t.place = if i ∈ (s.lock.request i).holders then .inside else .waiting) (ht : t.isDue = false) :
    Moves s ({ s with lock := s.lock.request i }.goto i t)
  | wakes {i kid} (hi : i ∈ s.lock.holders) : Moves s (s.goto i (.locked kid true))
  | checked {i kid wait} (ht : s.tasks i = .locked kid wait) (hdue : jwksMinRefresh ≤ s.now - s.attemptedAt) :
    Moves s (s.goto i (.due kid wait))
  | begins {i kid wait} (ht : s.tasks i = .due kid wait) :
    Moves s ({ s with attemptedAt := s.now, fetches := s.fetches ++ [s.now] }.goto i (.fetching kid wait))
  | ends {i kid wait keys} (ht : s.tasks i = .fetching kid wait) :
    Moves s ({ s with keys := keys }.goto i (.unlocking kid wait))
  | leaves {i t} (hown : i ∈ s.lock.holders ∨ (s.tasks i).place = .inside) (hp : t.place = .outside) :
    Moves s ((s.leave i).goto i t)
  | withdraws {i} (hi : i ∉ s.lock.holders) : Moves s ({ s with lock := s.lock.withdraw i }.goto i .dropped)
  | waits {ns} : Moves s { s with now := s.now + ns }

theorem isDue_of_place {t : Task κ} (ht : t.place ≠ .inside) : t.isDue = false := by
  cases t with
  | due => exact absurd rfl ht
  | _ => rfl

/-- A call that is outside the lock stays there. -/
theorem Moves.outside {s : State κ} {i : Nat} {t : Task κ} (hs : (s.tasks i).place = .outside)
    (ht : t.place = .outside) : Moves s (s.goto i t) :=
  .on (ht.trans hs.symm) (isDue_of_place (by rw [ht]; decide))

theorem place_refreshed (kid : String) (wait : Bool) : (Task.refreshed kid wait : Task κ).place = .outside := by
  cases wait <;> rfl

theorem moves_of_run {hasSource : Bool} {s s' : State κ} {i : Nat} (hs : s.run hasSource i = some s') :
    Moves s s' := by
  unfold State.run at hs
  cases ht : s.tasks i with
  | idle | fetching | done | dropped => simp [ht] at hs
  | ageCheck kid =>
    simp only [ht] at hs
    obtain rfl := Option.some.inj hs
    exact .outside (by rw [ht]; rfl) (by split <;> rfl)
  | tryLock kid wait =>
    simp only [ht] at hs
    split at hs
    · split at hs
      · obtain rfl := Option.some.inj hs
        exact .outside (by rw [ht]; rfl) (by cases wait <;> rfl)
      · next hf =>
        obtain rfl := Option.some.inj hs
        exact .requests (by rw [ht]; rfl) (by rw [if_pos (Semaphore.mem_holders_request hf i)]; rfl) rfl
    · obtain rfl := Option.some.inj hs
      exact .outside (by rw [ht]; rfl) (place_refreshed kid wait)
  | lock kid =>
    simp only [ht] at hs
    obtain rfl := Option.some.inj hs
    exact .requests (by rw [ht]; rfl) (by split <;> rfl) (by split <;> rfl)
  | queued kid =>
    simp only [ht] at hs
    split at hs
    · next hi =>
      obtain rfl := Option.some.inj hs
      exact .wakes hi
    · cases hs
  | locked kid wait =>
    simp only [ht] at hs
    obtain rfl := Option.some.inj hs
    split
    · exact .on (by rw [ht]; rfl) rfl
    · next hdue => exact .checked ht (Nat.le_of_not_lt hdue)
  | due kid wait =>
    simp only [ht] at hs
    obtain rfl := Option.some.inj hs
    exact .begins ht
  | unlocking kid wait =>
    simp only [ht] at hs
    obtain rfl := Option.some.inj hs
    exact .leaves (Or.inr (by rw [ht]; rfl)) (place_refreshed kid wait)
  | lookup kid =>
    simp only [ht] at hs
    obtain rfl := Option.some.inj hs
    exact .outside (by rw [ht]; rfl) (by split <;> rfl)
  | lookupAgain kid =>
    simp only [ht] at hs
    obtain rfl := Option.some.inj hs
    exact .outside (by rw [ht]; rfl) rfl

theorem moves_of_step {hasSource : Bool} {s s' : State κ} {l : Label κ}
    (hs : State.step hasSource s l = some s') : Moves s s' := by
  cases l with
  | claims i kid =>
    simp only [State.step, State.claims] at hs
    split at hs
    · next ht =>
      obtain rfl := Option.some.inj hs
      exact .outside (by rw [ht]; rfl) (by cases kid <;> rfl)
    · cases hs
  | run i => exact moves_of_run hs
  | fetched i keys =>
    simp only [State.step, State.fetched] at hs
    split at hs
    · next ht =>
      obtain rfl := Option.some.inj hs
      exact .ends ht
    · cases hs
  | cancel i =>
    simp only [State.step, State.cancel] at hs
    split at hs
    · split at hs
      · next hi =>
        obtain rfl := Option.some.inj hs
        exact .leaves (Or.inl hi) rfl
      · next hi =>
        obtain rfl := Option.some.inj hs
        exact .withdraws hi
    · next ht =>
      obtain rfl := Option.some.inj hs
      exact .leaves (Or.inr (by rw [ht]; rfl)) rfl
    · cases hs
  | wait ns =>
    obtain rfl := Option.some.inj hs
    exact .waits

/-! ## What every run keeps -/

/-- An attempt that was found due is still due. -/
structure Inv (s : State κ) : Prop where
  lock : s.lock.Consistent fun i => (s.tasks i).place
  due : ∀ i, (s.tasks i).isDue = true → s.attemptedAt + jwksMinRefresh ≤ s.now
  past : s.attemptedAt ≤ s.now
  noted : ∀ t ∈ s.fetches, t ≤ s.attemptedAt
  apart : s.fetches.Pairwise fun t u => t + jwksMinRefresh ≤ u

theorem Inv.holds {s : State κ} (h : Inv s) {i : Nat} (hi : (s.tasks i).place = .inside) : i ∈ s.lock.holders := by
  have hs : s.lock.Seated i (s.tasks i).place := h.lock i
  rwa [hi] at hs

theorem Inv.eq_of_inside {s : State κ} (h : Inv s) {i j : Nat} (hi : (s.tasks i).place = .inside)
    (hj : (s.tasks j).place = .inside) : i = j :=
  s.lock.eq_of_holders (h.holds hi) (h.holds hj)

theorem inside_of_isDue {t : Task κ} (ht : t.isDue = true) : t.place = .inside := by
  cases t with
  | due => rfl
  | _ => cases ht

/-- A call goes on, and the attempts stay. -/
theorem Inv.on {s : State κ} (h : Inv s) {i : Nat} {t : Task κ} {lock : Semaphore 1 Nat}
    {keys : List (String × κ)}
    (hl : lock.Consistent (Function.update (fun j => (s.tasks j).place) i t.place))
    (ht : t.isDue = true → s.attemptedAt + jwksMinRefresh ≤ s.now) :
    Inv ({ s with lock := lock, keys := keys }.goto i t) where
  lock := by
    rw [← Function.comp_def, State.goto, Function.comp_update]
    exact hl
  due j hj := by
    by_cases hji : j = i
    · subst hji
      exact ht (by simpa [State.goto] using hj)
    · exact h.due j (by simpa [State.goto, hji] using hj)
  past := h.past
  noted := h.noted
  apart := h.apart

theorem same_place {s : State κ} (h : Inv s) {i : Nat} {t : Task κ} (hp : t.place = (s.tasks i).place) :
    s.lock.Consistent (Function.update (fun j => (s.tasks j).place) i t.place) := by
  rw [hp, Function.update_eq_self]
  exact h.lock

theorem inv_moves {s s' : State κ} (h : Inv s) (hm : Moves s s') : Inv s' := by
  cases hm with
  | on hp ht => exact h.on (same_place h hp) fun hd => by rw [ht] at hd; cases hd
  | requests ho hp ht =>
    refine h.on ?_ fun hd => by rw [ht] at hd; cases hd
    rw [hp]
    exact Semaphore.consistent_request h.lock ho
  | wakes hi => exact h.on (Semaphore.consistent_wake h.lock hi) fun hd => absurd hd Bool.false_ne_true
  | @checked i kid wait ht hdue =>
    have := h.past
    exact h.on (same_place h (by rw [ht]; rfl)) fun _ => by omega
  | @begins i kid wait ht =>
    have hdue := h.due i (by rw [ht]; rfl)
    have hon : Inv (s.goto i (.fetching kid wait)) :=
      h.on (same_place h (by rw [ht]; rfl)) fun hd => absurd hd Bool.false_ne_true
    refine ⟨hon.lock, fun j hj => ?_, Nat.le_refl _, fun t hmem => ?_, ?_⟩
    · -- no other call is behind the lock
      have hj : (Function.update s.tasks i (.fetching kid wait) j).isDue = true := hj
      by_cases hji : j = i
      · subst hji
        rw [Function.update_self] at hj
        cases hj
      · rw [Function.update_of_ne hji] at hj
        exact absurd (h.eq_of_inside (inside_of_isDue hj) (by rw [ht]; rfl)) hji
    · rcases List.mem_append.mp hmem with hmem | hmem
      · exact Nat.le_trans (h.noted t hmem) h.past
      · exact Nat.le_of_eq (List.mem_singleton.mp hmem)
    · refine List.pairwise_append.mpr ⟨h.apart, List.pairwise_singleton _ _, ?_⟩
      intro t hmem u hu
      have := h.noted t hmem
      rw [List.mem_singleton.mp hu]
      omega
  | ends ht => exact h.on (same_place h (by rw [ht]; rfl)) fun hd => absurd hd Bool.false_ne_true
  | leaves hown hp =>
    refine h.on ?_ fun hd => by rw [inside_of_isDue hd] at hp; cases hp
    rw [hp]
    exact Semaphore.consistent_release h.lock (hown.elim id h.holds)
  | withdraws hi => exact h.on (Semaphore.consistent_withdraw h.lock hi) fun hd => absurd hd Bool.false_ne_true
  | waits =>
    exact ⟨h.lock, fun i hi => Nat.le_add_right_of_le (h.due i hi), Nat.le_add_right_of_le h.past, h.noted,
      h.apart⟩

theorem inv_initial {hasSource : Bool} {startedAt now : Nat} (hle : startedAt ≤ now)
    (keys : List (String × κ)) : Inv (.initial hasSource startedAt now keys) where
  lock := Semaphore.consistent_new 1
  due _ hi := by cases hi
  past := Nat.le_refl _
  noted t ht := by
    cases hasSource with
    | true => rw [List.mem_singleton.mp ht]; exact hle
    | false => cases ht
  apart := by
    cases hasSource with
    | true => exact List.pairwise_singleton _ _
    | false => exact List.Pairwise.nil

theorem inv_exec (κ : Type) (hasSource : Bool) : (system κ hasSource).Invariant (fun _ _ => True) Inv where
  init := by
    intro s ⟨startedAt, now, keys, hle, hs⟩
    rw [hs]
    exact inv_initial hle keys
  step _ _ _ h _ hs := inv_moves h (moves_of_step hs)

def Task.isFetching : Task κ → Bool
  | .fetching .. => true
  | _ => false

theorem inside_of_fetching {t : Task κ} (ht : t.isFetching = true) : t.place = .inside := by
  cases t with
  | fetching => rfl
  | _ => cases ht

/-- Whatever calls there are, how they overlap and how long fetches take: two fetches start a
minute apart or more, and one at most is under way. -/
theorem refresh_limited {hasSource : Bool} {s : State κ} (h : (system κ hasSource).Reachable s) :
    s.fetches.Pairwise (fun t u => t + jwksMinRefresh ≤ u) ∧
      ∀ i j, (s.tasks i).isFetching = true → (s.tasks j).isFetching = true → i = j := by
  have hinv := (inv_exec κ hasSource).reachable h
  exact ⟨hinv.apart, fun i j hi hj =>
    hinv.eq_of_inside (inside_of_fetching hi) (inside_of_fetching hj)⟩

end Steps

/-! ## Two calls with unknown key ids -/

/-- The second queues behind the first one's fetch, and finds it too soon for another; a third
comes a minute later. -/
def unknownKids : List (Label Unit) :=
  [.wait (60 * second), .claims 0 (some "a"), .run 0, .run 0, .run 0, .run 0, .run 0,
   .claims 1 (some "b"), .run 1, .run 1, .run 1, .run 1, .wait second, .fetched 0 none, .run 0, .run 0,
   .run 1, .run 1, .run 1, .run 1,
   .wait (59 * second), .claims 2 (some "c"), .run 2, .run 2, .run 2, .run 2, .run 2]

/-- Three fetches, the first at startup. -/
theorem unknown_kids_limited : ∃ s, (system Unit true).exec (.initial true 0 0 []) unknownKids = some s ∧
    s.fetches = [0, 60 * second, 120 * second] ∧ (s.tasks 2).isFetching = true ∧
    s.fetches.Pairwise (fun t u => t + jwksMinRefresh ≤ u) ∧
    ∀ i j, (s.tasks i).isFetching = true → (s.tasks j).isFetching = true → i = j := by
  have hr : ((system Unit true).exec (.initial true 0 0 []) unknownKids).any
      (fun s => s.fetches = [0, 60 * second, 120 * second] ∧ (s.tasks 2).isFetching = true) = true := by
    decide +kernel
  rw [Option.any_eq_true] at hr
  obtain ⟨s, he, hs⟩ := hr
  have hs := of_decide_eq_true hs
  exact ⟨s, he, hs.1, hs.2, refresh_limited ⟨_, unknownKids, ⟨0, 0, [], Nat.le_refl _, rfl⟩, he⟩⟩

end MinMcp.L5.JwksRefresh
