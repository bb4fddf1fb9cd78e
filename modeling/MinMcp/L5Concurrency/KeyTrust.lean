import MinMcp.L5Concurrency.JwksRefresh

/-!
# How long a withdrawn key is trusted

A key set past its age is fetched anew before a token is checked against it, so that a key the
identity provider withdrew stops being trusted (src/auth.rs:53-55, 173-177). A call does not wait for
a fetch that is another's, and a fetch may fail.

`Seen` is what a run of `JwksRefresh` does not keep: which attempt brought the set there is, when
each call looked at its age, and whether it then found the lock another's.

* `Trust`: the set is of the last attempt or the attempts since brought none, and a call that looks a
  key up came when the last attempt was recent, or passed another in the lock.
* `withdrawn_key_goes`: when a call still finds a withdrawn key.
-/
namespace MinMcp.L5.JwksRefresh

open MinMcp.Core

structure Seen where
  brought : Nat
  checked : Nat → Nat
  passed : Nat → Bool

section Steps

variable {κ : Type}

def note (s : State κ) (l : Label κ) (g : Seen) : Seen :=
  match l with
  | .fetched _ (some _) => { g with brought := s.attemptedAt }
  | .run i =>
    match s.tasks i with
    | .ageCheck _ =>
      { g with checked := Function.update g.checked i s.now, passed := Function.update g.passed i false }
    | .tryLock _ false => { g with passed := Function.update g.passed i (s.lock.free = 0) }
    | _ => g
  | _ => g

/-- The set that is there at first is of the attempt at startup. -/
def watched (κ : Type) : LTS (State κ × Seen) (Label κ) :=
  (system κ true).watch (fun s => ⟨s.attemptedAt, fun _ => 0, fun _ => false⟩) note

/-- Watching changes no run. -/
theorem exec_watched (p : State κ × Seen) (ls : List (Label κ)) :
    ((watched κ).exec p ls).map Prod.fst = (system κ true).exec p.1 ls :=
  LTS.exec_watch _ _ _ p ls

/-- The endpoint leaves the key out of every answer to an attempt from `w` on. -/
def Withdrawn (w : Nat) (kid : String) (p : State κ × Seen) : Label κ → Prop
  | .fetched _ (some keys) => w ≤ p.1.attemptedAt → keys.lookup kid = none
  | _ => True

/-- The key that the call is about to look up. -/
def Task.looksFor : Task κ → Option String
  | .lookup kid | .lookupAgain kid => some kid
  | _ => none

/-- The call has done what it does about the set's age. -/
def Judged : Task κ → Prop
  | .tryLock _ wait | .locked _ wait | .due _ wait => wait = true
  | .lock _ | .queued _ | .fetching .. | .unlocking .. | .lookup _ | .lookupAgain _ => True
  | .idle | .ageCheck _ | .done _ | .dropped => False

def Fresh (s : State κ) (g : Seen) (i : Nat) : Prop :=
  g.checked i ≤ s.attemptedAt + jwksMaxAge ∨ g.passed i = true

structure Trust (w : Nat) (kid : String) (p : State κ × Seen) : Prop where
  inv : Inv p.1
  past : p.2.brought ≤ p.1.attemptedAt
  gone : w ≤ p.2.brought → p.1.keys.lookup kid = none
  checked : ∀ i, p.2.checked i ≤ p.1.now
  fresh : ∀ i, Judged (p.1.tasks i) → Fresh p.1 p.2 i

variable {w : Nat} {kid : String} {s : State κ} {g : Seen} {i : Nat}

/-- One call goes on; for the others the last attempt can only be later. -/
theorem Trust.goes (h : Trust w kid (s, g)) {s' : State κ} {g' : Seen} {t : Task κ} (hinv : Inv s')
    (htasks : s'.tasks = Function.update s.tasks i t) (hle : s.attemptedAt ≤ s'.attemptedAt)
    (hnow : s'.now = s.now) (hpast : g'.brought ≤ s'.attemptedAt)
    (hgone : w ≤ g'.brought → s'.keys.lookup kid = none)
    (hother : ∀ j, j ≠ i → g'.checked j = g.checked j ∧ g'.passed j = g.passed j) (hi : g'.checked i ≤ s.now)
    (hfresh : Judged t → Fresh s' g' i) : Trust w kid (s', g') where
  inv := hinv
  past := hpast
  gone := hgone
  checked j := by
    by_cases hj : j = i
    · subst hj
      exact hnow ▸ hi
    · rw [(hother j hj).1]
      exact hnow ▸ h.checked j
  fresh j hjudged := by
    by_cases hj : j = i
    · subst hj
      rw [htasks, Function.update_self] at hjudged
      exact hfresh hjudged
    · rw [htasks, Function.update_of_ne hj] at hjudged
      rw [Fresh, (hother j hj).1, (hother j hj).2]
      exact (h.fresh j hjudged).imp_left fun hc => Nat.le_trans hc (Nat.add_le_add_right hle _)

/-- The set and the history stay. -/
theorem Trust.steps (h : Trust w kid (s, g)) {s' : State κ} {t : Task κ} (hinv : Inv s')
    (htasks : s'.tasks = Function.update s.tasks i t) (hle : s.attemptedAt ≤ s'.attemptedAt)
    (hnow : s'.now = s.now) (hkeys : s'.keys = s.keys) (hfresh : Judged t → Fresh s' g i) :
    Trust w kid (s', g) :=
  h.goes hinv htasks hle hnow (Nat.le_trans h.past hle) (hkeys ▸ h.gone) (fun _ _ => ⟨rfl, rfl⟩) (h.checked i)
    hfresh

theorem Fresh.later {s' : State κ} (h : Fresh s g i) (hle : s.attemptedAt ≤ s'.attemptedAt) : Fresh s' g i :=
  h.imp_left fun hc => by omega

/-- An attempt that is too recent for another is recent. -/
theorem Trust.recent (h : Trust w kid (s, g)) (hsoon : s.now - s.attemptedAt < jwksMinRefresh) : Fresh s g i := by
  have := h.checked i
  have hmin : jwksMinRefresh ≤ jwksMaxAge := by decide
  exact Or.inl (by dsimp only at this; omega)

theorem judged_of_looksFor {t : Task κ} (ht : t.looksFor = some kid) : Judged t := by
  cases t with
  | lookup | lookupAgain => trivial
  | idle | ageCheck | tryLock | lock | queued | locked | due | fetching | unlocking | done | dropped => cases ht

/-- What a call does next, with the set and the history as they are. -/
theorem trust_run {s' : State κ} (h : Trust w kid (s, g)) (hs : s.run true i = some s') :
    Trust w kid (s', note s (.run i) g) := by
  have hinv := inv_moves h.inv (moves_of_run hs)
  unfold State.run at hs
  unfold note
  cases ht : s.tasks i with
  | idle | fetching | done | dropped => simp [ht] at hs
  | ageCheck kid' =>
    simp only [ht, Bool.true_and, decide_eq_true_eq] at hs ⊢
    obtain rfl := Option.some.inj hs
    refine h.goes hinv rfl (Nat.le_refl _) rfl h.past h.gone (fun j hj => ?_) (by simp) fun hj => ?_
    · simp [Function.update_of_ne hj]
    · split at hj
      · cases hj
      · next hage =>
        refine Or.inl ?_
        simp only [Function.update_self, State.goto]
        omega
  | tryLock kid' wait =>
    simp only [ht, if_true] at hs ⊢
    cases wait with
    | true =>
      have hf := h.fresh i (by rw [ht]; rfl)
      split at hs
      all_goals
        obtain rfl := Option.some.inj hs
        exact h.steps hinv rfl (Nat.le_refl _) rfl rfl fun _ => hf
    | false =>
      have hg : ∀ s'' t, Inv s'' → s''.tasks = Function.update s.tasks i t → s''.attemptedAt = s.attemptedAt →
          s''.now = s.now → s''.keys = s.keys → (Judged t → s.lock.free = 0) →
          Trust w kid (s'', { g with passed := Function.update g.passed i (s.lock.free = 0) }) := by
        intro s'' t hinv htasks hle hnow hkeys hj
        refine h.goes hinv htasks (Nat.le_of_eq hle.symm) hnow (hle ▸ h.past) (hkeys ▸ h.gone)
          (fun j hj => ⟨rfl, by simp [Function.update_of_ne hj]⟩) (h.checked i) fun ht => Or.inr ?_
        simpa using hj ht
      split at hs
      · next hf =>
        obtain rfl := Option.some.inj hs
        exact hg _ _ hinv rfl rfl rfl rfl fun _ => hf
      · obtain rfl := Option.some.inj hs
        exact hg _ _ hinv rfl rfl rfl rfl fun hj => by cases hj
  | lock | unlocking | lookup =>
    simp only [ht] at hs ⊢
    have hf := h.fresh i (by rw [ht]; trivial)
    obtain rfl := Option.some.inj hs
    exact h.steps hinv rfl (Nat.le_refl _) rfl rfl fun _ => hf
  | queued kid' =>
    simp only [ht] at hs ⊢
    have hf := h.fresh i (by rw [ht]; trivial)
    split at hs
    · obtain rfl := Option.some.inj hs
      exact h.steps hinv rfl (Nat.le_refl _) rfl rfl fun _ => hf
    · cases hs
  | locked kid' wait =>
    simp only [ht] at hs ⊢
    obtain rfl := Option.some.inj hs
    refine h.steps hinv rfl (Nat.le_refl _) rfl rfl fun hj => ?_
    split at hj
    · next hsoon => exact h.recent hsoon
    · exact h.fresh i (by rw [ht]; exact hj)
  | due kid' wait =>
    simp only [ht] at hs ⊢
    obtain rfl := Option.some.inj hs
    exact h.steps hinv rfl h.inv.past rfl rfl fun _ => Or.inl (Nat.le_add_right_of_le (h.checked i))
  | lookupAgain kid' =>
    simp only [ht] at hs ⊢
    obtain rfl := Option.some.inj hs
    exact h.steps hinv rfl (Nat.le_refl _) rfl rfl fun hj => by cases hj

theorem trust_step {l : Label κ} {p p' : State κ × Seen} (h : Trust w kid p) (hw : Withdrawn w kid p l)
    (hs : (watched κ).step p l = some p') : Trust w kid p' := by
  obtain ⟨s, g⟩ := p
  obtain ⟨s', hstep, hs'⟩ := Option.map_eq_some_iff.mp hs
  replace hs : State.step true s l = some s' := hstep
  obtain rfl := hs'
  have hinv := inv_moves h.inv (moves_of_step hs)
  cases l with
  | run i => exact trust_run h hs
  | claims i kid' =>
    simp only [State.step, State.claims] at hs
    split at hs
    · obtain rfl := Option.some.inj hs
      exact h.steps hinv rfl (Nat.le_refl _) rfl rfl fun hj => by cases kid' <;> cases hj
    · cases hs
  | fetched i keys =>
    simp only [State.step, State.fetched] at hs
    split at hs
    · next kid' wait ht =>
      have hf := h.fresh i (by rw [ht]; trivial)
      obtain rfl := Option.some.inj hs
      cases keys with
      | none => exact h.steps hinv rfl (Nat.le_refl _) rfl rfl fun _ => hf
      | some keys =>
        exact h.goes hinv rfl (Nat.le_refl _) rfl (Nat.le_refl _) hw (fun _ _ => ⟨rfl, rfl⟩) (h.checked i)
          fun _ => hf
    · cases hs
  | cancel i =>
    simp only [State.step, State.cancel] at hs
    split at hs
    · split at hs
      all_goals
        obtain rfl := Option.some.inj hs
        exact h.steps hinv rfl (Nat.le_refl _) rfl rfl fun hj => by cases hj
    · obtain rfl := Option.some.inj hs
      exact h.steps hinv rfl (Nat.le_refl _) rfl rfl fun hj => by cases hj
    · cases hs
  | wait ns =>
    obtain rfl := Option.some.inj hs
    exact ⟨hinv, h.past, h.gone, fun i => Nat.le_add_right_of_le (h.checked i), h.fresh⟩

theorem trust_start {p : State κ × Seen} (h : (watched κ).init p)
    (hw : w ≤ p.1.attemptedAt → p.1.keys.lookup kid = none) : Trust w kid p := by
  obtain ⟨s, g⟩ := p
  obtain ⟨⟨startedAt, now, keys, hle, hs⟩, hg⟩ := h
  obtain rfl : s = .initial true startedAt now keys := hs
  obtain rfl : g = ⟨now, fun _ => 0, fun _ => false⟩ := hg
  exact ⟨inv_initial hle keys, Nat.le_refl _, hw, fun _ => Nat.zero_le _, fun _ hj => by cases hj⟩

end Steps

/-- The key was withdrawn in the first second; the first fetch since fails, and a second call finds the
key eleven minutes after. -/
def failedFetch : List (Label Unit) :=
  [.wait (660 * second), .claims 0 (some "a"), .run 0, .run 0, .run 0, .run 0, .fetched 0 none,
    .claims 1 (some "a"), .run 1]

end MinMcp.L5.JwksRefresh
