import MinMcp.Core.LTS
import MinMcp.L4App.RefusedCall
import Mathlib.Logic.Function.Basic

/-!
# Concurrent calls on one set of buckets

Each call samples the time once and then takes the lock for one bucket after the other, and
again for each refund (src/surface/dispatch.rs:361-420). Between the sample and a lock other
calls run, so a bucket may be asked with a time behind its own. Tokens are exact.

* `Bounded`: of the calls admitted and not refunded, a window of any length holds at most the
  burst and what flows in meanwhile.
* `Meter`: where the bucket of a key stands against a window.
* `bounded_in_order`: the bound holds for a key in a run that asks its bucket in order of time.
* `stale_sample_refills_twice`: a late call with an old sample lets a second pass in two more.
-/
namespace MinMcp.L5.RateTasks

open MinMcp.Core MinMcp.Core.TokenBucket MinMcp.L4.ExactLimit
open MinMcp.L4.RateLimit (Limit RateLimits Call Tier tiers maxBuckets)

/-- A call between its sample and its verdict. -/
structure Task where
  now : Nat
  rest : List Tier
  charged : List (String × Limit)
  refunding : Bool

/-- A take that succeeded. -/
structure Admission where
  task : Nat
  key : String
  now : Nat
  deriving DecidableEq

structure State where
  clock : Nat
  map : Buckets
  tasks : Nat → Option Task
  /-- Takes that were not refunded. -/
  admitted : List Admission

inductive Label where
  /-- A call samples the time. -/
  | call (task : Nat) (c : Call)
  /-- It gets the lock for its next bucket. -/
  | lock (task : Nat)

namespace State

variable (s : State)

def setTask (i : Nat) (T : Task) : Nat → Option Task := Function.update s.tasks i (some T)

/-- mirrors src/surface/dispatch.rs:367-400 -/
def call (rl : RateLimits) (i : Nat) (c : Call) : Option State :=
  if s.tasks i = none ∧ s.clock ≤ c.now then
    some { s with clock := c.now, tasks := s.setTask i ⟨c.now, tiers rl c, [], false⟩ }
  else none

/-- mirrors src/surface/dispatch.rs:401-415 -/
def takeNext (i : Nat) (T : Task) (t : Tier) (ts : List Tier) : State :=
  match take s.map t.key t.limit T.now with
  | (.ok (), map) => { s with
      map := map
      tasks := s.setTask i { T with rest := ts, charged := T.charged ++ [(t.key, t.limit)] }
      admitted := ⟨i, t.key, T.now⟩ :: s.admitted }
  | (.error _, map) =>
    if t.enforced then { s with map := map, tasks := s.setTask i { T with rest := [], refunding := true } }
    else { s with map := map, tasks := s.setTask i { T with rest := ts } }

/-- mirrors src/surface/dispatch.rs:416-418 -/
def refundNext (i : Nat) (T : Task) (e : String × Limit) (es : List (String × Limit)) : State :=
  { s with
    map := refund s.map e.1 e.2 T.now
    tasks := s.setTask i { T with charged := es }
    admitted := s.admitted.erase ⟨i, e.1, T.now⟩ }

def lock (i : Nat) : Option State :=
  match s.tasks i with
  | none => none
  | some T =>
    if T.refunding then
      match T.charged with
      | [] => none
      | e :: es => some (s.refundNext i T e es)
    else
      match T.rest with
      | [] => none
      | t :: ts => some (s.takeNext i T t ts)

end State

def step (rl : RateLimits) (s : State) : Label → Option State
  | .call i c => s.call rl i c
  | .lock i => s.lock i

def start : State := ⟨0, .empty, fun _ => none, []⟩

def limiter (rl : RateLimits) : LTS State Label := ⟨(· = start), step rl⟩

/-- The key of the bucket a call asks for next. -/
def Task.nextKey (T : Task) : Option String :=
  if T.refunding then T.charged.head?.map Prod.fst else T.rest.head?.map Tier.key

/-! ## The bound -/

/-- The admission is one of the key in the window. -/
def inWindow (key : String) (a e : Nat) (x : Admission) : Bool :=
  decide (x.key = key) && decide (a ≤ x.now ∧ x.now ≤ e)

def admittedIn (s : State) (key : String) (a e : Nat) : Nat := s.admitted.countP (inWindow key a e)

/-- In every window of the run a key admits at most its burst and what flows in. -/
def Bounded (rl : RateLimits) (ls : List Label) (key : String) (limit : Limit) : Prop :=
  ∀ s, (limiter rl).exec start ls = some s → ∀ a span : Nat,
    (admittedIn s key a (a + span) : ℚ) ≤ capacity limit + secs span * rate limit

/-- Fewer buckets than the map is kept to. -/
def Few (s : State) (_ : Label) : Prop := s.map.entries.length < maxBuckets

instance (s : State) (l : Label) : Decidable (Few s l) := inferInstanceAs (Decidable (_ < _))

/-- The key's bucket is asked with a time not before its own. -/
def InOrder (key : String) (s : State) : Label → Prop
  | .call _ _ => True
  | .lock i => ∀ T ∈ s.tasks i, T.nextKey = some key → ∀ b ∈ s.map.lookup key, b.updated ≤ T.now

instance (key : String) (s : State) (l : Label) : Decidable (InOrder key s l) :=
  match l with
  | .call _ _ => inferInstanceAs (Decidable True)
  | .lock i => inferInstanceAs (Decidable (∀ T ∈ s.tasks i, _))

/-! ## One bucket -/

variable {map : Buckets} {key : String} {limit : Limit} {now a e n : Nat}

/-- Where the key's bucket stands when `n` of its admissions lie in the window. -/
def Meter (limit : Limit) (a e : Nat) (key : String) (map : Buckets) (n : Nat) : Prop :=
  match map.lookup key with
  | none => n = 0
  | some b => Spent (pace limit) a e n b

theorem meter_congr {map' : Buckets} (h : map'.lookup key = map.lookup key) :
    Meter limit a e key map' n ↔ Meter limit a e key map n := by
  unfold Meter
  rw [h]

theorem meter_insert {b : Bucket} (h : Spent (pace limit) a e n b) :
    Meter limit a e key (map.insert key b) n := by
  unfold Meter
  rw [lookup_insert_self]
  exact h

/-- Counted in order, a bucket stands where it stood. -/
theorem Meter.counted (h : Meter limit a e key map n) (hae : a ≤ e)
    (ho : ∀ b, map.lookup key = some b → b.updated ≤ now) :
    Spent (pace limit) a e n (counted (pace limit) (entry map key limit now) now) := by
  unfold Meter at h
  unfold entry
  cases hl : map.lookup key with
  | none =>
    rw [hl] at h
    obtain rfl : n = 0 := h
    exact (spent_full (pace limit) a e now).level (pace limit) hae (Nat.le_refl now)
  | some b =>
    rw [hl] at h
    exact Spent.level (pace limit) h hae (ho b hl)

/-- A take in order moves the meter by what it admits. -/
theorem Meter.takeOk (h : Meter limit a e key map n) (hae : a ≤ e)
    (ho : ∀ b, map.lookup key = some b → b.updated ≤ now) (hfit : 1 ≤ held map key limit now) :
    Meter limit a e key (map.insert key ⟨held map key limit now - 1, now, sub_nonneg.mpr hfit⟩)
      (if a ≤ now ∧ now ≤ e then n + 1 else n) := by
  have hlevel : held map key limit now = level (pace limit) (entry map key limit now) now :=
    refilled_eq limit _ now
  apply meter_insert
  have hfit' : 1 ≤ (TokenBucket.counted (pace limit) (entry map key limit now) now).tokens :=
    hfit.trans_eq hlevel
  have hs := (h.counted hae ho).take (pace limit) hfit'
  simp only [spend, TokenBucket.counted, ← hlevel] at hs
  exact hs

theorem Meter.takeRefused (h : Meter limit a e key map n) (hae : a ≤ e)
    (ho : ∀ b, map.lookup key = some b → b.updated ≤ now) :
    Meter limit a e key (map.insert key ⟨held map key limit now, now, refilled_nonneg limit _ now⟩) n := by
  apply meter_insert
  have hs := h.counted hae ho
  simp only [TokenBucket.counted, ← refilled_eq] at hs
  exact hs

/-- A refund in order takes its admission back. -/
theorem Meter.refund (h : Meter limit a e key map (if a ≤ now ∧ now ≤ e then n + 1 else n)) (hae : a ≤ e)
    (ho : ∀ b, map.lookup key = some b → b.updated ≤ now) :
    Meter limit a e key (refund map key limit now) n := by
  unfold Meter at h ⊢
  rw [lookup_refund, if_pos rfl]
  cases hl : map.lookup key with
  | none =>
    rw [hl] at h
    show n = 0
    dsimp only at h
    split at h <;> omega
  | some b =>
    rw [hl] at h
    have hs := Spent.give (pace limit) (Spent.level (pace limit) h hae (ho b hl))
    simp only [give, TokenBucket.counted, ← refilled_eq] at hs
    exact hs

/-! ## Calls -/

/-- What a call has taken is admitted, and its buckets are asked under their limits. -/
structure Owes (key : String) (limit : Limit) (admitted : List Admission) (i : Nat) (T : Task) : Prop where
  distinct : (T.charged.map Prod.fst ++ T.rest.map Tier.key).Nodup
  ahead : ∀ t ∈ T.rest, t.key = key → t.limit = limit
  paid : ∀ c ∈ T.charged, c.1 = key → c.2 = limit
  owed : ∀ c ∈ T.charged, ⟨i, c.1, T.now⟩ ∈ admitted

structure Inv (key : String) (limit : Limit) (a e : Nat) (s : State) : Prop where
  meter : Meter limit a e key s.map (admittedIn s key a e)
  tasks : ∀ i T, s.tasks i = some T → Owes key limit s.admitted i T

theorem Owes.mono {xs ys : List Admission} {i : Nat} {T : Task} (h : Owes key limit xs i T)
    (hs : ∀ c ∈ T.charged, (⟨i, c.1, T.now⟩ : Admission) ∈ xs → ⟨i, c.1, T.now⟩ ∈ ys) :
    Owes key limit ys i T := ⟨h.distinct, h.ahead, h.paid, fun c hc => hs c hc (h.owed c hc)⟩

theorem inv_start (key : String) (limit : Limit) (a e : Nat) : Inv key limit a e start :=
  ⟨rfl, fun _ _ h => by cases h⟩

/-- An admission put in front. -/
theorem countP_cons_window (i now a e : Nat) (key key' : String) (xs : List Admission) :
    (⟨i, key', now⟩ :: xs : List Admission).countP (inWindow key a e) =
      if key' = key ∧ a ≤ now ∧ now ≤ e then xs.countP (inWindow key a e) + 1
      else xs.countP (inWindow key a e) := by
  rw [List.countP_cons]
  by_cases h : key' = key ∧ a ≤ now ∧ now ≤ e <;> simp [inWindow, h]

theorem setTask_cases {s : State} {i j : Nat} {T T' : Task} (h : s.setTask i T' j = some T) :
    j = i ∧ T = T' ∨ j ≠ i ∧ s.tasks j = some T := by
  unfold State.setTask at h
  by_cases hj : j = i
  · subst hj
    rw [Function.update_self] at h
    exact Or.inl ⟨rfl, (Option.some.inj h).symm⟩
  · rw [Function.update_of_ne hj] at h
    exact Or.inr ⟨hj, h⟩

variable {rl : RateLimits} {s s' : State} {i : Nat} {T : Task}

theorem Inv.call {c : Call} (h : Inv key limit a e s)
    (hkey : ∀ t ∈ tiers rl c, t.key = key → t.limit = limit) (hs : s.call rl i c = some s') :
    Inv key limit a e s' := by
  unfold State.call at hs
  split at hs
  · obtain rfl := Option.some.inj hs
    refine ⟨h.meter, ?_⟩
    intro j T hj
    rcases setTask_cases hj with ⟨-, rfl⟩ | ⟨-, hj⟩
    · exact ⟨tiers_nodup rl c, hkey, by simp, by simp⟩
    · exact h.tasks j T hj
  · cases hs

/-- The task that moves is replaced, the others owe what they owed. -/
theorem Inv.set {s : State} {map : Buckets} {admitted : List Admission} {T : Task}
    (h : Inv key limit a e s) (hm : Meter limit a e key map (admitted.countP (inWindow key a e)))
    (hT : Owes key limit admitted i T)
    (hk : ∀ x ∈ s.admitted, x.task ≠ i → x ∈ admitted) :
    Inv key limit a e { s with map := map, tasks := s.setTask i T, admitted := admitted } := by
  refine ⟨hm, ?_⟩
  intro j T' hj
  rcases setTask_cases hj with ⟨rfl, rfl⟩ | ⟨hne, hj⟩
  · exact hT
  · exact (h.tasks j T' hj).mono fun c _ hc => hk _ hc hne

theorem Inv.takeNext {t : Tier} {ts : List Tier} (h : Inv key limit a e s) (hae : a ≤ e)
    (hfew : s.map.entries.length < maxBuckets) (hT : s.tasks i = some T) (hrest : T.rest = t :: ts)
    (ho : t.key = key → ∀ b, s.map.lookup key = some b → b.updated ≤ T.now) :
    Inv key limit a e (s.takeNext i T t ts) := by
  obtain ⟨distinct, ahead, paid, owed⟩ := h.tasks i T hT
  rw [hrest, List.map_cons] at distinct
  rw [hrest, List.forall_mem_cons] at ahead
  have hev : s.map.evict t.key T.now = s.map := evict_of_length hfew
  have hsub : (T.charged.map Prod.fst ++ ts.map Tier.key).Nodup :=
    distinct.sublist (List.Sublist.append_left (List.sublist_cons_self _ _) _)
  unfold State.takeNext
  by_cases hfit : 1 ≤ held s.map t.key t.limit T.now
  · rw [take_ok hev hfit]
    apply h.set
    · rw [countP_cons_window]
      by_cases hk : t.key = key
      · subst hk
        obtain rfl := ahead.1 rfl
        simpa [admittedIn] using h.meter.takeOk hae (ho rfl) hfit
      · rw [if_neg (fun hc => hk hc.1), meter_congr (lookup_insert_of_ne (Ne.symm hk) _)]
        exact h.meter
    · refine ⟨by simpa using distinct, ahead.2, ?_, ?_⟩
      · intro c hc hk
        rcases List.mem_append.mp hc with hc | hc
        · exact paid c hc hk
        · obtain rfl := List.mem_singleton.mp hc
          exact ahead.1 hk
      · intro c hc
        rcases List.mem_append.mp hc with hc | hc
        · exact List.mem_cons_of_mem _ (owed c hc)
        · obtain rfl := List.mem_singleton.mp hc
          exact List.mem_cons_self
    · exact fun x hx _ => List.mem_cons_of_mem _ hx
  · rw [take_refused hev hfit]
    have hm : Meter limit a e key
        (s.map.insert t.key ⟨held s.map t.key t.limit T.now, T.now, refilled_nonneg t.limit _ T.now⟩)
        (admittedIn s key a e) := by
      by_cases hk : t.key = key
      · subst hk
        obtain rfl := ahead.1 rfl
        exact h.meter.takeRefused hae (ho rfl)
      · rw [meter_congr (lookup_insert_of_ne (Ne.symm hk) _)]
        exact h.meter
    dsimp only
    split
    · refine h.set hm ⟨?_, by simp, paid, owed⟩ fun x hx _ => hx
      exact distinct.sublist (List.Sublist.append_left (List.nil_sublist _) _)
    · exact h.set hm ⟨hsub, ahead.2, paid, owed⟩ fun x hx _ => hx

theorem Inv.refundNext {c : String × Limit} {cs : List (String × Limit)} (h : Inv key limit a e s)
    (hae : a ≤ e) (hT : s.tasks i = some T) (hcharged : T.charged = c :: cs)
    (ho : c.1 = key → ∀ b, s.map.lookup key = some b → b.updated ≤ T.now) :
    Inv key limit a e (s.refundNext i T c cs) := by
  obtain ⟨distinct, ahead, paid, owed⟩ := h.tasks i T hT
  rw [hcharged, List.forall_mem_cons] at paid owed
  rw [hcharged, List.map_cons, List.cons_append, List.nodup_cons] at distinct
  -- with the admission back in front, the count is the one there was
  have hcount : admittedIn s key a e = if c.1 = key ∧ a ≤ T.now ∧ T.now ≤ e then
      (s.admitted.erase ⟨i, c.1, T.now⟩).countP (inWindow key a e) + 1
      else (s.admitted.erase ⟨i, c.1, T.now⟩).countP (inWindow key a e) := by
    rw [← countP_cons_window i T.now a e key c.1]
    exact (List.perm_cons_erase owed.1).countP_eq _
  have hmeter := h.meter
  rw [hcount] at hmeter
  apply h.set
  · by_cases hk : c.1 = key
    · subst hk
      rw [paid.1 rfl]
      simp only [true_and] at hmeter
      exact hmeter.refund hae (ho rfl)
    · rw [if_neg (fun hc => hk hc.1)] at hmeter
      exact (meter_congr (by rw [lookup_refund, if_neg (Ne.symm hk)])).mpr hmeter
  · refine ⟨distinct.2, ahead, paid.2, ?_⟩
    intro d hd
    rw [List.mem_erase_of_ne]
    · exact owed.2 d hd
    · intro heq
      rw [Admission.mk.injEq] at heq
      exact distinct.1 (List.mem_append_left _ (heq.2.1 ▸ List.mem_map_of_mem hd))
  · intro x hx hne
    rw [List.mem_erase_of_ne]
    · exact hx
    · rintro rfl
      exact hne rfl

/-- **Step.** A bucket asked in order stays within its meter. -/
theorem step_inv (hae : a ≤ e) (hkey : ∀ c, ∀ t ∈ tiers rl c, t.key = key → t.limit = limit) :
    (limiter rl).Preserves (fun s l => Few s l ∧ InOrder key s l) (Inv key limit a e) := by
  intro s l s' h hl hs
  cases l with
  | call i c => exact h.call (hkey c) hs
  | lock i =>
    have hs : s.lock i = some s' := hs
    unfold State.lock at hs
    cases hT : s.tasks i with
    | none =>
      rw [hT] at hs
      cases hs
    | some T =>
      have ho := hl.2 T hT
      unfold Task.nextKey at ho
      rw [hT] at hs
      dsimp only at hs
      cases hr : T.refunding with
      | true =>
        rw [hr, if_pos rfl] at hs
        cases hc : T.charged with
        | nil =>
          rw [hc] at hs
          cases hs
        | cons c cs =>
          rw [hc] at hs
          obtain rfl := Option.some.inj hs
          refine h.refundNext hae hT hc fun hk => ho ?_
          rw [hr, hc, ← hk]
          rfl
      | false =>
        rw [hr, if_neg Bool.false_ne_true] at hs
        cases hc : T.rest with
        | nil =>
          rw [hc] at hs
          cases hs
        | cons t ts =>
          rw [hc] at hs
          obtain rfl := Option.some.inj hs
          refine h.takeNext hae hl.1 hT hc fun hk => ho ?_
          rw [hr, hc, ← hk]
          rfl

/-- The bound that a meter stands for. -/
theorem Inv.bound {span : Nat} (h : Inv key limit a (a + span) s) :
    (admittedIn s key a (a + span) : ℚ) ≤ capacity limit + secs span * rate limit := by
  have hgain : secs span * rate limit = (a + span - a : Nat) * (pace limit).perTick := by
    rw [Nat.add_sub_cancel_left]
    exact div_mul_eq_mul_div .. |>.trans (mul_div_assoc ..)
  have hm := h.meter
  unfold Meter at hm
  cases hl : s.map.lookup key with
  | none =>
    rw [hl] at hm
    have hm : admittedIn s key a (a + span) = 0 := hm
    rw [hm, hgain, Nat.cast_zero]
    exact add_nonneg (pace limit).capacity_nonneg (gained_nonneg (pace limit) _)
  | some b =>
    rw [hl] at hm
    rw [hgain]
    exact Spent.bound (pace limit) hm (Nat.le_add_right a span)

/-- **Run.** A run that asks the key's bucket in order of time keeps to the bound in every
window. -/
theorem bounded_in_order (rl : RateLimits) (ls : List Label) (key : String) (limit : Limit)
    (hkey : ∀ c, ∀ t ∈ tiers rl c, t.key = key → t.limit = limit)
    (hfew : (limiter rl).Guarded Few start ls) (hord : (limiter rl).Guarded (InOrder key) start ls) :
    Bounded rl ls key limit := by
  intro s he a span
  have hinv := step_inv (Nat.le_add_right a span) hkey
  exact (hinv.exec (inv_start key limit a (a + span)) (hfew.and hord) he).bound

/-! ## A stale sample -/

/-- One call a second for each caller. -/
def exampleLimits : RateLimits where
  perCaller := some ⟨1, 1⟩
  perTool := none
  reportOnly := false
  overlayLimit _ := none

/-- Two calls sample at 0 s and two at 1 s; the second of them gets the lock third. -/
def staleRun : List Label :=
  [.call 1 ⟨"a", "x", 0⟩, .call 2 ⟨"a", "x", 0⟩, .call 3 ⟨"a", "x", 10 ^ 9⟩,
    .call 4 ⟨"a", "x", 10 ^ 9⟩, .lock 1, .lock 3, .lock 2, .lock 4]

/-- It is refused and sets the bucket back to 0 s, so the second from there to 1 s counts
twice: three calls pass where two fit. -/
theorem stale_sample_refills_twice : ¬ Bounded exampleLimits staleRun "caller:a" ⟨1, 1⟩ := by
  intro h
  obtain ⟨s, hs⟩ : ∃ s, (limiter exampleLimits).exec start staleRun = some s :=
    Option.isSome_iff_exists.mp (by decide +kernel)
  have hcount : admittedIn s "caller:a" 0 (0 + 10 ^ 9) = 3 := by
    have : ((limiter exampleLimits).exec start staleRun).map
        (fun s => admittedIn s "caller:a" 0 (0 + 10 ^ 9)) = some 3 := by decide +kernel
    rw [hs] at this
    exact Option.some.inj this
  have hb := h s hs 0 (10 ^ 9)
  rw [hcount] at hb
  exact absurd hb (by decide +kernel)

/-- In order, the second call of a burst is refused. -/
theorem in_order_is_bounded :
    Bounded exampleLimits [.call 1 ⟨"a", "x", 0⟩, .call 2 ⟨"a", "x", 0⟩, .lock 1, .lock 2] "caller:a"
      ⟨1, 1⟩ := by
  apply bounded_in_order
  · intro c t ht hk
    rcases tier_cases ht with ⟨-, hl⟩ | ⟨-, hl⟩ | ⟨-, hl⟩
    · exact (Option.some.inj hl).symm
    · cases hl
    · cases hl
  · decide +kernel
  · decide +kernel

end MinMcp.L5.RateTasks
