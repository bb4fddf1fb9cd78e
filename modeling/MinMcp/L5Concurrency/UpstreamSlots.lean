import MinMcp.Core.LTS
import MinMcp.Core.Semaphore

/-!
# Slots for upstream calls

`max_concurrent_calls` bounds how many tool calls are in flight to upstreams; 0 is no bound. A
request of an agent makes its upstream calls one after the other: the call, the pages that follow
it, the steps of a composite. Each waits for a slot of its own (`upstream_slot` of src/surface.rs)
and gives it back when the upstream has answered or failed. A request may be dropped where it
awaits, in the queue or in a call.

"The permit must be held across the upstream call ONLY": held any wider, a call would wait on a
slot its own parent holds.

* `Inv`: a request has a slot while it calls, or when it was handed one and has not run since.
* `SlotsMove`: what a step does to the slots.
* `calls_bounded`: the bound, and that who has a slot waits for nothing but its upstream.
* `served_in_turn`: a waiting request is passed by nobody.
-/
namespace MinMcp.L5.UpstreamSlots

open MinMcp.Core

inductive Task where
  | idle
  /-- An upstream call is next. -/
  | ready
  | queued
  | calling
  | done
  | dropped
  deriving DecidableEq

structure State (cap : Nat) where
  slots : Option (Semaphore cap Nat)
  tasks : Nat → Task

inductive Label where
  /-- A request gets to its first upstream call. -/
  | start (task : Nat)
  | run (task : Nat)
  /-- The upstream answers or fails; `more` when a page or a step follows. -/
  | answer (task : Nat) (more : Bool)
  | cancel (task : Nat)

namespace State

variable {cap : Nat} (s : State cap) (i : Nat)

def goto (t : Task) : State cap := { s with tasks := Function.update s.tasks i t }

/-- mirrors src/surface.rs:309-314 -/
def upstreamSlot : State cap :=
  match s.slots with
  | none => s.goto i .calling
  | some slots =>
    { s with slots := some (slots.request i) }.goto i
      (if i ∈ (slots.request i).holders then .calling else .queued)

def wake : Option (State cap) :=
  match s.slots with
  | none => none
  | some slots => if i ∈ slots.holders then some (s.goto i .calling) else none

/-- The permit is dropped. -/
def leave : State cap := { s with slots := s.slots.map fun slots => slots.release i }

def cancel : Option (State cap) :=
  match s.tasks i with
  | .calling => some ((s.leave i).goto i .dropped)
  | .queued =>
    match s.slots with
    | none => none
    | some slots =>
      if i ∈ slots.holders then some ((s.leave i).goto i .dropped)
      else some ({ s with slots := some (slots.withdraw i) }.goto i .dropped)
  | _ => none

/-- mirrors src/surface/dispatch.rs:199-202, 469-472 -/
def step : Label → Option (State cap)
  | .start i => if s.tasks i = .idle then some (s.goto i .ready) else none
  | .run i =>
    match s.tasks i with
    | .ready => some (s.upstreamSlot i)
    | .queued => s.wake i
    | _ => none
  | .answer i more =>
    if s.tasks i = .calling then some ((s.leave i).goto i (if more then .ready else .done)) else none
  | .cancel i => s.cancel i

/-- mirrors src/surface.rs:243-244 -/
def initial (maxConcurrentCalls : Nat) : State maxConcurrentCalls :=
  ⟨if 0 < maxConcurrentCalls then some (.new _ _) else none, fun _ => .idle⟩

end State

def system (maxConcurrentCalls : Nat) : LTS (State maxConcurrentCalls) Label :=
  ⟨fun s => s = .initial maxConcurrentCalls, State.step⟩

/-! ## What every run keeps -/

def Task.place : Task → Semaphore.Place
  | .queued => .waiting
  | .calling => .inside
  | .idle | .ready | .done | .dropped => .outside

variable {cap : Nat}

/-- A request has a slot while it calls, or when it was handed one and has not run since. -/
def Inv (s : State cap) : Prop := ∀ slots, s.slots = some slots → slots.Consistent fun i => (s.tasks i).place

theorem place_goto (s : State cap) (i : Nat) (t : Task) :
    (fun j => ((s.goto i t).tasks j).place) = Function.update (fun j => (s.tasks j).place) i t.place := by
  funext j
  show (Function.update s.tasks i t j).place = _
  by_cases hj : j = i
  · subst hj
    rw [Function.update_self, Function.update_self]
  · rw [Function.update_of_ne hj, Function.update_of_ne hj]

/-- A task that goes on without its slot changing. -/
theorem inv_goto {s : State cap} (h : Inv s) {i : Nat} {t : Task} (ht : t.place = (s.tasks i).place) :
    Inv (s.goto i t) := by
  intro slots hs
  rw [place_goto, ht, Function.update_eq_self]
  exact h slots hs

theorem inv_upstreamSlot {s : State cap} (h : Inv s) {i : Nat} (hi : s.tasks i = .ready) :
    Inv (s.upstreamSlot i) := by
  unfold State.upstreamSlot
  split
  · next hs =>
    intro slots hs'
    rw [show (s.goto i .calling).slots = s.slots from rfl, hs] at hs'
    cases hs'
  · next slots hs =>
    intro slots' hs'
    obtain rfl := Option.some.inj hs'
    have hc := Semaphore.consistent_request (h slots hs) (i := i) (by rw [hi]; rfl)
    rw [place_goto]
    split at hc
    · next hh => rw [if_pos hh]; exact hc
    · next hh => rw [if_neg hh]; exact hc

theorem inv_leave {s : State cap} (h : Inv s) {i : Nat}
    (hi : ∀ slots, s.slots = some slots → i ∈ slots.holders) {t : Task} (ht : t.place = .outside) :
    Inv ((s.leave i).goto i t) := by
  intro slots' hs'
  obtain ⟨slots, hs, rfl⟩ := Option.map_eq_some_iff.mp hs'
  rw [place_goto, ht]
  exact Semaphore.consistent_release (h slots hs) (hi slots hs)

theorem holds_of_calling {s : State cap} (h : Inv s) {i : Nat} (hi : s.tasks i = .calling) :
    ∀ slots, s.slots = some slots → i ∈ slots.holders := by
  intro slots hs
  have hseat : slots.Seated i (s.tasks i).place := h slots hs i
  rw [hi] at hseat
  exact hseat

theorem inv_step {s s' : State cap} {l : Label} (h : Inv s) (hs : s.step l = some s') : Inv s' := by
  cases l with
  | start i =>
    simp only [State.step] at hs
    split at hs
    · next hi =>
      obtain rfl := Option.some.inj hs
      exact inv_goto h (by rw [hi]; rfl)
    · cases hs
  | run i =>
    simp only [State.step] at hs
    split at hs
    · next hi =>
      obtain rfl := Option.some.inj hs
      exact inv_upstreamSlot h hi
    · next hi =>
      unfold State.wake at hs
      split at hs
      · cases hs
      · next slots hslots =>
        split at hs
        · next hh =>
          obtain rfl := Option.some.inj hs
          intro slots' hs'
          rw [show (s.goto i .calling).slots = s.slots from rfl, hslots] at hs'
          obtain rfl := Option.some.inj hs'
          rw [place_goto]
          exact Semaphore.consistent_wake (h slots hslots) hh
        · cases hs
    · cases hs
  | answer i more =>
    simp only [State.step] at hs
    split at hs
    · next hi =>
      obtain rfl := Option.some.inj hs
      exact inv_leave h (holds_of_calling h hi) (by cases more <;> rfl)
    · cases hs
  | cancel i =>
    simp only [State.step, State.cancel] at hs
    split at hs
    · next hi =>
      obtain rfl := Option.some.inj hs
      exact inv_leave h (holds_of_calling h hi) rfl
    · next hi =>
      split at hs
      · cases hs
      · next slots hslots =>
        split at hs
        · next hh =>
          obtain rfl := Option.some.inj hs
          refine inv_leave h (fun slots' hs' => ?_) rfl
          obtain rfl := Option.some.inj (hslots.symm.trans hs')
          exact hh
        · next hh =>
          obtain rfl := Option.some.inj hs
          intro slots' hs'
          obtain rfl := Option.some.inj hs'
          rw [place_goto]
          exact Semaphore.consistent_withdraw (h slots hslots) hh
    · cases hs

theorem inv_initial {max : Nat} {s : State max} (hs : s = .initial max) : Inv s := by
  subst hs
  intro slots hslots
  unfold State.initial at hslots
  split at hslots
  · obtain rfl := Option.some.inj hslots
    exact Semaphore.consistent_new max
  · cases hslots

theorem inv_reachable {max : Nat} {s : State max} (h : (system max).Reachable s) : Inv s :=
  LTS.Invariant.reachable (m := system max)
    ⟨fun _ hs => inv_initial hs, fun _ _ _ h _ hs => inv_step h hs⟩ h

/-! ## The queue -/

/-- The request is in the queue. -/
def Waits (s : State cap) (i : Nat) : Prop := ∃ slots, s.slots = some slots ∧ i ∈ slots.queue

instance (s : State cap) (i : Nat) : Decidable (Waits s i) :=
  match hs : s.slots with
  | none => isFalse fun ⟨_, h, _⟩ => by rw [hs] at h; cases h
  | some slots => decidable_of_iff (i ∈ slots.queue)
      ⟨fun hi => ⟨slots, hs, hi⟩, fun ⟨_, h, hi⟩ => Option.some.inj (hs.symm.trans h) ▸ hi⟩

/-- How many wait in front of it. -/
def ahead (s : State cap) (i : Nat) : Nat := s.slots.elim 0 fun slots => slots.ahead i

/-- A slot comes back. -/
def comesBack (s : State cap) : Label → Bool
  | .answer i _ | .cancel i => s.slots.any fun slots => i ∈ slots.holders
  | .start _ | .run _ => false

/-- What a step does to the slots. -/
inductive SlotsMove (s : State cap) (l : Label) (slots : Semaphore cap Nat) : Semaphore cap Nat → Prop
  | stay (hl : comesBack s l = false) : SlotsMove s l slots slots
  | request {j} (hj : s.tasks j = .ready) (hl : comesBack s l = false) : SlotsMove s l slots (slots.request j)
  | release {j} (hj : j ∈ slots.holders) (hl : comesBack s l = true) : SlotsMove s l slots (slots.release j)
  | withdraw {j} (hj : j ∉ slots.holders) (hl : comesBack s l = false) :
    SlotsMove s l slots (slots.withdraw j)

theorem slotsMove_of_step {s s' : State cap} (h : Inv s) {l : Label} (hs : s.step l = some s')
    {slots : Semaphore cap Nat} (hslots : s.slots = some slots) :
    ∃ slots', s'.slots = some slots' ∧ SlotsMove s l slots slots' := by
  have hback : ∀ j, s.slots.any (fun slots => j ∈ slots.holders) = decide (j ∈ slots.holders) := fun j => by
    rw [hslots, Option.any_some]
  cases l with
  | start i =>
    simp only [State.step] at hs
    split at hs
    · obtain rfl := Option.some.inj hs
      exact ⟨slots, hslots, .stay rfl⟩
    · cases hs
  | run i =>
    simp only [State.step] at hs
    split at hs
    · next hi =>
      obtain rfl := Option.some.inj hs
      refine ⟨slots.request i, ?_, .request hi rfl⟩
      simp only [State.upstreamSlot, hslots, State.goto]
    · simp only [State.wake, hslots] at hs
      split at hs
      · obtain rfl := Option.some.inj hs
        exact ⟨slots, hslots, .stay rfl⟩
      · cases hs
    · cases hs
  | answer i more =>
    simp only [State.step] at hs
    split at hs
    · next hi =>
      obtain rfl := Option.some.inj hs
      have hh := holds_of_calling h hi slots hslots
      refine ⟨slots.release i, ?_, .release hh ((hback i).trans (decide_eq_true hh))⟩
      simp only [State.goto, State.leave, hslots, Option.map_some]
    · cases hs
  | cancel i =>
    simp only [State.step, State.cancel, hslots] at hs
    split at hs
    · next hi =>
      obtain rfl := Option.some.inj hs
      have hh := holds_of_calling h hi slots hslots
      refine ⟨slots.release i, ?_, .release hh ((hback i).trans (decide_eq_true hh))⟩
      simp only [State.goto, State.leave, hslots, Option.map_some]
    · split at hs
      · next hh =>
        obtain rfl := Option.some.inj hs
        refine ⟨slots.release i, ?_, .release hh ((hback i).trans (decide_eq_true hh))⟩
        simp only [State.goto, State.leave, hslots, Option.map_some]
      · next hh =>
        obtain rfl := Option.some.inj hs
        exact ⟨slots.withdraw i, rfl, .withdraw hh ((hback i).trans (decide_eq_false hh))⟩
    · cases hs

/-- One step takes a place in the queue from the way for each slot that comes back. -/
theorem turn_step {s s' : State cap} (h : Inv s) {i : Nat} (hi : Waits s i) (hi' : Waits s' i) {l : Label}
    (hs : s.step l = some s') : (comesBack s l).toNat + ahead s' i ≤ ahead s i := by
  obtain ⟨slots, hslots, hi⟩ := hi
  obtain ⟨slots', hslots', hi'⟩ := hi'
  obtain ⟨_, he, hm⟩ := slotsMove_of_step h hs hslots
  obtain rfl := Option.some.inj (hslots'.symm.trans he)
  rw [ahead, ahead, hslots, hslots', Option.elim_some, Option.elim_some]
  cases hm with
  | stay hl =>
    rw [hl, Bool.toNat_false]
    omega
  | @request j hj hl =>
    have hseat : slots.Seated j (s.tasks j).place := h slots hslots j
    rw [hj] at hseat
    rw [hl, Bool.toNat_false, Semaphore.ahead_request hseat.1 hseat.2 hi]
    omega
  | @release j hj hl =>
    have := Semaphore.moved_up hj hi'
    rw [hl, Bool.toNat_true]
    omega
  | @withdraw j hj hl =>
    have hne : i ≠ j := fun hij => slots.nodup_queue.not_mem_erase (hij ▸ hi')
    have := Semaphore.ahead_withdraw hi hne
    rw [hl, Bool.toNat_false]
    omega

theorem slots_of_reachable {max : Nat} (hmax : 0 < max) {s : State max} (h : (system max).Reachable s) :
    ∃ slots, s.slots = some slots := by
  refine And.right <| LTS.Invariant.reachable (m := system max)
    (P := fun s => Inv s ∧ ∃ slots, s.slots = some slots) ⟨fun s hs => ?_, fun s l s' hP _ hs => ?_⟩ h
  · refine ⟨inv_initial hs, .new max Nat, ?_⟩
    rw [show s = .initial max from hs]
    exact if_pos hmax
  · obtain ⟨hinv, slots, hslots⟩ := hP
    obtain ⟨slots', hslots', -⟩ := slotsMove_of_step hinv hs hslots
    exact ⟨inv_step hinv hs, slots', hslots'⟩

/-! ## The bound -/

theorem in_flight_le {max : Nat} (hmax : 0 < max) {s : State max} (h : (system max).Reachable s)
    {is : List Nat} (hn : is.Nodup) (hi : ∀ i ∈ is, s.tasks i = .calling) : is.length ≤ max := by
  obtain ⟨slots, hslots⟩ := slots_of_reachable hmax h
  exact Semaphore.length_inside_le (inv_reachable h slots hslots) hn fun i hm => by rw [hi i hm]; rfl

theorem holders_run {max : Nat} {s : State max} (h : (system max).Reachable s) {i : Nat}
    (hi : Waits s i) : ∃ slots, s.slots = some slots ∧ slots.holders.length = max ∧
      ∀ j ∈ slots.holders, s.tasks j = .calling ∨
        ∃ s', s.step (.run j) = some s' ∧ s'.tasks j = .calling := by
  obtain ⟨slots, hslots, hi⟩ := hi
  refine ⟨slots, hslots, Semaphore.full_of_waiting hi, fun j hj => ?_⟩
  have hseat : slots.Seated j (s.tasks j).place := inv_reachable h slots hslots j
  cases hj' : s.tasks j with
  | calling => exact Or.inl rfl
  | queued =>
    refine Or.inr ⟨s.goto j .calling, ?_, Function.update_self ..⟩
    simp only [State.step, hj', State.wake, hslots, if_pos hj]
  | idle | ready | done | dropped =>
    rw [hj'] at hseat
    exact absurd hj hseat.1

/-- One slot for three requests; the first one's answer has a page to follow. -/
def threeRequests : List Label := [.start 0, .run 0, .start 1, .run 1, .start 2, .run 2]

def nextPage : List Label := [.answer 0 true, .run 0]

/-- While a request waits, at most as many slots come back as requests stood in front of it: it
is passed by nobody, and the next slot behind them is its own. -/
theorem served_in_turn {max : Nat} {s s' : State max} (h : (system max).Reachable s) {i : Nat}
    {ls : List Label} (hw : (system max).Guarded (fun s _ => Waits s i) s ls)
    (he : (system max).exec s ls = some s') (hi : Waits s' i) :
    (system max).count comesBack s ls + ahead s' i ≤ ahead s i := by
  have hinv := inv_reachable h
  have hg : (system max).Guarded (fun s _ => Inv s ∧ Waits s i) s ls := by
    refine hw.imp (P := Inv) (fun _ _ _ h _ hs => inv_step h hs) hinv ?_
    exact fun s l hs hl => ⟨hs, hl⟩
  exact LTS.countdown (B := comesBack) (μ := fun s => ahead s i)
    (fun _ _ _ hs hs' hstep => turn_step hs.1 hs.2 hs'.2 hstep) hg he ⟨inv_reachable (h.exec ls he), hi⟩

/-- The third request stood behind one other, and is now the next. -/
theorem three_requests_in_turn : ∃ s s', (system 1).exec (.initial 1) threeRequests = some s ∧
    (system 1).exec s nextPage = some s' ∧ Waits s' 2 ∧
    (system 1).count comesBack s nextPage + ahead s' 2 ≤ ahead s 2 := by
  have hr : ((system 1).exec (.initial 1) threeRequests).any (fun s =>
      (system 1).Guarded (fun s _ => Waits s 2) s nextPage ∧
        ((system 1).exec s nextPage).any (fun s' => Waits s' 2) = true) = true := by
    decide +kernel
  obtain ⟨s, he, hs⟩ := (Option.any_eq_true _ _).mp hr
  obtain ⟨hg, hs⟩ := of_decide_eq_true hs
  obtain ⟨s', he', hs'⟩ := (Option.any_eq_true _ _).mp hs
  exact ⟨s, s', he, he', of_decide_eq_true hs',
    served_in_turn ⟨_, _, rfl, he⟩ hg he' (of_decide_eq_true hs')⟩

end MinMcp.L5.UpstreamSlots
