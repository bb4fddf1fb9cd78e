import MinMcp.Core.LTS
import Mathlib.Algebra.Group.Nat.Defs

/-!
# Circuit breaker of a tool

Closed, open for a cooldown, half-open with one probe (src/surface/breaker.rs). Times are
nanoseconds. A report says whether its call was a probe, not which one: a call that was
given the slot of a probe that went silent, and the one that had it before, report alike.

`breaker` runs the calls of one tool: each asks once (src/surface/dispatch.rs:168-188) and
reports at most once, any time later (src/surface/dispatch.rs:251-258).

* `check_cases`: what `check` does, by the state it finds.
* `Inv`: the slot belongs to the one probe out that no other has displaced.
-/
namespace MinMcp.L4.Breaker

open MinMcp.Core

/-- mirrors src/config.rs:702-709 -/
structure Config where
  consecutiveFailures : UInt32
  cooldownS : UInt64

inductive Decision where
  | allow (probe : Bool)
  | block (failures : UInt32) (retryInS : Nat)
  deriving DecidableEq

/-- mirrors src/surface/breaker.rs:34-41 -/
structure BreakerState where
  consecutive : UInt32
  openUntil : Option Nat
  probeStarted : Option Nat
  deriving DecidableEq

def BreakerState.default : BreakerState := ⟨0, none, none⟩

def second : Nat := 10 ^ 9

/-- mirrors src/surface/breaker.rs:30 -/
def staleProbeAfter : Nat := 180 * second

/-- The first instant that does not fit its signed 64-bit seconds. -/
def instantEnd : Nat := 2 ^ 63 * second

def checkedAdd (now duration : Nat) : Option Nat :=
  if now + duration < instantEnd then some (now + duration) else none

def saturatingSucc (n : UInt32) : UInt32 := if n = UInt32.ofNat (2 ^ 32 - 1) then n else n + 1

/-- mirrors src/surface/breaker.rs:45-66 -/
def check (st : BreakerState) (now : Nat) : Decision × BreakerState :=
  match st.openUntil with
  | none => (.allow false, st)
  | some deadline =>
    if now < deadline then (.block st.consecutive (max ((deadline - now) / second) 1), st)
    else
      match st.probeStarted with
      | none => (.allow true, { st with probeStarted := some now })
      | some since =>
        if now - since < staleProbeAfter then (.block st.consecutive 1, st)
        else (.allow true, { st with probeStarted := some now })

def cooldown (cfg : Config) : Nat := cfg.cooldownS.toNat * second

/-- The deadline of a breaker that opens now. -/
def reopen (cfg : Config) (now : Nat) : Nat :=
  (checkedAdd now (cooldown cfg)).getD (now + 60 * 60 * 24 * 365 * second)

/-- mirrors src/surface/breaker.rs:71-89 -/
def onResult (cfg : Config) (isError wasProbe : Bool) (now : Nat) (st : BreakerState) : BreakerState :=
  let st := if wasProbe then { st with probeStarted := none } else st
  if isError then
    let st := { st with consecutive := saturatingSucc st.consecutive }
    if wasProbe ∨ cfg.consecutiveFailures ≤ st.consecutive then
      { st with openUntil := some (reopen cfg now) }
    else st
  else { st with consecutive := 0, openUntil := none }

/-! ## Calls -/

/-- A call that was let through and has not reported. -/
structure Call where
  id : Nat
  probe : Bool
  checkedAt : Nat
  /-- A probe whose slot another one was given. -/
  reclaimed : Bool
  deriving DecidableEq

structure Report where
  time : Nat
  isError : Bool
  wasProbe : Bool
  deriving DecidableEq

structure State where
  now : Nat
  breaker : BreakerState
  calls : List Call
  /-- The last one first. -/
  reports : List Report
  deriving DecidableEq

inductive Label where
  | check (id time : Nat)
  | report (id : Nat) (isError : Bool) (time : Nat)

def Label.time : Label → Nat
  | .check _ t | .report _ _ t => t

def Call.displace (c : Call) : Call := { c with reclaimed := c.probe }

/-- The calls out when this one is let through. -/
def letThrough (id now : Nat) (calls : List Call) : Decision → List Call
  | .allow true => ⟨id, true, now, false⟩ :: calls.map Call.displace
  | .allow false => ⟨id, false, now, false⟩ :: calls
  | .block _ _ => calls

def State.find (s : State) (id : Nat) : Option Call := s.calls.find? (·.id = id)

def State.check (s : State) (id now : Nat) : State where
  now := now
  breaker := (Breaker.check s.breaker now).2
  calls := letThrough id now s.calls (Breaker.check s.breaker now).1
  reports := s.reports

def State.report (cfg : Config) (s : State) (c : Call) (isError : Bool) (now : Nat) : State where
  now := now
  breaker := onResult cfg isError c.probe now s.breaker
  calls := s.calls.eraseP (·.id = c.id)
  reports := ⟨now, isError, c.probe⟩ :: s.reports

/-- Time does not go back, an id is not in use twice, and only a call that is out reports. -/
def step (cfg : Config) (s : State) (l : Label) : Option State :=
  if s.now ≤ l.time then
    match l with
    | .check id t => if s.find id = none then some (s.check id t) else none
    | .report id isError t => (s.find id).map fun c => s.report cfg c isError t
  else none

def start : State := ⟨0, .default, [], []⟩

def breaker (cfg : Config) : LTS State Label := ⟨(· = start), step cfg⟩

/-! ## Single operations -/

variable {cfg : Config} {st : BreakerState} {s s' : State} {l : Label} {now : Nat}

/-- What `check` does. -/
theorem check_cases (st : BreakerState) (now : Nat) :
    (st.openUntil = none ∧ check st now = (.allow false, st)) ∨
    (∃ deadline failures retry, st.openUntil = some deadline ∧
      (now < deadline ∨ deadline ≤ now ∧ ∃ since, st.probeStarted = some since ∧
        now - since < staleProbeAfter) ∧ check st now = (.block failures retry, st)) ∨
    (∃ deadline, st.openUntil = some deadline ∧ deadline ≤ now ∧
      (∀ since, st.probeStarted = some since → staleProbeAfter ≤ now - since) ∧
      check st now = (.allow true, { st with probeStarted := some now })) := by
  unfold check
  cases ho : st.openUntil with
  | none => exact Or.inl ⟨rfl, rfl⟩
  | some deadline =>
    right
    by_cases hd : now < deadline
    · exact Or.inl ⟨deadline, _, _, rfl, Or.inl hd, if_pos hd⟩
    · simp only [if_neg hd]
      cases hp : st.probeStarted with
      | none => exact Or.inr ⟨deadline, rfl, by omega, by simp, rfl⟩
      | some since =>
        by_cases hs : now - since < staleProbeAfter
        · exact Or.inl ⟨deadline, _, _, rfl, Or.inr ⟨by omega, since, rfl, hs⟩, if_pos hs⟩
        · refine Or.inr ⟨deadline, rfl, by omega, ?_, if_neg hs⟩
          intro since' h
          obtain rfl := Option.some.inj h
          omega

theorem onResult_probeStarted (cfg : Config) (isError wasProbe : Bool) (now : Nat) (st : BreakerState) :
    (onResult cfg isError wasProbe now st).probeStarted = if wasProbe then none else st.probeStarted := by
  unfold onResult
  cases wasProbe <;> cases isError <;> simp
  split <;> rfl

theorem onResult_success (cfg : Config) (wasProbe : Bool) (now : Nat) (st : BreakerState) :
    (onResult cfg false wasProbe now st).consecutive = 0 ∧
      (onResult cfg false wasProbe now st).openUntil = none := by
  unfold onResult
  cases wasProbe <;> exact ⟨rfl, rfl⟩

theorem onResult_failure (cfg : Config) (wasProbe : Bool) (now : Nat) (st : BreakerState) :
    (onResult cfg true wasProbe now st).consecutive = saturatingSucc st.consecutive ∧
      (onResult cfg true wasProbe now st).openUntil =
        if wasProbe ∨ cfg.consecutiveFailures ≤ saturatingSucc st.consecutive then
          some (reopen cfg now) else st.openUntil := by
  unfold onResult
  cases wasProbe <;> simp
  split <;> exact ⟨rfl, rfl⟩

/-! ## Runs -/

/-- A probe that no other has displaced. -/
def Call.holds (c : Call) : Bool := c.probe && !c.reclaimed

def State.holders (s : State) : List Call := s.calls.filter Call.holds

/-- The slot belongs to the one probe that holds it, and a probe is displaced only when it
has been silent for too long. -/
structure Inv (s : State) : Prop where
  slot : s.holders.map Call.checkedAt = s.breaker.probeStarted.toList
  aged : ∀ c ∈ s.calls, c.reclaimed = true → c.probe = true ∧ c.checkedAt + staleProbeAfter ≤ s.now

theorem step_check {id : Nat} (h : step cfg s (.check id now) = some s') :
    s.now ≤ now ∧ s' = s.check id now := by
  rw [step, Option.ite_none_right_eq_some] at h
  obtain ⟨ht, h⟩ := h
  rw [Option.ite_none_right_eq_some] at h
  exact ⟨ht, (Option.some.inj h.2).symm⟩

theorem step_report {id : Nat} {isError : Bool} (h : step cfg s (.report id isError now) = some s') :
    s.now ≤ now ∧ ∃ c, s.find id = some c ∧ s' = s.report cfg c isError now := by
  rw [step, Option.ite_none_right_eq_some] at h
  obtain ⟨ht, h⟩ := h
  obtain ⟨c, hc, hs⟩ := Option.map_eq_some_iff.mp h
  exact ⟨ht, c, hc, hs.symm⟩

/-- The call that reports is one of those out, and the others stay. -/
theorem find_split {id : Nat} {c : Call} (h : s.find id = some c) :
    c.id = id ∧ ∃ before after, s.calls = before ++ c :: after ∧
      s.calls.eraseP (·.id = c.id) = before ++ after := by
  unfold State.find at h
  obtain ⟨hid, before, after, hs, hb⟩ := List.find?_eq_some_iff_append.mp h
  have hid : c.id = id := of_decide_eq_true hid
  refine ⟨hid, before, after, hs, ?_⟩
  rw [hs, List.eraseP_append_right _ (by simpa [hid] using hb), List.eraseP_cons_of_pos (by simp)]

theorem displace_holds (calls : List Call) : (calls.map Call.displace).filter Call.holds = [] := by
  rw [List.filter_eq_nil_iff]
  intro c hc
  obtain ⟨c, -, rfl⟩ := List.mem_map.mp hc
  cases hp : c.probe <;> simp [Call.displace, Call.holds, hp]

/-- Without a probe in the slot, each one out was displaced. -/
theorem Inv.reclaimed_of_free (h : Inv s) (hn : s.breaker.probeStarted = none) :
    ∀ c ∈ s.calls, c.probe = true → c.reclaimed = true := by
  intro c hc hp
  have hs := h.slot
  rw [hn, Option.toList_none, List.map_eq_nil_iff] at hs
  cases hr : c.reclaimed with
  | true => rfl
  | false =>
    have hm : c ∈ s.holders := List.mem_filter.mpr ⟨hc, by simp [Call.holds, hp, hr]⟩
    rw [hs] at hm
    cases hm

/-- Who holds the slot has it since it was let through. -/
theorem Inv.holder (h : Inv s) {c : Call} (hc : c ∈ s.calls) (hp : c.holds = true) :
    s.holders = [c] ∧ s.breaker.probeStarted = some c.checkedAt := by
  have hm : c ∈ s.holders := List.mem_filter.mpr ⟨hc, hp⟩
  have hs := h.slot
  cases hb : s.breaker.probeStarted with
  | none =>
    rw [hb, Option.toList_none, List.map_eq_nil_iff] at hs
    rw [hs] at hm
    cases hm
  | some t =>
    rw [hb, Option.toList_some] at hs
    obtain ⟨d, hd, ht⟩ := List.map_eq_singleton_iff.mp hs
    rw [hd, List.mem_singleton] at hm
    rw [hm, hd, ht]
    exact ⟨rfl, rfl⟩

theorem inv_start : Inv start := ⟨rfl, by simp [start]⟩

/-- A check gives the slot to a new probe, or leaves it with who has it. -/
theorem Inv.check {id : Nat} (h : Inv s) (ht : s.now ≤ now) : Inv (s.check id now) := by
  have aged : ∀ c ∈ s.calls, c.reclaimed = true →
      c.probe = true ∧ c.checkedAt + staleProbeAfter ≤ now := by
    intro c hc hr
    obtain ⟨hp, ha⟩ := h.aged c hc hr
    exact ⟨hp, by omega⟩
  rcases check_cases s.breaker now with ⟨-, hc⟩ | ⟨_, _, _, -, -, hc⟩ | ⟨_, -, -, hstale, hc⟩
  · refine ⟨?_, ?_⟩
    · simp only [State.check, State.holders, hc, letThrough, Call.holds, List.filter_cons]
      exact h.slot
    · simp only [State.check, hc, letThrough]
      intro c hm hr
      rcases List.mem_cons.mp hm with rfl | hm
      · cases hr
      · exact aged c hm hr
  · refine ⟨?_, ?_⟩
    · simp only [State.check, State.holders, hc, letThrough]
      exact h.slot
    · simp only [State.check, hc, letThrough]
      exact aged
  · refine ⟨?_, ?_⟩
    · have hf : Call.holds ⟨id, true, now, false⟩ = true := rfl
      simp only [State.check, State.holders, hc, letThrough, List.filter_cons, hf, displace_holds]
      rfl
    · simp only [State.check, hc, letThrough]
      intro c hm hr
      rcases List.mem_cons.mp hm with rfl | hm
      · cases hr
      · -- whoever is displaced now had the slot for too long, or lost it before
        obtain ⟨d, hd, rfl⟩ := List.mem_map.mp hm
        have hp : d.probe = true := hr
        refine ⟨hp, ?_⟩
        change d.checkedAt + staleProbeAfter ≤ now
        cases hdr : d.reclaimed with
        | true => exact (aged d hd hdr).2
        | false =>
          have := hstale _ (h.holder hd (by simp [Call.holds, hp, hdr])).2
          unfold staleProbeAfter second at *
          omega

/-- A report frees the slot when it is the holder's, or finds it free. -/
theorem Inv.report {c : Call} {isError : Bool} (h : Inv s) (ht : s.now ≤ now)
    (hc : s.find c.id = some c) (hfree : c.reclaimed = true → s.breaker.probeStarted = none) :
    Inv (s.report cfg c isError now) := by
  obtain ⟨-, before, after, hs, he⟩ := find_split hc
  have hm : c ∈ s.calls := by simp [hs]
  refine ⟨?_, ?_⟩
  · have hslot := h.slot
    simp only [State.report, State.holders, he, onResult_probeStarted]
    rw [State.holders, hs, List.filter_append, List.filter_cons] at hslot
    rw [List.filter_append]
    cases hp : c.probe with
    | false =>
      have hh : c.holds = false := by simp [Call.holds, hp]
      simpa [hh] using hslot
    | true =>
      cases hr : c.reclaimed with
      | true =>
        have hh : c.holds = false := by simp [Call.holds, hr]
        simpa [hh, hfree hr] using hslot
      | false =>
        have hh : c.holds = true := by simp [Call.holds, hp, hr]
        obtain ⟨hone, -⟩ := h.holder hm hh
        rw [State.holders, hs, List.filter_append, List.filter_cons, if_pos hh] at hone
        have hl := congrArg List.length hone
        simp only [List.length_append, List.length_cons, List.length_nil] at hl
        rw [List.eq_nil_of_length_eq_zero (show (before.filter Call.holds).length = 0 by omega),
          List.eq_nil_of_length_eq_zero (show (after.filter Call.holds).length = 0 by omega)]
        rfl
  · simp only [State.report, he]
    intro d hd hr
    obtain ⟨hp, ha⟩ := h.aged d (by rw [hs]; simp at hd ⊢; tauto) hr
    exact ⟨hp, by omega⟩

end MinMcp.L4.Breaker
