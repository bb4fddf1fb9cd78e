import MinMcp.Core.LTS
import MinMcp.L4App.SearchIndex
import Mathlib.Logic.Function.Basic

/-!
# Counting uses while the catalog is replaced

A call takes the served catalog and, once it has succeeded, counts its tool in the index of
that catalog (src/surface/dispatch.rs:31, 247-250). `refresh_if_due` builds a new catalog,
copies the counts of the served one into it, and then swaps it in
(src/surface/catalog.rs:335-341). Calls and the one task of that kind overlap freely.

Catalogs are numbered in the order they are served; the number behind the served one is the
catalog that the task is about to swap in.

* `Conserved`: a tool that was in every catalog since it was first called is counted as often
  as it succeeded.
* `usage_conserved`: so it is in a run in which each success is counted in the served catalog,
  and none between the copy and the swap.
* `unsafe_loses`: any other success of such a tool is lost.
* `slow_call_is_lost`: a call that outlives the catalog it started with.
-/
namespace MinMcp.L5.UsageCounts

open MinMcp.Core MinMcp.L4.SearchIndex

/-- The ids that may be called, and the index. -/
structure Catalog where
  tools : List String
  index : Index

inductive Call where
  | idle
  /-- It holds the catalog of that number. -/
  | running (tool : String) (catalog : Nat)
  | left
  deriving DecidableEq

/-- Where the task that replaces the catalog is. -/
inductive Task where
  | none
  /-- It holds the catalog it found served. -/
  | building (current : Nat)
  /-- The counts are copied. -/
  | inherited
  deriving DecidableEq

structure State where
  catalogs : Nat → Catalog
  served : Nat
  calls : Nat → Call
  task : Task
  successes : String → Nat
  /-- The catalog that was served when the tool was first called. -/
  firstCall : String → Option Nat

inductive Label where
  | start (call : Nat) (tool : String)
  | succeed (call : Nat)
  /-- The call fails, or is dropped. -/
  | leave (call : Nat)
  | begin
  | inherit (next : Catalog)
  | swap
  /-- Nothing is accepted, or the request is dropped. -/
  | abandon

namespace State

variable (s : State)

/-- mirrors src/surface/dispatch.rs:31-45 -/
def start (call : Nat) (tool : String) : Option State :=
  match s.calls call with
  | .idle =>
    if tool ∈ (s.catalogs s.served).tools then some { s with
      calls := Function.update s.calls call (.running tool s.served)
      firstCall := Function.update s.firstCall tool (some ((s.firstCall tool).getD s.served)) }
    else none
  | _ => none

def record (n : Nat) (tool : String) : Nat → Catalog :=
  Function.update s.catalogs n { s.catalogs n with index := (s.catalogs n).index.recordUse tool }

/-- mirrors src/surface/dispatch.rs:245-250 -/
def succeed (call : Nat) : Option State :=
  match s.calls call with
  | .running tool n => some { s with
      calls := Function.update s.calls call .left
      catalogs := s.record n tool
      successes := Function.update s.successes tool (s.successes tool + 1) }
  | _ => none

def leave (call : Nat) : Option State :=
  match s.calls call with
  | .running _ _ => some { s with calls := Function.update s.calls call .left }
  | _ => none

/-- mirrors src/surface/catalog.rs:281-289 -/
def begin : Option State :=
  match s.task with
  | .none => some { s with task := .building s.served }
  | _ => none

/-- mirrors src/surface/catalog.rs:335-338 -/
def inherit (next : Catalog) : Option State :=
  match s.task with
  | .building current => some { s with
      task := .inherited
      catalogs := Function.update s.catalogs (s.served + 1)
        { next with index := next.index.inheritUsage (s.catalogs current).index } }
  | _ => none

/-- mirrors src/surface/catalog.rs:340 -/
def swap : Option State :=
  match s.task with
  | .inherited => some { s with task := .none, served := s.served + 1 }
  | _ => none

def abandon : Option State :=
  match s.task with
  | .building _ => some { s with task := .none }
  | _ => none

def step : Label → Option State
  | .start call tool => s.start call tool
  | .succeed call => s.succeed call
  | .leave call => s.leave call
  | .begin => s.begin
  | .inherit next => s.inherit next
  | .swap => s.swap
  | .abandon => s.abandon

/-- A process starts with a catalog whose index has counted nothing. -/
def initial (cat : Catalog) : State :=
  ⟨fun _ => { cat with index := { cat.index with usage := [] } }, 0, fun _ => .idle, .none, fun _ => 0,
    fun _ => none⟩

/-- How often the served index ranks a tool as used. -/
def ranked (tool : String) : Nat := (s.catalogs s.served).index.uses tool

end State

def system : LTS State Label := ⟨fun s => ∃ cat, s = .initial cat, State.step⟩

/-- The tool is in every catalog from that of its first call up to the `n`-th. -/
def Lasting (s : State) (n : Nat) (tool : String) : Prop :=
  match s.firstCall tool with
  | none => True
  | some i => ∀ j ≤ n, i ≤ j → tool ∈ (s.catalogs j).tools

instance (s : State) (n : Nat) (tool : String) : Decidable (Lasting s n tool) := by
  unfold Lasting
  split <;> infer_instance

def Conserved (s : State) : Prop :=
  ∀ tool ∈ (s.catalogs s.served).tools, Lasting s s.served tool → s.ranked tool = s.successes tool

/-- A success of a lasting tool is counted in the served catalog, and not behind the copy for
a catalog that has the tool, too. -/
def safe (s : State) : Label → Bool
  | .succeed call =>
    match s.calls call with
    | .running tool n =>
      !decide (Lasting s s.served tool) ||
        n == s.served && !(s.task == .inherited && decide (Lasting s (s.served + 1) tool))
    | _ => true
  | _ => true

/-! ## The invariant -/

structure Inv (s : State) : Prop where
  served : ∀ tool, Lasting s s.served tool → s.ranked tool = s.successes tool
  /-- The counts behind the copy, for the tools that the next catalog keeps. -/
  next : s.task = .inherited → ∀ tool, Lasting s (s.served + 1) tool →
    (s.catalogs (s.served + 1)).index.uses tool = s.successes tool
  first : ∀ tool i, s.firstCall tool = some i → i ≤ s.served
  running : ∀ c tool n, s.calls c = .running tool n → n ≤ s.served ∧ s.firstCall tool ≠ none
  current : ∀ n, s.task = .building n → n = s.served

theorem Lasting.of_le {s : State} {m n : Nat} (hmn : m ≤ n) {tool : String} (h : Lasting s n tool) :
    Lasting s m tool := by
  unfold Lasting at *
  split
  · trivial
  · next i hi =>
    rw [hi] at h
    exact fun j hj => h j (by omega)

theorem lasting_iff {s : State} {n i : Nat} {tool : String} (h : s.firstCall tool = some i) :
    Lasting s n tool ↔ ∀ j ≤ n, i ≤ j → tool ∈ (s.catalogs j).tools := by
  simp [Lasting, h]

theorem lasting_of_none {s : State} {n : Nat} {tool : String} (h : s.firstCall tool = none) :
    Lasting s n tool := by
  simp [Lasting, h]

/-- The same first calls, and the same tools up to the `n`-th catalog. -/
theorem lasting_congr {s s' : State} {n : Nat} {tool : String} (hf : s'.firstCall tool = s.firstCall tool)
    (hc : ∀ j ≤ n, (s'.catalogs j).tools = (s.catalogs j).tools) :
    Lasting s' n tool ↔ Lasting s n tool := by
  cases h : s.firstCall tool with
  | none => exact iff_of_true (lasting_of_none (hf.trans h)) (lasting_of_none h)
  | some i =>
    rw [lasting_iff (hf.trans h), lasting_iff h]
    exact forall_congr' fun j => forall_congr' fun hj => by rw [hc j hj]

@[simp] theorem record_tools (s : State) (n j : Nat) (tool : String) :
    (s.record n tool j).tools = (s.catalogs j).tools := by
  unfold State.record
  by_cases h : j = n
  · rw [h, Function.update_self]
  · rw [Function.update_of_ne h]

theorem record_uses (s : State) (n j : Nat) (tool t : String) :
    (s.record n tool j).index.uses t =
      if j = n ∧ t = tool then (s.catalogs j).index.uses t + 1 else (s.catalogs j).index.uses t := by
  unfold State.record
  by_cases h : j = n
  · subst h
    rw [Function.update_self, uses_recordUse]
    by_cases ht : t = tool <;> simp [ht]
  · rw [Function.update_of_ne h]
    simp [h]

theorem running_update {s : State} (h : Inv s) {call : Nat} {c : Call}
    (hc : ∀ tool n, c = .running tool n → n ≤ s.served ∧ s.firstCall tool ≠ none) :
    ∀ c' tool n, Function.update s.calls call c c' = .running tool n →
      n ≤ s.served ∧ s.firstCall tool ≠ none := by
  intro c' tool n he
  by_cases hcc : c' = call
  · rw [hcc, Function.update_self] at he
    exact hc tool n he
  · rw [Function.update_of_ne hcc] at he
    exact h.running c' tool n he

theorem inv_start {s s' : State} {call : Nat} {tool : String} (h : Inv s)
    (hs : s.start call tool = some s') : Inv s' := by
  unfold State.start at hs
  split at hs
  · split at hs
    · obtain rfl := Option.some.inj hs
      -- a tool that lasts now has lasted before
      have hold : ∀ n t, Lasting { s with
          calls := Function.update s.calls call (.running tool s.served)
          firstCall := Function.update s.firstCall tool (some ((s.firstCall tool).getD s.served)) } n t →
            Lasting s n t := by
        intro n t hl
        cases hf : s.firstCall t with
        | none => exact lasting_of_none hf
        | some i =>
          rw [lasting_iff (i := i)] at hl
          · exact (lasting_iff hf).mpr hl
          · by_cases ht : t = tool
            · subst ht
              simp [hf]
            · simpa [Function.update_of_ne ht] using hf
      refine ⟨fun t hl => h.served t (hold _ t hl), fun ht t hl => h.next ht t (hold _ t hl), ?_, ?_,
        h.current⟩
      · intro t i hi
        by_cases ht : t = tool
        · subst ht
          simp only [Function.update_self, Option.some.injEq] at hi
          show i ≤ s.served
          cases hf : s.firstCall t with
          | none =>
            simp only [hf, Option.getD_none] at hi
            omega
          | some j =>
            simp only [hf, Option.getD_some] at hi
            exact hi ▸ h.first t j hf
        · simp only [Function.update_of_ne ht] at hi
          exact h.first t i hi
      · intro c t n hc
        by_cases hcc : c = call
        · subst hcc
          simp only [Function.update_self, Call.running.injEq] at hc
          obtain ⟨rfl, rfl⟩ := hc
          exact ⟨Nat.le_refl _, by simp⟩
        · simp only [Function.update_of_ne hcc] at hc
          refine ⟨(h.running c t n hc).1, ?_⟩
          by_cases ht : t = tool
          · simp [ht]
          · simpa [Function.update_of_ne ht] using (h.running c t n hc).2
    · cases hs
  · cases hs

theorem inv_succeed {s s' : State} {call : Nat} (h : Inv s) (hg : safe s (.succeed call) = true)
    (hs : s.succeed call = some s') : Inv s' := by
  unfold State.succeed at hs
  split at hs
  · next tool n hc =>
    obtain rfl := Option.some.inj hs
    have hl : ∀ m t, Lasting { s with
        calls := Function.update s.calls call .left
        catalogs := s.record n tool
        successes := Function.update s.successes tool (s.successes tool + 1) } m t ↔ Lasting s m t :=
      fun m t => lasting_congr rfl fun j _ => record_tools s n j tool
    simp only [safe, hc, Bool.or_eq_true, Bool.not_eq_true', decide_eq_false_iff_not, Bool.and_eq_true,
      beq_iff_eq, Bool.and_eq_false_iff, beq_eq_false_iff_ne] at hg
    refine ⟨?_, ?_, h.first, running_update h (fun _ _ he => by cases he), h.current⟩
    · intro t ht
      rw [hl] at ht
      have := h.served t ht
      simp only [State.ranked, record_uses] at this ⊢
      by_cases htt : t = tool
      · subst htt
        obtain ⟨rfl, -⟩ := hg.resolve_left fun hn => hn ht
        simp [this]
      · simp [htt, this]
    · intro hi t ht
      rw [hl] at ht
      have := h.next hi t ht
      have hne : t ≠ tool := by
        rintro rfl
        obtain ⟨-, hn⟩ := hg.resolve_left fun hn => hn (ht.of_le (Nat.le_succ _))
        exact hn.elim (fun hn => hn hi) (fun hn => hn ht)
      simp [record_uses, hne, this]
  · cases hs

theorem inv_inherit {s s' : State} {next : Catalog} (h : Inv s) (hs : s.inherit next = some s') : Inv s' := by
  unfold State.inherit at hs
  split at hs
  · next current hc =>
    obtain rfl := Option.some.inj hs
    obtain rfl := h.current current hc
    have hl : ∀ t, Lasting { s with
        task := .inherited
        catalogs := Function.update s.catalogs (s.served + 1)
          { next with index := next.index.inheritUsage (s.catalogs s.served).index } } s.served t ↔
            Lasting s s.served t := by
      intro t
      refine lasting_congr rfl fun j hj => ?_
      have : j ≠ s.served + 1 := by omega
      simp [Function.update_of_ne this]
    have hranked : ∀ t, Lasting s s.served t → (s.catalogs s.served).index.uses t = s.successes t := h.served
    refine ⟨?_, ?_, h.first, h.running, fun n hn => by cases hn⟩
    · intro t ht
      rw [hl] at ht
      have : s.served ≠ s.served + 1 := by omega
      simp only [State.ranked, Function.update_of_ne this]
      exact hranked t ht
    · intro _ t ht
      have ht := (hl t).mp (ht.of_le (Nat.le_succ _))
      simp only [Function.update_self, uses_inheritUsage]
      exact hranked t ht
  · cases hs

theorem inv_swap {s s' : State} (h : Inv s) (hs : s.swap = some s') : Inv s' := by
  unfold State.swap at hs
  split at hs
  · next ht =>
    obtain rfl := Option.some.inj hs
    refine ⟨h.next ht, fun hn => (by cases hn), ?_, ?_, fun n hn => by cases hn⟩
    · exact fun t i hi => Nat.le_succ_of_le (h.first t i hi)
    · exact fun c t n hc => (h.running c t n hc).imp_left Nat.le_succ_of_le
  · cases hs

theorem inv_step {s s' : State} {l : Label} (h : Inv s) (hg : safe s l = true) (hs : s.step l = some s') :
    Inv s' := by
  cases l with
  | start call tool => exact inv_start h hs
  | succeed call => exact inv_succeed h hg hs
  | leave call =>
    simp only [State.step, State.leave] at hs
    split at hs
    · obtain rfl := Option.some.inj hs
      exact ⟨h.served, h.next, h.first, running_update h (fun _ _ he => by cases he), h.current⟩
    · cases hs
  | begin =>
    simp only [State.step, State.begin] at hs
    split at hs
    · obtain rfl := Option.some.inj hs
      exact ⟨h.served, fun hn => (by cases hn), h.first, h.running, fun n hn => by cases hn; rfl⟩
    · cases hs
  | inherit next => exact inv_inherit h hs
  | swap => exact inv_swap h hs
  | abandon =>
    simp only [State.step, State.abandon] at hs
    split at hs
    · obtain rfl := Option.some.inj hs
      exact ⟨h.served, fun hn => (by cases hn), h.first, h.running, fun n hn => by cases hn⟩
    · cases hs

theorem invariant : system.Invariant (fun s l => safe s l = true) Inv where
  init := by
    intro s ⟨cat, hs⟩
    subst hs
    exact ⟨fun _ _ => rfl, fun hn => (by cases hn), fun _ _ hi => (by cases hi),
      fun _ _ _ hc => (by cases hc),
      fun _ hn => by cases hn⟩
  step _ _ _ h hg hs := inv_step h hg hs

theorem Inv.conserved {s : State} (h : Inv s) : Conserved s := fun tool _ hl => h.served tool hl

/-- **Conservation.** In every run in which each success of a lasting tool is counted in the
served catalog, and none behind the copy, the served index ranks by the number of successes. -/
theorem usage_conserved {s₀ s : State} {ls : List Label} (h₀ : system.init s₀)
    (hg : system.Guarded (fun s l => safe s l = true) s₀ ls) (he : system.exec s₀ ls = some s) :
    Conserved s :=
  (invariant.exec h₀ hg he).conserved

/-- The condition on a step is needed: behind any other success the count is lost, at once or
with the swap that follows. -/
theorem unsafe_loses {s s' : State} {l : Label} (h : Inv s) (hl : safe s l = false)
    (hs : s.step l = some s') :
    ¬ Conserved s' ∨ ∃ s'', s'.swap = some s'' ∧ ¬ Conserved s'' := by
  cases l with
  | start | leave | begin | inherit | swap | abandon => simp [safe] at hl
  | succeed call =>
    simp only [State.step, State.succeed] at hs
    split at hs
    · next tool n hc =>
      obtain rfl := Option.some.inj hs
      obtain ⟨hn, hf⟩ := h.running call tool n hc
      obtain ⟨i, hi⟩ := Option.ne_none_iff_exists'.mp hf
      have hle := h.first tool i hi
      have hlast : ∀ m, Lasting { s with
          calls := Function.update s.calls call .left
          catalogs := s.record n tool
          successes := Function.update s.successes tool (s.successes tool + 1) } m tool ↔ Lasting s m tool :=
        fun m => lasting_congr rfl fun j _ => record_tools s n j tool
      simp only [safe, hc, Bool.or_eq_false_iff, Bool.not_eq_false', decide_eq_true_eq, Bool.and_eq_false_iff,
        beq_eq_false_iff_ne, Bool.and_eq_true, beq_iff_eq] at hl
      obtain ⟨ht, hne | ⟨hi', ht'⟩⟩ := hl
      · -- counted in a catalog that is served no more
        left
        intro hcons
        have hmem : tool ∈ (s.catalogs s.served).tools := (lasting_iff hi).mp ht s.served (Nat.le_refl _) hle
        have := hcons tool (by simpa using hmem) ((hlast _).mpr ht)
        have hold := h.served tool ht
        simp only [State.ranked] at this hold
        simp [record_uses, Ne.symm hne, hold] at this
      · -- counted behind the copy
        right
        refine ⟨_, by simp only [State.swap, hi']; rfl, fun hcons => ?_⟩
        have hmem : tool ∈ (s.catalogs (s.served + 1)).tools :=
          (lasting_iff hi).mp ht' (s.served + 1) (Nat.le_refl _) (by omega)
        have := hcons tool (by simpa using hmem) ((hlast _).mpr ht')
        have hold := h.next hi' tool ht'
        have hns : s.served + 1 ≠ n := by omega
        simp only [State.ranked] at this
        simp [record_uses, hns, hold] at this
    · cases hs

/-! ## A call that outlives its catalog -/

def crmCatalog (description : String) : Catalog :=
  ⟨["crm.get"], build ascii [⟨"crm.get", description, ""⟩]⟩

/-- Two calls, a re-index, and a third call. -/
def quickCalls : List Label :=
  [.start 0 "crm.get", .start 1 "crm.get", .succeed 0, .succeed 1,
   .begin, .inherit (crmCatalog "Read a contact"), .swap, .start 2 "crm.get", .succeed 2]

theorem quick_calls_are_counted :
    ∃ s, system.exec (.initial (crmCatalog "Get a contact")) quickCalls = some s ∧
    s.successes "crm.get" = 3 ∧ Conserved s := by
  have hr : (system.exec (.initial (crmCatalog "Get a contact")) quickCalls).any
      (fun s => s.successes "crm.get" = 3) = true := by decide +kernel
  rw [Option.any_eq_true] at hr
  obtain ⟨s, he, hn⟩ := hr
  exact ⟨s, he, of_decide_eq_true hn, usage_conserved ⟨_, rfl⟩ (by decide +kernel) he⟩

/-- The call is under way while the catalog is replaced. -/
def slowCall : List Label :=
  [.start 0 "crm.get", .begin, .inherit (crmCatalog "Read a contact"), .swap, .succeed 0]

theorem slow_call_is_lost : ∃ s, system.init (.initial (crmCatalog "Get a contact")) ∧
    system.exec (.initial (crmCatalog "Get a contact")) slowCall = some s ∧ ¬ Conserved s := by
  have hr : (system.exec (.initial (crmCatalog "Get a contact")) slowCall).any
      (fun s => decide ("crm.get" ∈ (s.catalogs s.served).tools ∧ Lasting s s.served "crm.get" ∧
        s.ranked "crm.get" = 0 ∧ s.successes "crm.get" = 1)) = true := by decide +kernel
  rw [Option.any_eq_true] at hr
  obtain ⟨s, he, hn⟩ := hr
  obtain ⟨hm, hl, hr, hn⟩ := of_decide_eq_true hn
  refine ⟨s, ⟨_, rfl⟩, he, fun hc => ?_⟩
  have := hc "crm.get" hm hl
  omega

end MinMcp.L5.UsageCounts
