import MinMcp.L4App.Breaker

/-!
# Concurrent calls behind a breaker

Calls of one tool interleave freely and report late (src/surface/breaker.rs:43-90).

* `OneProbe`: at most one probe younger than three minutes is out, and a probe that lost its
  slot reports like an ordinary call.
* `one_probe_iff`: a run is such exactly when each displaced probe that reports finds the slot
  free and, if it failed, the count at the threshold.
* `late_report_frees_the_slot`: one that finds its successor there.
* `check_as_specified`: while each probe reports in time, `check` answers as the reports since
  the last success tell (`specified`).
-/
namespace MinMcp.L4.Breaker

open MinMcp.Core

variable {cfg : Config} {s s' : State} {l : Label} {now : Nat} {ls : List Label}

/-! ## One live probe -/

def Call.live (now : Nat) (c : Call) : Bool := c.probe && decide (now < c.checkedAt + staleProbeAfter)

/-- From now on at most one probe let through in the last 180 s is out. -/
def OneLive (s : State) : Prop := ∀ now, s.now ≤ now → (s.calls.filter (Call.live now)).length ≤ 1

/-- A probe that lost its slot reports as a call that never was a probe. -/
def AsOrdinary (cfg : Config) (s : State) : Label → Prop
  | .check _ _ => True
  | .report id isError t => ∀ c, s.find id = some c → c.reclaimed = true →
      onResult cfg isError c.probe t s.breaker = onResult cfg isError false t s.breaker

/-- It holds in every state of the run, and of every report. -/
def OneProbe (cfg : Config) (ls : List Label) : Prop :=
  (breaker cfg).Guarded (fun s l => OneLive s ∧ AsOrdinary cfg s l) start ls ∧
    ∀ s, (breaker cfg).exec start ls = some s → OneLive s

/-- A probe that lost its slot finds the slot free, and as a failure the count at the
threshold (or the deadline where it would put it). -/
def Harmless (cfg : Config) (s : State) : Label → Prop
  | .check _ _ => True
  | .report id isError t => ∀ c, s.find id = some c → c.reclaimed = true →
      s.breaker.probeStarted = none ∧ (isError = true →
        cfg.consecutiveFailures ≤ saturatingSucc s.breaker.consecutive ∨
          s.breaker.openUntil = some (reopen cfg t))

/-- Who is live holds the slot. -/
theorem Inv.oneLive (h : Inv s) : OneLive s := by
  intro now hn
  have hl : s.calls.countP (Call.live now) ≤ s.calls.countP Call.holds := by
    apply List.countP_mono_left
    intro c hc hlive
    rw [Call.live, Bool.and_eq_true, decide_eq_true_eq] at hlive
    cases hr : c.reclaimed with
    | false => simp [Call.holds, hlive.1, hr]
    | true =>
      have := (h.aged c hc hr).2
      omega
  have hs := congrArg List.length h.slot
  rw [List.length_map, State.holders, ← List.countP_eq_length_filter] at hs
  have hone : s.breaker.probeStarted.toList.length ≤ 1 := by cases s.breaker.probeStarted <;> simp
  rw [← List.countP_eq_length_filter]
  omega

/-- A probe's report differs from an ordinary one unless it is harmless. -/
theorem onResult_asOrdinary (cfg : Config) (isError : Bool) (t : Nat) (st : BreakerState) :
    onResult cfg isError true t st = onResult cfg isError false t st ↔
      st.probeStarted = none ∧ (isError = true →
        cfg.consecutiveFailures ≤ saturatingSucc st.consecutive ∨ st.openUntil = some (reopen cfg t)) := by
  have hext : ∀ a b : BreakerState, a = b ↔ a.consecutive = b.consecutive ∧
      a.openUntil = b.openUntil ∧ a.probeStarted = b.probeStarted := by
    intro a b
    cases a
    cases b
    simp
  rw [hext, onResult_probeStarted, onResult_probeStarted]
  cases isError with
  | false => simp [onResult_success, eq_comm]
  | true =>
    simp only [onResult_failure, true_and, if_true, Bool.false_eq_true, false_or, true_or, if_false,
      forall_const]
    by_cases hc : cfg.consecutiveFailures ≤ saturatingSucc st.consecutive
    · simp [hc, eq_comm]
    · simp [hc, eq_comm, and_comm]

theorem asOrdinary_iff (h : Inv s) (l : Label) : AsOrdinary cfg s l ↔ Harmless cfg s l := by
  cases l with
  | check id t => rfl
  | report id isError t =>
    unfold AsOrdinary Harmless
    apply forall_congr'
    intro c
    apply forall_congr'
    intro hf
    apply forall_congr'
    intro hr
    obtain ⟨-, before, after, hs, -⟩ := find_split hf
    rw [(h.aged c (by simp [hs]) hr).1]
    exact onResult_asOrdinary cfg isError t s.breaker

/-- **Step.** The slot stays with its holder when a displaced probe reports harmlessly. -/
theorem step_inv : (breaker cfg).Preserves (Harmless cfg) Inv := by
  intro s l s' h hl hs
  cases l with
  | check id t =>
    have hs : step cfg s (.check id t) = some s' := hs
    obtain ⟨ht, rfl⟩ := step_check hs
    exact h.check ht
  | report id isError t =>
    obtain ⟨ht, c, hc, rfl⟩ := step_report hs
    obtain ⟨rfl, -⟩ := find_split hc
    exact h.report ht hc fun hr => (hl c hc hr).1

/-- **Run.** One probe at a time is live and displaced ones report as ordinary calls, exactly
in the runs in which each of these reports is harmless. -/
theorem one_probe_iff (cfg : Config) (ls : List Label) :
    OneProbe cfg ls ↔ (breaker cfg).Guarded (Harmless cfg) start ls := by
  constructor
  · rintro ⟨hg, -⟩
    apply hg.imp (P := Inv) _ inv_start
    · intro s l h hl
      exact (asOrdinary_iff h l).mp hl.2
    · intro s l s' h hl hs
      exact step_inv s l s' h ((asOrdinary_iff h l).mp hl.2) hs
  · intro hg
    refine ⟨hg.imp step_inv inv_start ?_, ?_⟩
    · intro s l h hl
      exact ⟨h.oneLive, (asOrdinary_iff h l).mpr hl⟩
    · intro s he
      exact (step_inv.exec inv_start hg he).oneLive

/-! ## A late report -/

/-- Three failures pause a tool for ten seconds. -/
def exampleConfig : Config := ⟨3, 10⟩

/-- Three calls fail. The probe let through at 10 s is silent until 191 s, when its successor
of 190 s is out. -/
def lateRun : List Label :=
  [.check 1 0, .check 2 0, .check 3 0, .report 1 true 0, .report 2 true 0, .report 3 true 0,
    .check 4 (10 * second), .check 5 (190 * second), .report 4 true (191 * second),
    .check 6 (201 * second)]

/-- Its failure opens the breaker again and frees the slot, so a third probe joins the
second. -/
theorem late_report_frees_the_slot : ¬ OneProbe exampleConfig lateRun := by
  intro h
  obtain ⟨s, hs⟩ : ∃ s, (breaker exampleConfig).exec start lateRun = some s :=
    Option.isSome_iff_exists.mp (by decide +kernel)
  have hlen : ∀ s, (breaker exampleConfig).exec start lateRun = some s →
      2 ≤ (s.calls.filter (Call.live s.now)).length := by decide +kernel
  have := h.2 s hs s.now (Nat.le_refl _)
  have := hlen s hs
  omega

/-! ## The history of reports -/

/-- Failures since the last success. -/
def failuresSince (reports : List Report) : Nat := (reports.takeWhile Report.isError).length

/-- When the opening failures since the last success were reported, the last one first. -/
def openings (cfg : Config) : List Report → List Nat
  | [] => []
  | r :: older =>
    if r.isError then
      if r.wasProbe ∨ max 1 cfg.consecutiveFailures.toNat ≤ failuresSince (r :: older) then
        r.time :: openings cfg older
      else openings cfg older
    else []

inductive Verdict where
  | block
  | allow (probe : Bool)
  deriving DecidableEq

def Decision.verdict : Decision → Verdict
  | .allow probe => .allow probe
  | .block _ _ => .block

/-- The verdict on a call, from what was reported and who is out. -/
def specified (cfg : Config) (calls : List Call) (reports : List Report) (now : Nat) : Verdict :=
  let opened := openings cfg reports
  if ∃ e ∈ opened, now < e + cooldown cfg then .block
  else if opened ≠ [] ∧ ∃ c ∈ calls, c.probe = true then .block
  else .allow (opened ≠ [])

def Label.isFailure : Label → Bool
  | .report _ isError _ => isError
  | .check _ _ => false

/-- Each probe reports before three minutes are over, and no deadline overflows. -/
structure Timely (cfg : Config) (s : State) (l : Label) : Prop where
  probes : ∀ c ∈ s.calls, c.probe = true → l.time < c.checkedAt + staleProbeAfter
  deadline : l.isFailure = true → l.time + cooldown cfg < instantEnd

instance (cfg : Config) (s : State) (l : Label) : Decidable (Timely cfg s l) :=
  decidable_of_iff ((∀ c ∈ s.calls, c.probe = true → l.time < c.checkedAt + staleProbeAfter) ∧
      (l.isFailure = true → l.time + cooldown cfg < instantEnd))
    ⟨fun h => ⟨h.1, h.2⟩, fun h => ⟨h.probes, h.deadline⟩⟩

/-- The breaker is what its history says. -/
structure Tracks (cfg : Config) (s : State) : Prop where
  inv : Inv s
  kept : ∀ c ∈ s.calls, c.reclaimed = false
  count : s.breaker.consecutive.toNat = min (failuresSince s.reports) (2 ^ 32 - 1)
  deadline : s.breaker.openUntil = (openings cfg s.reports).head?.map (· + cooldown cfg)
  ordered : (openings cfg s.reports).Pairwise (· ≥ ·)
  past : ∀ e ∈ openings cfg s.reports, e ≤ s.now

theorem saturatingSucc_toNat (n : UInt32) :
    (saturatingSucc n).toNat = min (n.toNat + 1) (2 ^ 32 - 1) := by
  have hlt := n.toNat_lt
  unfold saturatingSucc
  split
  · rename_i h
    rw [h]
    rfl
  · rename_i h
    have hne : n.toNat ≠ 2 ^ 32 - 1 := fun he => h (UInt32.toNat_inj.mp he)
    rw [UInt32.toNat_add]
    simp only [UInt32.toNat_one]
    omega

/-- Whether a failure reaches the threshold is not changed by saturation. -/
theorem threshold_iff (h : s.breaker.consecutive.toNat = min (failuresSince s.reports) (2 ^ 32 - 1))
    (r : Report) (hr : r.isError = true) :
    cfg.consecutiveFailures ≤ saturatingSucc s.breaker.consecutive ↔
      max 1 cfg.consecutiveFailures.toNat ≤ failuresSince (r :: s.reports) := by
  have hlt := cfg.consecutiveFailures.toNat_lt
  have hf : failuresSince (r :: s.reports) = failuresSince s.reports + 1 := by
    simp [failuresSince, hr]
  rw [UInt32.le_iff_toNat_le, saturatingSucc_toNat, h, hf]
  omega

theorem Tracks.probe_iff (h : Tracks cfg s) :
    s.breaker.probeStarted ≠ none ↔ ∃ c ∈ s.calls, c.probe = true := by
  constructor
  · intro hp
    have hs := h.inv.slot
    cases hb : s.breaker.probeStarted with
    | none => exact absurd hb hp
    | some t =>
      rw [hb, Option.toList_some] at hs
      obtain ⟨c, hc, -⟩ := List.map_eq_singleton_iff.mp hs
      have hm : c ∈ s.holders := by simp [hc]
      obtain ⟨hm, hh⟩ := List.mem_filter.mp hm
      rw [Call.holds, Bool.and_eq_true] at hh
      exact ⟨c, hm, hh.1⟩
  · rintro ⟨c, hc, hp⟩ hn
    have := h.inv.reclaimed_of_free hn c hc hp
    rw [h.kept c hc] at this
    cases this

/-- While probes are in time, the slot is not taken from one. -/
theorem Tracks.fresh (h : Tracks cfg s)
    (hp : ∀ c ∈ s.calls, c.probe = true → now < c.checkedAt + staleProbeAfter) {since : Nat}
    (hs : s.breaker.probeStarted = some since) : now - since < staleProbeAfter := by
  have hslot := h.inv.slot
  rw [hs, Option.toList_some] at hslot
  obtain ⟨c, hc, rfl⟩ := List.map_eq_singleton_iff.mp hslot
  have hm : c ∈ s.holders := by simp [hc]
  obtain ⟨hm, hh⟩ := List.mem_filter.mp hm
  rw [Call.holds, Bool.and_eq_true] at hh
  have := hp c hm hh.1
  have : 0 < staleProbeAfter := by decide
  omega

/-- The last opening failure has the last deadline. -/
theorem Tracks.blocked_iff (h : Tracks cfg s) :
    (∃ e ∈ openings cfg s.reports, now < e + cooldown cfg) ↔
      ∃ deadline, s.breaker.openUntil = some deadline ∧ now < deadline := by
  have ho := h.ordered
  rw [h.deadline]
  generalize openings cfg s.reports = opened at ho ⊢
  cases opened with
  | nil => simp
  | cons e es =>
    rw [List.pairwise_cons] at ho
    simp only [List.head?_cons, Option.map_some, Option.some.injEq, exists_eq_left']
    constructor
    · intro ⟨e', he, hlt⟩
      rcases List.mem_cons.mp he with rfl | he
      · exact hlt
      · have := ho.1 e' he
        omega
    · intro hlt
      exact ⟨e, List.mem_cons_self, hlt⟩

theorem Tracks.closed_iff (h : Tracks cfg s) :
    openings cfg s.reports = [] ↔ s.breaker.openUntil = none := by
  rw [h.deadline, Option.map_eq_none_iff, List.head?_eq_none_iff]

/-- **Check.** The breaker answers as its history says. -/
theorem Tracks.verdict (h : Tracks cfg s)
    (hp : ∀ c ∈ s.calls, c.probe = true → now < c.checkedAt + staleProbeAfter) :
    (check s.breaker now).1.verdict = specified cfg s.calls s.reports now := by
  unfold specified
  simp only [h.blocked_iff, ← h.probe_iff, h.closed_iff, ne_eq]
  rcases check_cases s.breaker now with ⟨ho, hc⟩ | ⟨d, _, _, ho, hd, hc⟩ | ⟨d, ho, hd, hs, hc⟩
  · simp [ho, hc, Decision.verdict]
  · rcases hd with hd | ⟨hd, since, hs, -⟩
    · simp [ho, hc, hd, Decision.verdict]
    · simp [ho, hc, hs, Decision.verdict]
  · have hn : s.breaker.probeStarted = none := by
      cases hb : s.breaker.probeStarted with
      | none => rfl
      | some since =>
        have := hs since hb
        have := h.fresh hp hb
        omega
    have hd : ¬ now < d := by omega
    simp [ho, hc, hn, hd, Decision.verdict]

theorem tracks_start (cfg : Config) : Tracks cfg start where
  inv := inv_start
  kept := by simp [start]
  count := rfl
  deadline := rfl
  ordered := .nil
  past := by simp [start, openings]

theorem Tracks.check {id : Nat} (h : Tracks cfg s) (ht : s.now ≤ now)
    (hp : ∀ c ∈ s.calls, c.probe = true → now < c.checkedAt + staleProbeAfter) :
    Tracks cfg (s.check id now) := by
  have past : ∀ e ∈ openings cfg s.reports, e ≤ now := by
    intro e he
    have := h.past e he
    omega
  refine ⟨h.inv.check ht, ?_, ?_, ?_, h.ordered, past⟩
  · rcases check_cases s.breaker now with ⟨-, hc⟩ | ⟨_, _, _, -, -, hc⟩ | ⟨_, -, -, hs, hc⟩
    · simpa [State.check, hc, letThrough] using h.kept
    · simpa [State.check, hc, letThrough] using h.kept
    · have hn : s.breaker.probeStarted = none := by
        cases hb : s.breaker.probeStarted with
        | none => rfl
        | some since =>
          have := hs since hb
          have := h.fresh hp hb
          omega
      -- no probe is out, so none is displaced
      have hnp : ∀ c ∈ s.calls, c.probe = false := by
        intro c hc
        by_contra hne
        exact h.probe_iff.mpr ⟨c, hc, by simpa using hne⟩ hn
      simpa [State.check, hc, letThrough, Call.displace] using hnp
  · rcases check_cases s.breaker now with ⟨-, hc⟩ | ⟨_, _, _, -, -, hc⟩ | ⟨_, -, -, -, hc⟩ <;>
      simpa [State.check, hc] using h.count
  · rcases check_cases s.breaker now with ⟨-, hc⟩ | ⟨_, _, _, -, -, hc⟩ | ⟨_, -, -, -, hc⟩ <;>
      simpa [State.check, hc] using h.deadline

theorem reopen_of_fits (h : now + cooldown cfg < instantEnd) : reopen cfg now = now + cooldown cfg := by
  rw [reopen, checkedAdd, if_pos h, Option.getD_some]

theorem Tracks.report {c : Call} {isError : Bool} (h : Tracks cfg s) (ht : s.now ≤ now)
    (hc : s.find c.id = some c) (hd : isError = true → now + cooldown cfg < instantEnd) :
    Tracks cfg (s.report cfg c isError now) := by
  obtain ⟨-, before, after, hs, he⟩ := find_split hc
  have hkept : c.reclaimed = false := h.kept c (by simp [hs])
  have past : ∀ e ∈ openings cfg s.reports, e ≤ now := by
    intro e he
    have := h.past e he
    omega
  have hinv : Inv (s.report cfg c isError now) := h.inv.report ht hc (by simp [hkept])
  have kept : ∀ d ∈ (s.report cfg c isError now).calls, d.reclaimed = false := by
    intro d hm
    exact h.kept d (List.mem_of_mem_eraseP hm)
  cases isError with
  | false =>
    obtain ⟨hcount, hopen⟩ := onResult_success cfg c.probe now s.breaker
    refine ⟨hinv, kept, ?_, ?_, ?_, ?_⟩
    · simp only [State.report, hcount]
      rfl
    · simp only [State.report, hopen]
      rfl
    · exact .nil
    · simp [State.report, openings]
  | true =>
    obtain ⟨hcount, hopen⟩ := onResult_failure cfg c.probe now s.breaker
    have hcons : openings cfg (s.report cfg c true now).reports =
        if c.probe = true ∨ cfg.consecutiveFailures ≤ saturatingSucc s.breaker.consecutive then
          now :: openings cfg s.reports
        else openings cfg s.reports := by
      simp only [threshold_iff h.count ⟨now, true, c.probe⟩ rfl]
      exact if_pos rfl
    refine ⟨hinv, kept, ?_, ?_, ?_, ?_⟩
    · have hf : failuresSince (s.report cfg c true now).reports = failuresSince s.reports + 1 := by
        simp [failuresSince, State.report]
      rw [hf]
      simp only [State.report, hcount, saturatingSucc_toNat, h.count]
      omega
    · rw [hcons]
      simp only [State.report, hopen]
      split
      · rw [reopen_of_fits (hd rfl)]
        rfl
      · exact h.deadline
    · rw [hcons]
      split
      · exact List.pairwise_cons.mpr ⟨past, h.ordered⟩
      · exact h.ordered
    · rw [hcons]
      intro e he
      split at he
      · rcases List.mem_cons.mp he with rfl | he
        · exact Nat.le_refl _
        · exact past e he
      · exact past e he

/-- **Step.** In time, the breaker stays what its history says. -/
theorem step_tracks : (breaker cfg).Preserves (Timely cfg) (Tracks cfg) := by
  intro s l s' h hl hs
  have hs : step cfg s l = some s' := hs
  cases l with
  | check id t =>
    obtain ⟨ht, rfl⟩ := step_check hs
    exact h.check ht hl.probes
  | report id isError t =>
    obtain ⟨ht, c, hc, rfl⟩ := step_report hs
    obtain ⟨rfl, -⟩ := find_split hc
    exact h.report ht hc hl.deadline

/-- **Run.** While each probe reports in time, every check of every run answers as the history
of reports says. -/
theorem check_as_specified (cfg : Config) (ls : List Label) (id now : Nat) (s : State)
    (hg : (breaker cfg).Guarded (Timely cfg) start (ls ++ [.check id now]))
    (hr : (breaker cfg).exec start ls = some s) :
    (check s.breaker now).1.verdict = specified cfg s.calls s.reports now := by
  obtain ⟨hg, hl⟩ := hg.append hr
  exact (step_tracks.exec (tracks_start cfg) hg hr).verdict hl.1.probes

/-- The probe let through at 10 s is out. -/
def probeOut : State where
  now := 10 * second
  breaker := ⟨3, some (10 * second), some (10 * second)⟩
  calls := [⟨4, true, 10 * second, false⟩]
  reports := [⟨0, true, false⟩, ⟨0, true, false⟩, ⟨0, true, false⟩]

theorem probe_out_as_specified :
    (check probeOut.breaker (11 * second)).1.verdict =
      specified exampleConfig probeOut.calls probeOut.reports (11 * second) :=
  check_as_specified exampleConfig (lateRun.take 7) 5 (11 * second) probeOut (by decide +kernel)
    (by decide +kernel)

end MinMcp.L4.Breaker
