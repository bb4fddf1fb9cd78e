import MinMcp.L5Concurrency.StdioMux

/-!
# Requests when the child's output ends

`Conn::request` files its entry in `pending`, writes, and then reads `dead`; at the end of the
child's output the reader sets `dead` and then drains `pending` (src/upstream.rs:371-391,
469-482). Over the connection of `StdioMux`:

* `EndInv`: `dead` is set before the drain, an entry behind the drain is of a caller that has
  yet to read it, and the answer of a caller with an open channel is still to come.
* `not_stranded`: so behind the drain no caller that is past its check has an entry, and one
  that waits can be served at once.
-/
namespace MinMcp.L5.StdioMux

open MinMcp.Core

/-- Between the insertion of its entry and the end of its wait. -/
def Phase.registered : Phase → Bool
  | .sending | .checking | .waiting => true
  | _ => false

/-- It has read `dead` and found it unset. -/
def Phase.past : Phase → Bool
  | .waiting | .expired => true
  | _ => false

structure EndInv (s : State) : Prop where
  dead : s.reader = .draining ∨ s.reader = .stopped → s.dead = true
  past : s.reader = .stopped → ∀ id r c, s.pending id = some r → s.callers r = some c → c.phase.past = false
  kept : ∀ r c, s.callers r = some c → c.phase.registered = true → c.slot = .empty →
    s.pending c.id = some r ∨ ∃ k o, s.reader = .holding r k o

section Parts

variable {s : State}

theorem EndInv.setPhase (h : EndInv s) (r : Nat) {p : Phase}
    (hreg : p.registered = true → ∀ c, s.callers r = some c →
      c.phase.registered = true ∨ s.pending c.id = some r)
    (hpast : s.reader = .stopped → p.past = true → ∀ c, s.callers r = some c → c.phase.past = true) :
    EndInv (s.setPhase r p) where
  dead := h.dead
  past hr id r' c he hc := by
    obtain ⟨c₀, hc₀, ⟨rfl, rfl⟩ | ⟨-, rfl⟩⟩ := update_map_eq_some hc
    · cases hp : p.past with
      | false => rfl
      | true =>
        have hold := h.past hr id r' c₀ he hc₀
        rw [hpast hr hp c₀ hc₀] at hold
        cases hold
    · exact h.past hr id r' c he hc₀
  kept r' c hc hp hslot := by
    obtain ⟨c₀, hc₀, ⟨rfl, rfl⟩ | ⟨-, rfl⟩⟩ := update_map_eq_some hc
    · rcases hreg hp c₀ hc₀ with hp | he
      · exact h.kept r' c₀ hc₀ hp hslot
      · exact Or.inl he
    · exact h.kept r' c hc₀ hp hslot

/-- A caller whose entry goes has its channel closed. -/
theorem EndInv.dropSender (h : EndInv s) (id : Int64) : EndInv (s.dropSender id) := by
  unfold State.dropSender
  split
  · exact h
  · next r hr =>
    refine ⟨h.dead, ?_, ?_⟩
    · intro hstop id' r' c he hc
      have he : s.pending id' = some r' := by
        by_cases hid : id' = id
        · subst hid
          simp only [Function.update_self] at he
          cases he
        · simpa only [Function.update_of_ne hid] using he
      obtain ⟨c₀, hc₀, ⟨-, rfl⟩ | ⟨-, rfl⟩⟩ := update_map_eq_some hc
      · exact h.past hstop id' r' c₀ he hc₀
      · exact h.past hstop id' r' c he hc₀
    · intro r' c hc hp hslot
      obtain ⟨c₀, hc₀, ⟨-, rfl⟩ | ⟨hne, rfl⟩⟩ := update_map_eq_some hc
      · cases hslot
      · refine (h.kept r' c hc₀ hp hslot).imp_left fun he => ?_
        by_cases hid : c.id = id
        · rw [hid, hr, Option.some.injEq] at he
          exact absurd he.symm hne
        · simpa only [Function.update_of_ne hid] using he

/-- A caller that has no entry yet, where none stands. -/
theorem EndInv.addEntry (h : EndInv s) {id : Int64} (hnone : s.pending id = none) {r : Nat} {c : Caller}
    (hc : s.callers r = some c) (hp : c.phase.past = false) :
    EndInv { s with pending := Function.update s.pending id (some r) } where
  dead := h.dead
  past hstop id' r' c' he hc' := by
    by_cases hid : id' = id
    · subst hid
      simp only [Function.update_self, Option.some.injEq] at he
      subst he
      obtain rfl := Option.some.inj (hc.symm.trans hc')
      exact hp
    · simp only [Function.update_of_ne hid] at he
      exact h.past hstop id' r' c' he hc'
  kept r' c' hc' hp' hslot := by
    refine (h.kept r' c' hc' hp' hslot).imp_left fun he => ?_
    have hid : c'.id ≠ id := by
      rintro rfl
      rw [hnone] at he
      cases he
    simpa only [Function.update_of_ne hid] using he

/-- The reader moves on with nothing in its hands. -/
theorem EndInv.setReader (h : EndInv s) (hfree : ∀ r k o, s.reader ≠ .holding r k o) {d : Reader}
    {dead : Bool} (hstop : d ≠ .stopped) (hdead : d = .draining → dead = true) :
    EndInv { s with reader := d, dead := dead } where
  dead hr := hr.elim hdead fun he => absurd he hstop
  past he := absurd he hstop
  kept r c hc hp hslot := by
    rcases h.kept r c hc hp hslot with he | ⟨k, o, he⟩
    · exact Or.inl he
    · exact absurd he (hfree r k o)

theorem dropSender_pending (s : State) (id : Int64) : (s.dropSender id).pending id = none := by
  unfold State.dropSender
  split
  · next h => exact h
  · exact Function.update_self id none s.pending

/-! ## Steps -/

theorem endInv_allot {s' : State} {r : Nat} (h : EndInv s) (hs : s.allot r = some s') : EndInv s' := by
  unfold State.allot at hs
  split at hs
  · cases hs
  · obtain rfl := Option.some.inj hs
    refine ⟨h.dead, fun hstop id r' c he hc => ?_, fun r' c hc hp hslot => ?_⟩
    · rcases update_eq_some hc with ⟨-, rfl⟩ | ⟨-, hc⟩
      · rfl
      · exact h.past hstop id r' c he hc
    · rcases update_eq_some hc with ⟨-, rfl⟩ | ⟨-, hc⟩
      · cases hp
      · exact h.kept r' c hc hp hslot

theorem endInv_receive {s' : State} {r : Nat} (h : EndInv s) (hs : s.receive r = some s') : EndInv s' := by
  obtain ⟨c, hc, hphase, hs⟩ := inPhase_eq_some hs
  have hleft := h.setPhase r (p := .left) (fun hp => by cases hp) (fun _ hp => by cases hp)
  split at hs
  · cases hs
  · obtain rfl := Option.some.inj hs
    exact ⟨hleft.dead, hleft.past, hleft.kept⟩
  · obtain rfl := Option.some.inj hs
    exact hleft

theorem endInv_expire {s' : State} {r : Nat} (h : EndInv s) (hs : s.expire r = some s') : EndInv s' := by
  obtain ⟨c, hc, hphase, hs⟩ := inPhase_eq_some hs
  split at hs
  · obtain rfl := Option.some.inj hs
    have hexp := h.setPhase r (p := .expired) (fun hp => by cases hp) (by
      intro _ _ d hd
      obtain rfl := Option.some.inj (hc.symm.trans hd)
      rw [hphase]
      rfl)
    exact ⟨hexp.dead, hexp.past, hexp.kept⟩
  · cases hs

theorem endInv_unregister {s' : State} {r : Nat} (h : EndInv s) (hs : s.unregister r = some s') : EndInv s' := by
  unfold State.unregister at hs
  split at hs
  · next c hc =>
    have hleft := (h.dropSender c.id).setPhase r (p := .left) (fun hp => by cases hp)
      (fun _ hp => by cases hp)
    split at hs
    · obtain rfl := Option.some.inj hs
      exact ⟨fun _ => rfl, hleft.past, hleft.kept⟩
    · split at hs
      · obtain rfl := Option.some.inj hs
        exact hleft
      · cases hs
  · cases hs

theorem endInv_register {s' : State} {r : Nat} (h : EndInv s) (hs : s.register r = some s') : EndInv s' := by
  obtain ⟨c, hc, hphase, hs⟩ := inPhase_eq_some hs
  obtain rfl := Option.some.inj hs
  obtain ⟨c', hc', hid, hphase'⟩ := dropSender_callers hc c.id
  have hadd := (h.dropSender c.id).addEntry (dropSender_pending s c.id) hc' (by rw [hphase', hphase]; rfl)
  apply hadd.setPhase r (p := .sending)
  · intro _ d hd
    obtain rfl := Option.some.inj (hc'.symm.trans hd)
    right
    simp only [hid, Function.update_self]
  · intro _ hp
    cases hp

theorem endInv_check {s' : State} {r : Nat} (h : EndInv s) (hs : s.check r = some s') : EndInv s' := by
  obtain ⟨c, hc, hphase, hs⟩ := inPhase_eq_some hs
  obtain rfl := Option.some.inj hs
  apply h.setPhase r
  · intro _ d hd
    obtain rfl := Option.some.inj (hc.symm.trans hd)
    left
    rw [hphase]
    rfl
  · -- behind the drain the check finds `dead` set
    intro hstop hp
    rw [h.dead (Or.inr hstop), if_pos rfl] at hp
    cases hp

theorem endInv_line {s' : State} {text : List Char} (h : EndInv s) (hs : s.line text = some s') :
    EndInv s' := by
  unfold State.line at hs
  split at hs
  · next hidle =>
    have hfree : ∀ r k o, s.reader ≠ .holding r k o := by
      rw [hidle]
      nofun
    have hread : EndInv (s.readLine text) := by
      unfold State.readLine
      split
      · exact ⟨h.dead, h.past, h.kept⟩
      · exact ⟨h.dead, h.past, h.kept⟩
    have hfree' : ∀ r k o, (s.readLine text).reader ≠ .holding r k o := by
      unfold State.readLine
      split <;> exact hfree
    split at hs
    · obtain rfl := Option.some.inj hs
      exact hread
    · obtain rfl := Option.some.inj hs
      exact hread.setReader hfree' nofun nofun
    · obtain rfl := Option.some.inj hs
      exact ⟨hread.dead, hread.past, hread.kept⟩
    · next id o hroute =>
      split at hs
      · obtain rfl := Option.some.inj hs
        exact hread
      · next r hr =>
        obtain rfl := Option.some.inj hs
        refine ⟨fun hr => ?_, fun hr => (by cases hr), fun r' c hc hp hslot => ?_⟩
        · rcases hr with hr | hr <;> cases hr
        · rw [readLine_callers] at hc
          rcases h.kept r' c hc hp hslot with he | ⟨k, o, he⟩
          · by_cases hid : c.id = id
            · right
              rw [hid, hr, Option.some.injEq] at he
              subst he
              exact ⟨_, _, rfl⟩
            · left
              simpa only [Function.update_of_ne hid] using he
          · exact absurd he (hfree r' k o)
  · cases hs

theorem endInv_handOver {s' : State} (h : EndInv s) (hs : s.handOver = some s') : EndInv s' := by
  unfold State.handOver at hs
  split at hs
  · next r k o hr =>
    obtain rfl := Option.some.inj hs
    refine ⟨fun hr => ?_, fun hr => (by cases hr), fun r' c hc hp hslot => ?_⟩
    · rcases hr with hr | hr <;> cases hr
    · obtain ⟨c₀, hc₀, ⟨-, rfl⟩ | ⟨hne, rfl⟩⟩ := update_map_eq_some hc
      · cases hslot
      · rcases h.kept r' c hc₀ hp hslot with he | ⟨k', o', he⟩
        · exact Or.inl he
        · rw [hr] at he
          injection he with he
          exact absurd he.symm hne
  · cases hs

theorem endInv_drain {s' : State} (h : EndInv s) (hs : s.drain = some s') : EndInv s' := by
  unfold State.drain at hs
  split at hs
  · next hr =>
    obtain rfl := Option.some.inj hs
    refine ⟨fun _ => h.dead (Or.inl hr), fun _ id r c he => (by cases he), fun r c hc hp hslot => ?_⟩
    obtain ⟨c₀, hc₀, rfl⟩ := Option.map_eq_some_iff.mp hc
    split at hslot
    · cases hslot
    · next hne =>
      simp only [if_neg hne] at hp hslot
      rcases h.kept r c₀ hc₀ hp hslot with he | ⟨k, o, he⟩
      · exact absurd he hne
      · rw [hr] at he
        cases he
  · cases hs

theorem endInv_step : connection.Preserves (fun _ _ => True) EndInv := by
  intro s l s' h _ hs
  cases l with
  | allot r => exact endInv_allot h hs
  | register r => exact endInv_register h hs
  | sent r ok =>
    obtain ⟨c, hc, hphase, hs⟩ := inPhase_eq_some hs
    obtain rfl := Option.some.inj hs
    apply h.setPhase r
    · intro _ d hd
      obtain rfl := Option.some.inj (hc.symm.trans hd)
      left
      rw [hphase]
      rfl
    · intro _ hp
      cases ok <;> cases hp
  | check r => exact endInv_check h hs
  | receive r => exact endInv_receive h hs
  | expire r => exact endInv_expire h hs
  | unregister r => exact endInv_unregister h hs
  | cancel r =>
    simp only [connection, State.step, State.cancel] at hs
    split at hs
    · split at hs
      · obtain rfl := Option.some.inj hs
        exact h.setPhase r (fun hp => by cases hp) (fun _ hp => by cases hp)
      · cases hs
    · cases hs
  | line text => exact endInv_line h hs
  | replied ok =>
    simp only [connection, State.step, State.replied] at hs
    split at hs
    · next v hr =>
      obtain rfl := Option.some.inj hs
      apply h.setReader (by rw [hr]; nofun)
      · cases ok <;> nofun
      · cases ok <;> nofun
    · cases hs
  | handOver => exact endInv_handOver h hs
  | eof =>
    simp only [connection, State.step, State.eof] at hs
    split at hs
    · next hr =>
      obtain rfl := Option.some.inj hs
      exact h.setReader (by rw [hr]; nofun) nofun nofun
    · cases hs
  | markDead =>
    simp only [connection, State.step, State.markDead] at hs
    split at hs
    · next hr =>
      obtain rfl := Option.some.inj hs
      exact h.setReader (by rw [hr]; nofun) nofun fun _ => rfl
    · cases hs
  | drain => exact endInv_drain h hs

end Parts

theorem endInv_invariant : connection.Invariant (fun _ _ => True) EndInv where
  init s hs := by
    obtain rfl : s = .start := hs
    refine ⟨fun hr => ?_, fun hr => (by cases hr), fun r c hc => (by cases hc)⟩
    rcases hr with hr | hr <;> cases hr
  step := endInv_step

/-- **End of stream.** Once the reader has drained, a caller that is past its check of `dead`
has no entry, and when it waits its channel has an answer or is closed. -/
theorem not_stranded {s : State} (h : connection.Reachable s) (hstop : s.reader = .stopped) {r : Nat}
    {c : Caller} (hc : s.callers r = some c) (hp : c.phase.past = true) :
    (∀ id, s.pending id ≠ some r) ∧ (c.phase = .waiting → ∃ s', s.receive r = some s') := by
  have hinv := endInv_invariant.reachable h
  have hnone : ∀ id, s.pending id ≠ some r := by
    intro id he
    have := hinv.past hstop id r c he hc
    rw [hp] at this
    cases this
  refine ⟨hnone, fun hw => ?_⟩
  have hslot : c.slot ≠ .empty := by
    intro hslot
    rcases hinv.kept r c hc (by rw [hw]; rfl) hslot with he | ⟨k, o, he⟩
    · exact hnone c.id he
    · rw [hstop] at he
      cases he
  simp only [State.receive, State.inPhase, hc, hw, if_true]
  cases hs : c.slot with
  | empty => exact absurd hs hslot
  | full k o => exact ⟨_, rfl⟩
  | closed => exact ⟨_, rfl⟩

/-- The child's output ends while one caller waits and another one writes. -/
def endRun : List Label :=
  ask 0 ++ [.allot 1, .register 1, .eof, .markDead, .sent 1 true, .drain, .check 1]

theorem waiting_caller_is_told : ∃ s, connection.exec .start endRun = some s ∧
    ∃ c, s.callers 0 = some c ∧ c.phase = .waiting ∧ (∀ id, s.pending id ≠ some 0) ∧
      ∃ s', s.receive 0 = some s' := by
  have hr : (connection.exec .start endRun).any (fun s => (match s.reader with
      | .stopped => true
      | _ => false) && (s.callers 0).any fun c => c.phase = .waiting) = true := by decide +kernel
  rw [Option.any_eq_true] at hr
  obtain ⟨s, hs, ha⟩ := hr
  rw [Bool.and_eq_true, Option.any_eq_true] at ha
  obtain ⟨hstop, c, hc, hw⟩ := ha
  have hw := of_decide_eq_true hw
  have hstop : s.reader = .stopped := by
    cases hreader : s.reader with
    | stopped => rfl
    | idle | replying | holding | ending | draining => simp [hreader] at hstop
  obtain ⟨hnone, hrec⟩ := not_stranded ⟨.start, endRun, rfl, hs⟩ hstop hc (by rw [hw]; rfl)
  exact ⟨s, hs, c, hc, hw, hnone, hrec hw⟩

end MinMcp.L5.StdioMux
