import MinMcp.Core.LTS
import Mathlib.Logic.Function.Basic

/-!
# The session of a legacy HTTP upstream

`HttpUpstream` (src/http_upstream.rs) keeps one session id for all its callers. A
request snapshots it three times: `seen` before anything else, `had_session` and the
header that is sent. A 404 with `had_session` set makes the caller re-initialize
under the `reinit` lock, unless the session is no longer the one it saw; the
handshake clears the session first and captures the new one from the reply.

The server requires the header: 400 without one, 404 for a session it does not
know, and it may forget a session at any time (`expire`). Every await is a step, so
calls and handshakes interleave freely, and any of them may fail in any phase
(`fail`: an error, a time-out, a cancellation). The negotiated protocol version is
left out, as nothing here depends on it.

* `Stuck`: the client holds no session, and whatever happens, every later request
  goes out without one and no handshake is sent.
* `Sound`: no handshake fails between clearing the session and capturing the new one,
  and no request reads the session for its header in that window.
* `recovers_of_sound`: in a sound run no state is stuck, and no request goes out
  without a session while another caller re-initializes.
* `stuck_of_idle`, `failed_handshake_is_final`: one failed handshake is enough.
-/
namespace MinMcp.L5.HttpSession

open MinMcp.Core

inductive Status where
  | ok | badRequest | notFound
  deriving DecidableEq, Repr

/-- The server's answer to a request with this session header. -/
def serve (known : List Nat) : Option Nat → Status
  | none => .badRequest
  | some sid => if sid ∈ known then .ok else .notFound

/-- The session a call saw when it began, and whether this is its second sending. -/
structure Attempt where
  seen : Option Nat
  retry : Bool
  deriving DecidableEq

inductive Phase where
  | idle
  /-- In front of `had_session`. -/
  | began (a : Attempt)
  /-- In front of `post`. -/
  | checked (a : Attempt) (had : Bool)
  | built (a : Attempt) (had : Bool) (header : Option Nat)
  /-- The server has answered; the reply is under way. -/
  | waiting (a : Attempt) (had : Bool) (status : Status)
  /-- Wants the `reinit` lock. -/
  | expired (seen : Option Nat)
  | locked (seen : Option Nat)
  /-- The session is cleared, the handshake not sent. -/
  | cleared (seen : Option Nat)
  /-- The handshake is sent; the server opened `sid`. -/
  | greeting (seen : Option Nat) (sid : Nat)
  | captured (seen : Option Nat)
  deriving DecidableEq

/-- A request as it went out; `init` marks the handshake's own. -/
structure Sent where
  task : Nat
  header : Option Nat
  init : Bool
  deriving DecidableEq

structure State where
  session : Option Nat
  /-- Who holds the `reinit` lock. -/
  holder : Option Nat
  phases : Nat → Phase
  known : List Nat
  fresh : Nat
  log : List Sent
  /-- Who sent a request without a session while another caller re-initialized. -/
  bare : List Nat

inductive Label where
  | start (t : Nat)
  | check (t : Nat)
  | build (t : Nat)
  | send (t : Nat)
  | reply (t : Nat)
  | acquire (t : Nat)
  | compare (t : Nat)
  | hello (t : Nat)
  | welcome (t : Nat)
  | notify (t : Nat)
  | fail (t : Nat)
  | expire (sid : Nat)

/-- Between clearing the session and capturing the new one. -/
def Phase.Mid : Phase → Prop
  | .cleared _ | .greeting _ _ => True
  | _ => False

/-- Past the comparison, with the lock held. -/
def Phase.Reinit : Phase → Prop
  | .cleared _ | .greeting _ _ | .captured _ => True
  | _ => False

def Phase.InLock : Phase → Prop
  | .locked _ | .cleared _ | .greeting _ _ | .captured _ => True
  | _ => False

instance : (p : Phase) → Decidable p.Mid
  | .cleared _ | .greeting _ _ => isTrue trivial
  | .idle | .began _ | .checked _ _ | .built _ _ _ | .waiting _ _ _ | .expired _ | .locked _
  | .captured _ => isFalse not_false

instance : (p : Phase) → Decidable p.Reinit
  | .cleared _ | .greeting _ _ | .captured _ => isTrue trivial
  | .idle | .began _ | .checked _ _ | .built _ _ _ | .waiting _ _ _ | .expired _ | .locked _ =>
    isFalse not_false

/-- Another caller's re-initialization is under way. -/
def OtherReinit (s : State) (t : Nat) : Prop :=
  match s.holder with
  | some t' => t' ≠ t ∧ (s.phases t').Reinit
  | none => False

instance (s : State) (t : Nat) : Decidable (OtherReinit s t) := by
  unfold OtherReinit; split <;> infer_instance

def State.setPhase (s : State) (t : Nat) (p : Phase) : State :=
  { s with phases := Function.update s.phases t p }

/-- mirrors src/http_upstream.rs:262-263 -/
def start (s : State) (t : Nat) : Option State :=
  match s.phases t with
  | .idle => some (s.setPhase t (.began ⟨s.session, false⟩))
  | _ => none

/-- mirrors src/http_upstream.rs:282-283 -/
def check (s : State) (t : Nat) : Option State :=
  match s.phases t with
  | .began a => some (s.setPhase t (.checked a s.session.isSome))
  | _ => none

/-- mirrors src/http_upstream.rs:205-221, 284 -/
def build (s : State) (t : Nat) : Option State :=
  match s.phases t with
  | .checked a had => some (s.setPhase t (.built a had s.session))
  | _ => none

/-- mirrors src/http_upstream.rs:291-301 -/
def send (s : State) (t : Nat) : Option State :=
  match s.phases t with
  | .built a had header => some { s.setPhase t (.waiting a had (serve s.known header)) with
      log := s.log ++ [⟨t, header, false⟩]
      bare := if header = none ∧ OtherReinit s t then s.bare ++ [t] else s.bare }
  | _ => none

/-- A second 404 is the call's result.
mirrors src/http_upstream.rs:264-270, 317-319 -/
def reply (s : State) (t : Nat) : Option State :=
  match s.phases t with
  | .waiting a had status => some (s.setPhase t
      (if status = .notFound ∧ had = true ∧ a.retry = false then .expired a.seen else .idle))
  | _ => none

/-- mirrors src/http_upstream.rs:191 -/
def acquire (s : State) (t : Nat) : Option State :=
  match s.phases t, s.holder with
  | .expired seen, none => some { s.setPhase t (.locked seen) with holder := some t }
  | _, _ => none

/-- Someone else has re-initialized, or the session is cleared.
mirrors src/http_upstream.rs:192-196, 168 -/
def compare (s : State) (t : Nat) : Option State :=
  match s.phases t with
  | .locked seen =>
    if s.session ≠ seen then some { s.setPhase t (.began ⟨seen, true⟩) with holder := none }
    else some { s.setPhase t (.cleared seen) with session := none }
  | _ => none

/-- mirrors src/http_upstream.rs:170-181 -/
def hello (s : State) (t : Nat) : Option State :=
  match s.phases t with
  | .cleared seen => some { s.setPhase t (.greeting seen s.fresh) with
      known := s.fresh :: s.known
      fresh := s.fresh + 1
      log := s.log ++ [⟨t, s.session, true⟩] }
  | _ => none

/-- mirrors src/http_upstream.rs:304-306 -/
def welcome (s : State) (t : Nat) : Option State :=
  match s.phases t with
  | .greeting seen sid => some { s.setPhase t (.captured seen) with session := some sid }
  | _ => none

/-- mirrors src/http_upstream.rs:186, 346-362, 266-267 -/
def notify (s : State) (t : Nat) : Option State :=
  match s.phases t with
  | .captured seen => some { s.setPhase t
      (if serve s.known s.session = .ok then .began ⟨seen, true⟩ else .idle) with
      holder := none
      log := s.log ++ [⟨t, s.session, false⟩] }
  | _ => none

/-- The call ends with an error, in whatever phase it is. -/
def fail (s : State) (t : Nat) : Option State :=
  match s.phases t with
  | .idle => none
  | _ => some { s.setPhase t .idle with holder := if s.holder = some t then none else s.holder }

def step (s : State) : Label → Option State
  | .start t => start s t
  | .check t => check s t
  | .build t => build s t
  | .send t => send s t
  | .reply t => reply s t
  | .acquire t => acquire s t
  | .compare t => compare s t
  | .hello t => hello s t
  | .welcome t => welcome s t
  | .notify t => notify s t
  | .fail t => fail s t
  | .expire sid => some { s with known := s.known.filter (· ≠ sid) }

/-- The client after its first handshake. -/
def connected (sid : Nat) : State := ⟨some sid, none, fun _ => .idle, [sid], sid + 1, [], []⟩

def system : LTS State Label := ⟨fun s => ∃ sid, s = connected sid, step⟩

/-- No session, and from here on only requests without one and no handshake. -/
def Stuck (s : State) : Prop :=
  s.session = none ∧ ∀ ls s', system.exec s ls = some s' →
    ∀ r ∈ s'.log.drop s.log.length, r.header = none ∧ r.init = false

/-- No handshake is between clearing the session and capturing the new one. -/
def Quiet (s : State) : Prop :=
  match s.holder with
  | some t => ¬ (s.phases t).Mid
  | none => True

/-- The condition on a step. -/
def Sound (s : State) : Label → Prop
  | .build _ => Quiet s
  | .fail t => ¬ (s.phases t).Mid
  | _ => True

instance (s : State) : Decidable (Quiet s) := by
  unfold Quiet; split <;> infer_instance

instance (s : State) : (l : Label) → Decidable (Sound s l)
  | .build _ => inferInstanceAs (Decidable (Quiet s))
  | .fail t => inferInstanceAs (Decidable ¬ (s.phases t).Mid)
  | .start _ | .check _ | .send _ | .reply _ | .acquire _ | .compare _ | .hello _ | .welcome _
  | .notify _ | .expire _ => isTrue trivial

/-! ## Sound runs -/

structure Inv (s : State) : Prop where
  /-- A missing session is being replaced. -/
  replaced : s.session = none → ∃ t, (s.phases t).Mid
  holder : ∀ t, (s.phases t).InLock → s.holder = some t
  headers : ∀ t a had header, s.phases t = .built a had header → header ≠ none
  bare : s.bare = []

/-- One call moves to phase `p`: what is to be checked of the state after it. -/
theorem Inv.move {s s' : State} {t : Nat} {p : Phase} (h : Inv s)
    (hp : s'.phases = Function.update s.phases t p)
    (hs : s'.session = none → p.Mid ∨ s.session = none ∧ ¬ (s.phases t).Mid)
    (hl : p.InLock → s'.holder = some t)
    (ho : ∀ t', t' ≠ t → s.holder = some t' → s'.holder = some t')
    (hh : ∀ a had header, p = .built a had header → header ≠ none) (hb : s'.bare = []) : Inv s' := by
  refine ⟨?_, ?_, ?_, hb⟩
  · intro hn
    rcases hs hn with hm | ⟨hn, hm⟩
    · exact ⟨t, by rw [hp, Function.update_self]; exact hm⟩
    · obtain ⟨t', ht'⟩ := h.replaced hn
      have hne : t' ≠ t := fun he => hm (he ▸ ht')
      exact ⟨t', by rw [hp, Function.update_of_ne hne]; exact ht'⟩
  · intro t' ht'
    rw [hp] at ht'
    by_cases he : t' = t
    · rw [he, Function.update_self] at ht'
      rw [he]
      exact hl ht'
    · rw [Function.update_of_ne he] at ht'
      exact ho t' he (h.holder t' ht')
  · intro t' a had header hq
    rw [hp] at hq
    by_cases he : t' = t
    · rw [he, Function.update_self] at hq
      exact hh a had header hq
    · rw [Function.update_of_ne he] at hq
      exact h.headers t' a had header hq

/-- The lock is held by `t` alone, so releasing it takes it from no one else. -/
theorem Inv.released {s : State} {t : Nat} (h : Inv s) (ht : (s.phases t).InLock) {o : Option Nat} :
    ∀ t', t' ≠ t → s.holder = some t' → o = some t' := by
  intro t' hne hh
  rw [h.holder t ht] at hh
  exact absurd (Option.some.inj hh).symm hne

/-- In a quiet state the client has a session. -/
theorem Inv.session_of_quiet {s : State} (h : Inv s) (hq : Quiet s) : s.session ≠ none := by
  intro hn
  obtain ⟨t, ht⟩ := h.replaced hn
  have hl : (s.phases t).InLock := by
    cases hp : s.phases t <;> rw [hp] at ht <;> first | exact ht.elim | trivial
  unfold Quiet at hq
  rw [h.holder t hl] at hq
  exact hq ht

/-- A call in front of the lock stays in front of it. -/
theorem Inv.setPhase {s : State} {t : Nat} {p : Phase} (h : Inv s) (hm : ¬ (s.phases t).Mid) (hp : ¬ p.InLock)
    (hh : ∀ a had header, p = .built a had header → header ≠ none) : Inv (s.setPhase t p) :=
  h.move rfl (fun hn => Or.inr ⟨hn, hm⟩) (fun hl => absurd hl hp) (fun _ _ ho => ho) hh h.bare

theorem inv_start {s s' : State} {t : Nat} (h : Inv s) (hs : start s t = some s') : Inv s' := by
  unfold start at hs
  split at hs
  · next hp =>
    obtain rfl := Option.some.inj hs
    refine h.setPhase ?_ not_false ?_
    · rw [hp]; exact not_false
    · intro a had header he; cases he
  · cases hs

theorem inv_check {s s' : State} {t : Nat} (h : Inv s) (hs : check s t = some s') : Inv s' := by
  unfold check at hs
  split at hs
  · next hp =>
    obtain rfl := Option.some.inj hs
    refine h.setPhase ?_ not_false ?_
    · rw [hp]; exact not_false
    · intro a had header he; cases he
  · cases hs

/-- Outside the window the header is read off a session. -/
theorem inv_build {s s' : State} {t : Nat} (h : Inv s) (hg : Quiet s) (hs : build s t = some s') :
    Inv s' := by
  unfold build at hs
  split at hs
  · next hp =>
    obtain rfl := Option.some.inj hs
    refine h.setPhase ?_ not_false ?_
    · rw [hp]; exact not_false
    · intro a had header he
      cases he
      exact h.session_of_quiet hg
  · cases hs

theorem inv_send {s s' : State} {t : Nat} (h : Inv s) (hs : send s t = some s') : Inv s' := by
  unfold send at hs
  split at hs
  · next a had header hp =>
    have hn := h.headers t a had header hp
    rw [← Option.some.inj hs]
    refine h.move (t := t) rfl (fun hn => Or.inr ⟨hn, ?_⟩) ?_ (fun _ _ ho => ho) ?_ ?_
    · rw [hp]; exact not_false
    · exact False.elim
    · intro a had header he; cases he
    · show (if header = none ∧ OtherReinit s t then s.bare ++ [t] else s.bare) = []
      rw [if_neg (fun hc => hn hc.1), h.bare]
  · cases hs

theorem inv_reply {s s' : State} {t : Nat} (h : Inv s) (hs : reply s t = some s') : Inv s' := by
  unfold reply at hs
  split at hs
  · next hp =>
    obtain rfl := Option.some.inj hs
    refine h.setPhase ?_ ?_ ?_
    · rw [hp]; exact not_false
    · split <;> exact not_false
    · intro a had header he
      split at he <;> cases he
  · cases hs

theorem inv_acquire {s s' : State} {t : Nat} (h : Inv s) (hs : acquire s t = some s') : Inv s' := by
  unfold acquire at hs
  split at hs
  · next hp hh =>
    rw [← Option.some.inj hs]
    refine h.move (t := t) rfl (fun hn => Or.inr ⟨hn, ?_⟩) (fun _ => rfl) ?_ ?_ h.bare
    · rw [hp]; exact not_false
    · intro t' _ ho
      rw [hh] at ho
      cases ho
    · intro a had header he; cases he
  · cases hs

theorem inv_compare {s s' : State} {t : Nat} (h : Inv s) (hs : compare s t = some s') : Inv s' := by
  unfold compare at hs
  split at hs
  · next seen hp =>
    have hl : (s.phases t).InLock := by rw [hp]; trivial
    split at hs
    · rw [← Option.some.inj hs]
      refine h.move (t := t) rfl (fun hn => Or.inr ⟨hn, ?_⟩) False.elim (h.released hl) ?_ h.bare
      · rw [hp]; exact not_false
      · intro a had header he; cases he
    · rw [← Option.some.inj hs]
      refine h.move (t := t) rfl (fun _ => Or.inl trivial) (fun _ => h.holder t hl) (fun _ _ ho => ho) ?_
        h.bare
      intro a had header he; cases he
  · cases hs

theorem inv_hello {s s' : State} {t : Nat} (h : Inv s) (hs : hello s t = some s') : Inv s' := by
  unfold hello at hs
  split at hs
  · next seen hp =>
    have hl : (s.phases t).InLock := by rw [hp]; trivial
    rw [← Option.some.inj hs]
    refine h.move (t := t) rfl (fun _ => Or.inl trivial) (fun _ => h.holder t hl) (fun _ _ ho => ho) ?_
      h.bare
    intro a had header he; cases he
  · cases hs

theorem inv_welcome {s s' : State} {t : Nat} (h : Inv s) (hs : welcome s t = some s') : Inv s' := by
  unfold welcome at hs
  split at hs
  · next seen sid hp =>
    have hl : (s.phases t).InLock := by rw [hp]; trivial
    rw [← Option.some.inj hs]
    refine h.move (t := t) rfl ?_ (fun _ => h.holder t hl) (fun _ _ ho => ho) ?_ h.bare
    · intro hn; cases hn
    · intro a had header he; cases he
  · cases hs

theorem inv_notify {s s' : State} {t : Nat} (h : Inv s) (hs : notify s t = some s') : Inv s' := by
  unfold notify at hs
  split at hs
  · next seen hp =>
    have hl : (s.phases t).InLock := by rw [hp]; trivial
    rw [← Option.some.inj hs]
    refine h.move (t := t) rfl (fun hn => Or.inr ⟨hn, ?_⟩) ?_ (h.released hl) ?_ h.bare
    · rw [hp]; exact not_false
    · split <;> exact False.elim
    · intro a had header he
      split at he <;> cases he
  · cases hs

theorem inv_fail {s s' : State} {t : Nat} (h : Inv s) (hg : ¬ (s.phases t).Mid)
    (hs : fail s t = some s') : Inv s' := by
  unfold fail at hs
  split at hs
  · cases hs
  · rw [← Option.some.inj hs]
    refine h.move (t := t) rfl (fun hn => Or.inr ⟨hn, hg⟩) False.elim ?_ ?_ h.bare
    · intro t' hne ho
      show (if s.holder = some t then none else s.holder) = some t'
      rw [if_neg, ho]
      rw [ho]
      exact fun he => hne (Option.some.inj he)
    · intro a had header he; cases he

theorem inv_step {s s' : State} {l : Label} (h : Inv s) (hg : Sound s l) (hs : step s l = some s') :
    Inv s' := by
  cases l with
  | start t => exact inv_start h hs
  | check t => exact inv_check h hs
  | build t => exact inv_build h hg hs
  | send t => exact inv_send h hs
  | reply t => exact inv_reply h hs
  | acquire t => exact inv_acquire h hs
  | compare t => exact inv_compare h hs
  | hello t => exact inv_hello h hs
  | welcome t => exact inv_welcome h hs
  | notify t => exact inv_notify h hs
  | fail t => exact inv_fail h hg hs
  | expire sid =>
    rw [← Option.some.inj hs]
    exact ⟨h.replaced, h.holder, h.headers, h.bare⟩

theorem inv_connected (sid : Nat) : Inv (connected sid) := by
  refine ⟨?_, ?_, ?_, rfl⟩
  · intro hn; cases hn
  · intro t ht; exact ht.elim
  · intro t a had header hp; cases hp

theorem invariant : system.Invariant Sound Inv where
  init := by
    intro s ⟨sid, hs⟩
    rw [hs]
    exact inv_connected sid
  step _ _ _ h hg hs := inv_step h hg hs

theorem notify_captured (s : State) {t : Nat} {seen : Option Nat} (h : s.phases t = .captured seen) :
    ∃ s', notify s t = some s' ∧ s'.log = s.log ++ [⟨t, s.session, false⟩] := by
  unfold notify
  rw [h]
  exact ⟨_, rfl, rfl⟩

/-- A session that is being replaced can be: the handshake goes on from here. -/
theorem not_stuck_of_mid {s : State} {t : Nat} (h : (s.phases t).Mid) : ¬ Stuck s := by
  intro ⟨_, hall⟩
  cases hp : s.phases t with
  | cleared seen =>
    have he : system.exec s [.hello t] = some { s.setPhase t (.greeting seen s.fresh) with
        known := s.fresh :: s.known
        fresh := s.fresh + 1
        log := s.log ++ [⟨t, s.session, true⟩] } := by
      simp [LTS.exec, system, step, hello, hp]
    have hr := hall _ _ he ⟨t, s.session, true⟩ (by simp)
    cases hr.2
  | greeting seen sid =>
    -- the new session goes out with the notification
    have hw : welcome s t = some { s.setPhase t (.captured seen) with session := some sid } := by
      unfold welcome
      rw [hp]
    have hc : Function.update s.phases t (.captured seen) t = .captured seen := Function.update_self ..
    obtain ⟨s', hn, hl⟩ :=
      notify_captured { s.setPhase t (.captured seen) with session := some sid } hc
    have he : system.exec s [.welcome t, .notify t] = some s' := by
      simp only [LTS.exec, system, step, hw, Option.bind_some, hn]
    have hr := hall _ _ he ⟨t, some sid, false⟩ (by rw [hl]; simp [State.setPhase])
    cases hr.1
  | _ => rw [hp] at h; exact h.elim

/-- **Recovery.** In every run whose steps are all sound, no state reached is stuck, and
no request has gone out without a session while another caller re-initialized. -/
theorem recovers_of_sound (s₀ s : State) (ls : List Label) (h₀ : system.init s₀)
    (hg : system.Guarded Sound s₀ ls) (he : system.exec s₀ ls = some s) : ¬ Stuck s ∧ s.bare = [] := by
  have hi := invariant.exec h₀ hg he
  refine ⟨?_, hi.bare⟩
  intro hst
  obtain ⟨t, ht⟩ := hi.replaced hst.1
  exact not_stuck_of_mid ht hst

/-! ## Other calls stand still -/

/-- The call that takes the step. -/
def Label.task : Label → Option Nat
  | .start t | .check t | .build t | .send t | .reply t | .acquire t | .compare t | .hello t
  | .welcome t | .notify t | .fail t => some t
  | .expire _ => none

theorem phases_step {s s' : State} {l : Label} {t : Nat} (hs : step s l = some s') (ht : l.task ≠ some t) :
    s'.phases t = s.phases t := by
  have hu : ∀ t' p, l.task = some t' → Function.update s.phases t' p t = s.phases t := by
    intro t' p hl
    apply Function.update_of_ne
    intro he
    exact ht (he ▸ hl)
  cases l with
  | expire sid => rw [← Option.some.inj hs]
  | compare t' =>
    simp only [step, compare] at hs
    split at hs
    · split at hs
      · rw [← Option.some.inj hs]; exact hu t' _ rfl
      · rw [← Option.some.inj hs]; exact hu t' _ rfl
    · cases hs
  | fail t' =>
    simp only [step, fail] at hs
    split at hs
    · cases hs
    · rw [← Option.some.inj hs]; exact hu t' _ rfl
  | _ t' =>
    simp only [step, start, check, build, send, reply, acquire, hello, welcome, notify] at hs
    split at hs
    · rw [← Option.some.inj hs]; exact hu t' _ rfl
    · cases hs

/-- **Frame.** A run leaves the phases of the calls it does not move. -/
theorem phases_exec {ls : List Label} {s s' : State} {t : Nat} (he : system.exec s ls = some s')
    (ht : ∀ l ∈ ls, l.task ≠ some t) : s'.phases t = s.phases t := by
  induction ls generalizing s with
  | nil => rw [← Option.some.inj he]
  | cons l ls ih =>
    rw [LTS.exec_cons, Option.bind_eq_some_iff] at he
    obtain ⟨s₁, hs, he⟩ := he
    rw [ih he fun l' hl => ht l' (List.mem_cons_of_mem _ hl), phases_step hs (ht l List.mem_cons_self)]

/-! ## After a failed handshake -/

/-- Without a session a call can only be on its way to a 400. -/
def Phase.Lost : Phase → Prop
  | .idle | .began _ => True
  | .checked _ had => had = false
  | .built _ had header => had = false ∧ header = none
  | .waiting _ had _ => had = false
  | _ => False

/-- No session and no call that could get one; `n` requests went out before. -/
structure Lost (n : Nat) (s : State) : Prop where
  session : s.session = none
  phases : ∀ t, (s.phases t).Lost
  length : n ≤ s.log.length
  log : ∀ r ∈ s.log.drop n, r.header = none ∧ r.init = false

theorem Lost.setPhase {n : Nat} {s : State} (h : Lost n s) (t : Nat) {p : Phase} (hp : p.Lost) :
    Lost n (s.setPhase t p) := by
  refine ⟨h.session, ?_, h.length, h.log⟩
  intro t'
  by_cases he : t' = t
  · show (Function.update s.phases t p t').Lost
    rw [he, Function.update_self]
    exact hp
  · show (Function.update s.phases t p t').Lost
    rw [Function.update_of_ne he]
    exact h.phases t'

theorem Lost.send {n : Nat} {s s' : State} {t : Nat} (h : Lost n s) (hs : send s t = some s') :
    Lost n s' := by
  unfold HttpSession.send at hs
  split at hs
  · next a had header hp =>
    have ht := h.phases t
    rw [hp] at ht
    obtain ⟨rfl, rfl⟩ := ht
    have hq := h.setPhase t (p := .waiting a false (serve s.known none)) rfl
    rw [← Option.some.inj hs]
    refine ⟨hq.session, hq.phases, ?_, ?_⟩
    · show n ≤ (s.log ++ [_]).length
      have := h.length
      rw [List.length_append]
      omega
    · intro r hr
      have hr : r ∈ (s.log ++ [(⟨t, none, false⟩ : Sent)]).drop n := hr
      rw [List.drop_append_of_le_length h.length, List.mem_append] at hr
      rcases hr with hr | hr
      · exact h.log r hr
      · rw [List.mem_singleton] at hr
        rw [hr]
        exact ⟨rfl, rfl⟩
  · cases hs

/-- **Final.** Nothing leads out of the lost states. -/
theorem lost_step (n : Nat) : system.Preserves (fun _ _ => True) (Lost n) := by
  intro s l s' h _ hs
  cases l with
  | send t => exact h.send hs
  | expire sid =>
    rw [← Option.some.inj hs]
    exact ⟨h.session, h.phases, h.length, h.log⟩
  | start t =>
    simp only [system, step, start] at hs
    split at hs
    · rw [← Option.some.inj hs]; exact h.setPhase t trivial
    · cases hs
  | check t =>
    simp only [system, step, check] at hs
    split at hs
    · rw [← Option.some.inj hs, h.session]; exact h.setPhase t rfl
    · cases hs
  | build t =>
    simp only [system, step, build] at hs
    split at hs
    · next hp =>
      have ht := h.phases t
      rw [hp] at ht
      rw [← Option.some.inj hs, h.session]
      exact h.setPhase t ⟨ht, rfl⟩
    · cases hs
  | reply t =>
    simp only [system, step, reply] at hs
    split at hs
    · next hp =>
      have ht := h.phases t
      rw [hp] at ht
      rw [← Option.some.inj hs, if_neg (by rw [ht]; simp)]
      exact h.setPhase t trivial
    · cases hs
  | fail t =>
    simp only [system, step, fail] at hs
    split at hs
    · cases hs
    · have hq := h.setPhase t (p := .idle) trivial
      rw [← Option.some.inj hs]
      exact ⟨hq.session, hq.phases, hq.length, hq.log⟩
  | acquire t =>
    simp only [system, step, acquire] at hs
    split at hs
    · next hp _ =>
      have ht := h.phases t
      rw [hp] at ht
      exact ht.elim
    · cases hs
  | _ t =>
    simp only [system, step, compare, hello, welcome, notify] at hs
    split at hs
    · next hp =>
      have ht := h.phases t
      rw [hp] at ht
      exact ht.elim
    · cases hs

/-- A client without a session and without a call under way is stuck. -/
theorem stuck_of_idle {s : State} (hs : s.session = none) (hi : ∀ t, s.phases t = .idle) : Stuck s := by
  refine ⟨hs, fun ls s' he => ?_⟩
  have hl : Lost s.log.length s := by
    refine ⟨hs, fun t => ?_, Nat.le_refl _, ?_⟩
    · rw [hi t]; trivial
    · rw [List.drop_length]
      intro r hr
      cases hr
  exact ((lost_step s.log.length).exec hl (LTS.guarded_true system s ls) he).log

/-- The session expires, one call notices, and its handshake fails. -/
def failedHandshake : List Label :=
  [.expire 0, .start 0, .check 0, .build 0, .send 0, .reply 0, .acquire 0, .compare 0, .hello 0, .fail 0]

/-- The same, with a handshake that succeeds. -/
def recovery : List Label :=
  [.expire 0, .start 0, .check 0, .build 0, .send 0, .reply 0, .acquire 0, .compare 0, .hello 0,
   .welcome 0, .notify 0, .check 0, .build 0, .send 0, .reply 0]

/-- While one call re-initializes, another sends its request. -/
def overtaken : List Label :=
  [.expire 0, .start 0, .check 0, .build 0, .send 0, .reply 0, .acquire 0, .compare 0,
   .start 1, .check 1, .build 1, .send 1]

theorem one_expiry_is_recovered :
    ∃ s, system.exec (connected 0) recovery = some s ∧ s.session = some 1 ∧ ¬ Stuck s ∧ s.bare = [] := by
  have hr : (system.exec (connected 0) recovery).any (fun s => s.session = some 1) = true := by
    decide +kernel
  rw [Option.any_eq_true] at hr
  obtain ⟨s, he, hs⟩ := hr
  exact ⟨s, he, of_decide_eq_true hs,
    recovers_of_sound (connected 0) s recovery ⟨0, rfl⟩ (by decide +kernel) he⟩

/-- A single failed handshake leaves the client stuck, and a call overtaken by
another's handshake sends its request without a session. -/
theorem failed_handshake_is_final :
    system.init (connected 0) ∧
      (∃ s, system.exec (connected 0) failedHandshake = some s ∧ Stuck s) ∧
      (system.exec (connected 0) overtaken).map State.bare = some [1] := by
  refine ⟨⟨0, rfl⟩, ?_, by decide +kernel⟩
  have hr : (system.exec (connected 0) failedHandshake).any
      (fun s => s.session = none ∧ s.phases 0 = .idle) = true := by decide +kernel
  rw [Option.any_eq_true] at hr
  obtain ⟨s, he, hs⟩ := hr
  have hs := of_decide_eq_true hs
  refine ⟨s, he, stuck_of_idle hs.1 fun t => ?_⟩
  by_cases ht : t = 0
  · rw [ht]
    exact hs.2
  · rw [phases_exec (t := t) he (by
      intro l hl
      simp only [failedHandshake, List.mem_cons, List.not_mem_nil, or_false] at hl
      rcases hl with rfl | rfl | rfl | rfl | rfl | rfl | rfl | rfl | rfl | rfl <;>
        simp [Label.task, Ne.symm ht])]
    rfl

end MinMcp.L5.HttpSession
