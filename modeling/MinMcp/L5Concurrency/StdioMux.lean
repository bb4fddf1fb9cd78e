import MinMcp.Core.LTS
import MinMcp.L3Protocol.JsonRpc
import Mathlib.Logic.Function.Basic

/-!
# Requests over one pipe

Concurrent callers share the pipe of a child process (src/upstream.rs). A caller files
the sender of its channel in `pending` under the id of its request; the reader takes it
out when a line with that id comes and hands the outcome over. Time-outs, failed writes,
cancelled callers and the end of the child's output take entries out as well. Ids are
64-bit and wrap.

* `Proper`: what the log of a connection should look like. A caller receives one line at
  most, a response to the id it asked with, and nothing after its time-out.
* `Inv`, `inv_step`: an entry belongs to a caller that has not been answered, and what the
  reader holds or a channel carries is an answer to its caller.
* `log_proper`: every run in which no line awaited by its id has a `method` that is not a
  string ends with a proper log.
* `method_five_is_delivered`: a line whose `method` is a number is handed to the caller.

Not modelled: the method and parameters of a request, and the notification that a request
was given up.
-/
namespace MinMcp.L5.StdioMux

open MinMcp.Core MinMcp.L3.JsonRpc

/-- What a response says: its result, or its error object. -/
abbrev Outcome := Except Json Json

/-- Where a caller of `request` is. -/
inductive Phase where
  | allotted
  | sending
  | checking
  | waiting
  /-- The deadline passed and its entry is still to be removed. -/
  | expired
  /-- It fails and its entry is still to be removed. -/
  | closing
  | left
  deriving DecidableEq

def Phase.ended : Phase → Bool
  | .expired | .left => true
  | _ => false

/-- The channel from the reader to a caller; `closed` when the sender was dropped. -/
inductive Slot where
  | empty
  | full (line : Nat) (o : Outcome)
  | closed

structure Caller where
  id : Int64
  phase : Phase
  slot : Slot

inductive Reader where
  | idle
  | replying (reply : Json)
  | holding (r : Nat) (line : Nat) (o : Outcome)
  | ending
  | draining
  | stopped

inductive Event where
  | asked (r : Nat) (id : Int64)
  | read (line : Nat) (v : Json)
  | expired (r : Nat)
  | received (r : Nat) (line : Nat) (o : Outcome)
  deriving DecidableEq

structure State where
  nextId : Int64
  pending : Int64 → Option Nat
  dead : Bool
  stale : Bool
  reader : Reader
  callers : Nat → Option Caller
  /-- Lines read so far. -/
  lines : Nat
  /-- What happened, the newest first. -/
  log : List Event

def State.start : State := ⟨0, fun _ => none, false, false, .idle, fun _ => none, 0, []⟩

inductive Label where
  | allot (r : Nat)
  | register (r : Nat)
  | sent (r : Nat) (ok : Bool)
  | check (r : Nat)
  | receive (r : Nat)
  | expire (r : Nat)
  | unregister (r : Nat)
  | cancel (r : Nat)
  | line (text : List Char)
  | replied (ok : Bool)
  | handOver
  | eof
  | markDead
  | drain

/-! ## The reader -/

/-- What a line asks of the reader. -/
inductive Handled where
  | skip
  | reply (v : Json)
  | changed
  | route (id : Int64) (o : Outcome)

/-- mirrors src/upstream.rs:463-466 -/
def outcome (v : Json) : Outcome :=
  match v.get "error" with
  | some e => .error e
  | none => .ok ((v.get "result").getD .null)

/-- mirrors src/upstream.rs:431-461 -/
def handleLine (text : List Char) : Handled :=
  match JsonReader.read text with
  | none => .skip
  | some v =>
    match (v.get "method").bind Json.asStr with
    | some method =>
      match v.get "id" with
      | some reqId =>
        if method = "ping" then .reply (result reqId (.obj []))
        else .reply (error reqId methodNotFound s!"min-mcp does not support {method}")
      | none => if method = "notifications/tools/list_changed" then .changed else .skip
    | none =>
      match responseId v with
      | none => .skip
      | some id => .route id (outcome v)

/-! ## The steps -/

namespace State

def setPhase (s : State) (r : Nat) (p : Phase) : State :=
  { s with callers := Function.update s.callers r ((s.callers r).map fun c => { c with phase := p }) }

def setSlot (s : State) (r : Nat) (sl : Slot) : State :=
  { s with callers := Function.update s.callers r ((s.callers r).map fun c => { c with slot := sl }) }

/-- The entry under `id` is taken out and its sender dropped. -/
def dropSender (s : State) (id : Int64) : State :=
  match s.pending id with
  | none => s
  | some r => { s.setSlot r .closed with pending := Function.update s.pending id none }

def record (s : State) (e : Event) : State := { s with log := e :: s.log }

/-- A step of the caller `r`, in the phase `p`. -/
def inPhase (s : State) (r : Nat) (p : Phase) (f : Caller → Option State) : Option State :=
  match s.callers r with
  | some c => if c.phase = p then f c else none
  | none => none

/-- mirrors src/upstream.rs:372-373 -/
def allot (s : State) (r : Nat) : Option State :=
  match s.callers r with
  | some _ => none
  | none =>
    some ({ s with
      nextId := s.nextId + 1
      callers := Function.update s.callers r (some ⟨s.nextId + 1, .allotted, .empty⟩) }.record
        (.asked r (s.nextId + 1)))

/-- An entry that stood under the id is overwritten.
mirrors src/upstream.rs:374 -/
def register (s : State) (r : Nat) : Option State :=
  s.inPhase r .allotted fun c =>
    let s := (s.dropSender c.id).setPhase r .sending
    some { s with pending := Function.update s.pending c.id (some r) }

/-- mirrors src/upstream.rs:377-381 -/
def sent (s : State) (r : Nat) (ok : Bool) : Option State :=
  s.inPhase r .sending fun _ => some (s.setPhase r (if ok then .checking else .closing))

/-- mirrors src/upstream.rs:388-391 -/
def check (s : State) (r : Nat) : Option State :=
  s.inPhase r .checking fun _ => some (s.setPhase r (if s.dead then .closing else .waiting))

/-- mirrors src/upstream.rs:393-403 -/
def receive (s : State) (r : Nat) : Option State :=
  s.inPhase r .waiting fun c =>
    match c.slot with
    | .empty => none
    | .full line o => some ((s.setPhase r .left).record (.received r line o))
    | .closed => some (s.setPhase r .left)

/-- The deadline passes before anything is in the channel.
mirrors src/upstream.rs:407-409 -/
def expire (s : State) (r : Nat) : Option State :=
  s.inPhase r .waiting fun c =>
    match c.slot with
    | .empty => some ((s.setPhase r .expired).record (.expired r))
    | _ => none

/-- mirrors src/upstream.rs:378-380, 389-390, 410 -/
def unregister (s : State) (r : Nat) : Option State :=
  match s.callers r with
  | some c =>
    if c.phase = .closing then some { (s.dropSender c.id).setPhase r .left with dead := true }
    else if c.phase = .expired then some ((s.dropSender c.id).setPhase r .left)
    else none
  | none => none

/-- A caller is dropped at one of its awaits; its entry stays. -/
def cancel (s : State) (r : Nat) : Option State :=
  match s.callers r with
  | some c => if c.phase = .sending ∨ c.phase = .waiting then some (s.setPhase r .left) else none
  | none => none

/-- A line came; the messages among the lines are logged. -/
def readLine (s : State) (text : List Char) : State :=
  match JsonReader.read text with
  | some v => { s with lines := s.lines + 1 }.record (.read s.lines v)
  | none => { s with lines := s.lines + 1 }

/-- The loop's body up to the removal of the entry.
mirrors src/upstream.rs:427-462 -/
def line (s : State) (text : List Char) : Option State :=
  match s.reader with
  | .idle =>
    match handleLine text with
    | .skip => some (s.readLine text)
    | .reply v => some { s.readLine text with reader := .replying v }
    | .changed => some { s.readLine text with stale := true }
    | .route id o =>
      match s.pending id with
      | none => some (s.readLine text)
      | some r =>
        some { s.readLine text with
          reader := .holding r s.lines o, pending := Function.update s.pending id none }
  | _ => none

/-- mirrors src/upstream.rs:443-445 -/
def replied (s : State) (ok : Bool) : Option State :=
  match s.reader with
  | .replying _ => some { s with reader := if ok then .idle else .ending }
  | _ => none

/-- `tx.send`; nobody reads the channel of a caller that has left.
mirrors src/upstream.rs:467 -/
def handOver (s : State) : Option State :=
  match s.reader with
  | .holding r line o => some { s.setSlot r (.full line o) with reader := .idle }
  | _ => none

def eof (s : State) : Option State :=
  match s.reader with
  | .idle => some { s with reader := .ending }
  | _ => none

/-- mirrors src/upstream.rs:471 -/
def markDead (s : State) : Option State :=
  match s.reader with
  | .ending => some { s with dead := true, reader := .draining }
  | _ => none

/-- mirrors src/upstream.rs:472-482 -/
def drain (s : State) : Option State :=
  match s.reader with
  | .draining =>
    some { s with
      reader := .stopped
      pending := fun _ => none
      callers := fun r => (s.callers r).map fun c =>
        if s.pending c.id = some r then { c with slot := .closed } else c }
  | _ => none

def step (s : State) : Label → Option State
  | .allot r => s.allot r
  | .register r => s.register r
  | .sent r ok => s.sent r ok
  | .check r => s.check r
  | .receive r => s.receive r
  | .expire r => s.expire r
  | .unregister r => s.unregister r
  | .cancel r => s.cancel r
  | .line text => s.line text
  | .replied ok => s.replied ok
  | .handOver => s.handOver
  | .eof => s.eof
  | .markDead => s.markDead
  | .drain => s.drain

end State

def connection : LTS State Label := ⟨(· = .start), State.step⟩

/-! ## What should happen -/

/-- Line `k` is a response to `id` that says `o`. -/
def Answer (log : List Event) (id : Int64) (k : Nat) (o : Outcome) : Prop :=
  ∃ v, .read k v ∈ log ∧ IsResponse v ∧ responseId v = some id ∧ o = outcome v

/-- A log, the newest event first, in which lines are numbered apart, a caller asks with
one id, and receives one response to it at most and none after its time-out. -/
def Proper : List Event → Prop
  | [] => True
  | .asked r _ :: past => (∀ id, .asked r id ∉ past) ∧ Proper past
  | .read k _ :: past => (∀ v, .read k v ∉ past) ∧ Proper past
  | .expired r :: past => (∀ k o, .received r k o ∉ past) ∧ Proper past
  | .received r k o :: past =>
    (∃ id, .asked r id ∈ past ∧ Answer past id k o) ∧ .expired r ∉ past ∧
      (∀ k' o', .received r k' o' ∉ past) ∧ Proper past

/-- A line that is awaited by its id has no `method`, or a string there. -/
def methodReads (s : State) : Label → Bool
  | .line text =>
    (JsonReader.read text).all fun v =>
      (v.get "method").all (fun w => w.asStr.isSome) ||
        (responseId v).all fun id => (s.pending id).isNone
  | _ => true

/-! ## The invariant -/

structure Inv (s : State) : Prop where
  proper : Proper s.log
  /-- Who stands in `pending` stands under its own id. -/
  entry : ∀ id r, s.pending id = some r → ∃ c, s.callers r = some c ∧ c.id = id
  held : ∀ r k o, s.reader = .holding r k o → ∃ c, s.callers r = some c ∧ Answer s.log c.id k o
  full : ∀ r c k o, s.callers r = some c → c.slot = .full k o → Answer s.log c.id k o
  asked : ∀ r c, s.callers r = some c → .asked r c.id ∈ s.log
  /-- Nothing was logged of a request that was not made. -/
  fresh : ∀ r, s.callers r = none → (∀ id, .asked r id ∉ s.log) ∧ .expired r ∉ s.log ∧
    ∀ k o, .received r k o ∉ s.log
  /-- A caller that is still there has not timed out and has received nothing. -/
  live : ∀ r c, s.callers r = some c → c.phase.ended = false →
    .expired r ∉ s.log ∧ ∀ k o, .received r k o ∉ s.log
  numbered : ∀ k v, .read k v ∈ s.log → k < s.lines

theorem Answer.mono {log log' : List Event} {id : Int64} {k : Nat} {o : Outcome}
    (h : Answer log id k o) (hl : ∀ e ∈ log, e ∈ log') : Answer log' id k o := by
  obtain ⟨v, hv, hrest⟩ := h
  exact ⟨v, hl _ hv, hrest⟩

theorem inv_start : Inv .start where
  proper := trivial
  entry _ _ h := by cases h
  held _ _ _ h := by cases h
  full _ _ _ _ h := by cases h
  asked _ _ h := by cases h
  fresh _ _ := ⟨fun _ => List.not_mem_nil, List.not_mem_nil, fun _ _ => List.not_mem_nil⟩
  live _ _ h := by cases h
  numbered _ _ h := by cases h

section Parts

variable {s : State}

theorem inPhase_eq_some {s' : State} {r : Nat} {p : Phase} {f : Caller → Option State}
    (h : s.inPhase r p f = some s') : ∃ c, s.callers r = some c ∧ c.phase = p ∧ f c = some s' := by
  unfold State.inPhase at h
  split at h
  · next c hc =>
    split at h
    · exact ⟨c, hc, ‹_›, h⟩
    · cases h
  · cases h

/-- A caller behind an update of one caller's record. -/
theorem update_map_eq_some {f : Nat → Option Caller} {g : Caller → Caller} {r r' : Nat} {c : Caller}
    (h : Function.update f r ((f r).map g) r' = some c) :
    ∃ c₀, f r' = some c₀ ∧ ((r' = r ∧ c = g c₀) ∨ (r' ≠ r ∧ c = c₀)) := by
  by_cases he : r' = r
  · subst he
    rw [Function.update_self, Option.map_eq_some_iff] at h
    obtain ⟨c₀, hc, rfl⟩ := h
    exact ⟨c₀, hc, Or.inl ⟨rfl, rfl⟩⟩
  · rw [Function.update_of_ne he] at h
    exact ⟨c, h, Or.inr ⟨he, rfl⟩⟩

/-- No caller goes, and what `g` leaves alone stays. -/
theorem update_map_of_some {β : Type} {f : Nat → Option Caller} {g : Caller → Caller} (r : Nat) {r' : Nat}
    {c : Caller} (h : f r' = some c) {q : Caller → β} (hg : ∀ c, q (g c) = q c) :
    ∃ c', Function.update f r ((f r).map g) r' = some c' ∧ q c' = q c := by
  by_cases he : r' = r
  · subst he
    rw [Function.update_self, h]
    exact ⟨g c, rfl, hg c⟩
  · rw [Function.update_of_ne he]
    exact ⟨c, h, rfl⟩

theorem update_map_eq_none {f : Nat → Option Caller} {g : Caller → Caller} {r r' : Nat}
    (h : Function.update f r ((f r).map g) r' = none) : f r' = none := by
  by_cases he : r' = r
  · subst he
    rwa [Function.update_self, Option.map_eq_none_iff] at h
  · rwa [Function.update_of_ne he] at h

/-- A caller behind the arrival of one. -/
theorem update_eq_some {f : Nat → Option Caller} {r r' : Nat} {a c : Caller}
    (h : Function.update f r (some a) r' = some c) : (r' = r ∧ c = a) ∨ (r' ≠ r ∧ f r' = some c) := by
  by_cases he : r' = r
  · subst he
    rw [Function.update_self, Option.some.injEq] at h
    exact Or.inl ⟨rfl, h.symm⟩
  · rw [Function.update_of_ne he] at h
    exact Or.inr ⟨he, h⟩

theorem update_eq_none {f : Nat → Option Caller} {r r' : Nat} {a : Caller}
    (h : Function.update f r (some a) r' = none) : r' ≠ r ∧ f r' = none := by
  by_cases he : r' = r
  · subst he
    rw [Function.update_self] at h
    cases h
  · rw [Function.update_of_ne he] at h
    exact ⟨he, h⟩

theorem setPhase_callers {r' : Nat} {c : Caller} (h : s.callers r' = some c) (r : Nat) (p : Phase) :
    ∃ c', (s.setPhase r p).callers r' = some c' ∧ c'.id = c.id :=
  update_map_of_some r h fun _ => rfl

theorem setSlot_callers {r' : Nat} {c : Caller} (h : s.callers r' = some c) (r : Nat) (t : Slot) :
    ∃ c', (s.setSlot r t).callers r' = some c' ∧ c'.id = c.id :=
  update_map_of_some r h fun _ => rfl

theorem Inv.setPhase (h : Inv s) (r : Nat) {p : Phase}
    (hp : p.ended = false → ∀ c, s.callers r = some c → c.phase.ended = false) :
    Inv (s.setPhase r p) where
  proper := h.proper
  entry id r' he := by
    obtain ⟨c, hc, hid⟩ := h.entry id r' he
    obtain ⟨c', hc', hid'⟩ := setPhase_callers hc r p
    exact ⟨c', hc', hid'.trans hid⟩
  held r' k o hr := by
    obtain ⟨c, hc, ha⟩ := h.held r' k o hr
    obtain ⟨c', hc', hid⟩ := setPhase_callers hc r p
    exact ⟨c', hc', hid ▸ ha⟩
  full r' c k o hc hs := by
    obtain ⟨c₀, hc₀, ⟨-, rfl⟩ | ⟨-, rfl⟩⟩ := update_map_eq_some hc
    · exact h.full r' c₀ k o hc₀ hs
    · exact h.full r' c k o hc₀ hs
  asked r' c hc := by
    obtain ⟨c₀, hc₀, ⟨-, rfl⟩ | ⟨-, rfl⟩⟩ := update_map_eq_some hc
    · exact h.asked r' c₀ hc₀
    · exact h.asked r' c hc₀
  fresh r' hn := h.fresh r' (update_map_eq_none hn)
  live r' c hc he := by
    obtain ⟨c₀, hc₀, ⟨rfl, rfl⟩ | ⟨-, rfl⟩⟩ := update_map_eq_some hc
    · exact h.live r' c₀ hc₀ (hp he c₀ hc₀)
    · exact h.live r' c hc₀ he
  numbered := h.numbered

theorem Inv.setSlot (h : Inv s) (r : Nat) {t : Slot}
    (hs : ∀ c k o, s.callers r = some c → t = .full k o → Answer s.log c.id k o) :
    Inv (s.setSlot r t) where
  proper := h.proper
  entry id r' he := by
    obtain ⟨c, hc, hid⟩ := h.entry id r' he
    obtain ⟨c', hc', hid'⟩ := setSlot_callers hc r t
    exact ⟨c', hc', hid'.trans hid⟩
  held r' k o hr := by
    obtain ⟨c, hc, ha⟩ := h.held r' k o hr
    obtain ⟨c', hc', hid⟩ := setSlot_callers hc r t
    exact ⟨c', hc', hid ▸ ha⟩
  full r' c k o hc hfull := by
    obtain ⟨c₀, hc₀, ⟨rfl, rfl⟩ | ⟨-, rfl⟩⟩ := update_map_eq_some hc
    · exact hs c₀ k o hc₀ hfull
    · exact h.full r' c k o hc₀ hfull
  asked r' c hc := by
    obtain ⟨c₀, hc₀, ⟨-, rfl⟩ | ⟨-, rfl⟩⟩ := update_map_eq_some hc
    · exact h.asked r' c₀ hc₀
    · exact h.asked r' c hc₀
  fresh r' hn := h.fresh r' (update_map_eq_none hn)
  live r' c hc he := by
    obtain ⟨c₀, hc₀, ⟨-, rfl⟩ | ⟨-, rfl⟩⟩ := update_map_eq_some hc
    · exact h.live r' c₀ hc₀ he
    · exact h.live r' c hc₀ he
  numbered := h.numbered

/-- Entries may go, and others may be filed under their caller's id. -/
theorem Inv.setPending (h : Inv s) {p : Int64 → Option Nat}
    (hp : ∀ id r, p id = some r → ∃ c, s.callers r = some c ∧ c.id = id) :
    Inv { s with pending := p } :=
  ⟨h.proper, hp, h.held, h.full, h.asked, h.fresh, h.live, h.numbered⟩

theorem Inv.removeEntry (h : Inv s) (id : Int64) :
    Inv { s with pending := Function.update s.pending id none } := by
  apply h.setPending
  intro id' r hr
  by_cases he : id' = id
  · subst he
    rw [Function.update_self] at hr
    cases hr
  · rw [Function.update_of_ne he] at hr
    exact h.entry id' r hr

theorem Inv.dropSender (h : Inv s) (id : Int64) : Inv (s.dropSender id) := by
  unfold State.dropSender
  split
  · exact h
  · next r hr =>
    have hslot := h.setSlot r (t := .closed) (by intro c k o _ hc; cases hc)
    exact hslot.removeEntry id

/-- The reader moves on, with nothing in its hands. -/
theorem Inv.setReader (h : Inv s) {d : Reader} (hr : ∀ r k o, d ≠ .holding r k o) :
    Inv { s with reader := d } :=
  ⟨h.proper, h.entry, fun r k o he => absurd he (hr r k o), h.full, h.asked, h.fresh, h.live, h.numbered⟩

/-- What happens to a caller is logged when it has ended, and no request is made. -/
theorem Inv.record (h : Inv s) {e : Event} (hp : Proper (e :: s.log))
    (hend : ∀ r, (e = .expired r ∨ ∃ k o, e = .received r k o) →
      ∃ c, s.callers r = some c ∧ c.phase.ended = true)
    (hasked : ∀ r id, e ≠ .asked r id) (hread : ∀ k v, e = .read k v → k < s.lines) :
    Inv (s.record e) := by
  have mono : ∀ e' ∈ s.log, e' ∈ e :: s.log := fun e' he => List.mem_cons_of_mem _ he
  have hclean : ∀ r, (∀ c, s.callers r = some c → c.phase.ended = false) →
      (.expired r ∉ s.log ∧ ∀ k o, .received r k o ∉ s.log) →
      .expired r ∉ e :: s.log ∧ ∀ k o, .received r k o ∉ e :: s.log := by
    intro r hlive hold
    have hnot : ¬ (e = .expired r ∨ ∃ k o, e = .received r k o) := by
      intro he
      obtain ⟨c, hc, hended⟩ := hend r he
      rw [hlive c hc] at hended
      cases hended
    refine ⟨fun hm => ?_, fun k o hm => ?_⟩
    · rcases List.mem_cons.mp hm with hm | hm
      · exact hnot (Or.inl hm.symm)
      · exact hold.1 hm
    · rcases List.mem_cons.mp hm with hm | hm
      · exact hnot (Or.inr ⟨k, o, hm.symm⟩)
      · exact hold.2 k o hm
  refine ⟨hp, h.entry, ?_, ?_, ?_, ?_, ?_, ?_⟩
  · intro r k o hr
    obtain ⟨c, hc, ha⟩ := h.held r k o hr
    exact ⟨c, hc, ha.mono mono⟩
  · exact fun r c k o hc hs => (h.full r c k o hc hs).mono mono
  · exact fun r c hc => mono _ (h.asked r c hc)
  · intro r hn
    obtain ⟨hno, hold⟩ := h.fresh r hn
    refine ⟨fun id hm => ?_, hclean r (by
      intro c hc
      rw [show s.callers r = none from hn] at hc
      cases hc) hold⟩
    rcases List.mem_cons.mp hm with hm | hm
    · exact hasked r id hm.symm
    · exact hno id hm
  · intro r c hc he
    refine hclean r ?_ (h.live r c hc he)
    intro c' hc'
    obtain rfl := Option.some.inj (hc.symm.trans hc')
    exact he
  · intro k v hm
    rcases List.mem_cons.mp hm with hm | hm
    · exact hread k v hm.symm
    · exact h.numbered k v hm

/-! ## Steps -/

theorem inv_allot {s' : State} {r : Nat} (h : Inv s) (hs : s.allot r = some s') : Inv s' := by
  unfold State.allot at hs
  split at hs
  · cases hs
  · next hnone =>
    obtain rfl := Option.some.inj hs
    obtain ⟨hno, hexp, hrec⟩ := h.fresh r hnone
    have mono : ∀ e ∈ s.log, e ∈ Event.asked r (s.nextId + 1) :: s.log :=
      fun e he => List.mem_cons_of_mem _ he
    -- only the question is new in the log
    have hold : ∀ e, (∀ r id, e ≠ .asked r id) → e ∈ Event.asked r (s.nextId + 1) :: s.log → e ∈ s.log :=
      fun e hne hm => (List.mem_cons.mp hm).resolve_left (hne r (s.nextId + 1))
    -- the callers that were there are still there
    have hkeep : ∀ r' c, s.callers r' = some c →
        Function.update s.callers r (some ⟨s.nextId + 1, .allotted, .empty⟩) r' = some c := by
      intro r' c hc
      rw [Function.update_of_ne, hc]
      rintro rfl
      rw [hnone] at hc
      cases hc
    refine ⟨⟨hno, h.proper⟩, ?_, ?_, ?_, ?_, ?_, ?_, ?_⟩
    · intro id r' he
      obtain ⟨c, hc, hid⟩ := h.entry id r' he
      exact ⟨c, hkeep r' c hc, hid⟩
    · intro r' k o hr
      obtain ⟨c, hc, ha⟩ := h.held r' k o hr
      exact ⟨c, hkeep r' c hc, ha.mono mono⟩
    · intro r' c k o hc hfull
      rcases update_eq_some hc with ⟨-, rfl⟩ | ⟨-, hc⟩
      · cases hfull
      · exact (h.full r' c k o hc hfull).mono mono
    · intro r' c hc
      rcases update_eq_some hc with ⟨rfl, rfl⟩ | ⟨-, hc⟩
      · exact List.mem_cons_self
      · exact mono _ (h.asked r' c hc)
    · intro r' hn
      obtain ⟨hne, hn'⟩ := update_eq_none hn
      obtain ⟨hno', hexp', hrec'⟩ := h.fresh r' hn'
      refine ⟨fun id hm => ?_, fun hm => hexp' (hold _ nofun hm), fun k o hm => hrec' k o (hold _ nofun hm)⟩
      rcases List.mem_cons.mp hm with hm | hm
      · injection hm with hr
        exact hne hr
      · exact hno' id hm
    · intro r' c hc he
      have hlive : .expired r' ∉ s.log ∧ ∀ k o, .received r' k o ∉ s.log := by
        rcases update_eq_some hc with ⟨rfl, -⟩ | ⟨-, hc⟩
        · exact ⟨hexp, hrec⟩
        · exact h.live r' c hc he
      exact ⟨fun hm => hlive.1 (hold _ nofun hm), fun k o hm => hlive.2 k o (hold _ nofun hm)⟩
    · exact fun k v hm => h.numbered k v (hold _ nofun hm)

theorem dropSender_callers {r : Nat} {c : Caller} (h : s.callers r = some c) (id : Int64) :
    ∃ c', (s.dropSender id).callers r = some c' ∧ c'.id = c.id ∧ c'.phase = c.phase := by
  unfold State.dropSender
  split
  · exact ⟨c, h, rfl, rfl⟩
  · next r' _ =>
    obtain ⟨c', hc', he⟩ := update_map_of_some (g := fun c => { c with slot := .closed }) r' h
      (q := fun c => (c.id, c.phase)) fun _ => rfl
    rw [Prod.mk.injEq] at he
    exact ⟨c', hc', he⟩

theorem inv_register {s' : State} {r : Nat} (h : Inv s) (hs : s.register r = some s') : Inv s' := by
  obtain ⟨c, hc, hphase, hs⟩ := inPhase_eq_some hs
  obtain rfl := Option.some.inj hs
  obtain ⟨c', hc', hid, hphase'⟩ := dropSender_callers hc c.id
  have hp := (h.dropSender c.id).setPhase r (p := .sending) (by
    intro _ d hd
    obtain rfl := Option.some.inj (hc'.symm.trans hd)
    rw [hphase', hphase]
    rfl)
  apply hp.setPending
  intro id r' he
  by_cases hid' : id = c.id
  · subst hid'
    rw [Function.update_self] at he
    obtain rfl := Option.some.inj he
    obtain ⟨c'', hc'', hid''⟩ := setPhase_callers hc' r .sending
    exact ⟨c'', hc'', hid''.trans hid⟩
  · rw [Function.update_of_ne hid'] at he
    exact hp.entry id r' he

theorem inv_sent {s' : State} {r : Nat} {ok : Bool} (h : Inv s) (hs : s.sent r ok = some s') : Inv s' := by
  obtain ⟨c, hc, hphase, hs⟩ := inPhase_eq_some hs
  obtain rfl := Option.some.inj hs
  apply h.setPhase
  intro _ d hd
  obtain rfl := Option.some.inj (hc.symm.trans hd)
  rw [hphase]
  rfl

theorem inv_check {s' : State} {r : Nat} (h : Inv s) (hs : s.check r = some s') : Inv s' := by
  obtain ⟨c, hc, hphase, hs⟩ := inPhase_eq_some hs
  obtain rfl := Option.some.inj hs
  apply h.setPhase
  intro _ d hd
  obtain rfl := Option.some.inj (hc.symm.trans hd)
  rw [hphase]
  rfl

/-- A caller leaves, or its time is over. -/
theorem Inv.endPhase (h : Inv s) (r : Nat) {p : Phase} (hp : p.ended = true) : Inv (s.setPhase r p) :=
  h.setPhase r (by rw [hp]; intro he; cases he)

theorem setPhase_self {r : Nat} {c : Caller} (hc : s.callers r = some c) (p : Phase) :
    (s.setPhase r p).callers r = some { c with phase := p } := by
  have hself := Function.update_self r ((s.callers r).map fun c => { c with phase := p }) s.callers
  exact hself.trans (by rw [hc, Option.map_some])

/-- **Delivery.** A waiting caller receives what its channel carries. -/
theorem inv_receive {s' : State} {r : Nat} (h : Inv s) (hs : s.receive r = some s') : Inv s' := by
  obtain ⟨c, hc, hphase, hs⟩ := inPhase_eq_some hs
  split at hs
  · cases hs
  · next k o hslot =>
    obtain rfl := Option.some.inj hs
    have hans := h.full r c k o hc hslot
    obtain ⟨hexp, hrec⟩ := h.live r c hc (by rw [hphase]; rfl)
    apply (h.endPhase r (p := .left) rfl).record
    · exact ⟨⟨c.id, h.asked r c hc, hans⟩, hexp, hrec, h.proper⟩
    · rintro r' (he | ⟨k', o', he⟩)
      · cases he
      · injection he with hr
        subst hr
        exact ⟨_, setPhase_self hc .left, rfl⟩
    · intro r' id he
      cases he
    · intro k' v he
      cases he
  · obtain rfl := Option.some.inj hs
    exact h.endPhase r rfl

theorem inv_expire {s' : State} {r : Nat} (h : Inv s) (hs : s.expire r = some s') : Inv s' := by
  obtain ⟨c, hc, hphase, hs⟩ := inPhase_eq_some hs
  split at hs
  · obtain rfl := Option.some.inj hs
    obtain ⟨-, hrec⟩ := h.live r c hc (by rw [hphase]; rfl)
    apply (h.endPhase r (p := .expired) rfl).record
    · exact ⟨hrec, h.proper⟩
    · rintro r' (he | ⟨k', o', he⟩)
      · injection he with hr
        subst hr
        exact ⟨_, setPhase_self hc .expired, rfl⟩
      · cases he
    · intro r' id he
      cases he
    · intro k' v he
      cases he
  · cases hs

theorem inv_unregister {s' : State} {r : Nat} (h : Inv s) (hs : s.unregister r = some s') : Inv s' := by
  unfold State.unregister at hs
  split at hs
  · next c hc =>
    have hleft := (h.dropSender c.id).endPhase r (p := .left) rfl
    split at hs
    · obtain rfl := Option.some.inj hs
      exact ⟨hleft.proper, hleft.entry, hleft.held, hleft.full, hleft.asked, hleft.fresh, hleft.live,
        hleft.numbered⟩
    · split at hs
      · obtain rfl := Option.some.inj hs
        exact hleft
      · cases hs
  · cases hs

theorem inv_cancel {s' : State} {r : Nat} (h : Inv s) (hs : s.cancel r = some s') : Inv s' := by
  unfold State.cancel at hs
  split at hs
  · split at hs
    · obtain rfl := Option.some.inj hs
      exact h.endPhase r rfl
    · cases hs
  · cases hs

/-- What is routed was read off a message without a method, or with one that is not a
string. -/
theorem handleLine_route {text : List Char} {id : Int64} {o : Outcome} (h : handleLine text = .route id o) :
    ∃ v, JsonReader.read text = some v ∧ (v.get "method").bind Json.asStr = none ∧
      responseId v = some id ∧ o = outcome v := by
  unfold handleLine at h
  split at h
  · cases h
  · next v hv =>
    split at h
    · split at h
      · split at h <;> cases h
      · split at h <;> cases h
    · next hm =>
      split at h
      · cases h
      · next id' hid =>
        injection h with h1 h2
        subst h1
        exact ⟨v, hv, hm, hid, h2.symm⟩

theorem Inv.readLine (h : Inv s) (text : List Char) : Inv (s.readLine text) := by
  have hnext : Inv { s with lines := s.lines + 1 } :=
    ⟨h.proper, h.entry, h.held, h.full, h.asked, h.fresh, h.live,
      fun k v hm => Nat.lt_succ_of_lt (h.numbered k v hm)⟩
  unfold State.readLine
  split
  · next v _ =>
    apply hnext.record
    · exact ⟨fun w hm => Nat.lt_irrefl _ (h.numbered _ w hm), h.proper⟩
    · rintro r (he | ⟨k, o, he⟩) <;> cases he
    · intro r id he
      cases he
    · intro k w he
      injection he with hk
      exact hk ▸ Nat.lt_succ_self _
  · exact hnext

theorem readLine_callers (s : State) (text : List Char) : (s.readLine text).callers = s.callers := by
  unfold State.readLine
  split <;> rfl

theorem readLine_pending (s : State) (text : List Char) : (s.readLine text).pending = s.pending := by
  unfold State.readLine
  split <;> rfl

/-- A line that is routed is a response, when its `method` reads. -/
theorem response_of_methodReads {text : List Char} {v : Json} {id : Int64} {r : Nat}
    (hg : methodReads s (.line text) = true) (hv : JsonReader.read text = some v)
    (hm : (v.get "method").bind Json.asStr = none) (hid : responseId v = some id)
    (hr : s.pending id = some r) : IsResponse v := by
  simp only [methodReads, hv, Option.all_some, hid, hr, Option.isNone_some, Bool.or_false] at hg
  unfold IsResponse
  cases hw : v.get "method" with
  | none => rfl
  | some w =>
    rw [hw] at hg hm
    rw [Option.all_some, Option.isSome_iff_exists] at hg
    obtain ⟨t, ht⟩ := hg
    rw [Option.bind_some, ht] at hm
    cases hm

theorem inv_line {s' : State} {text : List Char} (h : Inv s) (hg : methodReads s (.line text) = true)
    (hs : s.line text = some s') : Inv s' := by
  unfold State.line at hs
  have hread := h.readLine text
  split at hs
  · next hidle =>
    split at hs
    · obtain rfl := Option.some.inj hs
      exact hread
    · obtain rfl := Option.some.inj hs
      exact hread.setReader (by intro r k o he; cases he)
    · obtain rfl := Option.some.inj hs
      exact ⟨hread.proper, hread.entry, hread.held, hread.full, hread.asked, hread.fresh, hread.live,
        hread.numbered⟩
    · next id o hroute =>
      split at hs
      · obtain rfl := Option.some.inj hs
        exact hread
      · next r hr =>
        obtain rfl := Option.some.inj hs
        obtain ⟨v, hv, hm, hid, ho⟩ := handleLine_route hroute
        obtain ⟨c, hc, rfl⟩ := h.entry id r hr
        have hremoved := hread.removeEntry c.id
        rw [readLine_pending] at hremoved
        refine ⟨hremoved.proper, hremoved.entry, ?_, hremoved.full, hremoved.asked, hremoved.fresh,
          hremoved.live, hremoved.numbered⟩
        intro r' k' o' he
        injection he with h1 h2 h3
        subst h1 h2 h3
        refine ⟨c, (congrFun (readLine_callers s text) r).trans hc, v, ?_,
          response_of_methodReads hg hv hm hid hr, hid, ho⟩
        simp only [State.readLine, hv]
        exact List.mem_cons_self
  · cases hs

theorem inv_replied {s' : State} {ok : Bool} (h : Inv s) (hs : s.replied ok = some s') : Inv s' := by
  unfold State.replied at hs
  split at hs
  · obtain rfl := Option.some.inj hs
    apply h.setReader
    intro r k o he
    cases ok <;> cases he
  · cases hs

theorem inv_handOver {s' : State} (h : Inv s) (hs : s.handOver = some s') : Inv s' := by
  unfold State.handOver at hs
  split at hs
  · next r k o hr =>
    obtain rfl := Option.some.inj hs
    obtain ⟨c, hc, hans⟩ := h.held r k o hr
    have hslot := h.setSlot r (t := .full k o) (by
      intro d k' o' hd he
      obtain rfl := Option.some.inj (hc.symm.trans hd)
      injection he with h1 h2
      subst h1 h2
      exact hans)
    exact hslot.setReader (by intro r k o he; cases he)
  · cases hs

theorem inv_eof {s' : State} (h : Inv s) (hs : s.eof = some s') : Inv s' := by
  unfold State.eof at hs
  split at hs
  · obtain rfl := Option.some.inj hs
    exact h.setReader (by intro r k o he; cases he)
  · cases hs

theorem inv_markDead {s' : State} (h : Inv s) (hs : s.markDead = some s') : Inv s' := by
  unfold State.markDead at hs
  split at hs
  · obtain rfl := Option.some.inj hs
    have hr := h.setReader (d := .draining) (by intro r k o he; cases he)
    exact ⟨hr.proper, hr.entry, hr.held, hr.full, hr.asked, hr.fresh, hr.live, hr.numbered⟩
  · cases hs

theorem inv_drain {s' : State} (h : Inv s) (hs : s.drain = some s') : Inv s' := by
  unfold State.drain at hs
  split at hs
  · obtain rfl := Option.some.inj hs
    have hcases : ∀ r c, ((s.callers r).map fun c =>
        if s.pending c.id = some r then { c with slot := Slot.closed } else c) = some c →
        ∃ c₀, s.callers r = some c₀ ∧ c.id = c₀.id ∧ c.phase = c₀.phase ∧
          (c.slot = .closed ∨ c.slot = c₀.slot) := by
      intro r c hc
      rw [Option.map_eq_some_iff] at hc
      obtain ⟨c₀, hc₀, rfl⟩ := hc
      refine ⟨c₀, hc₀, ?_⟩
      split
      · exact ⟨rfl, rfl, Or.inl rfl⟩
      · exact ⟨rfl, rfl, Or.inr rfl⟩
    refine ⟨h.proper, ?_, ?_, ?_, ?_, ?_, ?_, h.numbered⟩
    · intro id r he
      cases he
    · intro r k o he
      cases he
    · intro r c k o hc hfull
      obtain ⟨c₀, hc₀, hid, -, hslot | hslot⟩ := hcases r c hc
      · rw [hslot] at hfull
        cases hfull
      · rw [hid]
        exact h.full r c₀ k o hc₀ (hslot ▸ hfull)
    · intro r c hc
      obtain ⟨c₀, hc₀, hid, -⟩ := hcases r c hc
      rw [hid]
      exact h.asked r c₀ hc₀
    · intro r hn
      exact h.fresh r (Option.map_eq_none_iff.mp hn)
    · intro r c hc he
      obtain ⟨c₀, hc₀, -, hphase, -⟩ := hcases r c hc
      exact h.live r c₀ hc₀ (hphase ▸ he)
  · cases hs

end Parts

/-- **Step.** -/
theorem inv_step : connection.Preserves (fun s l => methodReads s l = true) Inv := by
  intro s l s' h hg hs
  cases l with
  | allot r => exact inv_allot h hs
  | register r => exact inv_register h hs
  | sent r ok => exact inv_sent h hs
  | check r => exact inv_check h hs
  | receive r => exact inv_receive h hs
  | expire r => exact inv_expire h hs
  | unregister r => exact inv_unregister h hs
  | cancel r => exact inv_cancel h hs
  | line text => exact inv_line h hg hs
  | replied ok => exact inv_replied h hs
  | handOver => exact inv_handOver h hs
  | eof => exact inv_eof h hs
  | markDead => exact inv_markDead h hs
  | drain => exact inv_drain h hs

theorem inv_invariant : connection.Invariant (fun s l => methodReads s l = true) Inv where
  init s hs := by
    obtain rfl : s = .start := hs
    exact inv_start
  step := inv_step

/-- **Multiplexing.** In every run in which no line awaited by its id has a `method` that
is not a string, each caller receives one line at most, a response to its own id, and none
after its time-out. -/
theorem log_proper (ls : List Label) (s : State)
    (hg : connection.Guarded (fun s l => methodReads s l = true) .start ls)
    (hs : connection.exec .start ls = some s) : Proper s.log :=
  (inv_invariant.exec rfl hg hs).proper

/-! ## Two runs -/

/-- The steps of `request` up to the wait. -/
def ask (r : Nat) : List Label := [.allot r, .register r, .sent r true, .check r]

/-- The first of two callers times out. Then its answer comes, and the other's, with the id
as a string. -/
def lateRun : List Label :=
  ask 0 ++ ask 1 ++ [.expire 0, .unregister 0, .line "\x7b\"id\":1,\"result\":1\x7d".toList,
    .line "\x7b\"id\":\"2\",\"result\":2\x7d".toList, .handOver, .receive 1]

theorem late_is_discarded :
    ∃ s, connection.exec .start lateRun = some s ∧
      s.log.head? = some (.received 1 1 (.ok (.num (Num.ofNat 2)))) ∧ Proper s.log := by
  have hr : (connection.exec .start lateRun).map (fun s => s.log.head?) =
      some (some (.received 1 1 (.ok (.num (Num.ofNat 2))))) := by decide +kernel
  obtain ⟨s, hs, hhead⟩ := Option.map_eq_some_iff.mp hr
  exact ⟨s, hs, hhead, log_proper lateRun s (by decide +kernel) hs⟩

def methodFiveRun : List Label :=
  ask 0 ++ [.line "\x7b\"id\":1,\"method\":5,\"result\":1\x7d".toList, .handOver, .receive 0]

/-- A line with our id and the number 5 for its `method` is handed to the caller. -/
theorem method_five_is_delivered :
    ∃ s, connection.exec .start methodFiveRun = some s ∧ ¬ Proper s.log := by
  have hr : (connection.exec .start methodFiveRun).map State.log =
      some [.received 0 0 (.ok (.num (Num.ofNat 1))),
        .read 0 (.obj [("id", .num (Num.ofNat 1)), ("method", .num (Num.ofNat 5)),
          ("result", .num (Num.ofNat 1))]), .asked 0 1] := by decide +kernel
  obtain ⟨s, hs, hlog⟩ := Option.map_eq_some_iff.mp hr
  refine ⟨s, hs, ?_⟩
  rw [hlog]
  rintro ⟨⟨id, -, v, hv, hres, -⟩, -⟩
  rcases List.mem_cons.mp hv with hv | hv
  · injection hv with _ hv
    subst hv
    cases hres
  · rcases List.mem_cons.mp hv with hv | hv
    · cases hv
    · cases hv

end MinMcp.L5.StdioMux
