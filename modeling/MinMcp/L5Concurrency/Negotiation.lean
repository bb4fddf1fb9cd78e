import Mathlib.Logic.Function.Basic
import MinMcp.L3Protocol.Eras

/-!
# What the children of an upstream hear

A stdio upstream is a child after another (src/upstream.rs). The first is probed for its era, and
handed a handshake if it is legacy; a server that dies of the probe is started again for it. A
respawn knows the era and does not probe. Callers share the connected child, each keeps the one it
was given, and a caller whose deadline passes tells that child so. A child's reader answers what the
child asks of its own accord, one request after the other.

`told` is what was ever started. A frame is written whole or the write fails. When a respawn may
begin, and that the child a caller gets lived, is `Respawn`; which response a caller receives is
`StdioMux`.

* `Session.hears` (of `Eras`): what a server may be told.
* `Connected`: a child that a caller may use is one whose handshake, if it has one, is over.
* `Inv`, `inv_step`: it holds of what is told.
* `children_hear_one_era`: so it does in every run, only the first child is ever probed, and what a
  child asks is answered once and in order.
-/
namespace MinMcp.L5.Negotiation

open MinMcp.Core MinMcp.L3.Eras

/-- A started child; `modern` is the flag its requests go by, `asked` are the requests of its own
that its reader took.
mirrors src/upstream.rs:235-257 -/
structure Child where
  modern : Bool
  dead : Bool
  nextId : Int64
  heard : List Frame
  reading : Bool
  asked : List (Json × String)
  /-- All are answered, but for the one whose answer could not be written. -/
  answered : heard.filter Frame.isReply <+: asked.map (fun q => replyTo q.1 q.2) ∧
    (reading = true → heard.filter Frame.isReply = asked.map fun q => replyTo q.1 q.2)

namespace Child

/-- mirrors src/upstream.rs:291-321 -/
def start : Child := ⟨false, false, 0, [], true, [], List.nil_prefix, fun _ => rfl⟩

def era (c : Child) : Era := if c.modern then .modern else .legacy

/-- mirrors src/upstream.rs:375 -/
def marks (c : Child) (params : Json) : Json := if c.modern then withMeta params else params

/-- mirrors src/upstream.rs:372 -/
def allot (c : Child) : Child := { c with nextId := c.nextId + 1 }

/-- A frame that is no reply. -/
def tell (c : Child) (f : Frame) (hf : f.isReply = false) : Child :=
  { c with
    heard := c.heard ++ [f]
    answered := by
      rw [List.filter_append, List.filter_singleton, hf, cond_false, List.append_nil]
      exact c.answered }

/-- mirrors src/upstream.rs:374-380 -/
def request (c : Child) (id : Int64) (method : String) (params : Json) (ok : Bool) : Child :=
  if ok then c.tell (.request id method (c.marks params)) rfl else { c with dead := true }

/-- mirrors src/upstream.rs:350-352 -/
def notify (c : Child) (method : String) (params : Json) (ok : Bool) : Child :=
  if ok then c.tell (.notification method params) rfl else c

/-- mirrors src/upstream.rs:359-365 -/
def cancel (c : Child) (id : Int64) (method : String) (ok : Bool) : Child :=
  if method = "initialize" ∨ method = "server/discover" then c
  else c.notify "notifications/cancelled" (cancelParams id) ok

/-- The reader is gone.
mirrors src/upstream.rs:467-470 -/
def die (c : Child) : Child := { c with dead := true, reading := false, answered := ⟨c.answered.1, fun h => absurd h Bool.false_ne_true⟩ }

/-- The reader takes a request of the child's own. It ends when it cannot write the answer.
mirrors src/upstream.rs:436-447 -/
def asks (c : Child) (hr : c.reading = true) (id : Json) (method : String) (ok : Bool) : Child :=
  if ok then
    { c with
      heard := c.heard ++ [replyTo id method]
      asked := c.asked ++ [(id, method)]
      answered := by
        rw [List.filter_append, c.answered.2 hr, List.map_append]
        exact ⟨List.prefix_rfl, fun _ => rfl⟩ }
  else
    { c with
      dead := true
      reading := false
      asked := c.asked ++ [(id, method)]
      answered := ⟨by rw [List.map_append]; exact c.answered.1.trans (List.prefix_append _ _), fun h => absurd h Bool.false_ne_true⟩ }

end Child

/-- Where `Conn::spawn` is. -/
inductive Stage where
  | probing
  | waiting
  /-- The server is legacy; its child may have died of the probe. -/
  | checking
  | initializing
  | offered
  | accepted
  | ready
  deriving DecidableEq

/-- The era is not known yet. -/
def Stage.Early (stage : Stage) : Prop := stage = .probing ∨ stage = .waiting

structure Spawn where
  stage : Stage
  child : Child

namespace Spawn

/-- mirrors src/upstream.rs:280-281 -/
def settle (era : Era) (c : Child) : Spawn :=
  ⟨if era = .modern then .ready else .checking, { c with modern := decide (era = .modern) }⟩

/-- mirrors src/upstream.rs:271-276 -/
def new : Option Era → Spawn
  | some era => settle era .start
  | none => ⟨.probing, { Child.start with modern := true }⟩

end Spawn

/-- A caller of `request`; `sent` when it waits. -/
structure Caller where
  child : Nat
  id : Int64
  ask : Ask
  sent : Bool

/-- `children` were started and are connected, or given up. -/
structure State where
  children : List Child
  conn : Option Nat
  era : Option Era
  spawn : Option Spawn
  callers : Nat → Option Caller
  /-- What became of the probe. -/
  answer : Option Probe

def State.initial : State := ⟨[], none, none, some (.new none), fun _ => none, none⟩

inductive Label where
  /-- A caller finds the connected child dead. -/
  | begin
  /-- The spawn writes its next frame. -/
  | sends (ok : Bool)
  | probed (p : Probe)
  | checks
  | shaken
  /-- The spawn's request is not answered in time. -/
  | lapses (ok : Bool)
  /-- The spawn fails, or its caller is dropped. -/
  | fails
  | connects
  /-- The child that is being spawned dies. -/
  | sinks
  | dies (n : Nat)
  /-- A child asks something; the one that is being spawned where there is no number. -/
  | asks (n : Option Nat) (id : Json) (method : String) (ok : Bool)
  | call (i : Nat) (ask : Ask)
  | write (i : Nat) (ok : Bool)
  | expire (i : Nat) (ok : Bool)
  | leave (i : Nat)

namespace State

variable (name : String) (s : State)

/-- Everything that was ever started. -/
def told : List Child := s.children ++ (s.spawn.map Spawn.child).toList

/-- mirrors src/upstream.rs:531-534 -/
def live : Bool := ((s.conn.bind fun n => s.children[n]?).map fun c => !c.dead).getD false

/-- mirrors src/upstream.rs:546-564 -/
def begin : Option State :=
  match s.spawn, s.era with
  | none, some era => if s.live then none else some { s with spawn := some (.new (some era)) }
  | _, _ => none

def giveUp (c : Child) : State := { s with spawn := none, children := s.children ++ [c] }

/-- mirrors src/upstream.rs:277-281 -/
def judge (c : Child) (p : Probe) : State :=
  match classifyProbe name p with
  | .ok era => { s with spawn := some (.settle era c), answer := some p }
  | .error _ => { s with answer := some p }.giveUp c

/-- mirrors src/upstream.rs:276-288, 324-337 -/
def sends (ok : Bool) : Option State :=
  match s.spawn with
  | some ⟨.probing, c⟩ =>
    let c' := c.allot.request c.allot.nextId "server/discover" (.obj []) ok
    if ok then some { s with spawn := some ⟨.waiting, c'⟩ } else some (s.judge name c' (.error .other))
  | some ⟨.initializing, c⟩ =>
    let c' := c.allot.request c.allot.nextId "initialize" initializeParams ok
    if ok then some { s with spawn := some ⟨.offered, c'⟩ } else some (s.giveUp c')
  | some ⟨.accepted, c⟩ =>
    let c' := c.notify "notifications/initialized" (.obj []) ok
    if ok then some { s with spawn := some ⟨.ready, c'⟩ } else some (s.giveUp c')
  | _ => none

def probed (p : Probe) : Option State :=
  match s.spawn with
  | some ⟨.waiting, c⟩ => some (s.judge name c p)
  | _ => none

/-- mirrors src/upstream.rs:281-287 -/
def checks : Option State :=
  match s.spawn with
  | some ⟨.checking, c⟩ =>
    if c.dead then some { s with spawn := some ⟨.initializing, .start⟩, children := s.children ++ [c] }
    else some { s with spawn := some ⟨.initializing, c⟩ }
  | _ => none

def shaken : Option State :=
  match s.spawn with
  | some ⟨.offered, c⟩ => some { s with spawn := some ⟨.accepted, c⟩ }
  | _ => none

/-- mirrors src/upstream.rs:407-417 -/
def lapses (ok : Bool) : Option State :=
  match s.spawn with
  | some ⟨.waiting, c⟩ => some (s.judge name (c.cancel c.nextId "server/discover" ok) (.error .other))
  | some ⟨.offered, c⟩ => some (s.giveUp (c.cancel c.nextId "initialize" ok))
  | _ => none

def fails : Option State := s.spawn.map fun sp => s.giveUp sp.child

/-- mirrors src/upstream.rs:508-518, 566-568 -/
def connects : Option State :=
  match s.spawn with
  | some ⟨.ready, c⟩ =>
    some { s with spawn := none, children := s.children ++ [c], conn := some s.children.length
                  era := s.era.or (some c.era) }
  | _ => none

def sinks : Option State :=
  s.spawn.map fun sp => { s with spawn := some { sp with child := sp.child.die } }

def setChild (n : Nat) (c : Child) : State := { s with children := s.children.set n c }

def setCaller (i : Nat) (k : Option Caller) : State := { s with callers := Function.update s.callers i k }

/-- mirrors src/upstream.rs:467-470 -/
def dies (n : Nat) : Option State := (s.children[n]?).map fun c => s.setChild n c.die

/-- mirrors src/upstream.rs:436-447 -/
def asks (n : Option Nat) (id : Json) (method : String) (ok : Bool) : Option State :=
  match n with
  | some n => (s.children[n]?).bind fun c =>
    if hr : c.reading = true then some (s.setChild n (c.asks hr id method ok)) else none
  | none => s.spawn.bind fun sp =>
    if hr : sp.child.reading = true then
      some { s with spawn := some { sp with child := sp.child.asks hr id method ok } }
    else none

/-- mirrors src/upstream.rs:577-579, 371-372 -/
def call (i : Nat) (ask : Ask) : Option State :=
  match s.callers i, s.conn with
  | none, some n =>
    (s.children[n]?).map fun c => (s.setChild n c.allot).setCaller i (some ⟨n, c.allot.nextId, ask, false⟩)
  | _, _ => none

/-- mirrors src/upstream.rs:374-380 -/
def write (i : Nat) (ok : Bool) : Option State :=
  match s.callers i with
  | some ⟨n, id, ask, false⟩ =>
    (s.children[n]?).map fun c =>
      (s.setChild n (c.request id ask.method ask.params ok)).setCaller i (if ok then some ⟨n, id, ask, true⟩ else none)
  | _ => none

/-- mirrors src/upstream.rs:407-417 -/
def expire (i : Nat) (ok : Bool) : Option State :=
  match s.callers i with
  | some ⟨n, id, ask, true⟩ =>
    (s.children[n]?).map fun c => (s.setChild n (c.cancel id ask.method ok)).setCaller i none
  | _ => none

def leave (i : Nat) : Option State := (s.callers i).map fun _ => s.setCaller i none

def step : Label → Option State
  | .begin => s.begin
  | .sends ok => s.sends name ok
  | .probed p => s.probed name p
  | .checks => s.checks
  | .shaken => s.shaken
  | .lapses ok => s.lapses name ok
  | .fails => s.fails
  | .connects => s.connects
  | .sinks => s.sinks
  | .dies n => s.dies n
  | .asks n id method ok => s.asks n id method ok
  | .call i ask => s.call i ask
  | .write i ok => s.write i ok
  | .expire i ok => s.expire i ok
  | .leave i => s.leave i

end State

def upstream (name : String) : LTS State Label := ⟨(· = .initial), State.step name⟩

/-! ## A child and its server -/

/-- The server has heard what its child was written, and was led that far. -/
def Hears (c : Child) (t : Session) : Prop := server.exec .start c.heard = some t

def Verdict (name : String) (s : State) (era : Era) : Prop :=
  ∃ p, s.answer = some p ∧ classifyProbe name p = .ok era

/-- Led by the rules, and into no era but the one its probe showed. -/
def Led (name : String) (s : State) (c : Child) : Prop :=
  ∃ t, Hears c t ∧ ∀ era, t.mode.era = some era → Verdict name s era

/-- What a child may be asked once it is connected is what its server expects. -/
def Opened (c : Child) (t : Session) : Prop :=
  c.modern = true ∧ t.mode.era ≠ some .legacy ∨ c.modern = false ∧ t.mode = .legacy

theorem Hears.snoc {c c' : Child} {t t' : Session} {f : Frame} (h : Hears c t) (hf : t.hears f = some t')
    (he : c'.heard = c.heard ++ [f]) : Hears c' t' := by
  unfold Hears
  rw [he, LTS.exec_append, h]
  simp [LTS.exec_cons, server, hf]

theorem heard_modern {c : Child} (h : c.modern = true) (id : Int64) (method : String) (params : Json) :
    (c.allot.request id method params true).heard = c.heard ++ [.request id method (withMeta params)] := by
  simp [Child.request, Child.tell, Child.marks, Child.allot, h]

theorem heard_legacy {c : Child} (h : c.modern = false) (id : Int64) (method : String) (params : Json) :
    (c.allot.request id method params true).heard = c.heard ++ [.request id method params] := by
  simp [Child.request, Child.tell, Child.marks, Child.allot, h]

theorem hears_probe (id : Int64) :
    Session.start.hears (.request id "server/discover" (withMeta (.obj []))) = some ⟨.probed, []⟩ := by
  have hm := marked_withMeta []
  simp [Session.hears, Session.start, hm]

theorem hears_offer {t : Session} (h : t.mode.era = none) (id : Int64) :
    t.hears (.request id "initialize" initializeParams) = some { t with mode := .offered } := by
  have hm : ¬Marked initializeParams := by decide
  have hmode : t.mode = .fresh ∨ t.mode = .probed := by
    obtain ⟨mode, asked⟩ := t
    cases mode <;> simp [Mode.era] at h ⊢
  simp [Session.hears, hm, hmode]

theorem hears_initialized {t : Session} (h : t.mode = .offered) :
    t.hears (.notification "notifications/initialized" (.obj [])) = some { t with mode := .legacy } := by
  simp [Session.hears, h]

theorem hears_cancel {t : Session} {id : Int64} (h : id ∈ t.asked) :
    t.hears (.notification "notifications/cancelled" (cancelParams id)) = some t := by
  have hany : (t.asked.any fun id' => decide (cancelParams id = cancelParams id')) = true :=
    List.any_eq_true.mpr ⟨id, h, decide_eq_true rfl⟩
  simp [Session.hears, hany]

/-- A connected child's server takes every request. -/
theorem hears_ask {c : Child} {t : Session} (h : Opened c t) (id : Int64) (a : Ask) :
    ∃ mode, t.hears (.request id a.method (c.marks a.params)) = some ⟨mode, id :: t.asked⟩ ∧
      Opened c ⟨mode, id :: t.asked⟩ ∧ mode.era = some c.era := by
  obtain ⟨h1, h2⟩ := a.method_ne
  obtain ⟨es, hes, hn⟩ := a.params_obj
  obtain ⟨mode, asked⟩ := t
  rcases h with ⟨hc, ht⟩ | ⟨hc, ht⟩
  · have hm := marked_withMeta es
    refine ⟨.modern, ?_, Or.inl ⟨hc, by simp [Mode.era]⟩, by simp [Child.era, hc, Mode.era]⟩
    cases mode <;> simp [Mode.era] at ht <;> simp [Session.hears, Session.call, h1, h2, Child.marks, hc, hes, hm]
  · have hm : ¬Marked (.obj es) := by simp [Marked, hn]
    obtain rfl : mode = .legacy := ht
    refine ⟨.legacy, ?_, Or.inr ⟨hc, rfl⟩, by simp [Child.era, hc, Mode.era]⟩
    simp [Session.hears, Session.call, h1, h2, Child.marks, hc, hes, hm]

/-- What the server of a child that is being spawned has been told. -/
def Fits : Stage → Child → Session → Prop
  | .probing, c, t => t = .start ∧ c.modern = true
  | .waiting, c, t => t.mode = .probed ∧ c.modern = true
  | .checking, c, t | .initializing, c, t => t.mode.era = none ∧ c.modern = false
  | .offered, c, t | .accepted, c, t => t.mode = .offered ∧ c.modern = false
  | .ready, c, t => Opened c t

theorem Fits.era {stage : Stage} {c : Child} {t : Session} {era : Era} (h : Fits stage c t)
    (ht : t.mode.era = some era) : ¬stage.Early ∧ era = c.era := by
  cases stage with
  | probing =>
    rw [h.1] at ht
    cases ht
  | waiting | checking | initializing =>
    rw [h.1] at ht
    cases ht
  | offered | accepted =>
    rw [h.1] at ht
    obtain rfl := Option.some.inj ht
    simp [Stage.Early, Child.era, h.2]
  | ready =>
    refine ⟨by simp [Stage.Early], ?_⟩
    rcases h with ⟨hc, h⟩ | ⟨hc, h⟩
    · rw [ht] at h
      cases era
      · exact absurd rfl h
      · simp [Child.era, hc]
    · rw [h] at ht
      obtain rfl := Option.some.inj ht
      simp [Child.era, hc]

theorem settle_fits {c : Child} {t : Session} (h : t.mode.era = none) (era : Era) :
    Fits (Spawn.settle era c).stage (Spawn.settle era c).child t := by
  cases era
  · exact ⟨h, rfl⟩
  · exact Or.inl ⟨rfl, by simp [h]⟩

theorem settle_child (era : Era) (c : Child) :
    ¬(Spawn.settle era c).stage.Early ∧ (Spawn.settle era c).child.era = era ∧
      (Spawn.settle era c).child.heard = c.heard := by
  cases era <;> simp [Spawn.settle, Stage.Early, Child.era]

/-! ## The invariant -/

/-- The child is there, its handshake over, and it heard the requests `ids`. -/
def Connected (name : String) (s : State) (n : Nat) (ids : List Int64) : Prop :=
  ∃ c t, s.children[n]? = some c ∧ Hears c t ∧ Opened c t ∧ Verdict name s c.era ∧ ∀ id ∈ ids, id ∈ t.asked

def Unprobed (c : Child) : Prop := ∀ f ∈ c.heard, f.isProbe = false

structure Spawning (name : String) (s : State) (sp : Spawn) : Prop where
  fits : ∃ t, Hears sp.child t ∧ Fits sp.stage sp.child t
  early : sp.stage.Early → s.answer = none ∧ s.children = []
  judged : ¬sp.stage.Early → Verdict name s sp.child.era
  later : s.children ≠ [] → Unprobed sp.child

structure Inv (name : String) (s : State) : Prop where
  led : ∀ c ∈ s.children, Led name s c
  spawning : ∀ sp, s.spawn = some sp → Spawning name s sp
  era : ∀ era, s.era = some era → Verdict name s era
  conn : ∀ n, s.conn = some n → Connected name s n []
  callers : ∀ i k, s.callers i = some k → Connected name s k.child (if k.sent then [k.id] else [])
  unprobed : ∀ n c, s.children[n + 1]? = some c → Unprobed c

variable {name : String} {s s' : State}

theorem Verdict.unique {e e' : Era} (h : Verdict name s e) (h' : Verdict name s e') : e = e' := by
  obtain ⟨p, hp, hc⟩ := h
  obtain ⟨p', hp', hc'⟩ := h'
  rw [hp] at hp'
  obtain rfl := Option.some.inj hp'
  rw [hc] at hc'
  exact Except.ok.inj hc'

theorem Spawning.led {sp : Spawn} (h : Spawning name s sp) : Led name s sp.child := by
  obtain ⟨t, ht, hf⟩ := h.fits
  refine ⟨t, ht, fun era he => ?_⟩
  obtain ⟨hl, rfl⟩ := hf.era he
  exact h.judged hl

theorem inv_initial : Inv name .initial where
  led c hc := absurd hc List.not_mem_nil
  spawning sp h := by
    obtain rfl := Option.some.inj h
    refine ⟨⟨.start, rfl, rfl, rfl⟩, fun _ => ⟨rfl, rfl⟩, fun hn => absurd (Or.inl rfl) hn, fun hn => absurd rfl hn⟩
  era _ h := by cases h
  conn _ h := by cases h
  callers _ _ h := by cases h
  unprobed n c h := by cases h

/-- The spawn goes on with another child, or with more told to this one. -/
theorem Inv.setSpawn (h : Inv name s) {sp : Spawn} (hs : Spawning name s sp) :
    Inv name { s with spawn := some sp } where
  led := h.led
  spawning sp' he := by
    obtain rfl := Option.some.inj he
    exact ⟨hs.fits, hs.early, hs.judged, hs.later⟩
  era := h.era
  conn := h.conn
  callers := h.callers
  unprobed := h.unprobed

theorem Connected.append {n : Nat} {ids : List Int64} (h : Connected name s n ids) (c : Child) :
    Connected name (s.giveUp c) n ids := by
  obtain ⟨c', t, hn, hr⟩ := h
  refine ⟨c', t, ?_, hr⟩
  rw [State.giveUp, List.getElem?_append_left (List.getElem?_eq_some_iff.mp hn).1]
  exact hn

/-- A child is given up, or kept for later. -/
theorem Inv.giveUp (h : Inv name s) {c : Child} (hl : Led name s c) (hu : s.children ≠ [] → Unprobed c) :
    Inv name (s.giveUp c) where
  led c' hc' := by
    rcases List.mem_append.mp hc' with hc' | hc'
    · exact h.led c' hc'
    · obtain rfl := List.mem_singleton.mp hc'
      exact hl
  spawning sp hsp := by cases hsp
  era := h.era
  conn n hn := (h.conn n hn).append c
  callers i k hk := (h.callers i k hk).append c
  unprobed n c' hc' := by
    by_cases hlt : n + 1 < s.children.length
    · rw [State.giveUp, List.getElem?_append_left hlt] at hc'
      exact h.unprobed n c' hc'
    · rw [State.giveUp, List.getElem?_append_right (by omega)] at hc'
      obtain rfl := List.mem_singleton.mp (List.mem_of_getElem? hc')
      refine hu fun hnil => ?_
      rw [hnil] at hc'
      simp at hc'

/-- A child is told more, or changes otherwise, and its server is not led astray. -/
theorem Inv.setChild (h : Inv name s) {n : Nat} {c d : Child} (hc : s.children[n]? = some c)
    (hl : Led name s d) (hera : d.modern = c.modern) (hu : Unprobed c → Unprobed d)
    (ho : ∀ t, Hears c t → Opened c t → ∃ t', Hears d t' ∧ Opened d t' ∧ ∀ id ∈ t.asked, id ∈ t'.asked) :
    Inv name (s.setChild n d) ∧
      ∀ m ids, Connected name s m ids → Connected name (s.setChild n d) m ids := by
  have hlt := (List.getElem?_eq_some_iff.mp hc).1
  have hconn : ∀ m ids, Connected name s m ids → Connected name (s.setChild n d) m ids := by
    intro m ids hm
    obtain ⟨x, t, hx, ht, hop, hv, hids⟩ := hm
    by_cases hmn : m = n
    · subst hmn
      obtain rfl := Option.some.inj (hc.symm.trans hx)
      obtain ⟨t', ht', hop', hsub⟩ := ho t ht hop
      have hv' : Verdict name s d.era := by simpa only [Child.era, hera] using hv
      exact ⟨d, t', List.getElem?_set_self hlt, ht', hop', hv', fun id hid => hsub id (hids id hid)⟩
    · exact ⟨x, t, by rw [State.setChild, List.getElem?_set_ne (Ne.symm hmn)]; exact hx, ht, hop, hv, hids⟩
  refine ⟨?_, hconn⟩
  refine { led := ?_, spawning := ?_, era := h.era, conn := fun m hm => hconn m [] (h.conn m hm),
           callers := fun i k hk => hconn _ _ (h.callers i k hk), unprobed := ?_ }
  · intro x hx
    rcases List.mem_or_eq_of_mem_set hx with hx | rfl
    · exact h.led x hx
    · exact hl
  · intro sp hsp
    obtain ⟨hf, he, hj, hlat⟩ := h.spawning sp hsp
    refine ⟨hf, fun hea => ?_, hj, fun hne => hlat fun hnil => hne ?_⟩
    · have := (he hea).2
      rw [this] at hc
      cases hc
    · rw [State.setChild, hnil]
      rfl
  · intro m x hx
    by_cases hmn : m + 1 = n
    · subst hmn
      rw [State.setChild, List.getElem?_set_self hlt] at hx
      obtain rfl := Option.some.inj hx
      exact hu (h.unprobed m c hc)
    · rw [State.setChild, List.getElem?_set_ne (Ne.symm hmn)] at hx
      exact h.unprobed m x hx

theorem Inv.setCaller (h : Inv name s) (i : Nat) {k : Option Caller}
    (hk : ∀ k', k = some k' → Connected name s k'.child (if k'.sent then [k'.id] else [])) :
    Inv name (s.setCaller i k) where
  led := h.led
  spawning sp hsp := ⟨(h.spawning sp hsp).fits, (h.spawning sp hsp).early, (h.spawning sp hsp).judged,
    (h.spawning sp hsp).later⟩
  era := h.era
  conn := h.conn
  callers j k' hj := by
    have hj : Function.update s.callers i k j = some k' := hj
    by_cases hji : j = i
    · subst hji
      rw [Function.update_self] at hj
      exact hk k' hj
    · rw [Function.update_of_ne hji] at hj
      exact h.callers j k' hj
  unprobed := h.unprobed

/-! ## Every step keeps it -/

theorem inv_begin (h : Inv name s) (hs : s.begin = some s') : Inv name s' := by
  unfold State.begin at hs
  split at hs
  · rename_i era hsp hera
    split at hs
    · cases hs
    · obtain rfl := Option.some.inj hs
      obtain ⟨hl, he, hh⟩ := settle_child era .start
      refine h.setSpawn ⟨⟨.start, ?_, settle_fits rfl era⟩, fun hea => absurd hea hl, fun _ => ?_, fun _ f hf => ?_⟩
      · rw [Spawn.new, Hears, hh]
        rfl
      · rw [Spawn.new, he]
        exact h.era era hera
      · rw [Spawn.new, hh] at hf
        cases hf
  · cases hs

/-- The probe is judged: it was the first that was started, and nobody relied on an era. -/
theorem inv_judge (h : Inv name s) {c : Child} {t : Session} (hc : Hears c t) (ht : t.mode.era = none)
    (ha : s.answer = none) (hn : s.children = []) (p : Probe) : Inv name (s.judge name c p) := by
  have hfirst : ∀ s₁ : State, s₁.children = [] → s₁.era = s.era → s₁.conn = s.conn → s₁.callers = s.callers →
      (∀ sp, s₁.spawn = some sp → Spawning name s₁ sp) → Inv name s₁ := by
    intro s₁ hch he hco hca hsp
    have hnone : ∀ n ids, ¬Connected name s n ids := by
      rintro n ids ⟨d, _, hd, _⟩
      rw [hn] at hd
      cases hd
    refine ⟨fun d hd => absurd (hch ▸ hd) List.not_mem_nil, hsp, fun era hera => ?_, fun n hcn => ?_,
      fun i k hk => ?_, fun n d hd => by simp [hch] at hd⟩
    · obtain ⟨q, hq, -⟩ := h.era era (he ▸ hera)
      rw [ha] at hq
      cases hq
    · exact absurd (h.conn n (hco ▸ hcn)) (hnone _ _)
    · exact absurd (h.callers i k (hca ▸ hk)) (hnone _ _)
  unfold State.judge
  split
  · rename_i era hok
    refine hfirst _ hn rfl rfl rfl fun sp hsp => ?_
    obtain rfl := Option.some.inj hsp
    obtain ⟨hl, he, hh⟩ := settle_child era c
    refine ⟨⟨t, ?_, settle_fits ht era⟩, fun hea => absurd hea hl, fun _ => ⟨p, rfl, by rw [he]; exact hok⟩,
      fun hne => absurd hn hne⟩
    rw [Hears, hh]
    exact hc
  · refine Inv.giveUp (s := { s with spawn := none, answer := some p }) (hfirst _ hn rfl rfl rfl ?_) ⟨t, hc, ?_⟩ ?_
    · intro sp hsp
      cases hsp
    · intro era hera
      rw [ht] at hera
      cases hera
    · exact fun hne => absurd hn hne

theorem unprobed_snoc {c c' : Child} {f : Frame} (hu : Unprobed c) (hf : f.isProbe = false)
    (he : c'.heard = c.heard ++ [f]) : Unprobed c' := by
  intro g hg
  rw [he] at hg
  rcases List.mem_append.mp hg with hg | hg
  · exact hu g hg
  · obtain rfl := List.mem_singleton.mp hg
    exact hf

theorem inv_sends (h : Inv name s) {ok : Bool} (hs : s.sends name ok = some s') : Inv name s' := by
  unfold State.sends at hs
  split at hs
  · rename_i c hsp
    obtain ⟨⟨t, ht, rfl, hc⟩, he, -, -⟩ := h.spawning _ hsp
    obtain ⟨ha, hn⟩ := he (Or.inl rfl)
    cases ok with
    | true =>
      obtain rfl := Option.some.inj hs
      exact h.setSpawn ⟨⟨⟨.probed, []⟩, ht.snoc (hears_probe _) (heard_modern hc _ _ _), rfl, hc⟩,
        fun _ => ⟨ha, hn⟩, fun hl => absurd (Or.inr rfl) hl, fun hne => absurd hn hne⟩
    | false =>
      obtain rfl := Option.some.inj hs
      have ht' : Hears (c.allot.request c.allot.nextId "server/discover" (.obj []) false) .start := ht
      exact inv_judge h ht' rfl ha hn _
  · rename_i c hsp
    obtain ⟨⟨t, ht, hm, hc⟩, -, hj, hlat⟩ := h.spawning _ hsp
    have hv := hj (by simp [Stage.Early])
    cases ok with
    | true =>
      obtain rfl := Option.some.inj hs
      have hh := heard_legacy hc c.allot.nextId "initialize" initializeParams
      exact h.setSpawn ⟨⟨{ t with mode := .offered }, ht.snoc (hears_offer hm _) hh, rfl, hc⟩,
        by simp [Stage.Early], fun _ => hv, fun hne => unprobed_snoc (hlat hne) rfl hh⟩
    | false =>
      obtain rfl := Option.some.inj hs
      refine h.giveUp ⟨t, ht, fun era he => ?_⟩ hlat
      rw [hm] at he
      cases he
  · rename_i c hsp
    obtain ⟨⟨t, ht, hm, hc⟩, -, hj, hlat⟩ := h.spawning _ hsp
    have hv := hj (by simp [Stage.Early])
    cases ok with
    | true =>
      obtain rfl := Option.some.inj hs
      refine h.setSpawn ⟨⟨{ t with mode := .legacy }, ht.snoc (hears_initialized hm) rfl, Or.inr ⟨hc, rfl⟩⟩,
        by simp [Stage.Early], fun _ => hv, fun hne => unprobed_snoc (hlat hne) rfl rfl⟩
    | false =>
      obtain rfl := Option.some.inj hs
      exact h.giveUp (h.spawning _ hsp).led hlat
  · cases hs

theorem inv_probed (h : Inv name s) {p : Probe} (hs : s.probed name p = some s') : Inv name s' := by
  unfold State.probed at hs
  split at hs
  · rename_i c hsp
    obtain ⟨⟨t, ht, hm, -⟩, he, -, -⟩ := h.spawning _ hsp
    obtain ⟨ha, hn⟩ := he (Or.inr rfl)
    obtain rfl := Option.some.inj hs
    exact inv_judge h ht (by rw [hm]; rfl) ha hn p
  · cases hs

theorem inv_checks (h : Inv name s) (hs : s.checks = some s') : Inv name s' := by
  unfold State.checks at hs
  split at hs
  · rename_i c hsp
    have hled := (h.spawning _ hsp).led
    obtain ⟨⟨t, ht, hm, hc⟩, -, hj, hlat⟩ := h.spawning _ hsp
    have hv := hj (by simp [Stage.Early])
    split at hs
    · obtain rfl := Option.some.inj hs
      have hlegacy : Verdict name s Child.start.era := by
        rwa [Child.era, if_neg (by rw [hc]; exact Bool.false_ne_true)] at hv
      exact (h.giveUp hled hlat).setSpawn ⟨⟨.start, rfl, rfl, rfl⟩, by simp [Stage.Early], fun _ => hlegacy,
        fun _ _ hf => absurd hf List.not_mem_nil⟩
    · obtain rfl := Option.some.inj hs
      exact h.setSpawn ⟨⟨t, ht, hm, hc⟩, by simp [Stage.Early], fun _ => hv, hlat⟩
  · cases hs

theorem inv_shaken (h : Inv name s) (hs : s.shaken = some s') : Inv name s' := by
  unfold State.shaken at hs
  split at hs
  · rename_i c hsp
    obtain ⟨⟨t, ht, hm⟩, -, hj, hlat⟩ := h.spawning _ hsp
    obtain rfl := Option.some.inj hs
    exact h.setSpawn ⟨⟨t, ht, hm⟩, by simp [Stage.Early], fun _ => hj (by simp [Stage.Early]), hlat⟩
  · cases hs

/-- Neither the probe nor the handshake is cancelled. -/
theorem inv_lapses (h : Inv name s) {ok : Bool} (hs : s.lapses name ok = some s') : Inv name s' := by
  unfold State.lapses at hs
  split at hs
  · rename_i c hsp
    obtain ⟨⟨t, ht, hm, -⟩, he, -, -⟩ := h.spawning _ hsp
    obtain ⟨ha, hn⟩ := he (Or.inr rfl)
    obtain rfl := Option.some.inj hs
    exact inv_judge h ht (by rw [hm]; rfl) ha hn _
  · rename_i c hsp
    obtain rfl := Option.some.inj hs
    exact h.giveUp (h.spawning _ hsp).led (h.spawning _ hsp).later
  · cases hs

theorem inv_fails (h : Inv name s) (hs : s.fails = some s') : Inv name s' := by
  obtain ⟨sp, hsp, rfl⟩ := Option.map_eq_some_iff.mp hs
  exact h.giveUp (h.spawning _ hsp).led (h.spawning _ hsp).later

theorem inv_connects (h : Inv name s) (hs : s.connects = some s') : Inv name s' := by
  unfold State.connects at hs
  split at hs
  · rename_i c hsp
    have hled := (h.spawning _ hsp).led
    obtain ⟨⟨t, ht, hop⟩, -, hj, hlat⟩ := h.spawning _ hsp
    have hv : Verdict name s c.era := hj (by simp [Stage.Early])
    obtain rfl := Option.some.inj hs
    obtain ⟨hall, -, hera, -, hcallers, hun⟩ := h.giveUp hled hlat
    refine ⟨hall, ?_, fun era he => ?_, fun n hn => ?_, hcallers, hun⟩
    · intro sp hsp
      cases hsp
    · cases hse : s.era with
      | some e =>
        simp only [hse, Option.some_or, Option.some.injEq] at he
        exact hera era (he ▸ hse)
      | none =>
        simp only [hse, Option.none_or, Option.some.injEq] at he
        exact he ▸ hv
    · obtain rfl := Option.some.inj hn
      exact ⟨c, t, by simp, ht, hop, hv, fun id hid => absurd hid List.not_mem_nil⟩
  · cases hs

theorem inv_sinks (h : Inv name s) (hs : s.sinks = some s') : Inv name s' := by
  obtain ⟨sp, hsp, rfl⟩ := Option.map_eq_some_iff.mp hs
  obtain ⟨⟨t, ht, hf⟩, he, hj, hl⟩ := h.spawning _ hsp
  refine h.setSpawn ⟨⟨t, ht, ?_⟩, he, hj, hl⟩
  cases hst : sp.stage <;> rw [hst] at hf <;> exact hf

theorem inv_dies (h : Inv name s) {n : Nat} (hs : s.dies n = some s') : Inv name s' := by
  obtain ⟨c, hc, rfl⟩ := Option.map_eq_some_iff.mp hs
  exact (h.setChild hc (d := c.die) (h.led c (List.mem_of_getElem? hc)) rfl (fun hu => hu)
    fun t ht ho => ⟨t, ht, ho, fun _ hid => hid⟩).1

theorem Hears.asks {c : Child} {t : Session} (h : Hears c t) (hr : c.reading = true) (id : Json)
    (method : String) (ok : Bool) : Hears (c.asks hr id method ok) t := by
  cases ok with
  | false => exact h
  | true => exact h.snoc (f := replyTo id method) rfl rfl

theorem Unprobed.asks {c : Child} (h : Unprobed c) (hr : c.reading = true) (id : Json) (method : String)
    (ok : Bool) : Unprobed (c.asks hr id method ok) := by
  cases ok with
  | false => exact h
  | true => exact unprobed_snoc (f := replyTo id method) h rfl rfl

theorem modern_asks (c : Child) (hr : c.reading = true) (id : Json) (method : String) (ok : Bool) :
    (c.asks hr id method ok).modern = c.modern := by
  cases ok <;> rfl

theorem Fits.congr {stage : Stage} {c c' : Child} {t : Session} (h : Fits stage c t)
    (hc : c'.modern = c.modern) : Fits stage c' t := by
  cases stage <;> simpa only [Fits, Opened, hc] using h

theorem inv_asks (h : Inv name s) {n : Option Nat} {id : Json} {method : String} {ok : Bool}
    (hs : s.asks n id method ok = some s') : Inv name s' := by
  cases n with
  | some n =>
    obtain ⟨c, hc, hs⟩ := Option.bind_eq_some_iff.mp hs
    split at hs
    · rename_i hr
      obtain rfl := Option.some.inj hs
      obtain ⟨t, ht, hl⟩ := h.led c (List.mem_of_getElem? hc)
      refine (h.setChild hc ⟨t, ht.asks hr id method ok, hl⟩ (modern_asks c hr id method ok)
        (fun hu => hu.asks hr id method ok) fun t ht ho => ⟨t, ht.asks hr id method ok, ?_, fun _ hid => hid⟩).1
      simpa only [Opened, modern_asks] using ho
    · cases hs
  | none =>
    obtain ⟨sp, hsp, hs⟩ := Option.bind_eq_some_iff.mp hs
    split at hs
    · rename_i hr
      obtain rfl := Option.some.inj hs
      obtain ⟨⟨t, ht, hf⟩, he, hj, hl⟩ := h.spawning _ hsp
      have hm := modern_asks sp.child hr id method ok
      refine h.setSpawn ⟨⟨t, ht.asks hr id method ok, hf.congr hm⟩, he, fun hne => ?_,
        fun hne => (hl hne).asks hr id method ok⟩
      simpa only [Child.era, hm] using hj hne
    · cases hs

theorem inv_call (h : Inv name s) {i : Nat} {ask : Ask} (hs : s.call i ask = some s') : Inv name s' := by
  unfold State.call at hs
  split at hs
  · rename_i n hi hn
    obtain ⟨c, hc, rfl⟩ := Option.map_eq_some_iff.mp hs
    have hset := h.setChild hc (d := c.allot) (h.led c (List.mem_of_getElem? hc)) rfl (fun hu => hu)
      fun t ht ho => ⟨t, ht, ho, fun _ hid => hid⟩
    refine hset.1.setCaller i fun k hk => ?_
    obtain rfl := Option.some.inj hk
    exact hset.2 n [] (h.conn n hn)
  · cases hs

/-- What a connected child's callers write is taken by its server. -/
theorem inv_write (h : Inv name s) {i : Nat} {ok : Bool} (hs : s.write i ok = some s') : Inv name s' := by
  unfold State.write at hs
  split at hs
  · rename_i n id ask hi
    obtain ⟨c, hc, rfl⟩ := Option.map_eq_some_iff.mp hs
    obtain ⟨c', t, hc', ht, hop, hv, -⟩ := h.callers i _ hi
    obtain rfl := Option.some.inj (hc.symm.trans hc')
    cases ok with
    | false =>
      have hset := h.setChild hc (d := { c with dead := true }) (h.led c (List.mem_of_getElem? hc)) rfl
        (fun hu => hu) fun t ht ho => ⟨t, ht, ho, fun _ hid => hid⟩
      exact hset.1.setCaller i fun k hk => by cases hk
    | true =>
      have hgrow : ∀ t, Hears c t → Opened c t → ∃ mode,
          Hears (c.request id ask.method ask.params true) ⟨mode, id :: t.asked⟩ ∧
            Opened c ⟨mode, id :: t.asked⟩ ∧ mode.era = some c.era := by
        intro t ht hop
        obtain ⟨mode, hh, ho, hm⟩ := hears_ask hop id ask
        exact ⟨mode, ht.snoc hh rfl, ho, hm⟩
      obtain ⟨mode, hm, ho, he⟩ := hgrow t ht hop
      have hset := h.setChild hc (d := c.request id ask.method ask.params true)
        ⟨_, hm, fun era hera => by
          rw [he] at hera
          exact Option.some.inj hera ▸ hv⟩ rfl
        (fun hu => unprobed_snoc hu (by simpa [Frame.isProbe] using ask.method_ne.1) rfl)
        fun t ht hop => by
          obtain ⟨mode, hh, ho, -⟩ := hgrow t ht hop
          exact ⟨_, hh, ho, fun id' hid => List.mem_cons_of_mem id hid⟩
      refine hset.1.setCaller i fun k hk => ?_
      obtain rfl := Option.some.inj hk
      have hlt := (List.getElem?_eq_some_iff.mp hc).1
      exact ⟨_, _, List.getElem?_set_self hlt, hm, ho, hv, fun id' hid => by
        rw [List.mem_singleton.mp hid]
        exact List.mem_cons_self⟩
  · cases hs

/-- A cancellation goes to the child that heard the request. -/
theorem inv_expire (h : Inv name s) {i : Nat} {ok : Bool} (hs : s.expire i ok = some s') : Inv name s' := by
  unfold State.expire at hs
  split at hs
  · rename_i n id ask hi
    obtain ⟨c, hc, rfl⟩ := Option.map_eq_some_iff.mp hs
    obtain ⟨c', t, hc', ht, hop, hv, hid⟩ := h.callers i _ hi
    obtain rfl := Option.some.inj (hc.symm.trans hc')
    have hmethod : ¬(ask.method = "initialize" ∨ ask.method = "server/discover") := by
      simp [ask.method_ne.1, ask.method_ne.2]
    rw [Child.cancel, if_neg hmethod]
    refine Inv.setCaller ?_ i fun k hk => by cases hk
    cases ok with
    | false => exact (h.setChild hc (d := c) (h.led c (List.mem_of_getElem? hc)) rfl (fun hu => hu)
        fun t ht ho => ⟨t, ht, ho, fun _ hid => hid⟩).1
    | true =>
      have hhears : Hears (c.notify "notifications/cancelled" (cancelParams id) true) t :=
        ht.snoc (hears_cancel (hid id List.mem_cons_self)) rfl
      refine (h.setChild hc (d := c.notify "notifications/cancelled" (cancelParams id) true) ?_ rfl
        (fun hu => unprobed_snoc hu rfl rfl) fun t' ht' ho => ?_).1
      · obtain ⟨t', ht', hl⟩ := h.led c (List.mem_of_getElem? hc)
        obtain rfl := Option.some.inj (ht.symm.trans ht')
        exact ⟨t, hhears, hl⟩
      · obtain rfl := Option.some.inj (ht.symm.trans ht')
        exact ⟨t, hhears, ho, fun _ hid => hid⟩
  · cases hs

theorem inv_leave (h : Inv name s) {i : Nat} (hs : s.leave i = some s') : Inv name s' := by
  obtain ⟨k, -, rfl⟩ := Option.map_eq_some_iff.mp hs
  exact h.setCaller i fun k hk => by cases hk

theorem inv_step (h : Inv name s) {l : Label} (hs : s.step name l = some s') : Inv name s' := by
  cases l with
  | begin => exact inv_begin h hs
  | sends ok => exact inv_sends h hs
  | probed p => exact inv_probed h hs
  | checks => exact inv_checks h hs
  | shaken => exact inv_shaken h hs
  | lapses ok => exact inv_lapses h hs
  | fails => exact inv_fails h hs
  | connects => exact inv_connects h hs
  | sinks => exact inv_sinks h hs
  | dies n => exact inv_dies h hs
  | asks n id method ok => exact inv_asks h hs
  | call i ask => exact inv_call h hs
  | write i ok => exact inv_write h hs
  | expire i ok => exact inv_expire h hs
  | leave i => exact inv_leave h hs

theorem inv_reachable (hs : (upstream name).Reachable s) : Inv name s := by
  refine LTS.Invariant.reachable (m := upstream name) ⟨?_, fun _ _ _ h _ hs => inv_step h hs⟩ hs
  intro s hs
  subst hs
  exact inv_initial

theorem Inv.told (h : Inv name s) {c : Child} (hc : c ∈ s.told) : Led name s c := by
  rcases List.mem_append.mp hc with hc | hc
  · exact h.led c hc
  · rw [Option.mem_toList, Option.map_eq_some_iff] at hc
    obtain ⟨sp, hsp, rfl⟩ := hc
    exact (h.spawning sp hsp).led

/-- However callers, deadlines, deaths and respawns interleave, and whatever the server answers and
asks: all that every child hears is what a server of one era may be told, in its order, and of the
era that the one probe showed; no child but the first is probed; and what a child asks is answered
once each, in its order, but for a last one whose answer could not be written. -/
theorem children_hear_one_era (name : String) (s : State) (hs : (upstream name).Reachable s) :
    (∀ c ∈ s.told, ∃ t, server.exec .start c.heard = some t ∧
      ∀ era, t.mode.era = some era → ∃ p, s.answer = some p ∧ classifyProbe name p = .ok era) ∧
      (∀ n c, s.told[n + 1]? = some c → ∀ f ∈ c.heard, f.isProbe = false) ∧
      ∀ c ∈ s.told, c.heard.filter Frame.isReply <+: c.asked.map (fun q => replyTo q.1 q.2) ∧
        (c.reading = true → c.heard.filter Frame.isReply = c.asked.map fun q => replyTo q.1 q.2) := by
  have h := inv_reachable hs
  refine ⟨fun c hc => h.told hc, fun n c hc => ?_, fun c _ => c.answered⟩
  by_cases hlt : n + 1 < s.children.length
  · rw [State.told, List.getElem?_append_left hlt] at hc
    exact h.unprobed n c hc
  · rw [State.told, List.getElem?_append_right (by omega)] at hc
    have hm := List.mem_of_getElem? hc
    rw [Option.mem_toList, Option.map_eq_some_iff] at hm
    obtain ⟨sp, hsp, rfl⟩ := hm
    refine (h.spawning sp hsp).later fun hnil => ?_
    rw [hnil] at hc
    cases hsp' : s.spawn <;> simp [hsp'] at hc

/-! ## A server that dies of the probe -/

/-- It is started again for the handshake; it pings, a call of it lapses, it dies, and is respawned. -/
def diesOfProbe : List Label :=
  [.sends true, .sinks, .probed (.error .other), .checks, .sends true, .shaken, .sends true, .connects,
    .asks (some 1) (.str "p") "ping" true, .call 0 (.page .tools none), .write 0 true, .expire 0 true, .dies 1, .begin, .checks, .sends true, .shaken,
    .sends true, .connects, .call 1 (.callTool "search" .null), .write 1 true]

theorem dies_of_probe_hears :
    ∃ s, (upstream "crm").exec .initial diesOfProbe = some s ∧
      s.told.map (fun c => c.heard.filterMap Frame.method) =
        [["server/discover"],
          ["initialize", "notifications/initialized", "tools/list", "notifications/cancelled"],
          ["initialize", "notifications/initialized", "tools/call"]] ∧
      (∀ c ∈ s.told, ∃ t, server.exec .start c.heard = some t ∧
        ∀ era, t.mode.era = some era → ∃ p, s.answer = some p ∧ classifyProbe "crm" p = .ok era) ∧
      (∀ n c, s.told[n + 1]? = some c → ∀ f ∈ c.heard, f.isProbe = false) ∧
      ∀ c ∈ s.told, c.heard.filter Frame.isReply <+: c.asked.map (fun q => replyTo q.1 q.2) ∧
        (c.reading = true → c.heard.filter Frame.isReply = c.asked.map fun q => replyTo q.1 q.2) := by
  refine ⟨_, rfl, rfl, ?_⟩
  exact children_hear_one_era "crm" _ ⟨_, diesOfProbe, rfl, rfl⟩

end MinMcp.L5.Negotiation
