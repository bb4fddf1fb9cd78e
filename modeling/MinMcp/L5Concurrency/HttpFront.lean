import MinMcp.L4App.HttpIdentity
import MinMcp.L5Concurrency.Mediation

/-!
# Tool calls over HTTP

The guard of `Identity` in front of the routes of `Mediation` (src/rmcp_serve.rs). A request comes
with its headers and what the verifier and the introspector say to it, passes the guard, and is
served as the caller its handler finds; the service may lose that caller on the way. From there its
steps interleave with those of all others.

* `granted_step`: a request keeps its scopes, and a call is sent with those of its request.
* `Inv`: every request under way has the scopes of the caller it was served as, and so has every
  call that it sends.
* `calls_are_identified`: where identity is enforced, or the listener is exposed, every request is
  served as a caller named by the headers it came with, and every `tools/call` is sent for one of
  them, for a tool the rules allow its caller.
-/
namespace MinMcp.L5.HttpFront

open MinMcp.Core MinMcp.L4.Identity
open MinMcp.L5.Mediation (Proxy Target Sent Request Allowed)

/-- A request that was served: its headers, what was said to them, and as whom it was served. -/
structure Served where
  answers : Answers
  headers : Headers
  caller : Caller

/-- `owner` is the request that runs under a number, `calls` the calls sent, each with its request. -/
structure State where
  inner : Mediation.State
  served : List Served
  owner : Nat → Option Served
  calls : List (Sent × Served)

/-- Nothing was served yet. -/
def State.fresh (inner : Mediation.State) : State := ⟨inner, [], fun _ => none, []⟩

inductive Label where
  /-- A request, whether the service keeps what hangs on it, and what it calls. -/
  | request (r : Nat) (answers : Answers) (origin : Option String) (get : Bool) (path : String)
    (headers : Headers) (kept : Bool) (target : Target)
  | inner (l : Mediation.Label)

section Steps

variable (px : Proxy) (ident : HttpIdentity) (process : Caller)

/-- As whom a request is served, if it is. -/
def admitted (answers : Answers) (origin : Option String) (get : Bool) (path : String) (headers : Headers)
    (kept : Bool) : Option Caller :=
  match guarded ident answers process origin get path headers with
  | .passed c => (handlerCaller ident process (if kept then some c else none)).toOption
  | .document _ | .refused _ => none

/-- The number of the request that sends with this step. -/
def sends : Mediation.Label → Option Nat
  | .call r | .followUp r => some r
  | _ => none

def State.enter (s : State) (inner : Mediation.State) (r : Nat) (a : Served) : State :=
  { s with inner := inner, served := s.served ++ [a], owner := Function.update s.owner r (some a) }

/-- What is sent, if anything, is sent for the request that runs under the number. -/
def State.move (s : State) (inner : Mediation.State) (sender : Option Nat) : State :=
  { s with
    inner := inner
    calls := s.calls ++ (sender.bind s.owner).toList.flatMap fun a =>
      (inner.sent.drop s.inner.sent.length).map fun m => (m, a) }

/-- Only a request that is served starts one behind the guard. -/
def step (s : State) : Label → Option State
  | .request r answers origin get path headers kept target =>
    match admitted ident process answers origin get path headers kept with
    | some c => (Mediation.step px s.inner (.start r c.scopes target)).map fun inner =>
        s.enter inner r ⟨answers, headers, c⟩
    | none => some s
  | .inner (.start ..) => none
  | .inner l => (Mediation.step px s.inner l).map fun inner => s.move inner (sends l)

def system : LTS State Label :=
  ⟨fun s => Mediation.Starts px s.inner ∧ s = .fresh s.inner, step px ident process⟩

end Steps

/-! ## Scopes stay with their request -/

section Scopes

variable {px : Proxy} {s s' : Mediation.State}

/-- What a step may change of the scopes that requests and calls go by: a call is sent by the
request under this number. -/
structure Keeps (s s' : Mediation.State) (sender : Option Nat) : Prop where
  requests : ∀ r q, s'.requests r = some q → ∃ q', s.requests r = some q' ∧ q'.granted = q.granted
  sent : s'.sent = s.sent ∨ ∃ r q m, sender = some r ∧ s.requests r = some q ∧ q.granted = m.granted ∧
    s'.sent = s.sent ++ [m]

theorem requests_setRequest {r : Nat} {q : Option Request}
    (hq : ∀ q', q = some q' → ∃ q₀, s.requests r = some q₀ ∧ q₀.granted = q'.granted) (r' : Nat)
    (q' : Request) (hr : (Mediation.setRequest s r q).requests r' = some q') :
    ∃ q₀, s.requests r' = some q₀ ∧ q₀.granted = q'.granted := by
  by_cases he : r' = r
  · subst he
    rw [Mediation.setRequest_self] at hr
    exact hq q' hr
  · rw [Mediation.setRequest_of_ne s he] at hr
    exact ⟨q', hr, rfl⟩

theorem keeps_setRequest {r : Nat} {q : Option Request} {sender : Option Nat}
    (hq : ∀ q', q = some q' → ∃ q₀, s.requests r = some q₀ ∧ q₀.granted = q'.granted) :
    Keeps s (Mediation.setRequest s r q) sender :=
  ⟨requests_setRequest hq, Or.inl rfl⟩

theorem keeps_enter {r : Nat} {sender : Option Nat} (hs : Mediation.enterDispatch px s r = some s') :
    Keeps s s' sender := by
  unfold Mediation.enterDispatch at hs
  split at hs
  · next granted id rest hr =>
    split at hs
    · obtain rfl := Option.some.inj hs
      refine keeps_setRequest fun q' hq => ?_
      obtain rfl := Option.some.inj hq
      exact ⟨_, hr, rfl⟩
    · obtain rfl := Option.some.inj hs
      exact keeps_setRequest fun q' hq => by cases hq
  · cases hs

theorem keeps_sendCall {may : Mediation.Dispatch → Bool} {r : Nat}
    (hs : Mediation.sendCall may s r = some s') : Keeps s s' (some r) := by
  unfold Mediation.sendCall at hs
  split at hs
  · next granted rest d hr =>
    split at hs
    · obtain rfl := Option.some.inj hs
      refine ⟨requests_setRequest fun q' hq => ?_, Or.inr ⟨r, _, _, rfl, hr, rfl, rfl⟩⟩
      obtain rfl := Option.some.inj hq
      exact ⟨_, hr, rfl⟩
    · cases hs
  · cases hs

/-- A request keeps its scopes, and a call is sent with those of its request. -/
theorem granted_step {l : Mediation.Label} (hs : Mediation.step px s l = some s') :
    Keeps s s' (sends l) ∨ ∃ r granted target, l = .start r granted target ∧
      s' = Mediation.setRequest s r (some ⟨granted, Mediation.route px s.cat granted target, none⟩) := by
  cases l with
  | start r granted target =>
    change Mediation.startRequest px s r granted target = some s' at hs
    unfold Mediation.startRequest at hs
    split at hs
    · cases hs
    · obtain rfl := Option.some.inj hs
      exact Or.inr ⟨r, granted, target, rfl, rfl⟩
  | enter r => exact Or.inl (keeps_enter hs)
  | call r => exact Or.inl (keeps_sendCall hs)
  | followUp r => exact Or.inl (keeps_sendCall hs)
  | finish r failed =>
    change Mediation.leaveDispatch s r failed = some s' at hs
    unfold Mediation.leaveDispatch at hs
    split at hs
    · next granted rest d hr =>
      obtain rfl := Option.some.inj hs
      refine Or.inl (keeps_setRequest fun q' hq => ?_)
      split at hq
      · cases hq
      · obtain rfl := Option.some.inj hq
        exact ⟨_, hr, rfl⟩
    · cases hs
  | drop r =>
    obtain rfl := Option.some.inj hs
    exact Or.inl (keeps_setRequest fun q' hq => by cases hq)
  | relist idx page =>
    change Mediation.relist px s idx page = some s' at hs
    unfold Mediation.relist at hs
    obtain ⟨up, -, hs⟩ := Option.bind_eq_some_iff.mp hs
    obtain ⟨cat, -, rfl⟩ := Option.map_eq_some_iff.mp hs
    exact Or.inl ⟨fun r q hr => ⟨q, hr, rfl⟩, Or.inl rfl⟩

end Scopes

/-! ## The invariant -/

structure Inv (px : Proxy) (ident : HttpIdentity) (s : State) : Prop where
  mediated : Mediation.Inv px s.inner
  requests : ∀ r q, s.inner.requests r = some q →
    ∃ a ∈ s.served, s.owner r = some a ∧ a.caller.scopes = q.granted
  sent : s.calls.map Prod.fst = s.inner.sent
  calls : ∀ e ∈ s.calls, e.2 ∈ s.served ∧ e.2.caller.scopes = e.1.granted
  identified : ∀ a ∈ s.served, Identified ident a.answers a.headers a.caller

variable {px : Proxy} {ident : HttpIdentity} {process : Caller}

theorem admit_identified {answers : Answers} {origin : Option String} {get kept : Bool} {path : String}
    {headers : Headers} {c : Caller} (he : enforced ident = true)
    (h : admitted ident process answers origin get path headers kept = some c) :
    Identified ident answers headers c := by
  unfold admitted at h
  split at h
  · next passed hg =>
    cases hc : handlerCaller ident process (if kept then some passed else none) with
    | error e =>
      rw [hc] at h
      cases h
    | ok c' =>
      rw [hc] at h
      obtain rfl : c' = c := Option.some.inj h
      exact caller_identified hg he hc
  · cases h
  · cases h

theorem Inv.move {s : State} {inner : Mediation.State} {sender : Option Nat} (h : Inv px ident s)
    (hm : Mediation.Inv px inner) (hk : Keeps s.inner inner sender) : Inv px ident (s.move inner sender) := by
  have hreq : ∀ r q, inner.requests r = some q → ∃ a ∈ s.served, s.owner r = some a ∧ a.caller.scopes = q.granted := by
    intro r q hr
    obtain ⟨q', hr', hg⟩ := hk.requests r q hr
    rw [← hg]
    exact h.requests r q' hr'
  rcases hk.sent with he | ⟨r, q, m, rfl, hr, hg, he⟩
  · have hcalls : (s.move inner sender).calls = s.calls := by simp [State.move, he]
    refine ⟨hm, hreq, ?_, ?_, h.identified⟩
    · rw [hcalls, h.sent]
      exact he.symm
    · rw [hcalls]
      exact h.calls
  · obtain ⟨a, ha, ho, hscopes⟩ := h.requests r q hr
    have hcalls : (s.move inner (some r)).calls = s.calls ++ [(m, a)] := by simp [State.move, he, ho]
    refine ⟨hm, hreq, ?_, fun e hmem => ?_, h.identified⟩
    · rw [hcalls, List.map_append, h.sent]
      exact he.symm
    · rw [hcalls] at hmem
      rcases List.mem_append.mp hmem with hmem | hmem
      · exact h.calls e hmem
      · obtain rfl := List.mem_singleton.mp hmem
        exact ⟨ha, hscopes.trans hg⟩

theorem Inv.enter (hro : px.cfg.scopes.reportOnly = false) {s : State} {inner : Mediation.State}
    {r : Nat} {target : Target} {a : Served} (h : Inv px ident s)
    (hid : Identified ident a.answers a.headers a.caller)
    (hs : Mediation.step px s.inner (.start r a.caller.scopes target) = some inner) :
    Inv px ident (s.enter inner r a) := by
  have hm := Mediation.inv_step hro s.inner (.start r a.caller.scopes target) inner h.mediated trivial hs
  have hstart : inner = Mediation.setRequest s.inner r
      (some ⟨a.caller.scopes, Mediation.route px s.inner.cat a.caller.scopes target, none⟩) := by
    change Mediation.startRequest px s.inner r a.caller.scopes target = some inner at hs
    unfold Mediation.startRequest at hs
    split at hs
    · cases hs
    · exact (Option.some.inj hs).symm
  subst hstart
  refine ⟨hm, fun r' q hr => ?_, h.sent, fun e he => ?_, fun b hb => ?_⟩
  · by_cases he : r' = r
    · subst he
      have hr : some _ = some q := (Mediation.setRequest_self ..).symm.trans hr
      obtain rfl := Option.some.inj hr
      exact ⟨a, by simp [State.enter], by simp [State.enter], rfl⟩
    · have hr : s.inner.requests r' = some q := (Mediation.setRequest_of_ne _ he _).symm.trans hr
      obtain ⟨b, hb, ho, hscopes⟩ := h.requests r' q hr
      exact ⟨b, List.mem_append_left _ hb, by simpa [State.enter, he] using ho, hscopes⟩
  · exact ⟨List.mem_append_left _ (h.calls e he).1, (h.calls e he).2⟩
  · rcases List.mem_append.mp hb with hb | hb
    · exact h.identified b hb
    · obtain rfl := List.mem_singleton.mp hb
      exact hid

theorem inv_step (hro : px.cfg.scopes.reportOnly = false) (he : enforced ident = true) :
    (system px ident process).Preserves (fun _ _ => True) (Inv px ident) := by
  intro s l s' h _ hs
  change step px ident process s l = some s' at hs
  cases l with
  | request r answers origin get path headers kept target =>
    simp only [step] at hs
    split at hs
    · next c hc =>
      obtain ⟨inner, hi, rfl⟩ := Option.map_eq_some_iff.mp hs
      exact h.enter hro (admit_identified he hc) hi
    · obtain rfl := Option.some.inj hs
      exact h
  | inner l =>
    unfold step at hs
    split at hs
    · next heq => cases heq
    · cases hs
    · next l' hne heq =>
      obtain rfl := Label.inner.inj heq
      obtain ⟨inner, hi, rfl⟩ := Option.map_eq_some_iff.mp hs
      rcases granted_step hi with hk | ⟨r, granted, target, rfl, -⟩
      · exact h.move (Mediation.inv_step hro s.inner l inner h.mediated trivial hi) hk
      · exact absurd rfl (hne r granted target)

theorem inv_invariant (hro : px.cfg.scopes.reportOnly = false) (he : enforced ident = true) :
    (system px ident process).Invariant (fun _ _ => True) (Inv px ident) where
  init s hs := by
    obtain ⟨hstart, hfresh⟩ := hs
    rw [hfresh]
    refine ⟨(Mediation.inv_invariant hro).init _ hstart, fun r q hr => ?_, hstart.2.2.2.symm, nofun, nofun⟩
    have hr : s.inner.requests r = some q := hr
    rw [hstart.2.2.1 r] at hr
    cases hr
  step := inv_step hro he

/-- With the scope rules enforced, in a server that enforces identity, or that came up where others
can reach it without `--allow-remote` and client certificates: whatever requests come and however
they interleave, every request that is served is served as a caller whom a validated bearer or a
gateway's headers named, so the process's own scopes serve none; and every `tools/call` is sent for
one of these requests, with its scopes, and its tool is one the rules allow them. -/
theorem calls_are_identified (px : Proxy) (hro : px.cfg.scopes.reportOnly = false) (ident : HttpIdentity)
    (process : Caller) (b : Bind) (hstarts : starts ident b = true)
    (hb : enforced ident = true ∨ b.loopback = false ∧ b.allowRemote = false ∧ b.mutualTls = false)
    (s : State) (hs : (system px ident process).Reachable s) :
    (∀ a ∈ s.served, Identified ident a.answers a.headers a.caller) ∧
      s.calls.map Prod.fst = s.inner.sent ∧
      ∀ e ∈ s.calls, e.2 ∈ s.served ∧ e.1.granted = e.2.caller.scopes ∧
        Allowed px e.2.caller.scopes e.1.upstream e.1.name := by
  have he : enforced ident = true := hb.elim id fun h => enforced_of_exposed hstarts h.1 h.2.1 h.2.2
  have hinv := (inv_invariant hro he).reachable hs
  refine ⟨hinv.identified, hinv.sent, fun e hmem => ?_⟩
  obtain ⟨ha, hscopes⟩ := hinv.calls e hmem
  have hm : e.1 ∈ s.inner.sent := hinv.sent ▸ List.mem_map_of_mem hmem
  refine ⟨ha, hscopes.symm, ?_⟩
  rw [hscopes]
  exact hinv.mediated.sent e.1 hm

/-! ## A request of the gateway and one without identity -/

def gateway : HttpIdentity :=
  fromAuth ⟨"scope", none, none, "sub", some ⟨"X-Scopes", none⟩, false, none⟩ false false fun _ => ("", "")

def silent : Answers := ⟨fun _ _ => .error "", fun _ _ => .error ""⟩

def admin : Caller := .new ["read", "admin"] none

/-- On all interfaces, without `--allow-remote` and client certificates. -/
def exposed : Bind := ⟨false, false, false⟩

def gatewayRun : List Label :=
  [.request 0 silent none false "/" [("x-scopes", some "read, other")] true (.byId "crm.get"),
    .request 1 silent none false "/" [] true (.byId "crm.get"),
    .request 2 silent none false "/" [("x-scopes", some "read")] false (.byId "crm.get"),
    .inner (.enter 0), .inner (.call 0)]

theorem gateway_identified : ∃ s, (system Mediation.exampleProxy gateway admin).exec
      (.fresh Mediation.exampleStart) gatewayRun = some s ∧
    s.inner.sent = [⟨["read", "other"], 0, "get"⟩] ∧ s.served.length = 1 ∧
    (∀ a ∈ s.served, Identified gateway a.answers a.headers a.caller) ∧
    s.calls.map Prod.fst = s.inner.sent ∧
    ∀ e ∈ s.calls, e.2 ∈ s.served ∧ e.1.granted = e.2.caller.scopes ∧
      Allowed Mediation.exampleProxy e.2.caller.scopes e.1.upstream e.1.name := by
  have hr : ((system Mediation.exampleProxy gateway admin).exec (.fresh Mediation.exampleStart) gatewayRun).any
      (fun s => s.inner.sent = [⟨["read", "other"], 0, "get"⟩] ∧ s.served.length = 1) = true := by
    decide +kernel
  obtain ⟨s, he, hs⟩ := (Option.any_eq_true _ _).mp hr
  obtain ⟨hsent, hl⟩ := of_decide_eq_true hs
  have hreach : (system Mediation.exampleProxy gateway admin).Reachable s :=
    ⟨.fresh Mediation.exampleStart, gatewayRun, ⟨Mediation.starts_example, rfl⟩, he⟩
  exact ⟨s, he, hsent, hl, calls_are_identified Mediation.exampleProxy rfl gateway admin exposed (by decide)
    (Or.inr ⟨rfl, rfl, rfl⟩) s hreach⟩

end MinMcp.L5.HttpFront
