import MinMcp.Core.LTS
import MinMcp.L4App.Catalog
import MinMcp.L4App.Workflow

/-!
# Every tool call passes the gate

The routes on which a caller's request becomes a `tools/call` (src/surface.rs,
src/surface/dispatch.rs, src/surface/workflow.rs): a tool by its id, a composite
step by step, a tool by its exposed name, and the follow-ups of a paginated list.
Each dispatch takes its own snapshot of the catalog and asks the gate before it
sends; between any two steps of a request the catalog can be replaced.

Why a call is refused locally, answered from the cache, fails or is cancelled is
left open: `finish` and `drop` can happen at any time.

* `Inv`: a dispatch behind the gate is for a tool its caller may see.
* `inv_step`: every step keeps it.
* `every_call_is_allowed`: so every `tools/call` on the wire is for an id the rules
  allow its caller.
-/
namespace MinMcp.L5.Mediation

open MinMcp.Core MinMcp.L4.Catalogs
open MinMcp.L4.Workflows (Workflow)

structure Proxy where
  cfg : Config
  upstreams : List Backend
  expand : String → Option String
  workflows : List Workflow
  /-- `max_pages` of the tool's overlay, where it paginates. -/
  maxPages : String → Option Nat

/-- A `tools/call` that was sent, with the scopes of the caller it was sent for. -/
structure Sent where
  granted : List String
  upstream : Nat
  name : String
  deriving DecidableEq

/-- A dispatch behind its gate: its tool and the calls it has made. -/
structure Dispatch where
  tool : ToolDef
  calls : Nat

/-- A request under way: the tools it has still to dispatch, and the dispatch it is in. -/
structure Request where
  granted : List String
  queue : List String
  current : Option Dispatch

structure State where
  cat : Catalog
  requests : Nat → Option Request
  sent : List Sent

inductive Target where
  /-- `call_tool`, and the command line. -/
  | byId (id : String)
  /-- A tool's exposed name. -/
  | byName (name : String)

inductive Label where
  | start (r : Nat) (granted : List String) (target : Target)
  | enter (r : Nat)
  | call (r : Nat)
  | followUp (r : Nat)
  | finish (r : Nat) (failed : Bool)
  | drop (r : Nat)
  | relist (idx : Nat) (page : List Json)

variable (px : Proxy)

/-- The tools a request is going to dispatch.
mirrors src/surface.rs:610-622, 771-777 -/
def route (cat : Catalog) (granted : List String) : Target → List String
  | .byId id =>
    match (px.workflows.find? fun wf => wf.id = id).filter
        fun _ => px.cfg.scopes.mayCall granted id with
    | some wf => wf.steps.map fun s => s.tool
    | none => [id]
  | .byName name =>
    match (cat.exposed.lookup name).filter fun id => px.cfg.scopes.visible granted id with
    | some id => [id]
    | none => []

def setRequest (s : State) (r : Nat) (q : Option Request) : State :=
  { s with requests := Function.update s.requests r q }

theorem setRequest_self (s : State) (r : Nat) (q : Option Request) :
    (setRequest s r q).requests r = q := Function.update_self ..

theorem setRequest_of_ne (s : State) {r r' : Nat} (h : r' ≠ r) (q : Option Request) :
    (setRequest s r q).requests r' = s.requests r' := Function.update_of_ne h ..

def startRequest (s : State) (r : Nat) (granted : List String) (target : Target) : Option State :=
  match s.requests r with
  | some _ => none
  | none => some (setRequest s r (some ⟨granted, route px s.cat granted target, none⟩))

/-- The next dispatch comes to its gate; a refusal ends the request.
mirrors src/surface/dispatch.rs:34-44, src/surface/workflow.rs:17-22 -/
def enterDispatch (s : State) (r : Nat) : Option State :=
  match s.requests r with
  | some ⟨granted, id :: rest, none⟩ =>
    match (s.cat.lookup id).filter fun _ => px.cfg.scopes.mayCall granted id with
    | some t => some (setRequest s r (some ⟨granted, rest, some ⟨t, 0⟩⟩))
    | none => some (setRequest s r none)
  | _ => none

/-- One `tools/call` of the dispatch, when `may` says so of the calls made so far. -/
def sendCall (may : Dispatch → Bool) (s : State) (r : Nat) : Option State :=
  match s.requests r with
  | some ⟨granted, rest, some d⟩ =>
    if may d then some { setRequest s r (some ⟨granted, rest, some ⟨d.tool, d.calls + 1⟩⟩) with
      sent := s.sent ++ [⟨granted, d.tool.upstreamIdx, d.tool.name⟩] }
    else none
  | _ => none

/-- mirrors src/surface/dispatch.rs:199-202 -/
def firstCall (d : Dispatch) : Bool := d.calls = 0

/-- mirrors src/surface/dispatch.rs:446-472 -/
def nextPage (d : Dispatch) : Bool :=
  0 < d.calls && (px.maxPages d.tool.id).any fun n => d.calls < n

/-- A dispatch returns; one that failed ends its composite.
mirrors src/surface/workflow.rs:22-43 -/
def leaveDispatch (s : State) (r : Nat) (failed : Bool) : Option State :=
  match s.requests r with
  | some ⟨granted, rest, some _⟩ =>
    some (setRequest s r (if failed then none else some ⟨granted, rest, none⟩))
  | _ => none

/-- A re-index of one upstream; that the new catalog can also be refused is left open.
mirrors src/surface/catalog.rs:318-341 -/
def relist (s : State) (idx : Nat) (page : List Json) : Option State :=
  (px.upstreams[idx]?).bind fun up =>
    (assemble px.cfg px.expand px.upstreams
      (s.cat.listings.set idx (page.map (toolDef up.name idx)))).map fun cat => { s with cat := cat }

def step (s : State) : Label → Option State
  | .start r granted target => startRequest px s r granted target
  | .enter r => enterDispatch px s r
  | .call r => sendCall firstCall s r
  | .followUp r => sendCall (nextPage px) s r
  | .finish r failed => leaveDispatch s r failed
  | .drop r => some (setRequest s r none)
  | .relist idx page => relist px s idx page

/-- The proxy has listed its upstreams and no request has come. -/
def Starts (s : State) : Prop :=
  AllListed px.upstreams s.cat.listings ∧
    assemble px.cfg px.expand px.upstreams s.cat.listings = some s.cat ∧
    (∀ r, s.requests r = none) ∧ s.sent = []

def system : LTS State Label := ⟨Starts px, step px⟩

/-- The tool's id is one the rules allow a caller with these scopes. -/
def Allowed (granted : List String) (upstream : Nat) (name : String) : Prop :=
  ∃ up, px.upstreams[upstream]? = some up ∧ px.cfg.scopes.allowed (toolId up.name name) granted = true

/-! ## The invariant -/

structure Inv (s : State) : Prop where
  listed : AllListed px.upstreams s.cat.listings
  sound : s.cat.Sound px.upstreams
  behindGate : ∀ r q d, s.requests r = some q → q.current = some d →
    Allowed px q.granted d.tool.upstreamIdx d.tool.name
  sent : ∀ m ∈ s.sent, Allowed px m.granted m.upstream m.name

variable {px}

/-- A request is replaced by one whose dispatch, if any, is for an allowed tool. -/
theorem Inv.setRequest {s : State} (h : Inv px s) (r : Nat) {q : Option Request}
    (hq : ∀ q' d, q = some q' → q'.current = some d →
      Allowed px q'.granted d.tool.upstreamIdx d.tool.name) : Inv px (setRequest s r q) := by
  refine ⟨h.listed, h.sound, ?_, h.sent⟩
  intro r' q' d hr hd
  by_cases he : r' = r
  · rw [he, setRequest_self] at hr
    exact hq q' d hr hd
  · rw [setRequest_of_ne s he] at hr
    exact h.behindGate r' q' d hr hd

/-- **Gate.** A dispatch that gets past it is for an allowed tool. -/
theorem inv_enter (hro : px.cfg.scopes.reportOnly = false) {s s' : State} {r : Nat} (h : Inv px s)
    (hs : enterDispatch px s r = some s') : Inv px s' := by
  unfold enterDispatch at hs
  split at hs
  · next granted id rest hr =>
    split at hs
    · next t ht =>
      rw [Option.some.injEq] at hs
      subst hs
      rw [Option.filter_eq_some_iff] at ht
      obtain ⟨hlookup, hgate⟩ := ht
      obtain ⟨hid, up, hup, hfiled⟩ := h.sound.lookup hlookup
      apply h.setRequest
      intro q d hq hd
      obtain rfl := Option.some.inj hq
      obtain rfl := Option.some.inj hd
      refine ⟨up, hup, ?_⟩
      rw [← hfiled, hid]
      simpa [Scopes.mayCall, hro] using hgate
    · rw [Option.some.injEq] at hs
      subst hs
      exact h.setRequest r (by intro q d hq; cases hq)
  · cases hs

theorem inv_sendCall {may : Dispatch → Bool} {s s' : State} {r : Nat} (h : Inv px s)
    (hs : sendCall may s r = some s') : Inv px s' := by
  unfold sendCall at hs
  split at hs
  · next granted rest d hr =>
    split at hs
    · rw [Option.some.injEq] at hs
      subst hs
      have hd := h.behindGate r _ d hr rfl
      have hset := h.setRequest r (q := some ⟨granted, rest, some ⟨d.tool, d.calls + 1⟩⟩) (by
        intro q e hq he
        obtain rfl := Option.some.inj hq
        obtain rfl := Option.some.inj he
        exact hd)
      refine ⟨hset.listed, hset.sound, hset.behindGate, ?_⟩
      intro m hm
      rw [List.mem_append, List.mem_singleton] at hm
      rcases hm with hm | rfl
      · exact h.sent m hm
      · exact hd
    · cases hs
  · cases hs

theorem inv_relist {s s' : State} {idx : Nat} {page : List Json} (h : Inv px s)
    (hs : relist px s idx page = some s') : Inv px s' := by
  unfold relist at hs
  rw [Option.bind_eq_some_iff] at hs
  obtain ⟨up, hup, hs⟩ := hs
  rw [Option.map_eq_some_iff] at hs
  obtain ⟨cat, hcat, rfl⟩ := hs
  have hlisted : AllListed px.upstreams (s.cat.listings.set idx (page.map (toolDef up.name idx))) := by
    intro i up' ts hi hts
    by_cases he : idx = i
    · subst he
      obtain rfl : up = up' := Option.some.inj (hup.symm.trans hi)
      rw [List.getElem?_set, if_pos rfl] at hts
      split at hts
      · obtain rfl := Option.some.inj hts
        exact listed_toolDefs up.name idx page
      · cases hts
    · rw [List.getElem?_set_ne he] at hts
      exact h.listed i up' ts hi hts
  refine ⟨?_, assemble_sound hlisted hcat, h.behindGate, h.sent⟩
  rw [assemble_listings hcat]
  exact hlisted

/-- **Step.** -/
theorem inv_step (hro : px.cfg.scopes.reportOnly = false) :
    (system px).Preserves (fun _ _ => True) (Inv px) := by
  intro s l s' h _ hs
  cases l with
  | start r granted target =>
    change startRequest px s r granted target = some s' at hs
    unfold startRequest at hs
    split at hs
    · cases hs
    · rw [Option.some.injEq] at hs
      subst hs
      apply h.setRequest
      intro q d hq hd
      obtain rfl := Option.some.inj hq
      cases hd
  | enter r => exact inv_enter hro h hs
  | call r => exact inv_sendCall h hs
  | followUp r => exact inv_sendCall h hs
  | finish r failed =>
    change leaveDispatch s r failed = some s' at hs
    unfold leaveDispatch at hs
    split at hs
    · rw [Option.some.injEq] at hs
      subst hs
      apply h.setRequest
      intro q d hq hd
      split at hq
      · cases hq
      · obtain rfl := Option.some.inj hq
        cases hd
    · cases hs
  | drop r =>
    obtain rfl := Option.some.inj hs
    exact h.setRequest r (by intro q d hq; cases hq)
  | relist idx page => exact inv_relist h hs

theorem inv_invariant (hro : px.cfg.scopes.reportOnly = false) :
    (system px).Invariant (fun _ _ => True) (Inv px) where
  init s hs := by
    obtain ⟨hlisted, hcat, hreq, hsent⟩ := hs
    refine ⟨hlisted, assemble_sound hlisted hcat, ?_, ?_⟩
    · intro r q d hr
      rw [hreq r] at hr
      cases hr
    · rw [hsent]
      intro m hm
      cases hm
  step := inv_step hro

/-- **Complete mediation.** With the scope rules enforced, every `tools/call` sent in
any run is for an id allowed to the caller it was sent for. -/
theorem every_call_is_allowed (px : Proxy) (hro : px.cfg.scopes.reportOnly = false) (s : State)
    (hs : (system px).Reachable s) : ∀ m ∈ s.sent, Allowed px m.granted m.upstream m.name :=
  ((inv_invariant hro).reachable hs).sent

/-! ## A composite of two tools, one of them re-listed under way -/

def exampleProxy : Proxy where
  cfg := {
    mode := .threeTool
    filters := ⟨[], []⟩
    scopes := ⟨[⟨"read", ["crm.*"]⟩], false⟩
    bindingPolicy := .weak
    poisoningPolicy := .warn
    overlays := [] }
  upstreams := [⟨"crm", fun _ => none⟩]
  expand v := some v
  workflows := [⟨"crm.pair", [⟨"a", "crm.get", .null, []⟩, ⟨"b", "crm.list", .null, []⟩], []⟩]
  maxPages id := if id = "crm.list" then some 3 else none

def page (names : List String) : List Json := names.map fun n => .obj [("name", .str n)]

def listing (names : List String) : List ToolDef := (page names).map (toolDef "crm" 0)

def exampleCatalog : Option Catalog :=
  assemble exampleProxy.cfg exampleProxy.expand exampleProxy.upstreams [listing ["get"]]

def exampleStart : State :=
  ⟨exampleCatalog.getD ⟨[], [], [], [], [], [], [], []⟩, fun _ => none, []⟩

theorem starts_example : (system exampleProxy).init exampleStart := by
  have hcat : exampleCatalog = some exampleStart.cat := by
    have hs : exampleCatalog.isSome = true := by decide +kernel
    obtain ⟨cat, hcat⟩ := Option.isSome_iff_exists.mp hs
    unfold exampleStart
    rw [hcat, Option.getD_some]
  have hl := assemble_listings hcat
  refine ⟨?_, ?_, fun r => rfl, rfl⟩
  · intro i up ts hi hts
    rw [hl] at hts
    match i with
    | 0 =>
      obtain rfl := Option.some.inj hi
      obtain rfl := Option.some.inj hts
      exact listed_toolDefs "crm" 0 (page ["get"])
    | i + 1 => cases hi
  · rw [hl]
    exact hcat

def pairRun : List Label :=
  [.start 0 ["read"] (.byId "crm.pair"), .enter 0, .call 0, .finish 0 false, .relist 0 (page ["list"]),
    .enter 0, .call 0, .followUp 0, .finish 0 false]

theorem pair_is_allowed :
    ∃ s, (system exampleProxy).Reachable s ∧
      s.sent = [⟨["read"], 0, "get"⟩, ⟨["read"], 0, "list"⟩, ⟨["read"], 0, "list"⟩] ∧
      ∀ m ∈ s.sent, Allowed exampleProxy m.granted m.upstream m.name := by
  have hr : ((system exampleProxy).exec exampleStart pairRun).map State.sent =
      some [⟨["read"], 0, "get"⟩, ⟨["read"], 0, "list"⟩, ⟨["read"], 0, "list"⟩] := by decide +kernel
  obtain ⟨s, hs, hsent⟩ := Option.map_eq_some_iff.mp hr
  have hreach : (system exampleProxy).Reachable s := ⟨exampleStart, pairRun, starts_example, hs⟩
  exact ⟨s, hreach, hsent, every_call_is_allowed exampleProxy rfl s hreach⟩

end MinMcp.L5.Mediation
