import MinMcp.L4App.Hidden
import MinMcp.L4App.RateLimit
import MinMcp.L4App.UserSupplied

/-!
# The audit lines of a call

What a `tools/call` leaves in the event log (src/surface.rs:540-638, src/surface/dispatch.rs:31-349,
src/surface/workflow.rs:11-53): the run of a request as its log lines and its awaits. Each
dispatch takes its own snapshot of the catalog and meets its own limits, sources, cache,
breaker and answers (`Moment`). A request whose client goes away is dropped at an await,
and what it would have written after that is not written (`cut`).

The README says that every search, lookup and call writes a line naming the caller and
the tool. `Logged` is when a request does:

* a search or a lookup that names what it wants,
* a composite that comes to its end,
* a tool that is known to its caller and whose call is flagged by a limit or by
  report-only, or comes to its end with its sources there and past pre-flight.

Results: `dispatch_logged`, `composite_logged`, and `audited_iff` for every request.
`hidden_probe_not_audited`: a call to a tool hidden from its caller.
-/
namespace MinMcp.L4.CallAudit

open MinMcp.Core MinMcp.L4.Results MinMcp.L4.Pages
open MinMcp.L4.Workflows (Workflow Step Outs)
open MinMcp.L4.CallReach (Reach)

/-- A log line without its time stamp and its chain fields.
mirrors src/surface.rs:316-326 -/
structure Line where
  caller : String
  event : String
  fields : List (String × Json)

inductive Ev where
  | line (l : Line)
  | await

/-- The lines of a run that is dropped at its `cut`-th await, all lines without one. -/
def written : Option Nat → List Ev → List Line
  | _, [] => []
  | cut, .line l :: es => l :: written cut es
  | none, .await :: es => written none es
  | some 0, .await :: _ => []
  | some (n + 1), .await :: es => written (some n) es

/-- The run is not dropped. -/
def Completes : Option Nat → List Ev → Prop
  | _, [] => True
  | cut, .line _ :: es => Completes cut es
  | none, .await :: es => Completes none es
  | some 0, .await :: _ => False
  | some (n + 1), .await :: es => Completes (some n) es

/-- mirrors src/caller.rs:12-25 -/
structure Caller where
  scopes : List String
  subject : Option String

/-- mirrors src/caller.rs:50-52 -/
def Caller.label (c : Caller) : String := c.subject.getD "anonymous"

structure Tool extends UserSupplied.Tool where
  name : String
  upstream : String

/-- What one dispatch meets: the catalog it takes, the verdict of the rate limits, the
sources, the cache, the breaker, the upstream's answers, and the result in the end with
what its line reports. -/
structure Moment where
  tool : String → Option Tool
  judged : RateLimit.Judged RateLimit.Buckets
  resolve : String → Option String
  cached : Bool
  breakerOpen : Bool
  reply : Nat → Option Json
  result : Json
  reach : Reach
  origin : String
  latencyMs : Nat
  argsMac : Option String

structure Proxy where
  cfg : Catalogs.Config
  workflows : List Workflow
  effects : Workflows.Catalog

/-- mirrors src/surface/shadow.rs:173-182 -/
structure Observation where
  method : String
  hit : Bool
  rank : Option Nat

/-- What a request meets: the exposed names, the shadow's verdicts on the call, and its
dispatches one after the other. -/
structure Surroundings where
  exposed : String → Option String
  observed : List Observation
  moments : Nat → Moment

structure Request where
  caller : Caller
  name : String
  args : Json

/-! ## Dispatch -/

def natJson (n : Nat) : Json := .num (Num.ofNat n)

section Dispatch

variable (px : Proxy) (c : Caller)

/-- mirrors src/surface.rs:355-357 -/
def wouldDeny (id : String) : List Line :=
  if px.cfg.scopes.reportOnly && !px.cfg.scopes.allowed id c.scopes then
    [⟨c.label, "would_deny", [("tool_id", .str id), ("scopes", .arr (c.scopes.map Json.str))]⟩]
  else []

/-- mirrors src/surface/dispatch.rs:52, 407-411 -/
def limitLine (event id : String) (e : String × Nat) : Line :=
  ⟨c.label, event, [("tool_id", .str id), ("limit", .str e.1), ("retry_in_s", natJson e.2)]⟩

/-- One await for each source, up to the first that is missing.
mirrors src/surface/dispatch.rs:109-128 -/
def sourceAwaits (resolve : String → Option String) : List (String × String) → List Ev
  | [] => []
  | (_, source) :: us =>
    .await :: match resolve source with
      | some _ => sourceAwaits resolve us
      | none => []

/-- The calls for further pages and their line.
mirrors src/surface/dispatch.rs:259-272, 513 -/
def pageEvents (t : Tool) (reply : Nat → Option Json) (args : Json) : List Ev :=
  match t.overlay.bind UserSupplied.Overlay.paginate, reply 0 with
  | some p, some first =>
    if isErrorResult first then []
    else
      let out := followUps p t.fromSpec reply args first
      out.sent.map (fun _ => .await) ++ [.line ⟨c.label, "paginate", [("tool", .str t.name),
        ("pages", natJson out.final.pages), ("items", natJson out.final.items.length),
        ("partial", .bool out.partialError)]⟩]
  | _, _ => []

/-- mirrors src/surface/dispatch.rs:335-348 -/
def callLine (t : Tool) (id : String) (m : Moment) : Line :=
  ⟨c.label, "call", [("tool_id", .str id), ("upstream", .str t.upstream), ("origin", .str m.origin),
    ("is_error", .bool (isErrorResult m.result)), ("cached", .bool m.cached),
    ("latency_ms", natJson m.latencyMs), ("result_bytes", natJson m.result.render.utf8ByteSize)] ++
    (m.argsMac.map fun mac => ("args_mac", .str mac)).toList⟩

/-- How a dispatch ends. -/
inductive Exit where
  | unknown | limited | missing | preflight | breaker
  | answered (result : Json) (reach : Reach)

/-- Behind the limits.
mirrors src/surface/dispatch.rs:72-349 -/
def behind (t : Tool) (id : String) (m : Moment) (args : Json) : List Ev × Exit :=
  let waits := sourceAwaits m.resolve t.userSupplied
  match UserSupplied.inject m.resolve t.userSupplied (UserSupplied.shape t.toTool args) with
  | .error _ => (waits, .missing)
  | .ok args =>
    match UserSupplied.preflightRefusal t.toTool args with
    | some _ => (waits, .preflight)
    | none =>
      if m.cached then (waits ++ [.line (callLine c t id m)], .answered m.result m.reach)
      else if m.breakerOpen then
        (waits ++ [.line ⟨c.label, "breaker", [("tool_id", .str id), ("state", .str "open")]⟩], .breaker)
      else
        (waits ++ [.await, .await] ++ pageEvents c t m.reply args ++ [.line (callLine c t id m)],
          .answered m.result m.reach)

/-- mirrors src/surface/dispatch.rs:23-349 -/
def dispatch (m : Moment) (id : String) (args : Json) : List Ev × Exit :=
  match (m.tool id).filter fun _ => px.cfg.scopes.mayCall c.scopes id with
  | none => ([], .unknown)
  | some t =>
    let early := wouldDeny px c id ++ m.judged.wouldLimit.map (limitLine c "would_rate_limit" id)
    match m.judged.refusal with
    | some e => ((early ++ [limitLine c "rate_limited" id e]).map .line, .limited)
    | none =>
      let (evs, exit) := behind c t id m args
      (early.map .line ++ evs, exit)

end Dispatch

/-! ## Requests -/

section Requests

variable (px : Proxy)

/-- The result of a step that did not fail. -/
def Exit.success : Exit → Option Json
  | .answered r _ => if isErrorResult r then none else some r
  | _ => none

def Exit.reach : Exit → Reach
  | .answered _ reach => reach
  | _ => .notSent

/-- The loop over the steps, with the line at its end.
mirrors src/surface/workflow.rs:17-53 -/
def runSteps (c : Caller) (wf : Workflow) (inputs : Json) (moments : Nat → Moment) :
    Nat → Outs → List Step → List Ev
  | _, _, [] => [.line ⟨c.label, "workflow",
      [("workflow", .str wf.id), ("steps", natJson wf.steps.length)]⟩]
  | i, outs, step :: rest =>
    let (evs, exit) := dispatch px c (moments i) step.tool
      (Workflows.resolveInput inputs outs step.input)
    match exit.success with
    | some r => evs ++ runSteps c wf inputs moments (i + 1) (Workflows.collect px.effects step r outs) rest
    | none => evs ++ [.line ⟨c.label, "workflow", [("workflow", .str wf.id),
        ("steps", natJson wf.steps.length), ("failed_step", .str step.id),
        ("failed_step_outcome", .str exit.reach.outcome), ("completed", natJson i)]⟩]

/-- mirrors src/surface.rs:771-777 -/
def composite (c : Caller) (id : String) : Option Workflow :=
  (px.workflows.find? fun wf => wf.id = id).filter fun _ => px.cfg.scopes.mayCall c.scopes id

def routeCall (c : Caller) (e : Surroundings) (id : String) (args : Json) : List Ev :=
  match composite px c id with
  | some wf => (wouldDeny px c id).map .line ++ runSteps px c wf args e.moments 0 [] wf.steps
  | none => (dispatch px c (e.moments 0) id args).1

/-- mirrors src/surface.rs:576-582 -/
def shadowLine (c : Caller) (id : String) (o : Observation) : Line :=
  ⟨c.label, "shadow", [("tool_id", .str id), ("method", .str o.method), ("hit", .bool o.hit),
    ("rank", (o.rank.map natJson).getD .null)]⟩

/-- mirrors src/surface.rs:30 -/
def defaultSearchK : Nat := 20

/-- `k` of a search, as it is logged.
mirrors src/surface.rs:547-551 -/
def searchK (args : Json) : Nat := (((args.get "k").bind Json.asU64).map UInt64.toNat).getD defaultSearchK

def hasMeta : Bool := px.cfg.mode ≠ .passthrough

/-- mirrors src/surface.rs:540-638 -/
def trace (e : Surroundings) (r : Request) : List Ev :=
  if hasMeta px && r.name = "search_tools" then
    match (r.args.get "query").bind Json.asStr with
    | none => []
    | some query => [.line ⟨r.caller.label, "search", [("query", .str query), ("k", natJson (searchK r.args))]⟩]
  else if hasMeta px && r.name = "get_tool_details" then
    match (r.args.get "tool_id").bind Json.asStr with
    | none => []
    | some id => [.line ⟨r.caller.label, "details", [("tool_id", .str id)]⟩]
  else if hasMeta px && r.name = "call_tool" then
    match (r.args.get "tool_id").bind Json.asStr with
    | none => []
    | some id =>
      (e.observed.map (shadowLine r.caller id)).map .line ++
        match Hidden.callArguments (r.args.get "arguments") with
        | none => []
        | some inner => routeCall px r.caller e id inner
  else
    match (e.exposed r.name).filter fun id => px.cfg.scopes.visible r.caller.scopes id with
    | none => []
    | some id => (dispatch px r.caller (e.moments 0) id r.args).1

/-- The handler looks for changed listings first.
mirrors src/rmcp_serve.rs:195-217 -/
def serve (e : Surroundings) (r : Request) : List Ev := .await :: trace px e r

end Requests

/-! ## Specification -/

/-- What a request asks for. -/
inductive Requested where
  | search | details
  | tool (id : String)
  | composite (id : String)

def Line.namesTool (l : Line) (id : String) : Prop := l.fields.lookup "tool_id" = some (.str id)

/-- A line about what was asked for. A composite's own lines are its end and what was
said of the call to it, not those of its steps. -/
def Line.names (l : Line) : Requested → Prop
  | .search => l.event = "search"
  | .details => l.event = "details"
  | .tool id => l.namesTool id
  | .composite id => (l.event = "workflow" ∧ l.fields.lookup "workflow" = some (.str id)) ∨
      ((l.event = "shadow" ∨ l.event = "would_deny") ∧ l.namesTool id)

section Spec

variable (px : Proxy)

/-- The tool or composite a request is for; a name that leads to none stands for itself. -/
def requested (e : Surroundings) (r : Request) : Requested :=
  if hasMeta px && r.name = "search_tools" then .search
  else if hasMeta px && r.name = "get_tool_details" then .details
  else if hasMeta px && r.name = "call_tool" then
    match (r.args.get "tool_id").bind Json.asStr with
    | none => .tool r.name
    | some id => if (composite px r.caller id).isSome then .composite id else .tool id
  else
    .tool (((e.exposed r.name).filter fun id => px.cfg.scopes.visible r.caller.scopes id).getD r.name)

/-- A line written for the request names its caller and what it asked for. -/
def Audited (e : Surroundings) (r : Request) (cut : Option Nat) : Prop :=
  ∃ l ∈ written cut (serve px e r), l.caller = r.caller.label ∧ l.names (requested px e r)

/-- The rules refuse the call, and report-only lets it pass. -/
def Denied (c : Caller) (id : String) : Prop :=
  px.cfg.scopes.reportOnly = true ∧ px.cfg.scopes.allowed id c.scopes = false

/-- The sources are there, and pre-flight does not refuse. -/
def Passes (t : Tool) (m : Moment) (args : Json) : Prop :=
  ∃ final, UserSupplied.inject m.resolve t.userSupplied (UserSupplied.shape t.toTool args) = .ok final ∧
    UserSupplied.preflightRefusal t.toTool final = none

/-- A call of a tool by its id: known to the caller, and flagged or past the local
checks and not dropped. -/
def DispatchLogged (c : Caller) (m : Moment) (id : String) (args : Json) (cut : Option Nat) : Prop :=
  ∃ t, m.tool id = some t ∧ px.cfg.scopes.mayCall c.scopes id = true ∧
    (Denied px c id ∨ m.judged.flagged = true ∨
      (Passes t m args ∧ Completes cut (dispatch px c m id args).1))

def RouteLogged (c : Caller) (e : Surroundings) (id : String) (args : Json) (cut : Option Nat) : Prop :=
  match composite px c id with
  | some _ => Denied px c id ∨ Completes cut (routeCall px c e id args)
  | none => DispatchLogged px c (e.moments 0) id args cut

/-- A request once the handler has looked for changed listings. -/
def Logged (e : Surroundings) (r : Request) (cut : Option Nat) : Prop :=
  if hasMeta px && r.name = "search_tools" then ((r.args.get "query").bind Json.asStr).isSome = true
  else if hasMeta px && r.name = "get_tool_details" then ((r.args.get "tool_id").bind Json.asStr).isSome = true
  else if hasMeta px && r.name = "call_tool" then
    ∃ id, (r.args.get "tool_id").bind Json.asStr = some id ∧
      (e.observed ≠ [] ∨ ∃ inner, Hidden.callArguments (r.args.get "arguments") = some inner ∧
        RouteLogged px r.caller e id inner cut)
  else
    ∃ id, e.exposed r.name = some id ∧ px.cfg.scopes.visible r.caller.scopes id = true ∧
      DispatchLogged px r.caller (e.moments 0) id r.args cut

/-- What is left of `cut` after the first await, `none` when the run is dropped there. -/
def afterAwait : Option Nat → Option (Option Nat)
  | none => some none
  | some 0 => none
  | some (n + 1) => some (some n)

end Spec

/-! ## Lines and awaits -/

section Runs

variable {cut : Option Nat} {es : List Ev}

theorem written_lines (cut : Option Nat) (ls : List Line) (es : List Ev) :
    written cut (ls.map .line ++ es) = ls ++ written cut es := by
  induction ls with
  | nil => rfl
  | cons l ls ih =>
    rw [List.map_cons, List.cons_append, written, ih]
    rfl

theorem completes_lines {cut : Option Nat} {ls : List Line} {es : List Ev} :
    Completes cut (ls.map .line ++ es) ↔ Completes cut es := by
  induction ls with
  | nil => rfl
  | cons l ls ih => rw [List.map_cons, List.cons_append, Completes, ih]

theorem exists_written_lines {P : Line → Prop} {cut : Option Nat} {ls : List Line} {es : List Ev} :
    (∃ l ∈ written cut (ls.map .line ++ es), P l) ↔ (∃ l ∈ ls, P l) ∨ ∃ l ∈ written cut es, P l := by
  simp only [written_lines, List.mem_append, or_and_right, exists_or]

theorem written_only_lines (cut : Option Nat) (ls : List Line) : written cut (ls.map .line) = ls := by
  have := written_lines cut ls []
  rwa [List.append_nil, written, List.append_nil] at this

theorem mem_of_written {l : Line} (h : l ∈ written cut es) : .line l ∈ es := by
  induction es generalizing cut with
  | nil => simp [written] at h
  | cons e es ih =>
    rcases e with l' | _
    · rw [written] at h
      rcases List.mem_cons.mp h with rfl | h
      · exact List.mem_cons_self
      · exact List.mem_cons_of_mem _ (ih h)
    · rcases cut with _ | _ | n
      · exact List.mem_cons_of_mem _ (ih h)
      · cases h
      · exact List.mem_cons_of_mem _ (ih h)

theorem mem_written {l : Line} (hc : Completes cut es) (h : .line l ∈ es) : l ∈ written cut es := by
  induction es generalizing cut with
  | nil => cases h
  | cons e es ih =>
    rcases e with l' | _
    · rw [written]
      rcases List.mem_cons.mp h with h | h
      · cases h; exact List.mem_cons_self
      · exact List.mem_cons_of_mem _ (ih hc h)
    · have hes : .line l ∈ es := (List.mem_cons.mp h).resolve_left nofun
      rcases cut with _ | _ | n
      · exact ih hc hes
      · exact hc.elim
      · exact ih hc hes

/-- The last line of a run that is dropped is not written. -/
theorem mem_of_dropped {l : Line} {last : Line} (hc : ¬ Completes cut (es ++ [.line last]))
    (h : l ∈ written cut (es ++ [.line last])) : .line l ∈ es := by
  induction es generalizing cut with
  | nil => exact absurd trivial hc
  | cons e es ih =>
    rcases e with l' | _
    · rw [List.cons_append, written] at h
      rcases List.mem_cons.mp h with rfl | h
      · exact List.mem_cons_self
      · exact List.mem_cons_of_mem _ (ih hc h)
    · rcases cut with _ | _ | n
      · exact List.mem_cons_of_mem _ (ih hc h)
      · cases h
      · exact List.mem_cons_of_mem _ (ih hc h)

/-- A run whose last line alone says what is looked for says it iff it is not dropped. -/
theorem closing_iff {P : Line → Prop} {last : Line} (hmid : ∀ l, .line l ∈ es → ¬ P l) (hlast : P last) :
    (∃ l ∈ written cut (es ++ [.line last]), P l) ↔ Completes cut (es ++ [.line last]) := by
  constructor
  · intro ⟨l, hl, hp⟩
    by_contra hc
    exact hmid l (mem_of_dropped hc hl) hp
  · exact fun hc => ⟨last, mem_written hc (by simp), hlast⟩

end Runs

/-! ## One dispatch -/

section Dispatch

variable {px : Proxy} {c : Caller} {m : Moment} {id : String} {args : Json} {cut : Option Nat} {t : Tool}

theorem line_notMem_sourceAwaits (resolve : String → Option String) (us : List (String × String))
    (l : Line) : .line l ∉ sourceAwaits resolve us := by
  induction us with
  | nil => exact nofun
  | cons u us ih =>
    rw [sourceAwaits, List.mem_cons, not_or]
    refine ⟨nofun, ?_⟩
    split
    · exact ih
    · exact nofun

theorem event_of_pageEvents {reply : Nat → Option Json} {l : Line}
    (h : .line l ∈ pageEvents c t reply args) :
    l.event = "paginate" ∧ l.fields.lookup "tool_id" = none := by
  unfold pageEvents at h
  split at h
  · split at h
    · cases h
    · simp only [List.mem_append, List.mem_map, List.mem_singleton] at h
      rcases h with ⟨_, _, h⟩ | h
      · cases h
      · cases h
        exact ⟨rfl, rfl⟩
  · cases h

/-- Behind the limits a run passes the local checks and ends with a line about the
tool, or it writes none. -/
theorem behind_cases (c : Caller) (t : Tool) (id : String) (m : Moment) (args : Json) :
    (Passes t m args ∧ ∃ mid last, (behind c t id m args).1 = mid ++ [.line last] ∧
      (∀ l, .line l ∈ mid → l.event = "paginate" ∧ l.fields.lookup "tool_id" = none) ∧
      last.caller = c.label ∧ last.namesTool id ∧ (last.event = "call" ∨ last.event = "breaker")) ∨
    (¬ Passes t m args ∧ ∀ l, .line l ∉ (behind c t id m args).1) := by
  have hwaits := line_notMem_sourceAwaits m.resolve t.userSupplied
  unfold behind Passes
  cases hi : UserSupplied.inject m.resolve t.userSupplied (UserSupplied.shape t.toTool args) with
  | error r => exact .inr ⟨by simp, hwaits⟩
  | ok final =>
    cases hp : UserSupplied.preflightRefusal t.toTool final with
    | some se => exact .inr ⟨by simp [hp], by simpa [hp] using hwaits⟩
    | none =>
      refine .inl ⟨⟨final, rfl, hp⟩, ?_⟩
      simp only [hp]
      split
      · exact ⟨_, _, rfl, fun l hl => absurd hl (hwaits l), rfl, rfl, .inl rfl⟩
      · split
        · exact ⟨_, _, rfl, fun l hl => absurd hl (hwaits l), rfl, rfl, .inr rfl⟩
        · refine ⟨_, _, rfl, fun l hl => ?_, rfl, rfl, .inl rfl⟩
          simp only [List.mem_append, List.mem_cons, List.not_mem_nil, or_false] at hl
          rcases hl with (hl | hl | hl) | hl
          · exact absurd hl (hwaits l)
          · cases hl
          · cases hl
          · exact event_of_pageEvents hl

theorem behind_logged (c : Caller) (t : Tool) (id : String) (m : Moment) (args : Json) (cut : Option Nat) :
    (∃ l ∈ written cut (behind c t id m args).1, l.caller = c.label ∧ l.namesTool id) ↔
      Passes t m args ∧ Completes cut (behind c t id m args).1 := by
  rcases behind_cases c t id m args with ⟨hp, mid, last, heq, hmid, hcaller, hname, -⟩ | ⟨hp, hno⟩
  · rw [heq, closing_iff (fun l hl h => ?_) ⟨hcaller, hname⟩]
    · exact (and_iff_right hp).symm
    · have := (hmid l hl).2.symm.trans h.2
      cases this
  · refine iff_of_false (fun h => ?_) fun h => hp h.1
    obtain ⟨l, hl, -⟩ := h
    exact hno l (mem_of_written hl)

theorem wouldDeny_eq_nil : wouldDeny px c id ≠ [] ↔ Denied px c id := by
  unfold wouldDeny Denied
  cases px.cfg.scopes.reportOnly <;> cases px.cfg.scopes.allowed id c.scopes <;> simp

theorem of_mem_wouldDeny {l : Line} (h : l ∈ wouldDeny px c id) :
    l.caller = c.label ∧ l.event = "would_deny" ∧ l.namesTool id := by
  unfold wouldDeny at h
  split at h
  · obtain rfl := List.mem_singleton.mp h
    exact ⟨rfl, rfl, rfl⟩
  · cases h

/-- **A call by id** writes a line naming the tool iff the tool is known to its caller
and the call is flagged, or gets past the local checks and is not dropped. -/
theorem dispatch_logged (px : Proxy) (c : Caller) (m : Moment) (id : String) (args : Json)
    (cut : Option Nat) :
    (∃ l ∈ written cut (dispatch px c m id args).1, l.caller = c.label ∧ l.namesTool id) ↔
      DispatchLogged px c m id args cut := by
  unfold DispatchLogged dispatch
  cases ht : m.tool id with
  | none => simp [written]
  | some t =>
    cases hmay : px.cfg.scopes.mayCall c.scopes id with
    | false => simp [written, Option.filter]
    | true =>
      simp only [Option.filter, if_true]
      have hearly : (∃ l ∈ wouldDeny px c id ++ m.judged.wouldLimit.map (limitLine c "would_rate_limit" id),
          l.caller = c.label ∧ l.namesTool id) ↔ Denied px c id ∨ m.judged.wouldLimit ≠ [] := by
        rw [← wouldDeny_eq_nil]
        constructor
        · intro ⟨l, hl, _⟩
          rcases List.mem_append.mp hl with hl | hl
          · exact .inl (List.ne_nil_of_mem hl)
          · obtain ⟨e, he, -⟩ := List.mem_map.mp hl
            exact .inr (List.ne_nil_of_mem he)
        · rintro (h | h)
          · obtain ⟨l, hl⟩ := List.exists_mem_of_ne_nil _ h
            obtain ⟨hc, -, hn⟩ := of_mem_wouldDeny hl
            exact ⟨l, List.mem_append_left _ hl, hc, hn⟩
          · obtain ⟨e, he⟩ := List.exists_mem_of_ne_nil _ h
            exact ⟨_, List.mem_append_right _ (List.mem_map_of_mem he), rfl, rfl⟩
      cases hr : m.judged.refusal with
      | some e =>
        have hflag : m.judged.flagged = true := by simp [RateLimit.Judged.flagged, hr]
        refine iff_of_true ?_ ⟨t, rfl, trivial, .inr (.inl hflag)⟩
        rw [written_only_lines]
        exact ⟨_, List.mem_append_right _ (List.mem_singleton_self _), rfl, rfl⟩
      | none =>
        have hflag : m.judged.flagged = true ↔ m.judged.wouldLimit ≠ [] := by
          simp [RateLimit.Judged.flagged, hr]
        simp only [exists_written_lines, completes_lines, hearly, behind_logged, hflag, Option.some.injEq,
          true_and, exists_eq_left', or_assoc]

/-- What the lines of a dispatch are not: a composite's end, the shadow's verdict, or a
`would_deny` the rules do not ask for. -/
theorem event_of_dispatch {l : Line} (h : .line l ∈ (dispatch px c m id args).1) :
    l.event ≠ "workflow" ∧ l.event ≠ "shadow" ∧
      (l.event = "would_deny" → ∀ id', l.namesTool id' → Denied px c id') := by
  have hearly : ∀ l ∈ wouldDeny px c id ++ m.judged.wouldLimit.map (limitLine c "would_rate_limit" id),
      l.event ≠ "workflow" ∧ l.event ≠ "shadow" ∧
        (l.event = "would_deny" → ∀ id', l.namesTool id' → Denied px c id') := by
    intro l hl
    rcases List.mem_append.mp hl with hl | hl
    · obtain ⟨-, he, hn⟩ := of_mem_wouldDeny hl
      refine ⟨by simp [he], by simp [he], fun _ id' hn' => ?_⟩
      have hid : id = id' := by simpa using hn.symm.trans hn'
      exact hid ▸ wouldDeny_eq_nil.mp (List.ne_nil_of_mem hl)
    · obtain ⟨e, -, rfl⟩ := List.mem_map.mp hl
      exact ⟨by simp [limitLine], by simp [limitLine], fun h => by simp [limitLine] at h⟩
  have hevent : ∀ l : Line, l.event ∈ ["rate_limited", "paginate", "call", "breaker"] →
      l.event ≠ "workflow" ∧ l.event ≠ "shadow" ∧
        (l.event = "would_deny" → ∀ id', l.namesTool id' → Denied px c id') := by
    intro l hl
    refine ⟨fun h => ?_, fun h => ?_, fun h => ?_⟩ <;> · rw [h] at hl; exact absurd hl (by decide)
  unfold dispatch at h
  split at h
  · cases h
  · next t _ =>
    split at h
    · next e _ =>
      obtain ⟨l', hl, he⟩ := List.mem_map.mp h
      cases he
      rcases List.mem_append.mp hl with hl | hl
      · exact hearly l hl
      · rw [List.mem_singleton.mp hl]
        exact hevent _ (by simp [limitLine])
    · dsimp only at h
      rcases List.mem_append.mp h with hl | hl
      · obtain ⟨l', hl, he⟩ := List.mem_map.mp hl
        cases he
        exact hearly l hl
      · rcases behind_cases c t id m args with ⟨-, mid, last, heq, hmid, -, -, hlast⟩ | ⟨-, hno⟩
        · rw [heq, List.mem_append, List.mem_singleton] at hl
          rcases hl with hl | hl
          · exact hevent l (by simp [(hmid l hl).1])
          · cases hl
            exact hevent l (by rcases hlast with h | h <;> simp [h])
        · exact absurd hl (hno l)

end Dispatch

/-! ## Composites -/

section Composite

variable {px : Proxy} {c : Caller} {id : String} {cut : Option Nat}

/-- A composite's run ends with its line; before it stand the lines of its dispatches. -/
theorem runSteps_cases (px : Proxy) (c : Caller) (wf : Workflow) (inputs : Json) (moments : Nat → Moment)
    (i : Nat) (outs : Outs) (steps : List Step) :
    ∃ mid last, runSteps px c wf inputs moments i outs steps = mid ++ [.line last] ∧
      last.caller = c.label ∧ last.event = "workflow" ∧ last.fields.lookup "workflow" = some (.str wf.id) ∧
      ∀ l, .line l ∈ mid → ∃ m id args, .line l ∈ (dispatch px c m id args).1 := by
  induction steps generalizing i outs with
  | nil => exact ⟨[], _, rfl, rfl, rfl, rfl, nofun⟩
  | cons step rest ih =>
    rw [runSteps]
    dsimp only
    split
    · next r _ =>
      obtain ⟨mid, last, heq, hc, he, hw, hmid⟩ := ih (i + 1) (Workflows.collect px.effects step r outs)
      refine ⟨_ ++ mid, last, by rw [heq, List.append_assoc], hc, he, hw, fun l hl => ?_⟩
      rcases List.mem_append.mp hl with hl | hl
      · exact ⟨_, _, _, hl⟩
      · exact hmid l hl
    · exact ⟨_, _, rfl, rfl, rfl, rfl, fun l hl => ⟨_, _, _, hl⟩⟩

/-- **A composite** writes a line of its own iff the rules would refuse it, or it is not
dropped before its end. -/
theorem composite_logged {wf : Workflow} (hwf : composite px c id = some wf) (e : Surroundings)
    (args : Json)
    (cut : Option Nat) :
    (∃ l ∈ written cut (routeCall px c e id args), l.caller = c.label ∧ l.names (.composite id)) ↔
      Denied px c id ∨ Completes cut (routeCall px c e id args) := by
  have hid : wf.id = id := by
    simpa using List.find?_some (Option.filter_eq_some_iff.mp hwf).1
  obtain ⟨mid, last, heq, hc, he, hw, hmid⟩ := runSteps_cases px c wf args e.moments 0 [] wf.steps
  rw [routeCall, hwf]
  dsimp only
  rw [exists_written_lines, completes_lines, heq]
  have hdeny : (∃ l ∈ wouldDeny px c id, l.caller = c.label ∧ l.names (.composite id)) ↔ Denied px c id := by
    rw [← wouldDeny_eq_nil]
    constructor
    · exact fun ⟨l, hl, _⟩ => List.ne_nil_of_mem hl
    · intro h
      obtain ⟨l, hl⟩ := List.exists_mem_of_ne_nil _ h
      obtain ⟨hc, he, hn⟩ := of_mem_wouldDeny hl
      exact ⟨l, hl, hc, .inr ⟨.inr he, hn⟩⟩
  rw [hdeny]
  -- without a `would_deny` of its own, only the last line is the composite's
  by_cases hd : Denied px c id
  · simp only [hd, true_or]
  · simp only [hd, false_or]
    refine closing_iff (fun l hl h => ?_) ⟨hc, .inl ⟨he, hid ▸ hw⟩⟩
    obtain ⟨m, id', args', hl⟩ := hmid l hl
    obtain ⟨hnw, hns, hdn⟩ := event_of_dispatch hl
    rcases h.2 with ⟨h, -⟩ | ⟨h | h, hn⟩
    · exact hnw h
    · exact hns h
    · exact hd (hdn h id hn)

theorem route_logged (px : Proxy) (c : Caller) (e : Surroundings) (id : String) (args : Json)
    (cut : Option Nat) : (∃ l ∈ written cut (routeCall px c e id args), l.caller = c.label ∧
        l.names (if (composite px c id).isSome then .composite id else .tool id)) ↔
      RouteLogged px c e id args cut := by
  unfold RouteLogged
  cases hwf : composite px c id with
  | some wf => exact composite_logged hwf e args cut
  | none =>
    rw [routeCall, hwf]
    exact dispatch_logged px c (e.moments 0) id args cut

end Composite

/-! ## Requests -/

theorem trace_logged (px : Proxy) (e : Surroundings) (r : Request) (cut : Option Nat) :
    (∃ l ∈ written cut (trace px e r), l.caller = r.caller.label ∧ l.names (requested px e r)) ↔
      Logged px e r cut := by
  unfold trace requested Logged
  split
  · cases (r.args.get "query").bind Json.asStr <;> simp [written, Line.names]
  · split
    · cases (r.args.get "tool_id").bind Json.asStr <;> simp [written, Line.names]
    · split
      · cases (r.args.get "tool_id").bind Json.asStr with
        | none => simp [written]
        | some id =>
          have hshadow : (∃ l ∈ e.observed.map (shadowLine r.caller id), l.caller = r.caller.label ∧
              l.names (if (composite px r.caller id).isSome then .composite id else .tool id)) ↔
                e.observed ≠ [] := by
            constructor
            · intro ⟨l, hl, _⟩ h
              rw [h] at hl
              cases hl
            · intro h
              obtain ⟨o, ho⟩ := List.exists_mem_of_ne_nil _ h
              refine ⟨_, List.mem_map_of_mem ho, rfl, ?_⟩
              split
              · exact .inr ⟨.inl rfl, rfl⟩
              · rfl
          simp only [exists_written_lines, hshadow, Option.some.injEq, exists_eq_left']
          cases Hidden.callArguments (r.args.get "arguments") with
          | none => simp [written]
          | some inner => simp only [route_logged, Option.some.injEq, exists_eq_left']
      · cases hx : e.exposed r.name with
        | none => simp [written]
        | some id =>
          cases hv : px.cfg.scopes.visible r.caller.scopes id with
          | false => simp [written, Option.filter, hv]
          | true =>
            simp only [Option.filter, hv, if_true, Option.getD_some, Option.some.injEq,
              exists_eq_left', true_and]
            exact dispatch_logged px r.caller (e.moments 0) id r.args cut

/-- **Audit.** A request leaves a line naming its caller and what it asked for iff it is
not dropped at once and is one of those that log. -/
theorem audited_iff (px : Proxy) (e : Surroundings) (r : Request) (cut : Option Nat) :
    Audited px e r cut ↔ ∃ cut', afterAwait cut = some cut' ∧ Logged px e r cut' := by
  unfold Audited serve
  rcases cut with _ | _ | n
  · simp only [written, afterAwait, trace_logged, Option.some.injEq, exists_eq_left']
  · simp [written, afterAwait]
  · simp only [written, afterAwait, trace_logged, Option.some.injEq, exists_eq_left']

/-- A proxy that grants `crm.read*` to `reader`. -/
def scopedProxy : Proxy where
  cfg :=
    { mode := .threeTool
      filters := ⟨[], []⟩
      scopes := ⟨[⟨"reader", ["crm.read*"]⟩], false⟩
      bindingPolicy := .weak
      poisoningPolicy := .warn
      overlays := [] }
  workflows := []
  effects := ⟨fun _ => none, fun _ => false⟩

def deleteTool : Tool where
  overlay := none
  globalPreflight := true
  schema := .obj [("type", .str "object")]
  userSupplied := []
  fromSpec := false
  name := "delete_customer"
  upstream := "crm"

/-- A catalog with one tool, and nothing in the way of a call. -/
def quietSurroundings : Surroundings where
  exposed := fun _ => none
  observed := []
  moments := fun _ =>
    { tool := fun id => if id = "crm.delete_customer" then some deleteTool else none
      judged := ⟨[], none, []⟩
      resolve := fun _ => none
      cached := false
      breakerOpen := false
      reply := fun _ => none
      result := textResult "deleted" false
      reach := .answered
      origin := "https://crm"
      latencyMs := 3
      argsMac := none }

def deleteProbe : Request where
  caller := ⟨["reader"], some "mallory"⟩
  name := "call_tool"
  args := .obj [("tool_id", .str "crm.delete_customer"), ("arguments", .obj [])]

/-- `mallory` may read only and calls `crm.delete_customer`: the call is refused, and
the log says nothing of it. -/
theorem hidden_probe_not_audited : ¬ Audited scopedProxy quietSurroundings deleteProbe none := by
  intro ⟨l, hl, _⟩
  have hnone : (written none (serve scopedProxy quietSurroundings deleteProbe)).length = 0 := by
    decide +kernel
  rw [List.length_eq_zero_iff.mp hnone] at hl
  cases hl

end MinMcp.L4.CallAudit
