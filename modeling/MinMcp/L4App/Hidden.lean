import MinMcp.L4App.Catalog
import MinMcp.L4App.Suggestions
import MinMcp.L4App.Workflow
import Mathlib.Data.List.Nodup

/-!
# A hidden tool is an absent one

The answers to requests that name an id or a name (src/surface.rs:525-777): a call
by id, with its composites, a call by exposed name, and `get_tool_details`. A
request reads the catalog for the tool's entries, for the candidates of a near miss
and, in a composite, for the effect of the steps.

What happens behind the gate is `Proxy.behind`: any function of the tool's own
entries (`ToolView`), so of everything dispatch reads of the catalog there, and of
the place of the call in the request. `toolDetails` renders a visible tool.

`Without t cat cat'` is the catalog without `t`, all other entries as they are, in
any order.

* `gate_without`, `nearMisses_without`, `byName_without`: what is read of the two
  catalogs is the same.
* `execute_congr`: a composite reads nothing of a tool whose step is refused.
* `hidden_is_absent`: every request is answered alike.
-/
namespace MinMcp.L4.Hidden

open MinMcp.Core MinMcp.Core.Text MinMcp.L4.Catalogs MinMcp.L4.Suggestions MinMcp.L4.Results
open MinMcp.L4.CallReach (Call Shaping Reach)
open MinMcp.L4.Workflows (Workflow Step Dispatch World Outs Outcome budgetTruncate)

/-- What dispatch reads of the catalog for its own tool.
mirrors src/surface/dispatch.rs:35, 82-86, 94-108, 113, 540-546 -/
structure ToolView where
  tool : ToolDef
  schema : Json
  headers : Option (List (String × String))
  userSupplied : Option (List (String × String))

structure Proxy where
  cfg : Config
  upstreams : List Backend
  isSpec : Nat → Bool
  workflows : List Workflow
  unicode : Unicode
  /-- The call for a tool behind its gate: the `n`-th of the request, with its
  arguments and the fields to keep. -/
  behind : Nat → String → ToolView → Json → List String → Dispatch
  toolDetails : String → String → Json → String
  workflowDetails : Workflow → String

variable (px : Proxy)

/-! ## Reads of the catalog -/

def view (cat : Catalog) (id : String) : Option ToolView :=
  (cat.lookup id).map fun t =>
    ⟨t, resolvedSchema px.upstreams cat t, cat.toolHeaders.lookup id, cat.userSupplied.lookup id⟩

/-- mirrors src/surface/dispatch.rs:35 -/
def gate (cat : Catalog) (granted : List String) (id : String) : Option ToolView :=
  (view px cat id).filter fun _ => px.cfg.scopes.mayCall granted id

/-- mirrors src/surface.rs:759-768 -/
def suggestNearMisses (cat : Catalog) (granted : List String) (wrong : String) : String :=
  didYouMean px.unicode wrong
    ((OrderedMap.keys cat.byId ++ px.workflows.map Workflow.id).filter
      fun id => px.cfg.scopes.visible granted id)

/-- mirrors src/surface.rs:507-513 -/
def recovery : String :=
  match px.cfg.mode with
  | .passthrough => "check the tool name against tools/list"
  | .threeTool => "use search_tools to find the right tool id"

def quoted (s : String) : String := String.ofList (debugStr s.toList)

/-- mirrors src/surface/dispatch.rs:36-43 -/
def unknownId (cat : Catalog) (granted : List String) (id : String) : String :=
  s!"unknown tool_id {quoted id} —{suggestNearMisses px cat granted id} {recovery px}"

/-! ## Calls -/

def plainShaping : Shaping := ⟨fun r => r, fun _ _ => rfl⟩

/-- The `n`-th call of a request, refused at the gate or made behind it. -/
def stepDispatch (cat : Catalog) (granted : List String) (n : Nat) (id : String) (args : Json)
    (fields : List String) : Dispatch :=
  match gate px cat granted id with
  | none => ⟨0, .refused (unknownId px cat granted id), plainShaping⟩
  | some v => px.behind n id v args fields

/-- mirrors src/surface/dispatch.rs:16-44 -/
def dispatchCall (cat : Catalog) (granted : List String) (id : String) (args : Json)
    (fields : List String) : Except String (Json × Reach) :=
  let d := stepDispatch px cat granted 0 id args fields
  CallReach.dispatchReach id d.timeoutS d.call d.shape

/-- mirrors src/surface/workflow.rs:59-64, src/surface.rs:431-436 -/
def effects (cat : Catalog) : Workflows.Catalog where
  readOnly id := (cat.lookup id).bind ToolDef.readOnly
  fromSpec id := ((cat.lookup id).map fun t => px.isSpec t.upstreamIdx).getD false

/-- The dispatches of a composite's steps. -/
def stepWorld (cat : Catalog) (granted : List String) (wf : Workflow) : World := fun n args =>
  match wf.steps[n]? with
  | none => ⟨0, .refused "", plainShaping⟩
  | some step => stepDispatch px cat granted n step.tool args []

/-- mirrors src/surface.rs:771-777 -/
def routeCall (cat : Catalog) (granted : List String) (id : String) (args : Json)
    (fields : List String) : Except String Json :=
  match (px.workflows.find? fun wf => wf.id = id).filter
      fun _ => px.cfg.scopes.mayCall granted id with
  | some wf =>
    .ok (Workflows.executeWorkflow (effects px cat) wf args (stepWorld px cat granted wf)).result
  | none => (dispatchCall px cat granted id args fields).map Prod.fst

def agentResultBudget : Nat := 8000

def passthroughResultBudget : Nat := 64000

/-- mirrors src/surface/results.rs:151-161 -/
def truncateBlock (max : Nat) (notice : String) : Json → Json
  | .obj es =>
    match es.lookup "text" with
    | some (.str text) =>
      if max < text.utf8ByteSize then
        .obj (OrderedMap.insert "text" (.str (budgetTruncate text max notice)) es)
      else .obj es
    | _ => .obj es
  | b => b

/-- mirrors src/surface/results.rs:140-162 -/
def truncateBlocks (max : Nat) (notice : String) : Json → Json
  | .obj es =>
    let es := match es.lookup "structuredContent" with
      | some sc => if max < sc.render.utf8ByteSize then OrderedMap.swapRemove "structuredContent" es else es
      | none => es
    match es.lookup "content" with
    | some (.arr blocks) => .obj (OrderedMap.insert "content" (.arr (blocks.map (truncateBlock max notice))) es)
    | _ => .obj es
  | r => r

/-- mirrors src/surface/results.rs:131-133 -/
def truncateResultText (r : Json) : Json :=
  truncateBlocks agentResultBudget
    "\n…[truncated by min-mcp — request fewer fields to see the rest]" r

/-- mirrors src/surface/results.rs:136-138 -/
def truncatePassthroughText (r : Json) : Json :=
  truncateBlocks passthroughResultBudget
    "\n…[truncated by min-mcp — narrow the request (filters, pagination) to see the rest]" r

/-- mirrors src/surface/results.rs:288-293 -/
def badArg (msg : String) : Json :=
  textResult
    (msg ++ ". This is a client-side argument error; fix the arguments — do not retry unchanged.") true

/-- mirrors src/surface.rs:69-72 -/
def callArguments (raw : Option Json) : Option Json :=
  let v := (raw.filter fun v => !v.isNull).getD (.obj [])
  match v with
  | .obj _ => some v
  | _ => none

/-- mirrors src/surface.rs:566-599 -/
def callTool (cat : Catalog) (granted : List String) (args : Json) : Except String Json :=
  match (args.get "tool_id").bind Json.asStr with
  | none => .ok (badArg "call_tool requires a 'tool_id' string")
  | some id =>
    match callArguments (args.get "arguments") with
    | none => .ok (badArg "call_tool 'arguments' must be a JSON object")
    | some inner =>
      let fields := (((args.get "fields").bind Json.asArray).getD []).filterMap Json.asStr
      (routeCall px cat granted id inner fields).map truncateResultText

/-- Takes `structuredContent` out of the budget of a tool that declares an output
schema no overlay reshapes.
mirrors src/surface.rs:624-634 -/
def boundPassthrough (declared : Bool) (r : Json) : Json :=
  match if declared then r.get "structuredContent" else none with
  | none => truncatePassthroughText r
  | some sc =>
    match r with
    | .obj es =>
      match truncatePassthroughText (.obj (OrderedMap.swapRemove "structuredContent" es)) with
      | .obj es => .obj (OrderedMap.insert "structuredContent" sc es)
      | v => v
    | v => v

/-- mirrors src/surface.rs:600-636; `reshapes`: an overlay changes what the tool
returns. -/
def callByName (reshapes : String → Bool) (cat : Catalog) (granted : List String) (name : String)
    (args : Json) : Except String Json :=
  match (cat.exposed.lookup name).filter fun id => px.cfg.scopes.visible granted id with
  | none =>
    let visibleNames := (cat.exposed.filter fun e => px.cfg.scopes.visible granted e.2).map Prod.fst
    .ok (textResult
      s!"unknown tool {quoted name} —{didYouMean px.unicode name visibleNames} {recovery px}" true)
  | some id =>
    let declared := ((cat.lookup id).any fun t => (t.extra.lookup "outputSchema").isSome) && !reshapes id
    (dispatchCall px cat granted id args []).map fun r => boundPassthrough declared r.1

/-- mirrors src/surface.rs:673-695 -/
def detailsText (cat : Catalog) (granted : List String) (id : String) : String :=
  match (px.workflows.find? fun wf => wf.id = id).filter
      fun _ => px.cfg.scopes.visible granted id with
  | some wf => px.workflowDetails wf
  | none =>
    match (view px cat id).filter fun _ => px.cfg.scopes.visible granted id with
    | none => unknownId px cat granted id
    | some v => px.toolDetails id v.tool.description v.schema

/-- mirrors src/surface.rs:558-565 -/
def toolDetails (cat : Catalog) (granted : List String) (args : Json) : Json :=
  match (args.get "tool_id").bind Json.asStr with
  | none => badArg "get_tool_details requires a 'tool_id' string"
  | some id => textResult (detailsText px cat granted id) false

/-- `Surface::call`, without `search_tools`, and the entry points of the command
line. -/
inductive Request where
  | call (name : String) (args : Json)
  | cliCall (id : String) (args : Json) (fields : List String)
  | cliDetails (id : String)

/-- mirrors src/surface.rs:525-638; nothing for `search_tools`. -/
def answer (reshapes : String → Bool) (cat : Catalog) (granted : List String) :
    Request → Option (Except String Json)
  | .call name args =>
    if px.cfg.mode = .passthrough then some (callByName px reshapes cat granted name args)
    else if name = "search_tools" then none
    else if name = "get_tool_details" then some (.ok (toolDetails px cat granted args))
    else if name = "call_tool" then some (callTool px cat granted args)
    else some (callByName px reshapes cat granted name args)
  | .cliCall id args fields => some ((routeCall px cat granted id args fields).map truncateResultText)
  | .cliDetails id => some (.ok (.str (detailsText px cat granted id)))

/-- `cat'` is `cat` without the tool `t`; both maps hold a key once. -/
structure Without (t : String) (cat cat' : Catalog) : Prop where
  ids : (OrderedMap.keys cat.byId).Nodup
  ids' : (OrderedMap.keys cat'.byId).Nodup
  mem_ids : ∀ id, id ∈ OrderedMap.keys cat'.byId ↔ id ∈ OrderedMap.keys cat.byId ∧ id ≠ t
  names : (OrderedMap.keys cat.exposed).Nodup
  names' : (OrderedMap.keys cat'.exposed).Nodup
  mem_exposed : ∀ e, e ∈ cat'.exposed ↔ e ∈ cat.exposed ∧ e.2 ≠ t
  lookup : ∀ id, id ≠ t → cat'.lookup id = cat.lookup id
  own_id : ∀ id tool, cat.lookup id = some tool → tool.id = id
  patched : ∀ id, id ≠ t → cat'.patchedSchemas.lookup id = cat.patchedSchemas.lookup id
  headers : ∀ id, id ≠ t → cat'.toolHeaders.lookup id = cat.toolHeaders.lookup id
  userSupplied : ∀ id, id ≠ t → cat'.userSupplied.lookup id = cat.userSupplied.lookup id

/-! ## Composites -/

/-- The two catalogs say the same of the tool. -/
def Agree (c c' : Workflows.Catalog) (tool : String) : Prop :=
  c.readOnly tool = c'.readOnly tool ∧ c.fromSpec tool = c'.fromSpec tool

section Composite

variable {c c' : Workflows.Catalog} {wf : Workflow} {inputs : Json} {world : World}

theorem stepEffect_congr {tool : String} (h : Agree c c' tool) :
    Workflows.stepEffect c tool = Workflows.stepEffect c' tool := by
  unfold Workflows.stepEffect
  rw [h.1]

theorem workflowFailure_congr {done rest : List Step} {step : Step} {error : String} {reach : Reach}
    {outs : Outs} (hdone : ∀ s ∈ done, Agree c c' s.tool)
    (hstep : Agree c c' step.tool ∨ reach ≠ .noAnswer) :
    Workflows.workflowFailure c wf done step rest error reach outs =
      Workflows.workflowFailure c' wf done step rest error reach outs := by
  have hwrote : Workflows.wroteSteps c done = Workflows.wroteSteps c' done := by
    unfold Workflows.wroteSteps
    rw [List.filter_congr fun s hs => by rw [stepEffect_congr (hdone s hs)]]
  have hdoubt : Workflows.inDoubt c step reach = Workflows.inDoubt c' step reach := by
    unfold Workflows.inDoubt
    rcases hstep with h | h
    · rw [stepEffect_congr h]
    · rw [decide_eq_false h, Bool.false_and, Bool.false_and]
  have hentries : done.map (Workflows.completedEntry c outs) =
      done.map (Workflows.completedEntry c' outs) := by
    refine List.map_congr_left fun s hs => ?_
    unfold Workflows.completedEntry
    rw [stepEffect_congr (hdone s hs)]
  unfold Workflows.workflowFailure Workflows.fixLine
  rw [hwrote, hdoubt, hentries]

theorem runStep_congr {i : Nat} {step : Step} {outs : Outs} (h : Agree c c' step.tool) :
    Workflows.runStep c inputs world i step outs = Workflows.runStep c' inputs world i step outs := by
  have hcollect : ∀ r, Workflows.collect c step r outs = Workflows.collect c' step r outs := by
    intro r
    unfold Workflows.collect
    rw [h.2]
  unfold Workflows.runStep
  simp only [hcollect]

theorem runStep_refused (inputs : Json) (step : Step) (outs : Outs) {i : Nat}
    (h : ∀ args, ∃ text, (world i args).call = .refused text) :
    ∃ text, ∀ cat, Workflows.runStep cat inputs world i step outs = .error (text, .notSent) := by
  obtain ⟨text, ht⟩ := h (Workflows.resolveInput inputs outs step.input)
  refine ⟨resultText (textResult text true), fun cat => ?_⟩
  unfold Workflows.runStep CallReach.dispatchReach
  simp only [ht, CallReach.isErrorResult_textResult, Bool.true_eq_false, if_false]

/-- The loop reads the catalog for steps that ran; of one that is refused, nothing. -/
theorem runFrom_congr {rest done : List Step} {i : Nat} {outs : Outs}
    (hdone : ∀ s ∈ done, Agree c c' s.tool)
    (hrest : ∀ k step, rest[k]? = some step →
      Agree c c' step.tool ∨ ∀ args, ∃ text, (world (i + k) args).call = .refused text) :
    Workflows.runFrom c wf inputs world i done outs rest =
      Workflows.runFrom c' wf inputs world i done outs rest := by
  induction rest generalizing i done outs with
  | nil => rfl
  | cons step rest ih =>
    unfold Workflows.runFrom
    have hfirst := hrest 0 step rfl
    rw [Nat.add_zero] at hfirst
    rcases hfirst with h | h
    · rw [runStep_congr h]
      cases Workflows.runStep c' inputs world i step outs with
      | ok outs' =>
        apply ih
        · intro s hs
          rw [List.mem_append, List.mem_singleton] at hs
          rcases hs with hs | rfl
          · exact hdone s hs
          · exact h
        · intro k s hk
          have := hrest (k + 1) s hk
          rwa [Nat.add_comm k 1, ← Nat.add_assoc] at this
      | error e =>
        obtain ⟨error, reach⟩ := e
        exact congrArg Outcome.failed (workflowFailure_congr hdone (Or.inl h))
    · obtain ⟨text, ht⟩ := runStep_refused inputs step outs h
      rw [ht c, ht c']
      exact congrArg Outcome.failed (workflowFailure_congr hdone (Or.inr (by decide)))

theorem execute_congr (h : ∀ k step, wf.steps[k]? = some step →
      Agree c c' step.tool ∨ ∀ args, ∃ text, (world k args).call = .refused text) :
    Workflows.executeWorkflow c wf inputs world = Workflows.executeWorkflow c' wf inputs world := by
  unfold Workflows.executeWorkflow
  apply runFrom_congr
  · intro s hs
    cases hs
  · intro k step hk
    rw [Nat.zero_add]
    exact h k step hk

end Composite

/-! ## The same answers -/

section Answers

variable {px} {t : String} {cat cat' : Catalog} {granted : List String}

theorem view_without (h : Without t cat cat') {id : String} (hid : id ≠ t) :
    view px cat' id = view px cat id := by
  unfold view
  rw [h.lookup id hid, h.headers id hid, h.userSupplied id hid]
  cases ht : cat.lookup id with
  | none => rfl
  | some tool =>
    have hown := h.own_id id tool ht
    have hpatched := h.patched tool.id (hown ▸ hid)
    unfold resolvedSchema
    rw [Option.map_some, Option.map_some, hpatched]

theorem effects_without (h : Without t cat cat') {id : String} (hid : id ≠ t) :
    Agree (effects px cat') (effects px cat) id := by
  constructor
  · simp only [effects, h.lookup id hid]
  · simp only [effects, h.lookup id hid]

variable (hh : px.cfg.scopes.visible granted t = false)
include hh

theorem filter_hidden {α : Type} (o : Option α) :
    (o.filter fun _ => px.cfg.scopes.visible granted t) = none := by
  rw [hh]
  cases o <;> rfl

theorem view_visible_without (h : Without t cat cat') (id : String) :
    ((view px cat' id).filter fun _ => px.cfg.scopes.visible granted id) =
      (view px cat id).filter fun _ => px.cfg.scopes.visible granted id := by
  by_cases hid : id = t
  · rw [hid, filter_hidden hh, filter_hidden hh]
  · rw [view_without h hid]

theorem gate_without (h : Without t cat cat') (id : String) :
    gate px cat' granted id = gate px cat granted id := by
  unfold gate
  rw [Scopes.mayCall_eq_visible]
  exact view_visible_without hh h id

/-- The visible candidates are the same, in some order. -/
theorem candidates_without (h : Without t cat cat') (more : List String) :
    ((OrderedMap.keys cat'.byId ++ more).filter fun id => px.cfg.scopes.visible granted id).Perm
      ((OrderedMap.keys cat.byId ++ more).filter fun id => px.cfg.scopes.visible granted id) := by
  rw [List.filter_append, List.filter_append]
  apply List.Perm.append_right
  apply (List.perm_ext_iff_of_nodup (h.ids'.filter _) (h.ids.filter _)).mpr
  intro id
  rw [List.mem_filter, List.mem_filter, h.mem_ids]
  constructor
  · rintro ⟨⟨hk, -⟩, hv⟩
    exact ⟨hk, hv⟩
  · intro ⟨hk, hv⟩
    refine ⟨⟨hk, ?_⟩, hv⟩
    rintro rfl
    rw [hh] at hv
    cases hv

theorem nearMisses_without (h : Without t cat cat') (wrong : String) :
    suggestNearMisses px cat' granted wrong = suggestNearMisses px cat granted wrong :=
  didYouMean_perm px.unicode wrong (candidates_without hh h _)

theorem unknownId_without (h : Without t cat cat') (id : String) :
    unknownId px cat' granted id = unknownId px cat granted id := by
  unfold unknownId
  rw [nearMisses_without hh h]

theorem stepDispatch_without (h : Without t cat cat') (n : Nat) (id : String) (args : Json)
    (fields : List String) :
    stepDispatch px cat' granted n id args fields = stepDispatch px cat granted n id args fields := by
  unfold stepDispatch
  rw [gate_without hh h, unknownId_without hh h]

theorem stepWorld_without (h : Without t cat cat') (wf : Workflow) :
    stepWorld px cat' granted wf = stepWorld px cat granted wf := by
  funext n args
  unfold stepWorld
  cases wf.steps[n]? with
  | none => rfl
  | some step => exact stepDispatch_without hh h n step.tool args []

/-- A composite with a step that is hidden is refused there, before anything is read
of the tool. -/
theorem execute_without (h : Without t cat cat') (wf : Workflow) (args : Json) :
    Workflows.executeWorkflow (effects px cat') wf args (stepWorld px cat' granted wf) =
      Workflows.executeWorkflow (effects px cat) wf args (stepWorld px cat granted wf) := by
  rw [stepWorld_without hh h]
  apply execute_congr
  intro k step hk
  by_cases hid : step.tool = t
  · right
    intro a
    have hg : gate px cat granted step.tool = none := by
      unfold gate
      rw [Scopes.mayCall_eq_visible, hid]
      exact filter_hidden hh _
    refine ⟨unknownId px cat granted step.tool, ?_⟩
    unfold stepWorld stepDispatch
    simp only [hk, hg]
  · exact Or.inl (effects_without h hid)

theorem routeCall_without (h : Without t cat cat') (id : String) (args : Json) (fields : List String) :
    routeCall px cat' granted id args fields = routeCall px cat granted id args fields := by
  unfold routeCall dispatchCall
  simp only [execute_without hh h, stepDispatch_without hh h]

theorem detailsText_without (h : Without t cat cat') (id : String) :
    detailsText px cat' granted id = detailsText px cat granted id := by
  unfold detailsText
  simp only [view_visible_without hh h, unknownId_without hh h]

/-- A visible name leads to the same id, and the visible names are the same. -/
theorem byName_without (h : Without t cat cat') (name : String) :
    ((cat'.exposed.lookup name).filter fun id => px.cfg.scopes.visible granted id) =
      (cat.exposed.lookup name).filter fun id => px.cfg.scopes.visible granted id := by
  apply Option.ext
  intro id
  rw [Option.filter_eq_some_iff, Option.filter_eq_some_iff]
  constructor
  · intro ⟨hl, hv⟩
    have hm := ((h.mem_exposed (name, id)).mp (OrderedMap.mem_of_lookup hl)).1
    exact ⟨OrderedMap.lookup_of_mem h.names hm, hv⟩
  · intro ⟨hl, hv⟩
    have hne : id ≠ t := by
      rintro rfl
      rw [hh] at hv
      cases hv
    have hm := (h.mem_exposed (name, id)).mpr ⟨OrderedMap.mem_of_lookup hl, hne⟩
    exact ⟨OrderedMap.lookup_of_mem h.names' hm, hv⟩

theorem visibleNames_without (h : Without t cat cat') :
    ((cat'.exposed.filter fun e => px.cfg.scopes.visible granted e.2).map Prod.fst).Perm
      ((cat.exposed.filter fun e => px.cfg.scopes.visible granted e.2).map Prod.fst) := by
  apply List.Perm.map
  apply (List.perm_ext_iff_of_nodup ((List.Nodup.of_map Prod.fst h.names').filter _)
    ((List.Nodup.of_map Prod.fst h.names).filter _)).mpr
  intro e
  rw [List.mem_filter, List.mem_filter, h.mem_exposed]
  constructor
  · rintro ⟨⟨hm, -⟩, hv⟩
    exact ⟨hm, hv⟩
  · intro ⟨hm, hv⟩
    refine ⟨⟨hm, ?_⟩, hv⟩
    intro he
    rw [he, hh] at hv
    cases hv

theorem callByName_without (h : Without t cat cat') (reshapes : String → Bool) (name : String)
    (args : Json) :
    callByName px reshapes cat' granted name args = callByName px reshapes cat granted name args := by
  have hnames := didYouMean_perm px.unicode name (visibleNames_without hh h)
  unfold callByName
  rw [byName_without hh h]
  cases hn : (cat.exposed.lookup name).filter fun id => px.cfg.scopes.visible granted id with
  | none => simp only [hnames]
  | some id =>
    have hid : id ≠ t := by
      rintro rfl
      rw [Option.filter_eq_some_iff, hh] at hn
      cases hn.2
    simp only [dispatchCall, stepDispatch_without hh h, h.lookup id hid]

end Answers

/-- **Absence.** With the scope rules enforced, a caller from whom `t` is hidden gets
the answers of the catalog without `t`. -/
theorem hidden_is_absent (px : Proxy) (reshapes : String → Bool) (t : String) (cat cat' : Catalog)
    (granted : List String) (hro : px.cfg.scopes.reportOnly = false)
    (ht : px.cfg.scopes.allowed t granted = false) (h : Without t cat cat') (r : Request) :
    answer px reshapes cat granted r = answer px reshapes cat' granted r := by
  have hh : px.cfg.scopes.visible granted t = false := by
    unfold Scopes.visible
    rw [hro, ht]
    rfl
  cases r with
  | call name args =>
    unfold answer callTool toolDetails
    simp only [callByName_without hh h, routeCall_without hh h, detailsText_without hh h]
  | cliCall id args fields =>
    unfold answer
    simp only [routeCall_without hh h]
  | cliDetails id =>
    unfold answer
    simp only [detailsText_without hh h]

/-! ## A near miss of a hidden tool -/

def exampleProxy : Proxy where
  cfg := {
    mode := .threeTool
    filters := ⟨[], []⟩
    scopes := ⟨[⟨"read", ["crm.get"]⟩], false⟩
    bindingPolicy := .weak
    poisoningPolicy := .warn
    overlays := [] }
  upstreams := [⟨"crm", fun _ => none⟩]
  isSpec _ := false
  workflows := []
  unicode := ascii
  behind _ _ _ _ _ := ⟨0, .refused "RATE_LIMITED", plainShaping⟩
  toolDetails id _ _ := id
  workflowDetails wf := wf.id

def crmTool (name : String) : ToolDef := toolDef "crm" 0 (.obj [("name", .str name)])

def bothTools : Catalog :=
  ⟨[crmTool "get", crmTool "gets"], [("crm.get", 0), ("crm.gets", 1)], [], [], [], [], [], []⟩

def oneTool : Catalog := ⟨[crmTool "get"], [("crm.get", 0)], [], [], [], [], [], []⟩

theorem without_gets : Without "crm.gets" bothTools oneTool where
  ids := by decide
  ids' := by decide
  mem_ids id := by
    simp only [oneTool, bothTools, OrderedMap.keys, List.map_cons, List.map_nil, List.mem_cons,
      List.not_mem_nil, or_false]
    constructor
    · rintro rfl
      exact ⟨Or.inl rfl, by decide⟩
    · rintro ⟨h | h, hne⟩
      · exact h
      · exact absurd h hne
  names := by decide
  names' := by decide
  mem_exposed e := by simp [oneTool, bothTools]
  lookup id hid := by
    unfold Catalog.lookup oneTool bothTools
    by_cases h : id = "crm.get"
    · rw [h]
      rfl
    · have hn : ([] : List (String × Nat)).lookup id = none := rfl
      rw [OrderedMap.lookup_cons_of_ne h, OrderedMap.lookup_cons_of_ne h,
        OrderedMap.lookup_cons_of_ne hid, hn]
      rfl
  own_id id tool h := by
    unfold Catalog.lookup bothTools at h
    by_cases h1 : id = "crm.get"
    · subst h1
      rw [← Option.some.inj h]
      decide
    · by_cases h2 : id = "crm.gets"
      · subst h2
        rw [← Option.some.inj h]
        decide
      · rw [OrderedMap.lookup_cons_of_ne h1, OrderedMap.lookup_cons_of_ne h2] at h
        cases h
  patched _ _ := rfl
  headers _ _ := rfl
  userSupplied _ _ := rfl

/-- The caller who names the hidden tool is pointed to the one it may see. -/
theorem gets_is_absent :
    answer exampleProxy (fun _ => false) bothTools ["read"]
        (.call "call_tool" (.obj [("tool_id", .str "crm.gets")])) =
      answer exampleProxy (fun _ => false) oneTool ["read"]
        (.call "call_tool" (.obj [("tool_id", .str "crm.gets")])) :=
  hidden_is_absent exampleProxy _ "crm.gets" _ _ _ rfl (by decide +kernel) without_gets _

example : unknownId exampleProxy bothTools ["read"] "crm.gets" =
    "unknown tool_id \"crm.gets\" — did you mean \"crm.get\"? use search_tools to find the right tool id" := by
  decide +kernel

end MinMcp.L4.Hidden
