import MinMcp.Core.Snapshots
import MinMcp.L4App.CallAudit
import MinMcp.L4App.Minify
import MinMcp.L4App.Shaping

/-!
# A request while the catalog is swapped

A re-index puts a new catalog in the place of the old one (src/surface/catalog.rs:338)
while requests run. `cat()` promises that "a request takes one snapshot and uses it
throughout" (src/surface/catalog.rs:232-234), but the functions a request goes through
each take their own: the exposed name (src/surface.rs:608), dispatch
(src/surface/dispatch.rs:34), near misses (src/surface.rs:760), the drop of cached reads
(src/surface/cache.rs:59), error hints (src/surface/dispatch.rs:545), the steps of a
composite and its failure report (src/surface/workflow.rs:23, 59-64), and search, once for
the hits and once for each description (src/surface.rs:646, 822-827).

`call` is `Surface::call` as a program over such looks (`Query`). All else that changes, the
read cache, limits, breakers and the upstreams, is a state `S`, threaded through the calls of
a request; what happens behind the gate is `Proxy.behind`. The log and the shadow
retrievers, which see the catalog too, are left out.

* `eval_call`: on one catalog, without hints and caches, `call` gives the answers of
  `Hidden.answer`.
-/
namespace MinMcp.L5.Isolation

open MinMcp.Core MinMcp.Core.Text MinMcp.Core.Snapshots
open MinMcp.L4 MinMcp.L4.Catalogs MinMcp.L4.Results MinMcp.L4.Shaping
open MinMcp.L4.Suggestions (Unicode didYouMean)
open MinMcp.L4.CallReach (Call Reach callResult)
open MinMcp.L4.Minify (truncateInPlace)
open MinMcp.L4.Workflows (Workflow Step Outs Dispatch)

/-- A catalog with its search index: the ids found for a query, in rank order. -/
structure Snapshot extends Catalog where
  search : String → Nat → List String

/-- What dispatch takes of its snapshot; the schema when pre-flight is on.
mirrors src/surface/dispatch.rs:34-45, 82-86, 94-113 -/
structure Taken where
  upstreamIdx : Nat
  name : String
  readOnly : Option Bool
  schema : Option Json
  headers : Option (List (String × String))
  userSupplied : Option (List (String × String))

/-- What became of a call behind its gate, up to the error hints, and the state it leaves;
`busts`: it went to the upstream and is no read. -/
structure Behind (S : Type) extends Dispatch where
  state : S
  busts : Bool

structure Proxy (S : Type) where
  cfg : Config
  upstreams : List Backend
  isSpec : Nat → Bool
  workflows : List Workflow
  workflowDescription : Workflow → String
  unicode : Unicode
  /-- The overlay's `preflight`, or else the global one. -/
  preflight : String → Bool
  errorHints : String → List ErrorHint
  reshapes : String → Bool
  behind : S → String → Taken → Json → List String → Behind S
  /-- The ids of the cached reads. -/
  cachedIds : S → List String
  dropCached : S → List String → S
  toolDetails : String → String → Json → String
  workflowDetails : Workflow → String

/-! ## Looks at the catalog -/

inductive Query where
  /-- The id behind an exposed name, or the hint at other names. -/
  | name (name : String)
  | gate (id : String)
  | nearMisses (wrong : String)
  /-- Those of the ids that belong to the upstream. -/
  | owned (idx : Nat) (ids : List String)
  | hintSchema (id : String)
  | fromSpec (id : String)
  | readOnly (id : String)
  | hits (query : String) (k : Nat)
  | describe (id : String)
  | details (id : String)

abbrev Query.Answer : Query → Type
  | .name _ => Except String (String × Bool)
  | .gate _ => Option Taken
  | .nearMisses _ => String
  | .owned _ _ => List String
  | .hintSchema _ => Option Json
  | .fromSpec _ => Bool
  | .readOnly _ => Option Bool
  | .hits _ _ => List String
  | .describe _ => Option String
  | .details _ => Option (String × Json)

def look (q : Query) : Prog Query.Answer q.Answer := .read q

/-- `s.lines().next().unwrap_or("")` -/
def firstLine (s : String) : String :=
  let line := s.toList.takeWhile fun c => c ≠ '\n'
  let ended := line.length < s.toList.length
  String.ofList (if ended && line.getLast? = some '\r' then line.dropLast else line)

section Looks

variable {S : Type} (px : Proxy S) (granted : List String)

/-- The proxy as `Hidden` has it, with every call refused behind the gate. -/
def Proxy.front : Hidden.Proxy where
  cfg := px.cfg
  upstreams := px.upstreams
  isSpec := px.isSpec
  workflows := px.workflows
  unicode := px.unicode
  behind _ _ _ _ _ := ⟨0, .refused "", Hidden.plainShaping⟩
  toolDetails := px.toolDetails
  workflowDetails := px.workflowDetails

def Proxy.taken (id : String) (v : Hidden.ToolView) : Taken where
  upstreamIdx := v.tool.upstreamIdx
  name := v.tool.name
  readOnly := v.tool.readOnly
  schema := if px.preflight id then some v.schema else none
  headers := v.headers
  userSupplied := v.userSupplied

/-- mirrors src/surface.rs:608-619, 628-629 -/
def lookName (cat : Catalog) (name : String) : Except String (String × Bool) :=
  match (cat.exposed.lookup name).filter fun id => px.cfg.scopes.visible granted id with
  | none => .error (didYouMean px.unicode name
      ((cat.exposed.filter fun e => px.cfg.scopes.visible granted e.2).map Prod.fst))
  | some id => .ok (id,
      ((cat.lookup id).any fun t => (t.extra.lookup "outputSchema").isSome) && !px.reshapes id)

/-- The view of a tool that the caller may see. -/
def visibleView (cat : Catalog) (id : String) : Option Hidden.ToolView :=
  (Hidden.view px.front cat id).filter fun _ => px.cfg.scopes.visible granted id

/-- One look at a snapshot. -/
def ask (snap : Snapshot) : (q : Query) → q.Answer
  | .name name => lookName px granted snap.toCatalog name
  | .gate id => (Hidden.gate px.front snap.toCatalog granted id).map (px.taken id)
  | .nearMisses wrong => Hidden.suggestNearMisses px.front snap.toCatalog granted wrong
  | .owned idx ids => ids.filter fun id => (snap.lookup id).any fun t => t.upstreamIdx = idx
  | .hintSchema id => (visibleView px granted snap.toCatalog id).map Hidden.ToolView.schema
  | .fromSpec id => ((snap.lookup id).map fun t => px.isSpec t.upstreamIdx).getD false
  | .readOnly id => (snap.lookup id).bind ToolDef.readOnly
  | .hits query k => snap.search query k
  | .describe id => (snap.lookup id).map fun t => firstLine t.description
  | .details id => (visibleView px granted snap.toCatalog id).map fun v => (v.tool.description, v.schema)

end Looks

/-! ## Requests -/

section Requests

variable {S : Type} (px : Proxy S) (granted : List String)

/-- mirrors src/surface/dispatch.rs:37-41, src/surface.rs:689-693 -/
def unknownId (id near : String) : String :=
  s!"unknown tool_id {Hidden.quoted id} —{near} {Hidden.recovery px.front}"

/-- mirrors src/surface/cache.rs:53-62 -/
def bustUpstreamCache (st : S) (idx : Nat) : Prog Query.Answer S :=
  if (px.cachedIds st).isEmpty then pure st
  else do
    let gone ← look (.owned idx (px.cachedIds st))
    pure (px.dropCached st gone)

/-- mirrors src/surface/dispatch.rs:293-300 -/
def settle (b : Behind S) (idx : Nat) : Prog Query.Answer S :=
  if b.busts then bustUpstreamCache px b.state idx else pure b.state

/-- mirrors src/surface/dispatch.rs:519-573 -/
def hinted (id : String) (r : Json) : Prog Query.Answer Json := do
  let text := "\n".intercalate (blockTexts r)
  let matched := (px.errorHints id).filter fun h => h.contains.toList <:+: text.toList
  let schema ← if matched.any fun h => h.field.isSome then look (.hintSchema id) else pure none
  pure (applyErrorHints (px.errorHints id) schema r)

/-- A call that was not refused, from its result on.
mirrors src/surface/dispatch.rs:237-349 -/
def afterCall (id : String) (fields : List String) (idx : Nat) (b : Behind S) :
    Prog Query.Answer ((Json × Reach) × S) := do
  let (r, reach) := callResult id b.timeoutS b.call
  let st ← settle px b idx
  let out ← hinted px id (b.shape.run r)
  let nudged := px.cfg.mode = .threeTool && fields.isEmpty && !isErrorResult r
  pure ((if nudged then nudgeProjection out else out, reach), st)

/-- The result of a call, its reach, and the state it leaves.
mirrors src/surface/dispatch.rs:22-349 -/
def dispatch (st : S) (id : String) (args : Json) (fields : List String) :
    Prog Query.Answer ((Json × Reach) × S) := do
  match ← look (.gate id) with
  | none =>
    let near ← look (.nearMisses id)
    pure ((textResult (unknownId px id near) true, .notSent), st)
  | some t =>
    let b := px.behind st id t args fields
    match b.call with
    | .refused text => pure ((textResult text true, .notSent), b.state)
    | _ => afterCall px id fields t.upstreamIdx b

/-- A catalog that says this of every tool. -/
def told (readOnly : Option Bool) (fromSpec : Bool) : Workflows.Catalog :=
  ⟨fun _ => readOnly, fun _ => fromSpec⟩

/-- The steps that ran, each with what the catalog says of its tool when it is asked.
mirrors src/surface/workflow.rs:59-64, 92-95 -/
def effects : List Step → Prog Query.Answer (List (Step × Option Bool))
  | [] => pure []
  | s :: ss => do
    let readOnly ← look (.readOnly s.tool)
    let rest ← effects ss
    pure ((s, readOnly) :: rest)

/-- mirrors src/surface/workflow.rs:107 -/
def inDoubt (step : Step) (reach : Reach) : Prog Query.Answer Bool :=
  if reach = .noAnswer then do
    let readOnly ← look (.readOnly step.tool)
    pure (Workflows.stepEffect (told readOnly false) step.tool = .write)
  else pure false

/-- mirrors src/surface/workflow.rs:82-140 -/
def failureReport (wf : Workflow) (done : List (Step × Option Bool)) (step : Step) (rest : List Step)
    (error : String) (reach : Reach) (doubt : Bool) (outs : Outs) : Json :=
  let wrote := (done.filter fun s => Workflows.stepEffect (told s.2 false) s.1.tool = .write).map
    fun s => s.1.id
  let fix := if wrote ≠ [] then Workflows.fixWrote wrote
    else if doubt then Workflows.fixInDoubt else Workflows.fixRerun
  .obj [("workflow", .str wf.id),
    ("fix", .str (if doubt then fix ++ Workflows.doubtSuffix step.id else fix)),
    ("failed_step", .obj [("step", .str step.id), ("tool", .str step.tool),
      ("outcome", .str reach.outcome),
      ("error", .str (Workflows.budgetTruncate error Workflows.workflowErrorBudget "…[truncated]"))]),
    ("completed", .arr (done.map fun s => Workflows.completedEntry (told s.2 false) outs s.1)),
    ("not_run", .arr (rest.map fun s => .obj [("step", .str s.id), ("tool", .str s.tool)]))]

/-- mirrors src/surface/workflow.rs:17-53 -/
def runFrom (wf : Workflow) (inputs : Json) (st : S) (done : List Step) (outs : Outs) :
    List Step → Prog Query.Answer Json
  | [] => pure (Workflows.Outcome.finished
      (wf.outputs.map fun o => (o.1, Workflows.resolveInput inputs outs o.2))).result
  | step :: rest => do
    let d ← dispatch px st step.tool (Workflows.resolveInput inputs outs step.input) []
    if isErrorResult d.1.1 = false then
      let fromSpec ← look (.fromSpec step.tool)
      runFrom wf inputs d.2 (done ++ [step])
        (Workflows.collect (told none fromSpec) step d.1.1 outs) rest
    else
      let done ← effects done
      let doubt ← inDoubt step d.1.2
      pure (Workflows.Outcome.failed
        (failureReport wf done step rest (resultText d.1.1) d.1.2 doubt outs)).result

/-- mirrors src/surface.rs:771-777 -/
def routeCall (st : S) (id : String) (args : Json) (fields : List String) : Prog Query.Answer Json :=
  match (px.workflows.find? fun wf => wf.id = id).filter fun _ => px.cfg.scopes.mayCall granted id with
  | some wf => runFrom px wf args st [] [] wf.steps
  | none => do
    let d ← dispatch px st id args fields
    pure d.1.1

/-- mirrors src/surface.rs:566-599 -/
def callTool (st : S) (args : Json) : Prog Query.Answer Json :=
  match (args.get "tool_id").bind Json.asStr with
  | none => pure (Hidden.badArg "call_tool requires a 'tool_id' string")
  | some id =>
    match Hidden.callArguments (args.get "arguments") with
    | none => pure (Hidden.badArg "call_tool 'arguments' must be a JSON object")
    | some inner => do
      let fields := (((args.get "fields").bind Json.asArray).getD []).filterMap Json.asStr
      let r ← routeCall px granted st id inner fields
      pure (Hidden.truncateResultText r)

/-- mirrors src/surface.rs:600-636 -/
def callByName (st : S) (name : String) (args : Json) : Prog Query.Answer Json := do
  match ← look (.name name) with
  | .error hint =>
    pure (textResult s!"unknown tool {Hidden.quoted name} —{hint} {Hidden.recovery px.front}" true)
  | .ok (id, declared) =>
    let d ← dispatch px st id args []
    pure (Hidden.boundPassthrough declared d.1.1)

/-- mirrors src/surface.rs:673-695 -/
def detailsText (id : String) : Prog Query.Answer String :=
  match (px.workflows.find? fun wf => wf.id = id).filter fun _ => px.cfg.scopes.visible granted id with
  | some wf => pure (px.workflowDetails wf)
  | none => do
    match ← look (.details id) with
    | none =>
      let near ← look (.nearMisses id)
      pure (unknownId px id near)
    | some (description, schema) => pure (px.toolDetails id description schema)

/-- mirrors src/surface.rs:558-565 -/
def toolDetails (args : Json) : Prog Query.Answer Json :=
  match (args.get "tool_id").bind Json.asStr with
  | none => pure (Hidden.badArg "get_tool_details requires a 'tool_id' string")
  | some id => do
    let text ← detailsText px granted id
    pure (textResult text false)

/-- mirrors src/surface.rs:822-827 -/
def describe (id : String) : Prog Query.Answer (Option String) := do
  match ← look (.describe id) with
  | some line => pure (some line)
  | none => pure ((px.workflows.find? fun wf => wf.id = id).map px.workflowDescription)

/-- mirrors src/surface.rs:649-663 -/
def searchLines (k : Nat) (lines : List String) : List String → Prog Query.Answer (List String)
  | [] => pure lines
  | id :: hits =>
    if px.cfg.scopes.visible granted id then do
      let desc ← describe px id
      let lines := lines ++ (desc.map fun d => s!"{id} — {truncateInPlace (firstLine d) 110}").toList
      if k ≤ lines.length then pure lines else searchLines k lines hits
    else searchLines k lines hits

def usizeMax : Nat := 2 ^ 64 - 1

/-- mirrors src/surface.rs:642-671 -/
def searchText (query : String) (k : Nat) : Prog Query.Answer String := do
  let k := if k = 0 then CallAudit.defaultSearchK else k
  let hits ← look (.hits query (min (k * 3) usizeMax))
  let lines ← searchLines px granted k [] hits
  pure (if lines.isEmpty then "no matches — try different words (resource or action names work best)"
    else "\n".intercalate lines)

/-- mirrors src/surface.rs:542-557 -/
def searchTools (args : Json) : Prog Query.Answer Json :=
  match (args.get "query").bind Json.asStr with
  | none => pure (Hidden.badArg "search_tools requires a 'query' string")
  | some query => do
    let text ← searchText px granted query (CallAudit.searchK args)
    pure (textResult text false)

/-- mirrors src/surface.rs:539-638 -/
def call (st : S) (name : String) (args : Json) : Prog Query.Answer Json :=
  if px.cfg.mode = .passthrough then callByName px st name args
  else if name = "search_tools" then searchTools px granted args
  else if name = "get_tool_details" then toolDetails px granted args
  else if name = "call_tool" then callTool px granted st args
  else callByName px st name args

end Requests

/-! ## On one catalog -/

section OneCatalog

theorem isErrorResult_pushBlocks (blocks : List Json) (r : Json) :
    isErrorResult (blocks.foldl Pages.pushBlock r) = isErrorResult r := by
  induction blocks generalizing r with
  | nil => rfl
  | cons b bs ih =>
    rw [List.foldl_cons, ih]
    unfold isErrorResult
    rw [Pages.get_pushBlock (by decide)]

theorem isErrorResult_nudgeProjection (r : Json) : isErrorResult (nudgeProjection r) = isErrorResult r := by
  unfold nudgeProjection
  simp only []
  split
  · rfl
  · exact isErrorResult_pushBlocks [_] r

variable {S : Type} (px : Proxy S) (granted : List String)

/-- Error hints from a schema that is at hand. -/
def hintedBy (id : String) (schema : Option Json) (r : Json) : Json :=
  let text := "\n".intercalate (blockTexts r)
  let matched := (px.errorHints id).filter fun h => h.contains.toList <:+: text.toList
  applyErrorHints (px.errorHints id) (if matched.any fun h => h.field.isSome then schema else none) r

/-- The hints and the nudge, behind all other shaping. -/
def finish (id : String) (schema : Json) (fields : List String) (shape : CallReach.Shaping) :
    CallReach.Shaping where
  run r :=
    let out := hintedBy px id (some schema) (shape.run r)
    if px.cfg.mode = .threeTool && fields.isEmpty && !isErrorResult r then nudgeProjection out else out
  keeps r h := by
    have hout : isErrorResult (hintedBy px id (some schema) (shape.run r)) = isErrorResult r :=
      (isErrorResult_pushBlocks _ _).trans (shape.keeps r h)
    simp only []
    split
    · rw [isErrorResult_nudgeProjection, hout]
    · exact hout

/-- The proxy as `Hidden` has it, when the `n`-th call of a request meets the `n`-th of
these states. -/
def Proxy.placed (states : Nat → S) : Hidden.Proxy :=
  { px.front with
    behind := fun n id v args fields =>
      let b := px.behind (states n) id (px.taken id v) args fields
      ⟨b.timeoutS, b.call, finish px id v.schema fields b.shape⟩ }

section Placed

variable (states : Nat → S)

@[simp] theorem placed_cfg : (px.placed states).cfg = px.cfg := rfl

@[simp] theorem placed_workflows : (px.placed states).workflows = px.workflows := rfl

@[simp] theorem gate_placed (cat : Catalog) (id : String) :
    Hidden.gate (px.placed states) cat granted id = Hidden.gate px.front cat granted id := rfl

@[simp] theorem view_placed (cat : Catalog) (id : String) :
    Hidden.view (px.placed states) cat id = Hidden.view px.front cat id := rfl

end Placed

/-- The calls of a request meet these states, whatever they are, and nothing is cached. -/
structure Placed (states : Nat → S) : Prop where
  next : ∀ n id t args fields, (px.behind (states n) id t args fields).state = states (n + 1)
  uncached : ∀ n, px.cachedIds (states n) = []

variable {px} {states : Nat → S} (snap : Snapshot)

theorem eval_look (q : Query) : eval (ask px granted) snap (look q) = ask px granted snap q := rfl

theorem eval_hinted {id : String} {v : Hidden.ToolView}
    (hv : Hidden.gate px.front snap.toCatalog granted id = some v) (r : Json) :
    eval (ask px granted) snap (hinted px id r) = hintedBy px id (some v.schema) r := by
  have hvis : ask px granted snap (.hintSchema id) = some v.schema := by
    unfold Hidden.gate at hv
    simp only [Scopes.mayCall_eq_visible] at hv
    exact congrArg (Option.map Hidden.ToolView.schema) hv
  unfold hinted hintedBy
  simp only []
  split
  · rw [eval_bind, eval_look, hvis, eval_pure]
  · rfl

theorem eval_settle (h : Placed px states) {b : Behind S} {n : Nat} (hb : b.state = states n) (idx : Nat) :
    eval (ask px granted) snap (settle px b idx) = states n := by
  unfold settle bustUpstreamCache
  rw [hb, h.uncached n]
  split
  · rfl
  · rfl

theorem eval_afterCall (h : Placed px states) {id : String} {v : Hidden.ToolView}
    (hv : Hidden.gate px.front snap.toCatalog granted id = some v) (fields : List String) (n idx : Nat)
    {b : Behind S} (hb : b.state = states (n + 1)) :
    eval (ask px granted) snap (afterCall px id fields idx b) =
      (((finish px id v.schema fields b.shape).run (callResult id b.timeoutS b.call).1,
        (callResult id b.timeoutS b.call).2), states (n + 1)) := by
  unfold afterCall
  simp only [eval_bind, eval_settle granted snap h hb, eval_hinted granted snap hv, eval_pure]
  rfl

/-- One call: what `dispatchReach` makes of it, and the next state after one that did not
fail. -/
theorem eval_dispatch (h : Placed px states) (n : Nat) (id : String) (args : Json) (fields : List String) :
    let d := Hidden.stepDispatch (px.placed states) snap.toCatalog granted n id args fields
    let e := eval (ask px granted) snap (dispatch px (states n) id args fields)
    CallReach.dispatchReach id d.timeoutS d.call d.shape = .ok e.1 ∧
      (isErrorResult e.1.1 = false → e.2 = states (n + 1)) := by
  simp only []
  unfold dispatch Hidden.stepDispatch
  rw [gate_placed, eval_bind, eval_look]
  simp only [ask]
  cases hg : Hidden.gate px.front snap.toCatalog granted id with
  | none =>
    refine ⟨rfl, ?_⟩
    intro he
    cases he
  | some v =>
    have hb := h.next n id (px.taken id v) args fields
    simp only [Option.map_some, Proxy.placed]
    have hafter := eval_afterCall granted snap h hg fields n v.tool.upstreamIdx hb
    cases hcall : (px.behind (states n) id (px.taken id v) args fields).call with
    | refused text =>
      refine ⟨rfl, ?_⟩
      intro he
      cases he
    | cached r wf clean =>
      rw [hcall] at hafter
      exact ⟨congrArg Except.ok (congrArg Prod.fst hafter).symm, fun _ => congrArg Prod.snd hafter⟩
    | sent reply =>
      rw [hcall] at hafter
      exact ⟨congrArg Except.ok (congrArg Prod.fst hafter).symm, fun _ => congrArg Prod.snd hafter⟩

/-- What the catalog says of the steps' tools. -/
abbrev stepCatalog (px : Proxy S) (snap : Snapshot) : Workflows.Catalog :=
  Hidden.effects px.front snap.toCatalog

theorem eval_effects (done : List Step) : eval (ask px granted) snap (effects done) =
    done.map fun s => (s, (stepCatalog px snap).readOnly s.tool) := by
  induction done with
  | nil => rfl
  | cons s ss ih =>
    unfold effects
    rw [eval_bind, eval_bind, ih]
    rfl

theorem eval_inDoubt (step : Step) (reach : Reach) : eval (ask px granted) snap (inDoubt step reach) =
    Workflows.inDoubt (stepCatalog px snap) step reach := by
  unfold inDoubt Workflows.inDoubt
  by_cases h : reach = .noAnswer
  · rw [if_pos h, decide_eq_true h, Bool.true_and, eval_bind, eval_pure, eval_look]
    rfl
  · rw [if_neg h, decide_eq_false h, Bool.false_and, eval_pure]

theorem failureReport_eq (cat : Workflows.Catalog) (wf : Workflow) (done : List Step) (step : Step)
    (rest : List Step) (error : String) (reach : Reach) (outs : Outs) :
    failureReport wf (done.map fun s => (s, cat.readOnly s.tool)) step rest error reach
        (Workflows.inDoubt cat step reach) outs =
      Workflows.workflowFailure cat wf done step rest error reach outs := by
  have heffect : ∀ s : Step, Workflows.stepEffect (told (cat.readOnly s.tool) false) s.tool =
      Workflows.stepEffect cat s.tool := fun _ => rfl
  have hwrote : ((done.map fun s => (s, cat.readOnly s.tool)).filter fun s =>
      Workflows.stepEffect (told s.2 false) s.1.tool = .write).map (fun s => s.1.id) =
      Workflows.wroteSteps cat done := by
    unfold Workflows.wroteSteps
    rw [List.filter_map, List.map_map]
    rfl
  have hentries : (done.map fun s => (s, cat.readOnly s.tool)).map
      (fun s => Workflows.completedEntry (told s.2 false) outs s.1) =
      done.map (Workflows.completedEntry cat outs) := by
    rw [List.map_map]
    rfl
  unfold failureReport Workflows.workflowFailure Workflows.fixLine
  rw [hwrote, hentries]

theorem eval_runFrom (h : Placed px states) (wf : Workflow) (inputs : Json) (rest : List Step) {i : Nat}
    (hrest : rest = wf.steps.drop i) (done : List Step) (outs : Outs) :
    eval (ask px granted) snap (runFrom px wf inputs (states i) done outs rest) =
      (Workflows.runFrom (stepCatalog px snap) wf inputs
        (Hidden.stepWorld (px.placed states) snap.toCatalog granted wf) i done outs rest).result := by
  induction rest generalizing i done outs with
  | nil => rfl
  | cons step rest ih =>
    have hs : wf.steps[i]? = some step := by
      rw [← List.head?_drop, ← hrest]
      rfl
    have hd : rest = wf.steps.drop (i + 1) := by
      rw [Workflows.drop_of_getElem? wf hs, List.cons.injEq] at hrest
      exact hrest.2
    obtain ⟨hreach, hnext⟩ := eval_dispatch granted snap h i step.tool
      (Workflows.resolveInput inputs outs step.input) []
    unfold runFrom Workflows.runFrom Workflows.runStep Hidden.stepWorld
    simp only [hs, hreach, eval_bind]
    cases he : isErrorResult (eval (ask px granted) snap (dispatch px (states i) step.tool
        (Workflows.resolveInput inputs outs step.input) [])).1.1 with
    | false =>
      rw [if_pos rfl, if_pos rfl, hnext he, eval_bind]
      exact ih hd _ _
    | true =>
      rw [if_neg (by decide), if_neg (by decide), eval_bind, eval_bind, eval_effects, eval_inDoubt,
        failureReport_eq, eval_pure]

theorem eval_routeCall (h : Placed px states) (id : String) (args : Json) (fields : List String) :
    Hidden.routeCall (px.placed states) snap.toCatalog granted id args fields =
      .ok (eval (ask px granted) snap (routeCall px granted (states 0) id args fields)) := by
  unfold Hidden.routeCall routeCall
  rw [placed_workflows, placed_cfg]
  cases (px.workflows.find? fun wf => wf.id = id).filter fun _ => px.cfg.scopes.mayCall granted id with
  | some wf =>
    exact congrArg Except.ok
      (eval_runFrom granted snap h wf args wf.steps (List.drop_zero ..).symm [] []).symm
  | none =>
    have hd := (eval_dispatch granted snap h 0 id args fields).1
    unfold Hidden.dispatchCall
    simp only [eval_bind, eval_pure]
    rw [hd]
    rfl

theorem eval_callTool (h : Placed px states) (args : Json) :
    Hidden.callTool (px.placed states) snap.toCatalog granted args =
      .ok (eval (ask px granted) snap (callTool px granted (states 0) args)) := by
  unfold Hidden.callTool callTool
  cases (args.get "tool_id").bind Json.asStr with
  | none => rfl
  | some id =>
    cases Hidden.callArguments (args.get "arguments") with
    | none => rfl
    | some inner =>
      simp only [eval_routeCall granted snap h, eval_bind, eval_pure]
      rfl

theorem eval_callByName (h : Placed px states) (name : String) (args : Json) :
    Hidden.callByName (px.placed states) px.reshapes snap.toCatalog granted name args =
      .ok (eval (ask px granted) snap (callByName px (states 0) name args)) := by
  have hlook : ask px granted snap (.name name) = lookName px granted snap.toCatalog name := rfl
  unfold Hidden.callByName callByName
  rw [placed_cfg, eval_bind, eval_look, hlook]
  unfold lookName
  cases (snap.exposed.lookup name).filter fun id => px.cfg.scopes.visible granted id with
  | none => rfl
  | some id =>
    have hd := (eval_dispatch granted snap h 0 id args []).1
    unfold Hidden.dispatchCall
    simp only [eval_bind, eval_pure]
    rw [hd]
    rfl

theorem eval_toolDetails (states : Nat → S) (args : Json) :
    Hidden.toolDetails (px.placed states) snap.toCatalog granted args =
      eval (ask px granted) snap (toolDetails px granted args) := by
  unfold Hidden.toolDetails toolDetails
  cases (args.get "tool_id").bind Json.asStr with
  | none => rfl
  | some id =>
    have hlook : ask px granted snap (.details id) =
      (visibleView px granted snap.toCatalog id).map fun v => (v.tool.description, v.schema) := rfl
    simp only [eval_bind, eval_pure]
    unfold Hidden.detailsText detailsText
    rw [placed_workflows, placed_cfg]
    cases (px.workflows.find? fun wf => wf.id = id).filter fun _ => px.cfg.scopes.visible granted id with
    | some wf => rfl
    | none =>
      simp only [eval_bind]
      rw [eval_look, hlook, view_placed]
      unfold visibleView
      cases (Hidden.view px.front snap.toCatalog id).filter fun _ => px.cfg.scopes.visible granted id with
      | none => rfl
      | some v => rfl

/-- On one catalog the program gives the answers of `Hidden`, search apart. -/
theorem eval_call (h : Placed px states) (name : String) (args : Json)
    (hname : px.cfg.mode = .passthrough ∨ name ≠ "search_tools") :
    Hidden.answer (px.placed states) px.reshapes snap.toCatalog granted (.call name args) =
      some (.ok (eval (ask px granted) snap (call px granted (states 0) name args))) := by
  unfold Hidden.answer call
  rw [placed_cfg]
  by_cases hp : px.cfg.mode = .passthrough
  · simp only [if_pos hp, eval_callByName granted snap h]
  · have hs : name ≠ "search_tools" := hname.resolve_left hp
    simp only [if_neg hp, if_neg hs, eval_callByName granted snap h, eval_callTool granted snap h,
      eval_toolDetails granted snap states]
    split
    · rfl
    · split
      · rfl
      · rfl

end OneCatalog

/-- Two upstreams whose calls say which tool was called. -/
def exampleProxy : Proxy Unit where
  cfg := {
    mode := .passthrough
    filters := ⟨[], []⟩
    scopes := ⟨[], false⟩
    bindingPolicy := .weak
    poisoningPolicy := .warn
    overlays := [] }
  upstreams := [⟨"a", fun _ => none⟩, ⟨"b", fun _ => none⟩]
  isSpec _ := false
  workflows := []
  workflowDescription _ := ""
  unicode := Suggestions.ascii
  preflight _ := true
  errorHints _ := []
  reshapes _ := false
  behind _ id _ _ _ := {
    timeoutS := 0
    call := .sent (.mcpResult (textResult ("from " ++ id) false) (CallReach.wf_textResult _ _))
    shape := Hidden.plainShaping
    state := ()
    busts := false }
  cachedIds _ := []
  dropCached st _ := st
  toolDetails id _ _ := id
  workflowDetails wf := wf.id

end MinMcp.L5.Isolation
