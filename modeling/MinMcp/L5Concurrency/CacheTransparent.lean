import MinMcp.L4App.CallReach
import MinMcp.L4App.PaginateHonest
import MinMcp.L4App.Shaping
import MinMcp.L4App.UserSupplied
import MinMcp.L5Concurrency.ReadCache

/-!
# The read cache is transparent

One proxy, one call after the other (src/surface/dispatch.rs:31-328): the arguments
are shaped, the user-supplied values injected, the result looked up under the tool
and the canonical text of the final arguments, fetched on a miss (with its further
pages), remembered when it is clean, and shaped for this call.

What is not the program's is a parameter: the upstream answers a tool's call from its
arguments; a call brings the values of its sources, its caller's rights and the time.

* `fetch_congr`: what is fetched does not depend on the order of the arguments' keys,
  when the upstream's answers do not.
* `Remembered`: every cached result is what a fetch for its key gives.
* `cache_transparent`: with a cache and without, a list of calls has the same results.
-/
namespace MinMcp.L5.CacheTransparent

open MinMcp.Core MinMcp.L2 MinMcp.L4 MinMcp.L4.Results MinMcp.L4.Pages MinMcp.L4.Shaping
open MinMcp.L1.CanonicalArgs MinMcp.L5.ReadCache

/-- A tool with what its overlay says. `errorHints` are the global hints and its own.
mirrors src/upstream.rs:165-180, src/surface/dispatch.rs:45-87, 145-165, 303-319 -/
structure Tool extends UserSupplied.Tool where
  id : String
  upstream : Nat
  readOnly : Option Bool
  cacheable : Option Bool
  timeoutS : Nat
  response : Option ResponseTransform
  errorHints : List ErrorHint
  defaults_wf : ∀ o ∈ overlay, ∀ d ∈ o.defaults, d.2.WF

/-- `upstream` answers each tool's calls from their arguments. -/
structure Proxy where
  tools : List Tool
  threeTool : Bool
  upstream : String → Json → CallReach.Reply

/-- One call. `mayCall` and `allowed` are its caller's rights on the tool, `unknown` is
the answer for an id that is unknown to the caller, `now` and `done` are the times of
the lookup and of the insertion. -/
structure Call where
  toolId : String
  mayCall : Bool
  allowed : Bool
  unknown : Json
  args : Json
  fields : List String
  resolve : String → Option String
  jq : String → Json → Option Json
  now : Nat
  done : Nat
  wf : args.WF

abbrev Cache := List (CacheKey × TtlCache.Entry Json)

def Proxy.find (p : Proxy) (toolId : String) : Option Tool := p.tools.find? fun t => t.id = toolId

/-- mirrors src/surface/cache.rs:53-62 -/
def bustCache (p : Proxy) (cache : Cache) (upstream : Nat) : Cache :=
  cache.filter fun e => (p.find e.1.tool).all fun t => t.upstream ≠ upstream

/-! ## One call -/

/-- The tool and its final arguments, or the local refusal.
mirrors src/surface/dispatch.rs:44-144 -/
def prepare (p : Proxy) (c : Call) : Except Json (Tool × Json) :=
  match (p.find c.toolId).filter fun _ => c.mayCall with
  | none => .error c.unknown
  | some t =>
    match UserSupplied.inject c.resolve t.userSupplied (UserSupplied.shape t.toTool c.args) with
    | .error r => .error r
    | .ok args =>
      match UserSupplied.preflightRefusal t.toTool args with
      | some se => .error (textResult ("PREFLIGHT_ERROR: " ++ se.render) true)
      | none => .ok (t, args)

/-- mirrors src/surface/dispatch.rs:192-235 -/
def firstResult (p : Proxy) (t : Tool) (args : Json) : Json :=
  (CallReach.callResult t.id t.timeoutS (.sent (p.upstream t.id args))).1

/-- The answer to the call for a further page, `none` when the call fails.
mirrors src/surface/dispatch.rs:473-482 -/
def pageAnswer (p : Proxy) (t : Tool) (args : Json) : Option Json :=
  (CallReach.callToolReach (p.upstream t.id args)).toOption.map Prod.fst

/-- The arguments and the answer of the call for page `n`, as long as there is one. -/
def pageCall (p : Proxy) (t : Tool) (pg : Paginate) (args first : Json) : Nat → Option (Json × Json)
  | 0 => some (args, first)
  | n + 1 =>
    (pageCall p t pg args first n).bind fun call =>
      (nextCursor pg (resultPayload call.2 t.fromSpec)).bind fun cursor =>
        let args := Project.set call.1 pg.into cursor
        (pageAnswer p t args).map fun r => (args, r)

def pageReply (p : Proxy) (t : Tool) (pg : Paginate) (args first : Json) (n : Nat) : Option Json :=
  (pageCall p t pg args first n).map Prod.snd

/-- The raw result, and whether its pages broke off.
mirrors src/surface/dispatch.rs:192-272 -/
def fetch (p : Proxy) (t : Tool) (args : Json) : Json × Bool :=
  let first := firstResult p t args
  match t.overlay.bind UserSupplied.Overlay.paginate with
  | some pg =>
    if isErrorResult first then (first, false)
    else paginate pg t.fromSpec (pageReply p t pg args first) args first
  | none => (first, false)

/-- mirrors src/surface/dispatch.rs:279 -/
def cacheEntryMaxBytes : Nat := 262144

/-- The key of a call that may be served from the cache.
mirrors src/surface/dispatch.rs:150-152, src/surface/cache.rs:67-75 -/
def cacheKey (ttl : Nat) (t : Tool) (args : Json) : Option CacheKey :=
  if cacheAllowed ⟨ttl, fun _ => t.cacheable⟩ t.id t.readOnly then some ⟨t.id, canonicalArgs args⟩ else none

/-- The cache after a call that fetched.
mirrors src/surface/dispatch.rs:273-300 -/
def remember (ttl : Nat) (p : Proxy) (t : Tool) (now : Nat) (key : Option CacheKey) (raw : Json × Bool)
    (cache : Cache) : Cache :=
  let cache := match key with
    | some k =>
      if !isErrorResult raw.1 && !raw.2 && raw.1.render.utf8ByteSize ≤ cacheEntryMaxBytes then
        TtlCache.put readCacheMaxEntries ttl now k raw.1 cache
      else cache
    | none => cache
  if t.readOnly = some true || key.isSome then cache else bustCache p cache t.upstream

def shapeFor (p : Proxy) (c : Call) (t : Tool) (raw : Json) : Json :=
  shapeResult ⟨t.response, t.fromSpec, t.errorHints, if c.allowed then some t.schema else none, p.threeTool⟩
    c.jq c.fields raw

/-- The result of a call, and the cache after it.
mirrors src/surface/dispatch.rs:31-328 -/
def dispatch (ttl : Nat) (p : Proxy) (cache : Cache) (c : Call) : Json × Cache :=
  match prepare p c with
  | .error r => (r, cache)
  | .ok (t, args) =>
    let key := cacheKey ttl t args
    match key.bind (TtlCache.get ttl c.now cache) with
    | some raw => (shapeFor p c t raw, cache)
    | none =>
      let raw := fetch p t args
      (shapeFor p c t raw.1, remember ttl p t c.done key raw cache)

/-- The results of a list of calls. -/
def run (ttl : Nat) (p : Proxy) : Cache → List Call → List Json
  | _, [] => []
  | cache, c :: cs =>
    let (r, cache) := dispatch ttl p cache c
    r :: run ttl p cache cs

/-! ## Specification -/

/-- The tool's calls are treated as reads. -/
def Tool.IsRead (t : Tool) : Prop := t.readOnly = some true ∨ t.cacheable = some true

/-- The upstream does not see the order of the keys of a read's arguments. -/
def KeyOrderBlind (p : Proxy) : Prop :=
  ∀ t ∈ p.tools, t.IsRead → ∀ a b : Json, a.WF → b.WF → a.eqv b = true → p.upstream t.id a = p.upstream t.id b

/-! ## The pages of a fetch -/

section Fetch

variable {p : Proxy} {t : Tool} {pg : Paginate}

variable (t pg) in
/-- Two states that differ in their arguments only collect the same pages. -/
theorem loop_congr (reply : Nat → Option Json) (n : Nat) (s : PageState) (args : Json) :
    let out := loop pg t.fromSpec reply n s
    let out' := loop pg t.fromSpec reply n { s with args := args }
    out.final.items = out'.final.items ∧ out.final.pages = out'.final.pages ∧
      out.partialError = out'.partialError := by
  induction n generalizing s args with
  | zero => exact ⟨rfl, rfl, rfl⟩
  | succ n ih =>
    cases hg : gateClosed pg s.payload with
    | true => simp [loop, hg]
    | false =>
      cases hcur : nextCursor pg s.payload with
      | none => simp [loop, hg, hcur]
      | some cursor =>
        cases hrep : isRepeated s.prev cursor with
        | true => simp [loop, hg, hcur, hrep]
        | false =>
          cases hans : reply s.pages with
          | none => simp [loop, hg, hcur, hrep, hans]
          | some next =>
            cases herr : isErrorResult next with
            | true => simp [loop, hg, hcur, hrep, hans, herr]
            | false =>
              by_cases hpage : pageItems pg (resultPayload next t.fromSpec) = []
              · simp [loop, hg, hcur, hrep, hans, herr, hpage]
              · simpa [loop, hg, hcur, hrep, hans, herr, hpage] using ih _ _

theorem paginate_congr (reply : Nat → Option Json) (a b first : Json) :
    paginate pg t.fromSpec reply a first = paginate pg t.fromSpec reply b first := by
  obtain ⟨hitems, hpages, hpartial⟩ :=
    loop_congr t pg reply (pg.maxPages - 1) (start pg t.fromSpec a first) b
  have hstart : { start pg t.fromSpec a first with args := b } = start pg t.fromSpec b first := rfl
  rw [hstart] at hitems hpages hpartial
  unfold paginate followUps
  simp only [hitems, hpages, hpartial]

variable {a b : Json}

theorem wf_nextCursor {r cursor : Json} (h : nextCursor pg (resultPayload r t.fromSpec) = some cursor) :
    cursor.WF := by
  rw [nextCursor, Option.filter_eq_some_iff, resultPayload_eq] at h
  exact wf_getPath (wf_textPayload _ _) h.1

/-- Page for page the calls differ in the order of keys only. -/
theorem pageCall_congr (hk : KeyOrderBlind p) (ht : t ∈ p.tools) (hr : t.IsRead) (ha : a.WF) (hb : b.WF)
    (h : a.eqv b = true) (first : Json) (n : Nat) :
    Option.Rel (fun c d => c.1.WF ∧ d.1.WF ∧ c.1.eqv d.1 = true ∧ c.2 = d.2)
      (pageCall p t pg a first n) (pageCall p t pg b first n) := by
  induction n with
  | zero => exact .some ⟨ha, hb, h, rfl⟩
  | succ n ih =>
    rw [pageCall, pageCall]
    generalize pageCall p t pg a first n = x, pageCall p t pg b first n = y at ih
    cases ih with
    | none => exact .none
    | @some c d hcd =>
      obtain ⟨hc, hd, heqv, hres⟩ := hcd
      rw [Option.bind_some, Option.bind_some, hres]
      cases hcur : nextCursor pg (resultPayload d.2 t.fromSpec) with
      | none => exact .none
      | some cursor =>
        have hw := wf_nextCursor hcur
        have hset := Project.eqv_setAt hc hd hw heqv (Project.parsePath pg.into)
        have hans : pageAnswer p t (Project.set c.1 pg.into cursor) =
            pageAnswer p t (Project.set d.1 pg.into cursor) := by
          rw [pageAnswer, hk t ht hr _ _ (Project.wf_set hc hw _) (Project.wf_set hd hw _) hset]
          rfl
        rw [Option.bind_some, Option.bind_some]
        dsimp only
        rw [hans]
        cases pageAnswer p t (Project.set d.1 pg.into cursor) with
        | none => exact .none
        | some r => exact .some ⟨Project.wf_set hc hw _, Project.wf_set hd hw _, hset, rfl⟩

theorem fetch_congr (hk : KeyOrderBlind p) (ht : t ∈ p.tools) (hr : t.IsRead) (ha : a.WF) (hb : b.WF)
    (h : a.eqv b = true) : fetch p t a = fetch p t b := by
  have hfirst : firstResult p t a = firstResult p t b := by
    rw [firstResult, hk t ht hr a b ha hb h]
    rfl
  have hreply : ∀ pg, pageReply p t pg a (firstResult p t b) = pageReply p t pg b (firstResult p t b) := by
    intro pg
    funext n
    have hc : Option.Rel _ (pageCall p t pg a (firstResult p t b) n)
        (pageCall p t pg b (firstResult p t b) n) :=
      pageCall_congr hk ht hr ha hb h (firstResult p t b) n
    unfold pageReply
    generalize pageCall p t pg a (firstResult p t b) n = x,
      pageCall p t pg b (firstResult p t b) n = y at hc
    cases hc with
    | none => rfl
    | some hcd => exact congrArg some hcd.2.2.2
  unfold fetch
  rw [hfirst]
  simp only [hreply, paginate_congr _ a b]

end Fetch

/-! ## What the cache holds -/

theorem wf_applyDefaults (t : Tool) {args : Json} (h : args.WF) :
    (UserSupplied.applyDefaults t.toTool args).WF := by
  have hd : ∀ d ∈ (t.overlay.map UserSupplied.Overlay.defaults).getD [], d.2.WF := by
    intro d hd
    cases ho : t.overlay with
    | none => rw [ho] at hd; cases hd
    | some o =>
      rw [ho] at hd
      exact t.defaults_wf o ho d hd
  unfold UserSupplied.applyDefaults
  generalize (t.overlay.map UserSupplied.Overlay.defaults).getD [] = ds at hd
  induction ds generalizing args with
  | nil => exact h
  | cons d ds ih =>
    rw [List.forall_mem_cons] at hd
    exact ih (Project.wf_defaultAt h hd.1 _) hd.2

theorem wf_inject {resolve : String → Option String} {us : List (String × String)} {args r : Json}
    (h : args.WF) (hr : UserSupplied.inject resolve us args = .ok r) : r.WF := by
  induction us generalizing args with
  | nil => cases hr; exact h
  | cons u us ih =>
    rw [UserSupplied.inject] at hr
    split at hr
    · exact ih (Project.wf_set h (wf_str _) _) hr
    · cases hr

/-- A call that is let through names a tool, and its final arguments are well formed. -/
theorem prepare_ok {p : Proxy} {c : Call} {t : Tool} {args : Json} (h : prepare p c = .ok (t, args)) :
    p.find c.toolId = some t ∧ args.WF := by
  unfold prepare at h
  split at h
  · cases h
  · next t' ht =>
    split at h
    · cases h
    · next args' hi =>
      split at h
      · cases h
      · cases h
        refine ⟨(Option.filter_eq_some_iff.mp ht).1, wf_inject ?_ hi⟩
        unfold UserSupplied.shape
        split
        · exact Preflight.wf_decodeStringified _ (wf_applyDefaults t c.wf)
        · exact wf_applyDefaults t c.wf

theorem find_mem {p : Proxy} {id : String} {t : Tool} (h : p.find id = some t) : t ∈ p.tools :=
  List.mem_of_find?_eq_some h

theorem find_id {p : Proxy} {id : String} {t : Tool} (h : p.find id = some t) : t.id = id := by
  simpa using List.find?_some h

theorem isRead_of_cacheKey {ttl : Nat} {t : Tool} {args : Json} {k : CacheKey}
    (h : cacheKey ttl t args = some k) : t.IsRead ∧ k = ⟨t.id, canonicalArgs args⟩ := by
  unfold cacheKey at h
  split at h
  · next hc =>
    refine ⟨?_, (Option.some.inj h).symm⟩
    unfold cacheAllowed at hc
    split at hc
    · cases hc
    · cases hcache : t.cacheable with
      | none => simp only [hcache, Option.getD_none, decide_eq_true_eq] at hc; exact .inl hc
      | some b => simp only [hcache, Option.getD_some] at hc; exact .inr (hc ▸ hcache)
  · cases h

/-- Every cached result is what a fetch for arguments with the entry's key gives. -/
def Remembered (p : Proxy) (cache : Cache) : Prop :=
  ∀ e ∈ cache, ∃ t args, p.find e.1.tool = some t ∧ t.IsRead ∧ args.WF ∧ canonicalArgs args = e.1.args ∧
    (fetch p t args).1 = e.2.value

theorem remembered_nil (p : Proxy) : Remembered p [] := nofun

theorem Remembered.filter {p : Proxy} {cache : Cache} (h : Remembered p cache)
    (keep : CacheKey × TtlCache.Entry Json → Bool) : Remembered p (cache.filter keep) := fun e he =>
  h e (List.mem_of_mem_filter he)

/-- Storing what was fetched keeps the cache right. -/
theorem Remembered.insert {p : Proxy} {cache : Cache} {t : Tool} {args : Json} {k : CacheKey} {ttl : Nat}
    (h : Remembered p cache) (ht : p.find t.id = some t) (ha : args.WF) (hk : cacheKey ttl t args = some k)
    (now : Nat) :
    Remembered p (TtlCache.put readCacheMaxEntries ttl now k (fetch p t args).1 cache) := by
  obtain ⟨hr, rfl⟩ := isRead_of_cacheKey hk
  intro e he
  rcases TtlCache.mem_put he with rfl | he
  · exact ⟨t, args, ht, hr, ha, rfl, rfl⟩
  · exact h e he

/-- What the cache answers is what the upstream would. -/
theorem Remembered.lookup {p : Proxy} {cache : Cache} {t : Tool} {args raw : Json} {ttl now : Nat}
    (hc : Remembered p cache) (hb : KeyOrderBlind p) (ht : p.find t.id = some t) (ha : args.WF)
    (h : (cacheKey ttl t args).bind (TtlCache.get ttl now cache) = some raw) : raw = (fetch p t args).1 := by
  obtain ⟨k, hk, hl⟩ := Option.bind_eq_some_iff.mp h
  obtain ⟨hr, rfl⟩ := isRead_of_cacheKey hk
  obtain ⟨at_, hmem⟩ := TtlCache.mem_of_get hl
  obtain ⟨t', args', ht', -, hw, htext, hres⟩ := hc _ hmem
  obtain rfl : t' = t := Option.some.inj (ht'.symm.trans ht)
  exact hres.symm.trans (by rw [fetch_congr hb (find_mem ht) hr hw ha (eqv_of_canonicalArgs hw ha htext)])

/-! ## Transparency -/

/-- One call: its result, and the cache it leaves. -/
theorem dispatch_transparent (ttl : Nat) {p : Proxy} {cache : Cache} (hb : KeyOrderBlind p)
    (hc : Remembered p cache) (off : Cache) (c : Call) :
    (dispatch ttl p cache c).1 = (dispatch 0 p off c).1 ∧ Remembered p (dispatch ttl p cache c).2 := by
  unfold dispatch
  cases hp : prepare p c with
  | error r => exact ⟨rfl, hc⟩
  | ok ta =>
    obtain ⟨t, args⟩ := ta
    obtain ⟨hf, ha⟩ := prepare_ok hp
    have ht : p.find t.id = some t := by rw [find_id hf]; exact hf
    -- without a cache every call is fetched
    have hoff : cacheKey 0 t args = none := rfl
    simp only [hoff, Option.bind_none]
    cases hl : (cacheKey ttl t args).bind (TtlCache.get ttl c.now cache) with
    | some raw => exact ⟨by rw [hc.lookup hb ht ha hl], hc⟩
    | none =>
      refine ⟨rfl, ?_⟩
      unfold remember
      have hstored : ∀ cache', Remembered p cache' → Remembered p
          (if t.readOnly = some true || (cacheKey ttl t args).isSome then cache'
            else bustCache p cache' t.upstream) := by
        intro cache' h
        split
        · exact h
        · exact h.filter _
      apply hstored
      split
      · next k hk =>
        split
        · exact hc.insert ht ha hk _
        · exact hc
      · exact hc

/-- **Transparency.** When the upstream answers each read from its arguments, whatever
the order of their keys, a list of calls gets the same results with the cache as with
the cache switched off: for every overlay, every caller, all arguments and fields. -/
theorem cache_transparent (ttl : Nat) (p : Proxy) (hb : KeyOrderBlind p) (calls : List Call) :
    run ttl p [] calls = run 0 p [] calls := by
  have hrun : ∀ cache off, Remembered p cache → run ttl p cache calls = run 0 p off calls := by
    induction calls with
    | nil => intro _ _ _; rfl
    | cons c cs ih =>
      intro cache off hc
      obtain ⟨hres, hnext⟩ := dispatch_transparent ttl hb hc off c
      simp only [run, hres, ih _ (dispatch 0 p off c).2 hnext]
  exact hrun [] [] (remembered_nil p)

/-- A read-only search over an upstream that echoes the query. -/
def searchTool : Tool where
  overlay := none
  globalPreflight := true
  schema := .obj [("type", .str "object"), ("properties", .obj [("q", .obj [("type", .str "string")])])]
  userSupplied := []
  fromSpec := false
  id := "docs.search"
  upstream := 0
  readOnly := some true
  cacheable := none
  timeoutS := 30
  response := none
  errorHints := []
  defaults_wf := nofun

def query (args : Json) : String := ((args.get "q").bind Json.asStr).getD ""

def searchProxy : Proxy where
  tools := [searchTool]
  threeTool := true
  upstream := fun _ args => .mcpResult (textResult (query args) false) (CallReach.wf_textResult _ _)

theorem query_congr {a b : Json} (ha : a.WF) (hb : b.WF) (h : a.eqv b = true) : query a = query b := by
  rcases Json.eqv_ne_obj h with ⟨es, fs, rfl, rfl⟩ | ⟨hna, hnb⟩
  · have hq := (Json.eqv_obj_iff (Json.wf_obj.mp ha).1 (Json.wf_obj.mp hb).1).mp h "q"
    unfold query
    rw [Json.get_obj, Json.get_obj]
    generalize es.lookup "q" = v, fs.lookup "q" = w at hq
    cases hq with
    | none => rfl
    | @some v w hvw => cases v <;> cases w <;> simp_all [Json.eqv, Json.asStr]
  · have hnone : ∀ v : Json, (∀ es, v ≠ .obj es) → query v = "" := by
      intro v hv
      cases v with
      | obj es => exact absurd rfl (hv es)
      | _ => rfl
    rw [hnone a hna, hnone b hnb]

/-- A search for `q` within `site`, with the keys in the given order. -/
def searchCall (swapped : Bool) (fields : List String) (now : Nat) : Call where
  toolId := "docs.search"
  mayCall := true
  allowed := true
  unknown := .null
  args := .obj (if swapped then [("site", .str "a"), ("q", .str "cache")]
    else [("q", .str "cache"), ("site", .str "a")])
  fields := fields
  resolve := fun _ => none
  jq := fun _ _ => none
  now := now
  done := now
  wf := by cases swapped <;> simp [Json.WF, Json.WFEntries]

/-- The second search is answered from the cache. -/
theorem reordered_search_transparent :
    run 60 searchProxy [] [searchCall false [] 0, searchCall true ["hits"] 5] =
      run 0 searchProxy [] [searchCall false [] 0, searchCall true ["hits"] 5] :=
  cache_transparent 60 searchProxy
    (fun _ _ _ a b ha hb h => by simp only [searchProxy, query_congr ha hb h]) _

end MinMcp.L5.CacheTransparent
