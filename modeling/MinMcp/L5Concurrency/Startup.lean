import MinMcp.L4App.Filters
import MinMcp.L4App.ToolIds
import MinMcp.L5Concurrency.MarkedParams

/-!
# Coming up

An upstream is listed page by page, a page under the cursor the last one gave (src/upstream.rs); a
cursor that does not advance ends the listing, as does the thousandth page. `Surface::build`
connects the upstreams of the configuration in their order and lists each; one that the filters
leave out is passed over, and one that fails is skipped where it is `optional` (src/surface.rs). A
backend's place among those that came up is stamped on its tools, and calls are routed by it.

* `answers`: what a listing asked and got, page by page; `listTools_eq`, `listPassthrough_eq`: both
  listings are what their answers hold.
* `listing_complete`: an upstream whose pages end is listed whole.
* `came_of_build`: what came up, and that nothing is missing that must not be.
* `served_tools_route`: every tool leads to the upstream that listed it.
-/
namespace MinMcp.L5.Startup

open MinMcp.Core MinMcp.L4.Catalogs MinMcp.L4.ToolIds
open MinMcp.L4.FilterLevels (upstreamEnabled)
open MinMcp.L3.ParamHeaders (pageTools)
open MinMcp.L5.MarkedParams (listMaxPages nextCursor)

/-! ## Listings -/

/-- The answer to the request for a page, by how many came before and the cursor sent. -/
abbrev Rpc := Nat → Option String → Except String Json

def ttlMs (result : Json) : Option UInt64 := (result.get "ttlMs").bind Json.asU64

/-- The listing ends with this page. -/
def isLast (cursor : Option String) (result : Json) : Bool :=
  nextCursor result = none || nextCursor result = cursor

/-- The pages from `page` on, at most `left` of them.
mirrors src/upstream.rs:115-127 -/
def listPages (rpc : Rpc) (name : String) (idx : Nat) :
    Nat → Nat → Option String → List ToolDef → Option UInt64 → Except String (List ToolDef × Option UInt64)
  | 0, _, _, tools, ttl => .ok (tools, ttl)
  | left + 1, page, cursor, tools, ttl =>
    match rpc page cursor with
    | .error e => .error e
    | .ok result =>
      let ttl := if page = 0 then ttlMs result else ttl
      let tools := tools ++ (pageTools result).map (toolDef name idx)
      if isLast cursor result then .ok (tools, ttl)
      else listPages rpc name idx left (page + 1) (nextCursor result) tools ttl

/-- mirrors src/upstream.rs:109-128 -/
def listTools (rpc : Rpc) (name : String) (idx : Nat) : Except String (List ToolDef × Option UInt64) :=
  listPages rpc name idx listMaxPages 0 none [] none

/-- mirrors src/upstream.rs:136-149 -/
def passPages (rpc : Rpc) (key : String) : Nat → Nat → Option String → List Json → List Json
  | 0, _, _, out => out
  | left + 1, page, cursor, out =>
    match rpc page cursor with
    | .error _ => out
    | .ok result =>
      let out := out ++ ((result.get key).bind Json.asArray).getD []
      if isLast cursor result then out
      else passPages rpc key left (page + 1) (nextCursor result) out

/-- mirrors src/upstream.rs:130-150 -/
def listPassthrough (rpc : Rpc) (key : String) : List Json := passPages rpc key listMaxPages 0 none []

/-- The answers a listing gets, and how its last request failed, if it did. -/
def answers (rpc : Rpc) : Nat → Nat → Option String → List Json × Option String
  | 0, _, _ => ([], none)
  | left + 1, page, cursor =>
    match rpc page cursor with
    | .error e => ([], some e)
    | .ok result =>
      if isLast cursor result then ([result], none)
      else
        let rest := answers rpc left (page + 1) (nextCursor result)
        (result :: rest.1, rest.2)

theorem listPages_eq (rpc : Rpc) (name : String) (idx left page : Nat) (cursor : Option String)
    (tools : List ToolDef) (ttl : Option UInt64) (hpage : 0 < page) :
    listPages rpc name idx left page cursor tools ttl =
      match (answers rpc left page cursor).2 with
      | some e => .error e
      | none => .ok (tools ++ (answers rpc left page cursor).1.flatMap fun r =>
          (pageTools r).map (toolDef name idx), ttl) := by
  induction left generalizing page cursor tools with
  | zero => simp [listPages, answers]
  | succ left ih =>
    rw [listPages, answers]
    cases rpc page cursor with
    | error e => rfl
    | ok result =>
      have hne : page ≠ 0 := by omega
      by_cases hl : isLast cursor result = true
      · simp [hl, hne]
      · simp only [hl, hne, if_false, Bool.false_eq_true]
        rw [ih (page + 1) _ _ (by omega)]
        cases (answers rpc left (page + 1) (nextCursor result)).2 with
        | some e => rfl
        | none => simp

/-- A listing fails with its first request that fails; else it has the tools of all answers, in their
order, and the first answer says how long it stays fresh. -/
theorem listTools_eq (rpc : Rpc) (name : String) (idx : Nat) :
    listTools rpc name idx =
      match (answers rpc listMaxPages 0 none).2 with
      | some e => .error e
      | none => .ok ((answers rpc listMaxPages 0 none).1.flatMap fun r => (pageTools r).map (toolDef name idx),
          (answers rpc listMaxPages 0 none).1.head?.bind ttlMs) := by
  unfold listTools
  obtain ⟨left, hleft⟩ : ∃ left, listMaxPages = left + 1 := ⟨999, rfl⟩
  rw [hleft, listPages, answers]
  cases rpc 0 none with
  | error e => rfl
  | ok result =>
    by_cases hl : isLast none result = true
    · simp [hl]
    · simp only [hl, if_false, if_true, Bool.false_eq_true]
      rw [listPages_eq _ _ _ _ _ _ _ _ (Nat.succ_pos 0)]
      cases (answers rpc left (0 + 1) (nextCursor result)).2 with
      | some e => rfl
      | none => simp

theorem passPages_eq (rpc : Rpc) (key : String) (left page : Nat) (cursor : Option String) (out : List Json) :
    passPages rpc key left page cursor out =
      out ++ (answers rpc left page cursor).1.flatMap fun r => ((r.get key).bind Json.asArray).getD [] := by
  induction left generalizing page cursor out with
  | zero => simp [passPages, answers]
  | succ left ih =>
    rw [passPages, answers]
    cases rpc page cursor with
    | error e => simp
    | ok result =>
      by_cases hl : isLast cursor result = true
      · simp [hl]
      · simp only [hl, if_false, Bool.false_eq_true]
        rw [ih, List.flatMap_cons, List.append_assoc]

/-- The entries of all answers before the first request that fails. -/
theorem listPassthrough_eq (rpc : Rpc) (key : String) :
    listPassthrough rpc key =
      (answers rpc listMaxPages 0 none).1.flatMap fun r => ((r.get key).bind Json.asArray).getD [] := by
  rw [listPassthrough, passPages_eq, List.nil_append]

/-- How many requests a listing makes, the one that fails included. -/
def requests (rpc : Rpc) (left page : Nat) (cursor : Option String) : Nat :=
  (answers rpc left page cursor).1.length + (answers rpc left page cursor).2.toList.length

theorem requests_le (rpc : Rpc) (left page : Nat) (cursor : Option String) :
    requests rpc left page cursor ≤ left := by
  induction left generalizing page cursor with
  | zero => exact Nat.le_refl _
  | succ left ih =>
    unfold requests at ih ⊢
    rw [answers]
    cases rpc page cursor with
    | error e => exact Nat.succ_le_succ (Nat.zero_le _)
    | ok result =>
      dsimp only
      split
      · exact Nat.succ_le_succ (Nat.zero_le _)
      · have := ih (page + 1) (nextCursor result)
        dsimp only [List.length_cons]
        omega

/-! ### Upstreams whose pages end -/

/-- From the cursor on, these are the pages, and the last one names no other. -/
inductive Pages (page : Option String → Json) : Option String → List Json → Prop where
  | last {cursor : Option String} (h : nextCursor (page cursor) = none) : Pages page cursor [page cursor]
  | more {cursor : Option String} {next : String} {rs : List Json} (h : nextCursor (page cursor) = some next)
    (hrs : Pages page (some next) rs) : Pages page cursor (page cursor :: rs)

theorem Pages.unique {page : Option String → Json} {cursor : Option String} {rs rs' : List Json}
    (h : Pages page cursor rs) (h' : Pages page cursor rs') : rs = rs' := by
  induction h generalizing rs' with
  | last hn =>
    cases h' with
    | last => rfl
    | more hs => rw [hn] at hs; cases hs
  | more hs hrs ih =>
    cases h' with
    | last hn => rw [hn] at hs; cases hs
    | more hs' hrs' =>
      rw [hs] at hs'
      obtain rfl := Option.some.inj hs'
      rw [ih hrs']

/-- Pages that end do not lead back. -/
theorem Pages.advances {page : Option String → Json} {cursor : Option String} {next : String} {rs : List Json}
    (hs : nextCursor (page cursor) = some next) (hrs : Pages page (some next) rs) : some next ≠ cursor := by
  rintro rfl
  have := hrs.unique (.more hs hrs)
  exact absurd (congrArg List.length this) (by simp)

theorem answers_of_pages {rpc : Rpc} {page : Option String → Json} (hrpc : ∀ n c, rpc n c = .ok (page c))
    {cursor : Option String} {rs : List Json} (h : Pages page cursor rs) (left n : Nat) (hl : rs.length ≤ left) :
    answers rpc left n cursor = (rs, none) := by
  induction h generalizing left n with
  | last hn =>
    obtain ⟨left, rfl⟩ : ∃ m, left = m + 1 := ⟨left - 1, by rw [List.length_singleton] at hl; omega⟩
    rw [answers, hrpc]
    simp [isLast, hn]
  | @more cursor next rs hs hrs ih =>
    obtain ⟨left, rfl⟩ : ∃ m, left = m + 1 := ⟨left - 1, by rw [List.length_cons] at hl; omega⟩
    have hne : some next ≠ cursor := hrs.advances hs
    rw [List.length_cons] at hl
    rw [answers, hrpc]
    dsimp only
    rw [isLast, hs, if_neg (by simpa using hne), ih left (n + 1) (by omega)]

/-- An upstream that answers by the cursor alone, and whose pages end within a thousand, is listed
whole: every tool of every page, in their order and once. Whatever an upstream answers, a listing
makes a thousand requests at most. -/
theorem listing_complete {rpc : Rpc} {page : Option String → Json} (hrpc : ∀ n c, rpc n c = .ok (page c))
    {rs : List Json} (h : Pages page none rs) (hl : rs.length ≤ listMaxPages) (name : String) (idx : Nat) :
    listTools rpc name idx =
        .ok (rs.flatMap fun r => (pageTools r).map (toolDef name idx), ttlMs (page none)) ∧
      (∀ key, listPassthrough rpc key = rs.flatMap fun r => ((r.get key).bind Json.asArray).getD []) ∧
      ∀ other : Rpc, requests other listMaxPages 0 none ≤ listMaxPages := by
  have ha := answers_of_pages hrpc h listMaxPages 0 hl
  have hhead : rs.head? = some (page none) := by cases h <;> rfl
  refine ⟨?_, fun key => ?_, fun other => requests_le other _ _ _⟩
  · rw [listTools_eq, ha, hhead]
    rfl
  · rw [listPassthrough_eq, ha]

/-! ## What comes up -/

/-- A configured upstream: the fields validation reads, and whether it may be missing.
mirrors src/config.rs:46-58 -/
structure Configured extends UpstreamConfig where
  optional : Bool

/-- An operation of a spec, as it is listed.
mirrors src/backend.rs:236-257 -/
structure Operation where
  opId : String
  oneLine : String
  shallow : Json
  method : String

/-- mirrors src/backend.rs:240-255 -/
def operationTool (name : String) (idx : Nat) (op : Operation) : ToolDef where
  upstreamIdx := idx
  name := op.opId
  description := op.oneLine
  inputSchema := op.shallow
  id := toolId name op.opId
  readOnly := some (op.method.toLower = "get")
  extra := if op.method.toLower = "get" then [("annotations", .obj [("readOnlyHint", .bool true)])] else []

/-- A connected upstream: an MCP server, by its answers, or a spec, by its operations. -/
inductive Lister where
  | server (rpc : Rpc)
  | spec (operations : List Operation)

/-- mirrors src/backend.rs:58-66 -/
def Lister.list (name : String) (idx : Nat) : Lister → Except String (List ToolDef × Option UInt64)
  | .server rpc => listTools rpc name idx
  | .spec operations => .ok (operations.map (operationTool name idx), none)

structure Connection where
  lister : Lister
  resolvedSchema : String → Option Json

def Connection.backend (c : Configured) (conn : Connection) : Backend := ⟨c.name, conn.resolvedSchema⟩

/-- Connected and listed as the `idx`th. -/
def bring (connect : Configured → Except String Connection) (c : Configured) (idx : Nat) :
    Except String (Backend × List ToolDef × Option UInt64) :=
  (connect c).bind fun conn => (conn.lister.list c.name idx).map fun listed => (conn.backend c, listed)

theorem listed_of_list {l : Lister} {name : String} {idx : Nat} {listed : List ToolDef × Option UInt64}
    (h : l.list name idx = .ok listed) : Listed name idx listed.1 := by
  cases l with
  | server rpc =>
    rw [Lister.list, listTools_eq] at h
    split at h
    · cases h
    · obtain rfl := Except.ok.inj h
      intro t ht
      obtain ⟨r, -, ht⟩ := List.mem_flatMap.mp ht
      exact listed_toolDefs name idx _ t ht
  | spec operations =>
    obtain rfl := Except.ok.inj h
    intro t ht
    obtain ⟨op, -, rfl⟩ := List.mem_map.mp ht
    exact ⟨rfl, rfl⟩

theorem bring_ok {connect : Configured → Except String Connection} {c : Configured} {idx : Nat}
    {up : Backend} {listed : List ToolDef × Option UInt64} (h : bring connect c idx = .ok (up, listed)) :
    ∃ conn, connect c = .ok conn ∧ conn.lister.list c.name idx = .ok listed ∧ up = conn.backend c := by
  unfold bring at h
  cases hc : connect c with
  | error e =>
    rw [hc] at h
    cases h
  | ok conn =>
    rw [hc] at h
    cases hl : conn.lister.list c.name idx with
    | error e =>
      simp only [Except.bind, hl, Except.map] at h
      cases h
    | ok listed' =>
      simp only [Except.bind, hl, Except.map, Except.ok.injEq, Prod.mk.injEq] at h
      obtain ⟨rfl, rfl⟩ := h
      exact ⟨conn, rfl, hl, rfl⟩

/-- What has come up: an upstream's place, its listing's and its `ttlMs`'s are one, and the listing
is its own. -/
structure Up where
  upstreams : List Backend
  listings : List (List ToolDef)
  ttls : List (Option UInt64)
  skipped : Nat
  aligned : listings.length = upstreams.length ∧ ttls.length = upstreams.length
  listed : AllListed upstreams listings

def Up.none : Up := ⟨[], [], [], 0, ⟨rfl, rfl⟩, fun i up ts hi _ => by simp at hi⟩

def Up.push (b : Up) (up : Backend) (tools : List ToolDef) (ttl : Option UInt64)
    (h : Listed up.name b.upstreams.length tools) : Up where
  upstreams := b.upstreams ++ [up]
  listings := b.listings ++ [tools]
  ttls := b.ttls ++ [ttl]
  skipped := b.skipped
  aligned := by simp [b.aligned]
  listed i u ts hi hts := by
    by_cases hlt : i < b.upstreams.length
    · rw [List.getElem?_append_left hlt] at hi
      rw [List.getElem?_append_left (by rw [b.aligned.1]; exact hlt)] at hts
      exact b.listed i u ts hi hts
    · have heq : i = b.upstreams.length := by
        have := (List.getElem?_eq_some_iff.mp hi).1
        rw [List.length_append, List.length_singleton] at this
        omega
      subst heq
      rw [List.getElem?_append_right (Nat.le_refl _), Nat.sub_self] at hi
      rw [← b.aligned.1, List.getElem?_append_right (Nat.le_refl _), Nat.sub_self] at hts
      obtain rfl := Option.some.inj hi
      obtain rfl := Option.some.inj hts
      exact h

def Up.skip (b : Up) : Up := { b with skipped := b.skipped + 1 }

theorem listed_of_bring {connect : Configured → Except String Connection} {c : Configured} {idx : Nat}
    {up : Backend} {listed : List ToolDef × Option UInt64} (h : bring connect c idx = .ok (up, listed)) :
    Listed up.name idx listed.1 := by
  obtain ⟨conn, -, hl, rfl⟩ := bring_ok h
  exact listed_of_list hl

/-- mirrors src/surface.rs:144-192 -/
def build (f : Filters) (connect : Configured → Except String Connection) :
    List Configured → Up → Except String Up
  | [], b => .ok b
  | c :: cs, b =>
    if upstreamEnabled f c.name then
      match h : bring connect c b.upstreams.length with
      | .ok (up, tools, ttl) => build f connect cs (b.push up tools ttl (listed_of_bring h))
      | .error e => if c.optional then build f connect cs b.skip else .error e
    else build f connect cs b

section Build

variable {f : Filters} {connect : Configured → Except String Connection} {cs : List Configured} {b b' : Up}

/-- The upstream at a place was configured, is not filtered out, and was connected and listed as
this one. -/
def Brought (f : Filters) (connect : Configured → Except String Connection) (cs : List Configured)
    (b : Up) (i : Nat) : Prop :=
  ∃ c ∈ cs, ∃ up tools ttl, upstreamEnabled f c.name = true ∧ bring connect c i = .ok (up, tools, ttl) ∧
    b.upstreams[i]? = some up ∧ b.listings[i]? = some tools ∧ b.ttls[i]? = some ttl

/-- What came up before stays where it is. -/
structure Extends (b b' : Up) : Prop where
  upstreams : b.upstreams <+: b'.upstreams
  listings : b.listings <+: b'.listings
  ttls : b.ttls <+: b'.ttls

theorem extends_push (b : Up) (up : Backend) (tools : List ToolDef) (ttl : Option UInt64)
    (h : Listed up.name b.upstreams.length tools) : Extends b (b.push up tools ttl h) :=
  ⟨⟨[up], rfl⟩, ⟨[tools], rfl⟩, ⟨[ttl], rfl⟩⟩

theorem Extends.trans {b₁ b₂ b₃ : Up} (h : Extends b₁ b₂) (h' : Extends b₂ b₃) : Extends b₁ b₃ :=
  ⟨h.upstreams.trans h'.upstreams, h.listings.trans h'.listings, h.ttls.trans h'.ttls⟩

theorem getElem?_of_isPrefix {α : Type} {xs ys : List α} (h : xs <+: ys) {i : Nat} {x : α}
    (hi : xs[i]? = some x) : ys[i]? = some x := by
  obtain ⟨zs, rfl⟩ := h
  rw [List.getElem?_append_left (List.getElem?_eq_some_iff.mp hi).1]
  exact hi

/-- What comes up behind what has: more upstreams, in the order of the configuration, each of them
configured; and none that must come up is missing. -/
structure Came (f : Filters) (connect : Configured → Except String Connection) (cs : List Configured)
    (b b' : Up) : Prop where
  keeps : Extends b b'
  ordered : ((b'.upstreams.drop b.upstreams.length).map Backend.name).Sublist (cs.map fun c => c.name)
  brought : ∀ i, b.upstreams.length ≤ i → i < b'.upstreams.length → Brought f connect cs b' i
  complete : ∀ c ∈ cs, upstreamEnabled f c.name = true → c.optional = false →
    c.name ∈ b'.upstreams.map Backend.name

theorem Brought.cons {c : Configured} {i : Nat} (h : Brought f connect cs b i) : Brought f connect (c :: cs) b i := by
  obtain ⟨c', hc', h⟩ := h
  exact ⟨c', List.mem_cons_of_mem c hc', h⟩

theorem Came.passed {c : Configured} (h : Came f connect cs b b')
    (hc : upstreamEnabled f c.name = true → c.optional = false → c.name ∈ b'.upstreams.map Backend.name) :
    Came f connect (c :: cs) b b' where
  keeps := h.keeps
  ordered := h.ordered.cons c.name
  brought i hl hi := (h.brought i hl hi).cons
  complete c' hc' he ho := by
    rcases List.mem_cons.mp hc' with rfl | hc'
    · exact hc he ho
    · exact h.complete c' hc' he ho

theorem Came.pushed {c : Configured} {up : Backend} {tools : List ToolDef} {ttl : Option UInt64}
    (he : upstreamEnabled f c.name = true) (hb : bring connect c b.upstreams.length = .ok (up, tools, ttl))
    (h : Came f connect cs (b.push up tools ttl (listed_of_bring hb)) b') : Came f connect (c :: cs) b b' := by
  have hkeeps := (extends_push b up tools ttl (listed_of_bring hb)).trans h.keeps
  have hup : b'.upstreams[b.upstreams.length]? = some up :=
    getElem?_of_isPrefix h.keeps.upstreams (by simp [Up.push])
  have hname : up.name = c.name := by
    obtain ⟨conn, -, -, rfl⟩ := bring_ok hb
    rfl
  refine ⟨hkeeps, ?_, fun i hl hi => ?_, fun c' hc' he' ho => ?_⟩
  · obtain ⟨hlt, hget⟩ := List.getElem?_eq_some_iff.mp hup
    rw [List.drop_eq_getElem_cons hlt, hget, List.map_cons, List.map_cons, hname]
    refine List.Sublist.cons_cons c.name ?_
    have := h.ordered
    rwa [show (b.push up tools ttl (listed_of_bring hb)).upstreams.length = b.upstreams.length + 1 by
      simp [Up.push]] at this
  · by_cases heq : i = b.upstreams.length
    · subst heq
      refine ⟨c, List.mem_cons_self, up, tools, ttl, he, hb, hup, ?_, ?_⟩
      · exact getElem?_of_isPrefix h.keeps.listings (by simp [Up.push, ← b.aligned.1])
      · exact getElem?_of_isPrefix h.keeps.ttls (by simp [Up.push, ← b.aligned.2])
    · refine (h.brought i ?_ hi).cons
      rw [show (b.push up tools ttl (listed_of_bring hb)).upstreams.length = b.upstreams.length + 1 by
        simp [Up.push]]
      omega
  · rcases List.mem_cons.mp hc' with rfl | hc'
    · rw [← hname]
      exact List.mem_map_of_mem (List.mem_of_getElem? hup)
    · exact h.complete c' hc' he' ho

theorem came_of_build (h : build f connect cs b = .ok b') : Came f connect cs b b' := by
  induction cs generalizing b with
  | nil =>
    obtain rfl := Except.ok.inj h
    exact ⟨⟨List.prefix_refl _, List.prefix_refl _, List.prefix_refl _⟩, by simp,
      fun i hl hi => absurd hi (by omega), fun c hc => by cases hc⟩
  | cons c cs ih =>
    rw [build] at h
    split at h
    · next he =>
      split at h
      · next up tools ttl hb => exact Came.pushed he hb (ih h)
      · split at h
        · next ho =>
          have hs := ih h
          have hkeeps : Extends b b' := ⟨hs.keeps.upstreams, hs.keeps.listings, hs.keeps.ttls⟩
          refine Came.passed ⟨hkeeps, hs.ordered, hs.brought, hs.complete⟩ fun _ hn => ?_
          rw [ho] at hn
          cases hn
        · cases h
    · next he => exact (ih h).passed fun he' => absurd he' he

/-- The tool leads to the backend of the upstream that was configured, let through by the filters,
connected, and has listed it. -/
def LeadsBack (cfg : Config) (connect : Configured → Except String Connection) (cs : List Configured)
    (b : Up) (t : ToolDef) : Prop :=
  ∃ c ∈ cs, ∃ conn tools ttl, upstreamEnabled cfg.filters c.name = true ∧ connect c = .ok conn ∧
    conn.lister.list c.name t.upstreamIdx = .ok (tools, ttl) ∧
    b.upstreams[t.upstreamIdx]? = some (conn.backend c) ∧ t.id = toolId c.name t.name ∧
    ∃ t₀ ∈ tools, t = served cfg t₀

/-- What came up is the configuration's, in its order, and nothing is missing that must not be; and
every tool that is served leads to the upstream that listed it, whichever others were skipped. -/
theorem served_tools_route {cfg : Config} {expand : String → Option String} {cat : Catalog}
    (hb : build cfg.filters connect cs .none = .ok b) (ha : assemble cfg expand b.upstreams b.listings = some cat) :
    Connected (cs.map Configured.toUpstreamConfig) b.upstreams ∧
      (∀ c ∈ cs, upstreamEnabled cfg.filters c.name = true → c.optional = false →
        c.name ∈ b.upstreams.map Backend.name) ∧
      ∀ t ∈ cat.tools, LeadsBack cfg connect cs b t := by
  have hcame := came_of_build hb
  refine ⟨?_, hcame.complete, fun t ht => ?_⟩
  · have := hcame.ordered
    rwa [Connected, List.map_map]
  · rw [assemble_tools ha] at ht
    obtain ⟨l, hl, ht⟩ := List.mem_flatMap.mp ht
    obtain ⟨i, hi⟩ := List.mem_iff_getElem?.mp hl
    obtain ⟨hup, hts⟩ := List.getElem?_zip_eq_some.mp hi
    obtain ⟨t₀, ht₀, rfl⟩ := List.mem_map.mp ht
    have ht₀ := (List.mem_filter.mp ht₀).1
    obtain ⟨hidx, hid⟩ := b.listed i l.1 l.2 hup hts t₀ ht₀
    obtain ⟨c, hc, up, tools, ttl, he, hbring, hup', hts', -⟩ :=
      hcame.brought i (Nat.zero_le _) (List.getElem?_eq_some_iff.mp hup).1
    obtain ⟨conn, hconn, hlist, rfl⟩ := bring_ok hbring
    rw [hup] at hup'
    rw [hts] at hts'
    obtain rfl := Option.some.inj hts'
    have hname : l.1 = conn.backend c := Option.some.inj hup'
    refine ⟨c, hc, conn, l.2, ttl, he, hconn, ?_, ?_, ?_, t₀, ht₀, rfl⟩
    · show conn.lister.list c.name t₀.upstreamIdx = _
      rw [hidx]
      exact hlist
    · show b.upstreams[t₀.upstreamIdx]? = _
      rw [hidx, hup, hname]
    · show t₀.id = toolId c.name t₀.name
      rw [hid, hname]
      rfl

end Build

/-! ## An upstream of two pages, behind one that does not come up -/

def twoPages (cursor : Option String) : Json :=
  match cursor with
  | none => .obj [("tools", .arr [.obj [("name", .str "get")]]), ("nextCursor", .str "2")]
  | some _ => .obj [("tools", .arr [.obj [("name", .str "list")]])]

theorem two_pages_complete :
    listTools (fun _ c => .ok (twoPages c)) "crm" 0 =
        .ok ([twoPages none, twoPages (some "2")].flatMap fun r => (pageTools r).map (toolDef "crm" 0),
          ttlMs (twoPages none)) ∧
      (∀ key, listPassthrough (fun _ c => .ok (twoPages c)) key =
        [twoPages none, twoPages (some "2")].flatMap fun r => ((r.get key).bind Json.asArray).getD []) ∧
      ∀ other : Rpc, requests other listMaxPages 0 none ≤ listMaxPages :=
  listing_complete (fun _ _ => rfl)
    (.more (show nextCursor (twoPages none) = some "2" by decide) (.last (by decide))) (by decide) "crm" 0

def exampleConfig : Config where
  mode := .threeTool
  filters := ⟨[], ["erp"]⟩
  scopes := ⟨[], false⟩
  bindingPolicy := .weak
  poisoningPolicy := .warn
  overlays := []

def exampleUpstreams : List Configured :=
  [⟨commandUpstream "old", true⟩, ⟨commandUpstream "erp", false⟩, ⟨commandUpstream "crm", false⟩]

def exampleConnect (c : Configured) : Except String Connection :=
  if c.name = "crm" then .ok ⟨.server fun _ cursor => .ok (twoPages cursor), fun _ => none⟩ else .error "no such file"

theorem crm_tools_route : ∃ b cat, build exampleConfig.filters exampleConnect exampleUpstreams .none = .ok b ∧
    assemble exampleConfig some b.upstreams b.listings = some cat ∧
    cat.tools.map (fun t => (t.id, t.upstreamIdx)) = [("crm.get", 0), ("crm.list", 0)] ∧
    Connected (exampleUpstreams.map Configured.toUpstreamConfig) b.upstreams ∧
    (∀ c ∈ exampleUpstreams, upstreamEnabled exampleConfig.filters c.name = true → c.optional = false →
      c.name ∈ b.upstreams.map Backend.name) ∧
    ∀ t ∈ cat.tools, LeadsBack exampleConfig exampleConnect exampleUpstreams b t := by
  have hr : (((build exampleConfig.filters exampleConnect exampleUpstreams .none).toOption.bind fun b =>
      assemble exampleConfig some b.upstreams b.listings).any fun cat =>
        cat.tools.map (fun t => (t.id, t.upstreamIdx)) = [("crm.get", 0), ("crm.list", 0)]) = true := by
    decide +kernel
  obtain ⟨cat, hcat, htools⟩ := (Option.any_eq_true _ _).mp hr
  obtain ⟨b, hb, ha⟩ := Option.bind_eq_some_iff.mp hcat
  have hb : build exampleConfig.filters exampleConnect exampleUpstreams .none = .ok b := by
    cases h : build exampleConfig.filters exampleConnect exampleUpstreams .none with
    | error e =>
      rw [h] at hb
      cases hb
    | ok b' =>
      rw [h] at hb
      rw [Option.some.inj hb]
  exact ⟨b, cat, hb, ha, of_decide_eq_true htools, served_tools_route hb ha⟩

end MinMcp.L5.Startup
