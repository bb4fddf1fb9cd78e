import Mathlib.Data.String.Basic
import MinMcp.Core.LTS
import MinMcp.Core.OrderedMap
import MinMcp.Core.Text.Debug
import MinMcp.L3Protocol.JsonRpc

/-!
# Two eras of the protocol

An upstream speaks the stateless revision, in which every request describes itself, or an earlier
one, which opens with a handshake. A `server/discover` probe tells which (src/modern.rs).

* `classifyProbe`: what an answer to the probe, or its failure, shows; `classifyProbe_modern`: when
  it shows the stateless revision.
* `Ask`: the requests that are made of an upstream once it is connected.
* `server`: what a server may be told, by what it has been told. A probe comes first and unasked for
  nothing else, a handshake opens the legacy era, the modern one has none, and each era has its own
  requests. A cancellation names a request of the same server. What it asks itself may be answered
  at any time.
-/
namespace MinMcp.L3.Eras

open MinMcp.Core MinMcp.Core.Text MinMcp.L3.JsonRpc

/-- mirrors src/modern.rs:39-44 -/
inductive Era where
  | legacy
  | modern
  deriving DecidableEq

/-- mirrors src/modern.rs:16 -/
def modernVersion : String := "2026-07-28"

/-- mirrors src/upstream.rs:165 -/
def protocolVersion : String := "2025-11-25"

def unsupportedProtocolVersion : Int64 := -32022

def headerMismatch : Int64 := -32020

def missingRequiredClientCapability : Int64 := -32021

/-! ## The probe -/

/-- How a request fails: with the error object of a reply, or without a reply.
mirrors src/modern.rs:50-54 -/
inductive Failure where
  | rpc (error : Json)
  | other
  deriving DecidableEq

/-- What became of the probe. -/
abbrev Probe := Except Failure Json

/-- mirrors src/modern.rs:102-113 -/
def fromVersions (upstream : String) (versions : List Json) : Except String Era :=
  let names := versions.filterMap Json.asStr
  if modernVersion ∈ names then .ok .modern
  else if names.any fun v => decide (v < modernVersion) then .ok .legacy
  else .error (s!"upstream {upstream} supports only " ++ debugStrs names ++
    s!"; min-mcp speaks {modernVersion} and earlier")

/-- mirrors src/modern.rs:77-100 -/
def classifyProbe (upstream : String) : Probe → Except String Era
  | .ok result =>
    match (result.get "supportedVersions").bind Json.asArray with
    | some versions => fromVersions upstream versions
    | none => .ok .legacy
  | .error .other => .ok .legacy
  | .error (.rpc error) =>
    match (error.get "code").bind asI64 with
    | some code =>
      if code = unsupportedProtocolVersion then
        fromVersions upstream (((error.get "data").bind fun d => (d.get "supported").bind Json.asArray).getD [])
      else if code = headerMismatch ∨ code = missingRequiredClientCapability then .ok .modern
      else .ok .legacy
    | none => .ok .legacy

/-! ## Requests -/

def clientInfo : Json := .obj [("name", .str "min-mcp"), ("version", .str "0.4.0")]

/-- mirrors src/modern.rs:66-70 -/
def requestMeta : Json :=
  .obj [("io.modelcontextprotocol/protocolVersion", .str modernVersion),
    ("io.modelcontextprotocol/clientCapabilities", .obj []),
    ("io.modelcontextprotocol/clientInfo", clientInfo)]

/-- mirrors src/modern.rs:64-75 -/
def withMeta : Json → Json
  | .obj es => .obj (OrderedMap.insert "_meta" requestMeta es)
  | v => v

def Marked (params : Json) : Prop := params.get "_meta" ≠ none

instance (params : Json) : Decidable (Marked params) := inferInstanceAs (Decidable (_ ≠ _))

inductive Listing where
  | tools | resources | prompts
  deriving DecidableEq

def Listing.method : Listing → String
  | .tools => "tools/list"
  | .resources => "resources/list"
  | .prompts => "prompts/list"

/-- mirrors src/upstream.rs:98-157 -/
inductive Ask where
  | page (listing : Listing) (cursor : Option String)
  | callTool (name : String) (arguments : Json)
  | readResource (uri : String)
  | getPrompt (name : String) (arguments : Json)

namespace Ask

def method : Ask → String
  | .page listing _ => listing.method
  | .callTool _ _ => "tools/call"
  | .readResource _ => "resources/read"
  | .getPrompt _ _ => "prompts/get"

/-- mirrors src/upstream.rs:64-79 -/
def params : Ask → Json
  | .page _ (some c) => .obj [("cursor", .str c)]
  | .page _ none => .obj []
  | .callTool name arguments => .obj [("name", .str name), ("arguments", arguments)]
  | .readResource uri => .obj [("uri", .str uri)]
  | .getPrompt name arguments =>
    if arguments.isNull then .obj [("name", .str name)] else .obj [("name", .str name), ("arguments", arguments)]

end Ask

/-- What is written to a server. -/
inductive Frame where
  | request (id : Int64) (method : String) (params : Json)
  | notification (method : String) (params : Json)
  /-- To a request of the server's own. -/
  | reply (message : Json)
  deriving DecidableEq

def Frame.method : Frame → Option String
  | .request _ method _ | .notification method _ => some method
  | .reply _ => none

def Frame.isProbe : Frame → Bool
  | .request _ method _ => method = "server/discover"
  | .notification _ _ | .reply _ => false

def Frame.isReply : Frame → Bool
  | .reply _ => true
  | .request .. | .notification .. => false

/-- The answer to a request of the server's own.
mirrors src/upstream.rs:439-443 -/
def replyTo (id : Json) (method : String) : Frame :=
  .reply (if method = "ping" then result id (.obj [])
    else error id methodNotFound s!"min-mcp does not support {method}")

/-- mirrors src/upstream.rs:325-333 -/
def initializeParams : Json :=
  .obj [("protocolVersion", .str protocolVersion), ("capabilities", .obj []), ("clientInfo", clientInfo)]

/-- mirrors src/upstream.rs:363 -/
def cancelParams (id : Int64) : Json :=
  .obj [("requestId", .num (Num.ofInt id.toInt)), ("reason", .str "min-mcp: request timed out")]

/-! ## The server -/

/-- How far a server has been led. -/
inductive Mode where
  | fresh
  | probed
  | offered
  | legacy
  | modern
  deriving DecidableEq

/-- The era that a server was led into. -/
def Mode.era : Mode → Option Era
  | .fresh | .probed => none
  | .offered | .legacy => some .legacy
  | .modern => some .modern

/-- What a server has been told; `asked` are the requests it may be told to cancel. -/
structure Session where
  mode : Mode
  asked : List Int64
  deriving DecidableEq

def Session.start : Session := ⟨.fresh, []⟩

/-- A request outside the handshake. -/
def Session.call (s : Session) (id : Int64) (marked : Bool) : Option Session :=
  match s.mode, marked with
  | .legacy, false => some ⟨.legacy, id :: s.asked⟩
  | .fresh, true | .probed, true | .modern, true => some ⟨.modern, id :: s.asked⟩
  | _, _ => none

def Session.hears (s : Session) : Frame → Option Session
  | .request id method params =>
    if method = "server/discover" then
      if s.mode = .fresh ∧ Marked params then some { s with mode := .probed } else none
    else if method = "initialize" then
      if (s.mode = .fresh ∨ s.mode = .probed) ∧ ¬Marked params then some { s with mode := .offered } else none
    else s.call id (decide (Marked params))
  | .notification method params =>
    if method = "notifications/initialized" then
      if s.mode = .offered then some { s with mode := .legacy } else none
    else if method = "notifications/cancelled" then
      if s.asked.any fun id => decide (params = cancelParams id) then some s else none
    else none
  | .reply _ => some s

def server : LTS Session Frame := ⟨(· = .start), Session.hears⟩

/-! ## What the requests are -/

theorem marked_withMeta (es : List (String × Json)) : Marked (withMeta (.obj es)) := by
  simp [Marked, withMeta, OrderedMap.lookup_insert_self]

theorem Ask.params_obj (a : Ask) : ∃ es, a.params = .obj es ∧ es.lookup "_meta" = none := by
  cases a with
  | page listing cursor => cases cursor <;> exact ⟨_, rfl, rfl⟩
  | callTool name arguments => exact ⟨_, rfl, rfl⟩
  | readResource uri => exact ⟨_, rfl, rfl⟩
  | getPrompt name arguments =>
    simp only [Ask.params]
    split <;> exact ⟨_, rfl, rfl⟩

theorem Ask.method_ne (a : Ask) : a.method ≠ "server/discover" ∧ a.method ≠ "initialize" := by
  cases a with
  | page listing cursor => cases listing <;> simp [Ask.method, Listing.method]
  | callTool name arguments => simp [Ask.method]
  | readResource uri => simp [Ask.method]
  | getPrompt name arguments => simp [Ask.method]

/-! ## What the probe shows -/

/-- The versions that an answer names. -/
def named : Probe → List String
  | .ok result => (((result.get "supportedVersions").bind Json.asArray).getD []).filterMap Json.asStr
  | .error .other => []
  | .error (.rpc error) =>
    if (error.get "code").bind asI64 = some unsupportedProtocolVersion then
      (((error.get "data").bind fun d => (d.get "supported").bind Json.asArray).getD []).filterMap Json.asStr
    else []

theorem fromVersions_modern {upstream : String} {versions : List Json} :
    fromVersions upstream versions = .ok .modern ↔ modernVersion ∈ versions.filterMap Json.asStr := by
  unfold fromVersions
  dsimp only
  split
  · simp [*]
  · rename_i h
    split <;> simp [h]

/-- A server is modern exactly if it names the revision, or misses what only the revision has. -/
theorem classifyProbe_modern {upstream : String} {p : Probe} :
    classifyProbe upstream p = .ok .modern ↔
      modernVersion ∈ named p ∨ ∃ error code, p = .error (.rpc error) ∧ (error.get "code").bind asI64 = some code ∧
        (code = headerMismatch ∨ code = missingRequiredClientCapability) := by
  rcases p with (error | _) | result
  · cases hc : (error.get "code").bind asI64 with
    | none => simp [classifyProbe, named, hc]
    | some code =>
      by_cases h : code = unsupportedProtocolVersion
      · subst h
        have h1 : unsupportedProtocolVersion ≠ headerMismatch := by decide
        have h2 : unsupportedProtocolVersion ≠ missingRequiredClientCapability := by decide
        simp [classifyProbe, named, hc, fromVersions_modern, h1, h2]
      · simp [classifyProbe, named, hc, h, or_iff_not_imp_left]
  · simp [classifyProbe, named]
  · cases hv : (result.get "supportedVersions").bind Json.asArray with
    | none => simp [classifyProbe, named, hv]
    | some versions => simp [classifyProbe, named, hv, fromVersions_modern]

end MinMcp.L3.Eras
