import MinMcp.Core.Json.Print
import MinMcp.Core.Text.Lines
import MinMcp.L3Protocol.ExecutePath

/-!
# Who an HTTP request comes from

The guard in front of the HTTP service (src/rmcp_serve.rs) answers for the metadata document, finds
a caller in the headers or refuses, and hangs the caller on the request; a handler takes it from
there. A bearer is validated by the verifier and the introspector, whose answers to this request are
`Answers`; a gateway's headers count when no bearer is to be validated; the process is the caller
where nothing is configured or anonymous requests are allowed.

* `Identified`: the headers name the caller, through one source or the other.
* `authenticate_cases`: a request that passes is identified, or it is the process's and identity is
  not enforced.
* `authenticate_bearer`: a bearer that is validated decides alone.
* `caller_identified`: with identity enforced, whom a handler serves is identified.
* `enforced_of_exposed`: a server that others can reach unauthenticated does not start.
-/
namespace MinMcp.L4.Identity

open MinMcp.Core
open MinMcp.Core.Text (isWhitespace)
open MinMcp.L3.ExecutePath (trimEndSlashes)

/-- mirrors src/caller.rs:12-26 -/
structure Caller where
  scopes : List String
  subject : Option String
  origin : Option String
  deriving DecidableEq

/-- mirrors src/caller.rs:28-30 -/
def Caller.new (scopes : List String) (subject : Option String) : Caller := ⟨scopes, subject, none⟩

/-- mirrors src/caller.rs:38-41 -/
def Caller.withOrigin (c : Caller) (origin : Option String) : Caller := { c with origin := origin }

/-- mirrors src/auth.rs:31-40 -/
structure ClaimChecks where
  audience : Option String
  issuer : Option String

/-- mirrors src/config.rs:968-977 -/
structure TrustedHeaders where
  scopes : String
  subject : Option String

/-- mirrors src/config.rs:833-846 -/
structure ProtectedResource where
  resource : String
  authorizationServers : List String
  scopesSupported : List String

/-- What the guard needs of it.
mirrors src/config.rs:776-831 -/
structure Auth where
  scopeClaim : String
  audience : Option String
  issuer : Option String
  subjectClaim : String
  trustedHeaders : Option TrustedHeaders
  allowAnonymous : Bool
  protectedResource : Option ProtectedResource

/-- mirrors src/rmcp_serve.rs:344-353 -/
structure ResourceMetadata where
  doc : String
  url : String
  paths : List String

/-- mirrors src/rmcp_serve.rs:355 -/
def wellKnown : String := "/.well-known/oauth-protected-resource"

/-- `origin` and `rawPath` are those of the resource's URL.
mirrors src/rmcp_serve.rs:358-384 -/
def ResourceMetadata.new (pr : ProtectedResource) (origin rawPath : String) : ResourceMetadata :=
  let path := String.ofList (trimEndSlashes rawPath.toList)
  let inserted := wellKnown ++ path
  let strings := fun (ss : List String) => Json.arr (ss.map Json.str)
  { doc := String.ofList (Json.obj ([("resource", .str pr.resource),
      ("authorization_servers", strings pr.authorizationServers),
      ("bearer_methods_supported", strings ["header"])] ++
      if pr.scopesSupported = [] then [] else [("scopes_supported", strings pr.scopesSupported)])).print
    url := origin ++ inserted
    paths := [inserted] ++
      (if 1 < rawPath.utf8ByteSize && rawPath.endsWith "/" then [wellKnown ++ rawPath] else []) ++
      (if path = "" then [] else [wellKnown]) }

/-- mirrors src/rmcp_serve.rs:386-388 -/
def ResourceMetadata.serves (m : ResourceMetadata) (path : String) : Bool := path ∈ m.paths

/-- The verifier and the introspector are asked per request.
mirrors src/rmcp_serve.rs:327-342 -/
structure HttpIdentity where
  verifier : Bool
  introspector : Bool
  checks : ClaimChecks
  scopeClaim : String
  subjectClaim : String
  trusted : Option TrustedHeaders
  allowAnonymous : Bool
  metadata : Option ResourceMetadata

/-- A published resource is the audience, unless one is given.
mirrors src/rmcp_serve.rs:403-423 -/
def fromAuth (a : Auth) (verifier introspector : Bool) (parse : String → String × String) : HttpIdentity where
  verifier := verifier
  introspector := introspector
  checks := ⟨a.audience.or (a.protectedResource.map ProtectedResource.resource), a.issuer⟩
  scopeClaim := a.scopeClaim
  subjectClaim := a.subjectClaim
  trusted := a.trustedHeaders
  allowAnonymous := a.allowAnonymous
  metadata := a.protectedResource.map fun pr =>
    .new pr (parse pr.resource).1 (parse pr.resource).2

/-- What the verifier and the introspector say to a request: a token's claims, and whether it is
still live. -/
structure Answers where
  claims : String → ClaimChecks → Except String Json
  active : String → Option UInt64 → Except String Bool

/-- mirrors src/rmcp_serve.rs:391-397 -/
structure Refusal where
  challenge : String
  reason : String

/-- The names are lower case; a value is `none` where it is not visible ASCII. -/
abbrev Headers := List (String × Option String)

def Headers.get (hs : Headers) (name : String) : Option String := (hs.lookup name.toLower).join

def trim (s : String) : String :=
  String.ofList ((s.toList.dropWhile isWhitespace).reverse.dropWhile isWhitespace).reverse

def words (sep : Char → Bool) (s : String) : List String :=
  ((s.toList.splitOnP sep).filter (· ≠ [])).map String.ofList

/-- mirrors src/rmcp_serve.rs:466-472 -/
def bearer (hs : Headers) : Option String :=
  (hs.get "authorization").bind fun v =>
    let cs := (trim v).toList
    match cs.dropWhile (· ≠ ' ') with
    | _ :: tok =>
      if (String.ofList (cs.takeWhile (· ≠ ' '))).toLower = "bearer" then some (trim (String.ofList tok))
      else none
    | [] => none

/-- mirrors src/auth.rs:217-223 -/
def extractScopes (claims : Json) (claim : String) : List String :=
  match claims.get claim with
  | some (.str s) => words isWhitespace s
  | some (.arr a) => a.filterMap Json.asStr
  | _ => []

section Guard

variable (ident : HttpIdentity)

/-- mirrors src/rmcp_serve.rs:427-440 -/
def challenge (error : Option String) : String :=
  let parts := (error.map fun e => s!"error=\"{e}\"").toList ++
    (ident.metadata.map fun m => s!"resource_metadata=\"{m.url}\"").toList
  if parts = [] then "Bearer" else "Bearer " ++ ", ".intercalate parts

/-- mirrors src/rmcp_serve.rs:444-447 -/
def metadataFor (get : Bool) (path : String) : Option String :=
  (ident.metadata.filter fun m => get && m.serves path).map ResourceMetadata.doc

/-- mirrors src/rmcp_serve.rs:451-453 -/
def required : Bool := ident.verifier || ident.trusted.isSome

/-- mirrors src/rmcp_serve.rs:458-460 -/
def enforced : Bool := required ident && !ident.allowAnonymous

/-- mirrors src/rmcp_serve.rs:485-502 -/
def live (answers : Answers) (tok : String) (claims : Json) : Except Refusal Unit :=
  if ident.introspector then
    match answers.active tok ((claims.get "exp").bind Json.asU64) with
    | .ok true => .ok ()
    | .ok false => .error ⟨challenge ident (some "invalid_token"), "bearer token has been revoked"⟩
    | .error e => .error ⟨challenge ident (some "temporarily_unavailable"), s!"could not verify token status: {e}"⟩
  else .ok ()

/-- mirrors src/rmcp_serve.rs:473-508 -/
def ofBearer (answers : Answers) (tok : String) : Except Refusal Caller :=
  match answers.claims tok ident.checks with
  | .error e => .error ⟨challenge ident (some "invalid_token"), s!"invalid bearer token: {e}"⟩
  | .ok claims => (live ident answers tok claims).map fun _ =>
      .new (extractScopes claims ident.scopeClaim) ((claims.get ident.subjectClaim).bind Json.asStr)

/-- mirrors src/rmcp_serve.rs:511-523 -/
def ofGateway (hs : Headers) (t : TrustedHeaders) (raw : String) : Caller :=
  .new (words (fun c => c = ',' || isWhitespace c) raw)
    (((t.subject.bind hs.get).map trim).filter (· ≠ ""))

/-- mirrors src/rmcp_serve.rs:509-534 -/
def withoutBearer (hs : Headers) (process : Caller) : Except Refusal Caller :=
  match ident.trusted.bind fun t => (hs.get t.scopes).map fun raw => ofGateway hs t raw with
  | some caller => .ok caller
  | none =>
    if !required ident || ident.allowAnonymous then .ok process
    else .error ⟨challenge ident none, "unauthorized: this server requires an Authorization: Bearer token " ++
      "(or identity headers from the configured gateway)"⟩

/-- mirrors src/rmcp_serve.rs:465-535 -/
def authenticate (answers : Answers) (hs : Headers) (process : Caller) : Except Refusal Caller :=
  match (bearer hs).filter fun _ => ident.verifier with
  | some tok => ofBearer ident answers tok
  | none => withoutBearer ident hs process

/-- What the guard does with a request. -/
inductive Guarded where
  | document (doc : String)
  | refused (r : Refusal)
  | passed (caller : Caller)

/-- mirrors src/rmcp_serve.rs:735-758 -/
def guarded (answers : Answers) (process : Caller) (origin : Option String) (get : Bool) (path : String)
    (hs : Headers) : Guarded :=
  match metadataFor ident get path with
  | some doc => .document doc
  | none =>
    match authenticate ident answers hs process with
    | .error r => .refused r
    | .ok caller => .passed (if caller.subject.isNone then caller.withOrigin origin else caller)

/-- Whom a handler serves; the service may lose what hangs on the request.
mirrors src/rmcp_serve.rs:80-96 -/
def handlerCaller (process : Caller) (carried : Option Caller) : Except String Caller :=
  match carried with
  | some c => .ok c
  | none =>
    if enforced ident then .error "unauthenticated: this request carried no caller identity"
    else .ok process

/-- How the listener is bound. -/
structure Bind where
  loopback : Bool
  allowRemote : Bool
  mutualTls : Bool

/-- mirrors src/rmcp_serve.rs:631-642 -/
def starts (b : Bind) : Bool :=
  !(!b.loopback && !b.allowRemote && !enforced ident && !b.mutualTls)

end Guard

/-! ## Where a caller comes from -/

/-- The headers name the caller: by a bearer that was validated, or by a gateway's headers where no
bearer is to be validated. -/
def Identified (ident : HttpIdentity) (answers : Answers) (hs : Headers) (c : Caller) : Prop :=
  (ident.verifier = true ∧ ∃ tok claims, bearer hs = some tok ∧ answers.claims tok ident.checks = .ok claims ∧
      (ident.introspector = true → answers.active tok ((claims.get "exp").bind Json.asU64) = .ok true) ∧
      c.scopes = extractScopes claims ident.scopeClaim ∧
      c.subject = (claims.get ident.subjectClaim).bind Json.asStr) ∨
    (ident.verifier = false ∨ bearer hs = none) ∧ ∃ t raw, ident.trusted = some t ∧ hs.get t.scopes = some raw ∧
      c.scopes = words (fun c => c = ',' || isWhitespace c) raw ∧
      c.subject = ((t.subject.bind hs.get).map trim).filter (· ≠ "")

variable {ident : HttpIdentity} {answers : Answers} {hs : Headers} {process c : Caller} {tok : String}

theorem live_ok {claims : Json} (h : live ident answers tok claims = .ok ()) (hi : ident.introspector = true) :
    answers.active tok ((claims.get "exp").bind Json.asU64) = .ok true := by
  unfold live at h
  rw [if_pos hi] at h
  split at h
  · next ha => exact ha
  · cases h
  · cases h

theorem ofBearer_ok (h : ofBearer ident answers tok = .ok c) :
    ∃ claims, answers.claims tok ident.checks = .ok claims ∧
      (ident.introspector = true → answers.active tok ((claims.get "exp").bind Json.asU64) = .ok true) ∧
      c = .new (extractScopes claims ident.scopeClaim) ((claims.get ident.subjectClaim).bind Json.asStr) := by
  unfold ofBearer at h
  split at h
  · cases h
  · next claims hc =>
    cases hl : live ident answers tok claims with
    | error r =>
      rw [hl] at h
      cases h
    | ok u =>
      rw [hl] at h
      exact ⟨claims, hc, live_ok hl, (Except.ok.inj h).symm⟩

/-- A bearer that is validated decides alone: no gateway header and no fallback comes after it. -/
theorem authenticate_bearer (hv : ident.verifier = true) (hb : bearer hs = some tok) :
    authenticate ident answers hs process = ofBearer ident answers tok := by
  unfold authenticate
  rw [hb, Option.filter_some, if_pos hv]

theorem authenticate_other (hb : ident.verifier = false ∨ bearer hs = none) :
    authenticate ident answers hs process = withoutBearer ident hs process := by
  unfold authenticate
  rcases hb with hv | hb
  · cases bearer hs with
    | none => rfl
    | some tok => rw [Option.filter_some, if_neg (by simp [hv])]
  · rw [hb]
    rfl

theorem withoutBearer_ok (h : withoutBearer ident hs process = .ok c) :
    (∃ t raw, ident.trusted = some t ∧ hs.get t.scopes = some raw ∧ c = ofGateway hs t raw) ∨
      c = process ∧ enforced ident = false := by
  unfold withoutBearer at h
  split at h
  · next caller hg =>
    obtain rfl := Except.ok.inj h
    obtain ⟨t, ht, hg⟩ := Option.bind_eq_some_iff.mp hg
    obtain ⟨raw, hraw, hc⟩ := Option.map_eq_some_iff.mp hg
    exact Or.inl ⟨t, raw, ht, hraw, hc.symm⟩
  · split at h
    · next hfree =>
      refine Or.inr ⟨(Except.ok.inj h).symm, ?_⟩
      unfold enforced
      revert hfree
      cases required ident <;> cases ident.allowAnonymous <;> simp
    · cases h

/-- A request that passes is identified, or it is the process's and identity is not enforced. -/
theorem authenticate_cases (h : authenticate ident answers hs process = .ok c) :
    Identified ident answers hs c ∨ c = process ∧ enforced ident = false := by
  by_cases hb : ident.verifier = false ∨ bearer hs = none
  · rw [authenticate_other hb] at h
    rcases withoutBearer_ok h with ⟨t, raw, ht, hraw, rfl⟩ | hp
    · exact Or.inl (Or.inr ⟨hb, t, raw, ht, hraw, rfl, rfl⟩)
    · exact Or.inr hp
  · obtain ⟨hv, hb⟩ := not_or.mp hb
    rw [Bool.not_eq_false] at hv
    obtain ⟨tok, hb⟩ := Option.ne_none_iff_exists'.mp hb
    rw [authenticate_bearer hv hb] at h
    obtain ⟨claims, hc, hlive, rfl⟩ := ofBearer_ok h
    exact Or.inl (Or.inl ⟨hv, tok, claims, hb, hc, hlive, rfl, rfl⟩)

theorem Identified.withOrigin {origin : Option String} (h : Identified ident answers hs c) :
    Identified ident answers hs (c.withOrigin origin) := h

theorem guarded_passed {origin : Option String} {get : Bool} {path : String}
    (h : guarded ident answers process origin get path hs = .passed c) (he : enforced ident = true) :
    Identified ident answers hs c := by
  unfold guarded at h
  split at h
  · cases h
  · split at h
    · cases h
    · next caller ha =>
      have hid : Identified ident answers hs caller := by
        rcases authenticate_cases ha with hid | ⟨-, hn⟩
        · exact hid
        · rw [he] at hn
          cases hn
      obtain rfl := Guarded.passed.inj h
      split
      · exact hid.withOrigin
      · exact hid

/-- With identity enforced, whom a handler serves is who the guard found, whether or not the
service kept what hangs on the request. -/
theorem caller_identified {origin : Option String} {get kept : Bool} {path : String} {passed : Caller}
    (hg : guarded ident answers process origin get path hs = .passed passed) (he : enforced ident = true)
    (h : handlerCaller ident process (if kept then some passed else none) = .ok c) :
    Identified ident answers hs c := by
  cases kept with
  | true =>
    obtain rfl := Except.ok.inj h
    exact guarded_passed hg he
  | false =>
    simp only [handlerCaller, he] at h
    cases h

/-- A listener that is not on loopback, nor allowed to be elsewhere, nor behind client certificates,
enforces identity. -/
theorem enforced_of_exposed {b : Bind} (hs : starts ident b = true) (hl : b.loopback = false)
    (hr : b.allowRemote = false) (ht : b.mutualTls = false) : enforced ident = true := by
  unfold starts at hs
  rw [hl, hr, ht] at hs
  simpa using hs

end MinMcp.L4.Identity
