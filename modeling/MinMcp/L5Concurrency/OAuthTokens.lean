import MinMcp.Core.SingleFlight
import MinMcp.Core.Json.Value
import MinMcp.L4App.Breaker

/-!
# Tokens for an OAuth upstream

Every request to an OAuth upstream asks `bearer` for a token first (src/oauth.rs). A cached token
is read without a lock that a fetch could hold; who finds none takes `fetching`, looks again and
asks the token endpoint. The answer's `expires_in` less a minute, one second at least, is how long
the token is kept. A caller may be dropped while it waits for the lock or for the endpoint.

`tokens` is the single flight of `bearer`; its history of requests and grants is the model's own.

* `rule`: the cached token is the last grant's, and no request goes out while a grant lives.
* `tokens_kept`: in every run, one request at a time, none while a token lives, and every token
  handed out is a living one.
-/
namespace MinMcp.L5.OAuthTokens

open MinMcp.Core
open MinMcp.L4.Breaker (second checkedAdd)

/-- mirrors src/config.rs:116-130 -/
structure OAuthConfig where
  tokenUrl : String
  clientId : String
  clientSecret : String
  scope : Option String
  resource : Option String

/-- mirrors src/oauth.rs:17-32, less what changes -/
structure OAuthClient where
  tokenUrl : String
  clientId : String
  clientSecret : String
  scope : Option String
  resource : Option String

/-- `secret` is the expanded client secret.
mirrors src/oauth.rs:35-60 -/
def OAuthClient.new (cfg : OAuthConfig) (upstreamUrl secret : String) : OAuthClient where
  tokenUrl := cfg.tokenUrl
  clientId := cfg.clientId
  clientSecret := secret
  scope := cfg.scope
  resource :=
    match cfg.resource with
    | some r => if r = "" then none else some r
    | none => some upstreamUrl

/-- mirrors src/oauth.rs:79-89 -/
def OAuthClient.form (c : OAuthClient) : List (String × String) :=
  [("grant_type", "client_credentials"), ("client_id", c.clientId), ("client_secret", c.clientSecret)] ++
    (c.scope.map fun s => ("scope", s)).toList ++ (c.resource.map fun r => ("resource", r)).toList

/-- Why there is no token. A panic unwinds through `bearer`, which frees the lock. -/
inductive TokenError where
  | unreachable (url : String)
  | refused (url : String) (status : Nat)
  | notJson
  | noToken
  | panicked
  deriving DecidableEq

/-- mirrors src/oauth.rs:109-119 -/
def parseTokenResponse (body : Json) : Except TokenError (String × Nat) :=
  match (body.get "access_token").bind Json.asStr with
  | some token => .ok (token, (((body.get "expires_in").bind Json.asU64).map UInt64.toNat).getD 3600)
  | none => .error .noToken

/-- How long a token is kept.
mirrors src/oauth.rs:102-103 -/
def lifetime (ttl : Nat) : Nat := max (ttl - 60) 1 * second

/-- How a request came out; a `status` is no success. -/
inductive Reply where
  | failed
  | status (code : Nat)
  | notJson
  | body (body : Json)

/-- What happened at the token endpoint. -/
inductive Event where
  | requested (form : List (String × String)) (t : Nat)
  | granted (token : String) (ttl t : Nat)
  deriving DecidableEq

/-- `cached` is the current token and when it stops being usable. -/
structure Shared where
  cached : Option (String × Nat)
  history : List Event
  deriving DecidableEq

/-- mirrors src/oauth.rs:62-67 -/
def current (s : Shared) (now : Nat) : Option String :=
  match s.cached with
  | some (token, expiry) => if now < expiry then some token else none
  | none => none

/-- mirrors src/oauth.rs:94-101 -/
def received (url : String) : Reply → Except TokenError (String × Nat)
  | .failed => .error (.unreachable url)
  | .status code => .error (.refused url code)
  | .notJson => .error .notJson
  | .body body => parseTokenResponse body

/-- The clock is read again; what does not fit it is a panic.
mirrors src/oauth.rs:102-105 -/
def keep (s : Shared) (now : Nat) (token : String) (ttl : Nat) : Shared × Except TokenError String :=
  (checkedAdd now (lifetime ttl)).elim (s, .error .panicked) fun expiry =>
    (⟨some (token, expiry), s.history ++ [.granted token ttl now]⟩, .ok token)

/-- mirrors src/oauth.rs:94-105 -/
def fetched (url : String) (s : Shared) (now : Nat) (reply : Reply) : Shared × Except TokenError String :=
  match received url reply with
  | .error e => (s, .error e)
  | .ok grant => keep s now grant.1 grant.2

/-- `bearer`; nothing but its callers changes what is cached.
mirrors src/oauth.rs:69-106 -/
def bearer (c : OAuthClient) : Flight Shared Empty Reply TokenError String where
  current := current
  begins s now := .ok { s with history := s.history ++ [.requested c.form now] }
  ends s now reply := fetched c.tokenUrl s now reply
  drops s _ := s
  env _ _ e := e.elim

/-- A client starts with nothing cached. -/
def tokens (c : OAuthClient) : LTS (Flight.State Shared TokenError String) (Flight.Label Empty Reply) :=
  Flight.system (bearer c) fun s _ => s = ⟨none, []⟩

/-! ## What a run keeps -/

/-- A request comes after the life of every token before it. -/
def Event.Before : Event → Event → Prop
  | .granted _ ttl t, .requested _ t' => t + lifetime ttl ≤ t'
  | _, _ => True

/-- The token was granted, and lives at `now`. -/
def Living (s : Shared) (token : String) (now : Nat) : Prop :=
  ∃ ttl t, .granted token ttl t ∈ s.history ∧ t ≤ now ∧ now < t + lifetime ttl

/-- Between requests: the token that lives is the one cached. -/
structure Rest (s : Shared) (now : Nat) : Prop where
  spaced : s.history.Pairwise Event.Before
  lives : ∀ token ttl t, .granted token ttl t ∈ s.history → now < t + lifetime ttl →
    s.cached = some (token, t + lifetime ttl)
  granted : ∀ token expiry, s.cached = some (token, expiry) →
    ∃ ttl t, .granted token ttl t ∈ s.history ∧ t ≤ now ∧ expiry = t + lifetime ttl

/-- During a request no token lives. -/
structure Busy (s : Shared) (now : Nat) : Prop extends Rest s now where
  ended : ∀ token ttl t, .granted token ttl t ∈ s.history → t + lifetime ttl ≤ now

theorem lifetime_pos (ttl : Nat) : 0 < lifetime ttl :=
  Nat.mul_pos (Nat.lt_of_lt_of_le Nat.one_pos (Nat.le_max_right _ _)) (by unfold second; omega)

theorem lifetime_margin {ttl : Nat} (h : 60 < ttl) : lifetime ttl + 60 * second = ttl * second := by
  unfold lifetime
  rw [Nat.max_eq_left (by omega), ← Nat.add_mul]
  congr 1
  omega

theorem current_eq_some {s : Shared} {now : Nat} {token : String} (h : current s now = some token) :
    ∃ expiry, s.cached = some (token, expiry) ∧ now < expiry := by
  unfold current at h
  split at h
  · next token' expiry hc =>
    split at h
    · next hlt =>
      obtain rfl := Option.some.inj h
      exact ⟨expiry, hc, hlt⟩
    · cases h
  · cases h

theorem over_of_current_none {s : Shared} {now : Nat} (hr : Rest s now) (h : current s now = none) :
    ∀ token ttl t, .granted token ttl t ∈ s.history → t + lifetime ttl ≤ now := by
  intro token ttl t hg
  by_contra hlt
  have hc := hr.lives token ttl t hg (by omega)
  simp only [current, hc] at h
  rw [if_pos (by omega)] at h
  cases h

theorem Rest.living {s : Shared} {now : Nat} {token : String} (hr : Rest s now)
    (h : current s now = some token) : Living s token now := by
  obtain ⟨expiry, hc, hlt⟩ := current_eq_some h
  obtain ⟨ttl, t, hg, ht, rfl⟩ := hr.granted token expiry hc
  exact ⟨ttl, t, hg, ht, hlt⟩

theorem Rest.later {s : Shared} {now ns : Nat} (hr : Rest s now) : Rest s (now + ns) where
  spaced := hr.spaced
  lives token ttl t hg hlt := hr.lives token ttl t hg (by omega)
  granted token expiry hc := by
    obtain ⟨ttl, t, hg, ht, he⟩ := hr.granted token expiry hc
    exact ⟨ttl, t, hg, by omega, he⟩

theorem Rest.requested {s : Shared} {now : Nat} (hr : Rest s now) (h : current s now = none)
    (form : List (String × String)) : Busy { s with history := s.history ++ [.requested form now] } now := by
  have hover := over_of_current_none hr h
  have hmem {token ttl t} (hg : Event.granted token ttl t ∈ s.history ++ [.requested form now]) :
      .granted token ttl t ∈ s.history := by simpa using hg
  refine ⟨⟨?_, fun token ttl t hg => hr.lives token ttl t (hmem hg), fun token expiry hc => ?_⟩,
    fun token ttl t hg => hover token ttl t (hmem hg)⟩
  · refine List.pairwise_append.mpr ⟨hr.spaced, List.pairwise_singleton _ _, fun e he e' he' => ?_⟩
    obtain rfl := List.mem_singleton.mp he'
    cases e with
    | requested => trivial
    | granted token ttl t => exact hover token ttl t he
  · obtain ⟨ttl, t, hg, ht, he⟩ := hr.granted token expiry hc
    exact ⟨ttl, t, List.mem_append_left _ hg, ht, he⟩

theorem eq_of_checkedAdd {now d expiry : Nat} (h : checkedAdd now d = some expiry) : expiry = now + d := by
  rw [checkedAdd] at h
  split at h
  · exact (Option.some.inj h).symm
  · cases h

theorem fetched_cases (url : String) (s : Shared) (now : Nat) (reply : Reply) :
    (∃ e, fetched url s now reply = (s, .error e)) ∨
      ∃ token ttl, fetched url s now reply =
        (⟨some (token, now + lifetime ttl), s.history ++ [.granted token ttl now]⟩, .ok token) := by
  unfold fetched
  cases received url reply with
  | error e => exact Or.inl ⟨e, rfl⟩
  | ok grant =>
    dsimp only
    cases hc : checkedAdd now (lifetime grant.2) with
    | none => exact Or.inl ⟨.panicked, by rw [keep, hc, Option.elim_none]⟩
    | some expiry =>
      refine Or.inr ⟨grant.1, grant.2, ?_⟩
      rw [← eq_of_checkedAdd hc, keep, hc, Option.elim_some]

theorem Busy.granted_rest {s : Shared} {now : Nat} (hb : Busy s now) (token : String) (ttl : Nat) :
    Rest ⟨some (token, now + lifetime ttl), s.history ++ [.granted token ttl now]⟩ now where
  spaced := by
    refine List.pairwise_append.mpr ⟨hb.spaced, List.pairwise_singleton _ _, fun e _ e' he' => ?_⟩
    obtain rfl := List.mem_singleton.mp he'
    cases e <;> trivial
  lives token' ttl' t hg hlt := by
    rcases List.mem_append.mp hg with hg | hg
    · have := hb.ended token' ttl' t hg
      omega
    · obtain ⟨rfl, rfl, rfl⟩ : token' = token ∧ ttl' = ttl ∧ t = now := by simpa using hg
      rfl
  granted token' expiry hc := by
    obtain ⟨rfl, rfl⟩ : token = token' ∧ now + lifetime ttl = expiry := by simpa using hc
    exact ⟨ttl, now, by simp, Nat.le_refl _, rfl⟩

theorem Living.append {s : Shared} {token : String} {now : Nat} (h : Living s token now)
    {cached : Option (String × Nat)} (es : List Event) : Living ⟨cached, s.history ++ es⟩ token now := by
  obtain ⟨ttl, t, hg, ht⟩ := h
  exact ⟨ttl, t, List.mem_append_left _ hg, ht⟩

theorem rule (c : OAuthClient) :
    Flight.Rule (bearer c) (fun s _ => s = ⟨none, []⟩) Rest Busy Living where
  starts h := by
    subst h
    exact ⟨List.Pairwise.nil, by simp, by simp⟩
  rest_later hr := hr.later
  busy_later hb := ⟨hb.toRest.later, fun token ttl t hg => by have := hb.ended token ttl t hg; omega⟩
  rest_env {_ _ e} _ := e.elim
  busy_env {_ _ e} _ := e.elim
  spent_later {s now ns} h := by
    rw [Option.eq_none_iff_forall_ne_some] at h ⊢
    intro token hc
    obtain ⟨expiry, hc, hlt⟩ := current_eq_some hc
    exact h token (by simp only [bearer, current, hc]; rw [if_pos (by omega)])
  spent_env {_ _ e} _ := e.elim
  takesOff hr hc hb := by
    obtain rfl := Except.ok.inj hb
    exact hr.requested hc _
  lands {s now reply} hb := by
    rcases fetched_cases c.tokenUrl s now reply with ⟨e, h⟩ | ⟨token, ttl, h⟩
    · simp only [bearer, h]
      exact hb.toRest
    · simp only [bearer, h]
      exact hb.granted_rest token ttl
  lost hb := hb.toRest
  finds h hc := (h.elim id Busy.toRest).living hc
  brings {s now reply r} hb hr := by
    rcases fetched_cases c.tokenUrl s now reply with ⟨e, h⟩ | ⟨token, ttl, h⟩
    · simp [bearer, h] at hr
    · simp only [bearer, h, Except.ok.injEq] at hr ⊢
      subst hr
      have := lifetime_pos ttl
      exact ⟨ttl, now, by simp, Nat.le_refl _, by omega⟩
  right_env {_ _ e} _ _ _ _ := e.elim
  right_begins hb _ h := by
    obtain rfl := Except.ok.inj hb
    exact h.append _
  right_ends {s now reply token t} _ h := by
    rcases fetched_cases c.tokenUrl s now reply with ⟨e, hf⟩ | ⟨token', ttl, hf⟩
    · simpa only [bearer, hf] using h
    · simp only [bearer, hf]
      exact h.append _
  right_drops _ h := h

/-- However the callers of one upstream interleave and give up: one request is out at a time; no
request goes out while a token that was granted before lives; and every token a caller gets was
granted, lives, and expires in more than a minute if it was good for longer than that. -/
theorem tokens_kept (c : OAuthClient) {s : Flight.State Shared TokenError String}
    (hr : (tokens c).Reachable s) :
    (∀ i j, s.tasks i = .flying → s.tasks j = .flying → i = j) ∧
      s.shared.history.Pairwise Event.Before ∧
      ∀ a ∈ s.answers, ∃ ttl t, .granted a.1 ttl t ∈ s.shared.history ∧ t ≤ a.2 ∧
        a.2 < t + lifetime ttl ∧ (60 < ttl → a.2 + 60 * second < t + ttl * second) := by
  have hk := (rule c).reachable hr
  have hrest : Rest s.shared s.now := hk.rest_or_busy.elim id Busy.toRest
  refine ⟨fun i j hi hj => hk.eq_of_flying hi hj, hrest.spaced, fun a ha => ?_⟩
  obtain ⟨ttl, t, hg, ht, hlt⟩ := hk.right a ha
  refine ⟨ttl, t, hg, ht, hlt, fun h60 => ?_⟩
  have := lifetime_margin h60
  omega

def client : OAuthClient :=
  .new ⟨"https://auth/token", "id-1", "${SECRET}", some "read", none⟩ "https://mcp/mcp" "shh"

/-- The second caller waits for the first one's request, and finds what it brought. -/
def twoCallers : List (Flight.Label Empty Reply) :=
  [.call 0, .call 1, .run 0, .run 1, .run 0, .run 1, .run 0, .run 0, .wait 5,
    .land 0 (.body (.obj [("access_token", .str "tok-1")])), .wait 1, .run 0, .run 1, .run 1, .run 1]

theorem two_callers_kept : ∃ s, (tokens client).exec (.initial ⟨none, []⟩ 0) twoCallers = some s ∧
    s.answers = [("tok-1", 5), ("tok-1", 6)] ∧ s.shared.history.length = 2 ∧
    (∀ i j, s.tasks i = .flying → s.tasks j = .flying → i = j) ∧
    s.shared.history.Pairwise Event.Before ∧
    ∀ a ∈ s.answers, ∃ ttl t, .granted a.1 ttl t ∈ s.shared.history ∧ t ≤ a.2 ∧
      a.2 < t + lifetime ttl ∧ (60 < ttl → a.2 + 60 * second < t + ttl * second) := by
  have hr : ((tokens client).exec (.initial ⟨none, []⟩ 0) twoCallers).any (fun s =>
      s.answers = [("tok-1", 5), ("tok-1", 6)] ∧ s.shared.history.length = 2) = true := by
    decide +kernel
  obtain ⟨s, he, hs⟩ := (Option.any_eq_true _ _).mp hr
  obtain ⟨ha, hl⟩ := of_decide_eq_true hs
  exact ⟨s, he, ha, hl, tokens_kept client ⟨_, _, ⟨_, _, rfl, rfl⟩, he⟩⟩

end MinMcp.L5.OAuthTokens
