import Mathlib.Data.List.TakeWhile

/-!
# Redirects of a request that carries a credential

The clients for upstreams, token endpoints, introspection and spec operations share one redirect
policy (src/redirect.rs). A server, or whoever speaks for it, may redirect anywhere and as often as
it likes; the policy compares each target with the URL the request began at.

* `fetch_eq`: what is sent is the first URL and the redirects before the first one that is refused,
  ten at most.
* `redirects_stay`: so no request leaves the origin it began at but for `https` on the same host.
-/
namespace MinMcp.L3.Redirects

/-- What the policy reads of a parsed URL, and the rest. A port that is its scheme's own is not
kept. -/
structure Url where
  scheme : String
  host : Option String
  port : Option Nat
  rest : String
  deriving DecidableEq

def knownDefault (scheme : String) : Option Nat :=
  if scheme = "http" ∨ scheme = "ws" then some 80
  else if scheme = "https" ∨ scheme = "wss" then some 443
  else if scheme = "ftp" then some 21
  else none

def Url.portOrKnownDefault (u : Url) : Option Nat := u.port.or (knownDefault u.scheme)

/-- mirrors src/redirect.rs:18 -/
def maxHops : Nat := 10

/-- mirrors src/redirect.rs:42-50 -/
def allowed (start url : Url) : Bool :=
  if start.host ≠ url.host then false
  else
    let same := start.scheme = url.scheme ∧ start.portOrKnownDefault = url.portOrKnownDefault
    let upgrade := start.scheme = "http" ∧ url.scheme = "https" ∧ start.port = none ∧ url.port = none
    decide (same ∨ upgrade)

/-- mirrors src/redirect.rs:52-58 -/
def origin (u : Url) : String :=
  match u.portOrKnownDefault with
  | some p => u.scheme ++ "://" ++ u.host.getD "" ++ s!":{p}"
  | none => u.scheme ++ "://" ++ u.host.getD ""

inductive Action where
  | stop
  | follow
  | error (message : String)
  deriving DecidableEq

/-- `previous` are the URLs requested so far.
mirrors src/redirect.rs:24-40 -/
def judge (previous : List Url) (url : Url) : Action :=
  match previous with
  | [] => .stop
  | start :: _ =>
    if maxHops < previous.length then .error s!"too many redirects (over {maxHops})"
    else if allowed start url then .follow
    else .error (s!"refused redirect from {origin start} to {origin url}: a redirect off the configured " ++
      "origin would carry credentials")

inductive Outcome where
  | response
  | error (message : String)
  deriving DecidableEq

/-- What is requested, and how it ends, when the servers redirect to `locations` one after another. -/
def follow (previous : List Url) : List Url → List Url × Outcome
  | [] => (previous, .response)
  | url :: locations =>
    match judge previous url with
    | .stop => (previous, .response)
    | .follow => follow (previous ++ [url]) locations
    | .error message => (previous, .error message)

def fetch (start : Url) (locations : List Url) : List Url × Outcome := follow [start] locations

/-- Scheme, host and port. -/
def Url.triple (u : Url) : String × Option String × Option Nat := (u.scheme, u.host, u.portOrKnownDefault)

/-- The same origin, or `https` instead of `http` on the same host, both at their own ports. -/
def Within (start u : Url) : Prop :=
  u.triple = start.triple ∨
    start.triple = ("http", start.host, some 80) ∧ u.triple = ("https", start.host, some 443)

theorem within_of_allowed {start u : Url} (h : allowed start u = true) : Within start u := by
  unfold allowed at h
  split at h
  · cases h
  · next hhost =>
    rw [not_not] at hhost
    rcases of_decide_eq_true h with ⟨hs, hp⟩ | ⟨hs, hu, hp, hq⟩
    · exact Or.inl (by rw [Url.triple, Url.triple, hs, hhost, hp])
    · refine Or.inr ⟨?_, ?_⟩
      · simp [Url.triple, Url.portOrKnownDefault, knownDefault, hs, hp]
      · simp [Url.triple, Url.portOrKnownDefault, knownDefault, hu, hq, hhost]

theorem judge_cases (start : Url) (sent : List Url) (url : Url) :
    (judge (start :: sent) url = .follow ∧ sent.length < maxHops ∧ allowed start url = true) ∨
      (∃ message, judge (start :: sent) url = .error message) ∧
        (maxHops ≤ sent.length ∨ allowed start url = false) := by
  simp only [judge, List.length_cons]
  split
  · next h => exact Or.inr ⟨⟨_, rfl⟩, Or.inl (by omega)⟩
  · next h =>
    split
    · next ha => exact Or.inl ⟨rfl, by omega, ha⟩
    · next ha => exact Or.inr ⟨⟨_, rfl⟩, Or.inr (by simpa using ha)⟩

/-- Of the redirects to come, those before the first refusal are followed, as far as hops are left. -/
theorem follow_eq (start : Url) (sent locations : List Url) (hs : sent.length ≤ maxHops) :
    (follow (start :: sent) locations).1 =
        start :: sent ++ (locations.takeWhile (allowed start)).take (maxHops - sent.length) ∧
      ((follow (start :: sent) locations).2 = .response ↔
        locations.length + sent.length ≤ maxHops ∧ ∀ u ∈ locations, allowed start u = true) := by
  induction locations generalizing sent with
  | nil => simp [follow, hs]
  | cons url locations ih =>
    rcases judge_cases start sent url with ⟨hj, hlt, ha⟩ | ⟨⟨message, hj⟩, hstop⟩
    · obtain ⟨hsent, hend⟩ := ih (sent ++ [url]) (by rw [List.length_append, List.length_singleton]; omega)
      have hnext : maxHops - sent.length = (maxHops - (sent ++ [url]).length) + 1 := by
        rw [List.length_append, List.length_singleton]
        omega
      rw [follow, hj]
      refine ⟨?_, ?_⟩
      · rw [List.takeWhile_cons_of_pos ha, hnext, List.take_succ_cons]
        simpa using hsent
      · rw [List.forall_mem_cons, List.length_cons]
        refine Iff.trans hend ?_
        rw [List.length_append, List.length_singleton]
        have : locations.length + (sent.length + 1) = locations.length + 1 + sent.length := by omega
        rw [this]
        simp [ha]
    · rw [follow, hj]
      refine ⟨?_, ?_⟩
      · rcases hstop with hfull | ha
        · rw [Nat.sub_eq_zero_of_le hfull, List.take_zero, List.append_nil]
        · rw [List.takeWhile_cons_of_neg (by simp [ha]), List.take_nil, List.append_nil]
      · rw [List.forall_mem_cons, List.length_cons]
        constructor
        · intro h
          cases h
        intro h
        rcases hstop with hfull | ha
        · omega
        · rw [ha] at h
          cases h.2.1

theorem fetch_eq (start : Url) (locations : List Url) :
    (fetch start locations).1 = start :: (locations.takeWhile (allowed start)).take maxHops ∧
      ((fetch start locations).2 = .response ↔
        locations.length ≤ maxHops ∧ ∀ u ∈ locations, allowed start u = true) := by
  simpa [fetch] using follow_eq start [] locations (Nat.zero_le _)

/-- Wherever the servers redirect to: no request, with its credentials, goes off the origin it began
at, but for `https` on the same host; there are eleven requests at most; and redirects that stay are
followed to the end. -/
theorem redirects_stay (start : Url) (locations : List Url) :
    (∀ u ∈ (fetch start locations).1, Within start u) ∧
      (fetch start locations).1.length ≤ maxHops + 1 ∧
      ((fetch start locations).2 = .response ↔ (fetch start locations).1 = start :: locations) := by
  obtain ⟨hsent, hend⟩ := fetch_eq start locations
  refine ⟨fun u hu => ?_, ?_, ?_⟩
  · rw [hsent] at hu
    rcases List.mem_cons.mp hu with rfl | hu
    · exact Or.inl rfl
    · exact within_of_allowed (List.mem_takeWhile_imp (List.mem_of_mem_take hu))
  · rw [hsent, List.length_cons, List.length_take]
    omega
  · rw [hend, hsent]
    constructor
    · rintro ⟨hl, ha⟩
      rw [List.takeWhile_eq_self_iff.mpr ha, List.take_of_length_le hl]
    · intro h
      have htake : (locations.takeWhile (allowed start)).take maxHops = locations := (List.cons.inj h).2
      have hlen := congrArg List.length htake
      rw [List.length_take] at hlen
      refine ⟨by omega, fun u hu => ?_⟩
      rw [← htake] at hu
      exact List.mem_takeWhile_imp (List.mem_of_mem_take hu)

end MinMcp.L3.Redirects
