import MinMcp.Core.LTS
import MinMcp.Core.TtlCache
import MinMcp.Core.Json.Value
import Mathlib.Logic.Function.Basic

/-!
# Asking whether a token is still live

`Introspector::active` of src/auth.rs: a verdict is looked up under a digest of the token; on
a miss the authorization server is asked, and its answer is cached from the time it arrived.
Lookups of one token overlap freely, and their answers arrive in any order. The client gives
up 10 s after it sent a request. What lies between two awaits is one step.

`evaluations` is what the authorization server found, and when; `answers` is what calls
returned, each with the time of the evaluation it rests on and how many calls had returned
before it started.

* `Bounded`: an active verdict is at most one time to live and one client time-out old.
* `NotUndone`: a call that starts after an inactive verdict was returned gives no active one
  from an earlier evaluation.
* `bounded`: every run is bounded.
* `revocation_kept`: a run without the steps that `safe` excludes is also not undone: an
  active verdict arriving behind a newer inactive one, and an inactive one that is not cached
  (the token has expired) beside an older active one.
* `late_answer_undoes`: of two overlapping lookups the older one is answered last.
-/
namespace MinMcp.L5.Introspection

open MinMcp.Core

/-- A second of the monotonic clock, in ns. -/
def second : Nat := 1000000000

structure Config where
  cacheTtlS : Nat
  failOpen : Bool

def Config.ttl (cfg : Config) : Nat := cfg.cacheTtlS * second

/-- mirrors src/auth.rs:334 -/
def clientTimeout : Nat := 10 * second

/-- mirrors src/auth.rs:421 -/
def introspectionCacheMax : Nat := 4096

/-- A cached verdict, and when the token was evaluated. -/
structure Verdict where
  active : Bool
  evaluatedAt : Nat
  deriving DecidableEq

structure Evaluation where
  token : String
  active : Bool
  at_ : Nat
  deriving DecidableEq

/-- A lookup that missed the cache; `before` calls had returned when it started. -/
structure Query where
  token : String
  exp : Option Nat
  startedAt : Nat
  before : Nat

inductive Call where
  | idle
  | asking (q : Query)
  /-- The server has evaluated the token, and its answer is under way. -/
  | evaluated (q : Query) (body : Json) (at_ : Nat)
  | left

/-- What a call returned; `evaluatedAt` is `none` when it rests on no evaluation. -/
structure Answer where
  token : String
  active : Bool
  evaluatedAt : Option Nat
  returnedAt : Nat
  before : Nat
  deriving DecidableEq

structure State where
  now : Nat
  cache : List (String × TtlCache.Entry Verdict)
  calls : Nat → Call
  evaluations : List Evaluation
  answers : List Answer

inductive Label where
  | start (call : Nat) (token : String) (exp : Option Nat)
  | evaluate (call : Nat) (body : Json)
  /-- The answer arrives; the wall clock shows `unixNow` seconds. -/
  | answer (call : Nat) (unixNow : Nat)
  /-- No connection, a status that is no success, an unreadable body, or the time-out. -/
  | fail (call : Nat)
  | cancel (call : Nat)
  | wait (ns : Nat)

/-- RFC 7662: a missing `active` is no yes.
mirrors src/auth.rs:374 -/
def readActive (body : Json) : Bool := ((body.get "active").bind Json.asBool).getD false

/-- mirrors src/auth.rs:398-407 -/
def expired (exp : Option Nat) (unixNow : Nat) : Bool := exp.any (· ≤ unixNow)

section Steps

variable (cfg : Config) (tokenKey : String → String)

/-- mirrors src/auth.rs:389-393 -/
def cached (s : State) (key : String) : Option Verdict := TtlCache.get cfg.ttl s.now s.cache key

/-- mirrors src/auth.rs:395-415 -/
def remember (s : State) (key : String) (v : Verdict) (exp : Option Nat) (unixNow : Nat) :
    List (String × TtlCache.Entry Verdict) :=
  if expired exp unixNow then s.cache
  else TtlCache.put introspectionCacheMax cfg.ttl s.now key v s.cache

namespace State

def leave (s : State) (call : Nat) (a : Answer) : State :=
  { s with calls := Function.update s.calls call .left, answers := s.answers ++ [a] }

/-- mirrors src/auth.rs:349-360 -/
def start (s : State) (call : Nat) (token : String) (exp : Option Nat) : Option State :=
  match s.calls call with
  | .idle =>
    match cached cfg s (tokenKey token) with
    | some v => some (s.leave call ⟨token, v.active, some v.evaluatedAt, s.now, s.answers.length⟩)
    | none => some { s with
        calls := Function.update s.calls call (.asking ⟨token, exp, s.now, s.answers.length⟩) }
  | _ => none

/-- The authorization server's own step. -/
def evaluate (s : State) (call : Nat) (body : Json) : Option State :=
  match s.calls call with
  | .asking q => some { s with
      calls := Function.update s.calls call (.evaluated q body s.now)
      evaluations := s.evaluations ++ [⟨q.token, body.get "active" = some (.bool true), s.now⟩] }
  | _ => none

/-- mirrors src/auth.rs:368-377 -/
def answer (s : State) (call : Nat) (unixNow : Nat) : Option State :=
  match s.calls call with
  | .evaluated q body t =>
    if s.now ≤ q.startedAt + clientTimeout then
      let active := readActive body
      some ({ s with cache := remember cfg s (tokenKey q.token) ⟨active, t⟩ q.exp unixNow }.leave call
        ⟨q.token, active, some t, s.now, q.before⟩)
    else none
  | _ => none

/-- mirrors src/auth.rs:361-373, 381-387 -/
def unreachable (s : State) (call : Nat) (q : Query) : State :=
  if cfg.failOpen then s.leave call ⟨q.token, true, none, s.now, q.before⟩
  else { s with calls := Function.update s.calls call .left }

def fail (s : State) (call : Nat) : Option State :=
  match s.calls call with
  | .asking q | .evaluated q _ _ => some (s.unreachable cfg call q)
  | _ => none

/-- The request is dropped where it awaits. -/
def cancel (s : State) (call : Nat) : Option State :=
  match s.calls call with
  | .asking _ | .evaluated _ _ _ => some { s with calls := Function.update s.calls call .left }
  | _ => none

def step (s : State) : Label → Option State
  | .start call token exp => s.start cfg tokenKey call token exp
  | .evaluate call body => s.evaluate call body
  | .answer call unixNow => s.answer cfg tokenKey call unixNow
  | .fail call => s.fail cfg call
  | .cancel call => s.cancel call
  | .wait ns => some { s with now := s.now + ns }

def initial (now : Nat) : State := ⟨now, [], fun _ => .idle, [], []⟩

end State

def system : LTS State Label := ⟨fun s => ∃ now, s = .initial now, State.step cfg tokenKey⟩

end Steps

/-! ## What should hold -/

/-- The server found the token of an active answer active, at most one time to live and one
client time-out before the answer. -/
def Bounded (cfg : Config) (s : State) : Prop :=
  ∀ a ∈ s.answers, a.active = true → ∃ t, a.evaluatedAt = some t ∧
    ⟨a.token, true, t⟩ ∈ s.evaluations ∧ a.returnedAt ≤ t + cfg.ttl + clientTimeout

/-- A call that starts when `a` has been returned, inactive, rests on no evaluation before
that of `a` when it returns active. -/
def NotUndone (s : State) : Prop :=
  ∀ i a b t u, s.answers[i]? = some a → b ∈ s.answers → i < b.before → a.token = b.token →
    a.active = false → b.active = true → a.evaluatedAt = some t → b.evaluatedAt = some u → t ≤ u

/-- An inactive verdict from an evaluation after `t` has been returned for the token. -/
def overtaken (s : State) (token : String) (t : Nat) : Bool :=
  s.answers.any fun a => a.token = token && !a.active && a.evaluatedAt.any (t < ·)

/-- An active answer that is cached has not been overtaken; an inactive one is cached, or the
cache serves no active verdict from an earlier evaluation. -/
def safe (cfg : Config) (tokenKey : String → String) (s : State) : Label → Bool
  | .answer call unixNow =>
    match s.calls call with
    | .evaluated q body t =>
      if readActive body then expired q.exp unixNow || !overtaken s q.token t
      else !expired q.exp unixNow ||
        (cached cfg s (tokenKey q.token)).all fun v => !v.active || t ≤ v.evaluatedAt
    | _ => true
  | _ => true

/-- The tokens that are looked up in a run. -/
def tokens (ls : List Label) : List String :=
  ls.filterMap fun
    | .start _ token _ => some token
    | _ => none

/-! ## What a step does -/

section Runs

variable {cfg : Config} {tokenKey : String → String}

/-- The steps of a client that fails closed. -/
inductive Moves (cfg : Config) (tokenKey : String → String) (s : State) : Label → State → Prop where
  | hit {call token exp v} (hv : cached cfg s (tokenKey token) = some v) :
    Moves cfg tokenKey s (.start call token exp)
      (s.leave call ⟨token, v.active, some v.evaluatedAt, s.now, s.answers.length⟩)
  | miss {call token exp} :
    Moves cfg tokenKey s (.start call token exp)
      { s with calls := Function.update s.calls call (.asking ⟨token, exp, s.now, s.answers.length⟩) }
  | evaluated {call q body} (hc : s.calls call = .asking q) :
    Moves cfg tokenKey s (.evaluate call body) { s with
      calls := Function.update s.calls call (.evaluated q body s.now)
      evaluations := s.evaluations ++ [⟨q.token, body.get "active" = some (.bool true), s.now⟩] }
  | answered {call unixNow q body t} (hc : s.calls call = .evaluated q body t)
    (ht : s.now ≤ q.startedAt + clientTimeout) :
    Moves cfg tokenKey s (.answer call unixNow)
      ({ s with cache := remember cfg s (tokenKey q.token) ⟨readActive body, t⟩ q.exp unixNow }.leave call
        ⟨q.token, readActive body, some t, s.now, q.before⟩)
  | gone {l call} : Moves cfg tokenKey s l { s with calls := Function.update s.calls call .left }
  | waited {ns} : Moves cfg tokenKey s (.wait ns) { s with now := s.now + ns }

theorem moves_of_step (hf : cfg.failOpen = false) {s s' : State} {l : Label}
    (hs : State.step cfg tokenKey s l = some s') : Moves cfg tokenKey s l s' := by
  cases l with
  | start call token exp =>
    simp only [State.step, State.start] at hs
    split at hs
    · split at hs
      · next v hv =>
        obtain rfl := Option.some.inj hs
        exact .hit hv
      · obtain rfl := Option.some.inj hs
        exact .miss
    · cases hs
  | evaluate call body =>
    simp only [State.step, State.evaluate] at hs
    split at hs
    · next q hc =>
      obtain rfl := Option.some.inj hs
      exact .evaluated hc
    · cases hs
  | answer call unixNow =>
    simp only [State.step, State.answer] at hs
    split at hs
    · next q body t hc =>
      split at hs
      · next ht =>
        obtain rfl := Option.some.inj hs
        exact .answered hc ht
      · cases hs
    · cases hs
  | fail call =>
    simp only [State.step, State.fail, State.unreachable, hf] at hs
    split at hs
    · obtain rfl := Option.some.inj hs
      exact .gone
    · obtain rfl := Option.some.inj hs
      exact .gone
    · cases hs
  | cancel call =>
    simp only [State.step, State.cancel] at hs
    split at hs
    · obtain rfl := Option.some.inj hs
      exact .gone
    · obtain rfl := Option.some.inj hs
      exact .gone
    · cases hs
  | wait ns =>
    obtain rfl := Option.some.inj hs
    exact .waited

/-! ## Every run is bounded -/

/-- The answers before the query's start rest on evaluations before it. -/
structure QueryOk (T : List String) (s : State) (q : Query) : Prop where
  token : q.token ∈ T
  started : q.startedAt ≤ s.now
  before : q.before ≤ s.answers.length
  earlier : ∀ i a t, s.answers[i]? = some a → i < q.before → a.evaluatedAt = some t → t ≤ q.startedAt

def CallOk (T : List String) (s : State) : Call → Prop
  | .asking q => QueryOk T s q
  | .evaluated q body t =>
    QueryOk T s q ∧ q.startedAt ≤ t ∧ ⟨q.token, readActive body, t⟩ ∈ s.evaluations
  | _ => True

structure Inv (cfg : Config) (tokenKey : String → String) (T : List String) (s : State) : Prop where
  nodup : (OrderedMap.keys s.cache).Nodup
  cached : ∀ k e, s.cache.lookup k = some e → ∃ token ∈ T, tokenKey token = k ∧
    ⟨token, e.value.active, e.value.evaluatedAt⟩ ∈ s.evaluations ∧
    e.storedAt ≤ e.value.evaluatedAt + clientTimeout
  calls : ∀ c, CallOk T s (s.calls c)
  evaluations : ∀ e ∈ s.evaluations, e.at_ ≤ s.now
  answers : ∀ a ∈ s.answers, a.token ∈ T ∧ a.before ≤ s.answers.length ∧
    ∃ t, a.evaluatedAt = some t ∧ ⟨a.token, a.active, t⟩ ∈ s.evaluations ∧
      (a.active = true → a.returnedAt ≤ t + cfg.ttl + clientTimeout)

theorem Inv.bounded {T : List String} {s : State} (h : Inv cfg tokenKey T s) : Bounded cfg s := by
  intro a ha hact
  obtain ⟨-, -, t, ht, he, hb⟩ := h.answers a ha
  exact ⟨t, ht, hact ▸ he, hb hact⟩

theorem readActive_eq (body : Json) : readActive body = decide (body.get "active" = some (.bool true)) := by
  unfold readActive
  cases h : body.get "active" with
  | none => rfl
  | some v => cases v <;> simp [Json.asBool]

/-- The clock, the evaluations and the answers of a state go on. -/
structure Grows (s s' : State) : Prop where
  now : s.now ≤ s'.now
  evaluations : ∀ e ∈ s.evaluations, e ∈ s'.evaluations
  answers : ∃ more, s'.answers = s.answers ++ more

theorem Moves.grows {s s' : State} {l : Label} (h : Moves cfg tokenKey s l s') : Grows s s' := by
  cases h with
  | hit | answered => exact ⟨Nat.le_refl _, fun _ he => he, _, rfl⟩
  | miss | gone => exact ⟨Nat.le_refl _, fun _ he => he, [], (List.append_nil _).symm⟩
  | evaluated =>
    exact ⟨Nat.le_refl _, fun _ he => List.mem_append_left _ he, [], (List.append_nil _).symm⟩
  | waited => exact ⟨Nat.le_add_right _ _, fun _ he => he, [], (List.append_nil _).symm⟩

theorem QueryOk.grows {T : List String} {s s' : State} {q : Query} (h : QueryOk T s q) (hg : Grows s s') :
    QueryOk T s' q := by
  obtain ⟨more, hm⟩ := hg.answers
  refine ⟨h.token, Nat.le_trans h.started hg.now, ?_, ?_⟩
  · have := h.before
    simp only [hm, List.length_append]
    omega
  · intro i a t ha hi ht
    rw [hm, List.getElem?_append_left (by have := h.before; omega)] at ha
    exact h.earlier i a t ha hi ht

theorem CallOk.grows {T : List String} {s s' : State} {c : Call} (h : CallOk T s c) (hg : Grows s s') :
    CallOk T s' c := by
  cases c with
  | asking q => exact QueryOk.grows h hg
  | evaluated q body t => exact ⟨h.1.grows hg, h.2.1, hg.evaluations _ h.2.2⟩
  | idle | left => trivial

theorem callOk_update {T : List String} {s s' : State} (h : ∀ c, CallOk T s (s.calls c)) (hg : Grows s s')
    (call : Nat) {c : Call} (hc : CallOk T s' c) : ∀ c', CallOk T s' (Function.update s.calls call c c') := by
  intro c'
  by_cases he : c' = call
  · rw [he, Function.update_self]; exact hc
  · rw [Function.update_of_ne he]; exact (h c').grows hg

/-- A start is of a token in `T`. -/
def Within (T : List String) : Label → Prop
  | .start _ token _ => token ∈ T
  | _ => True

theorem Inv.token {T : List String} {s : State} (h : Inv cfg tokenKey T s) {key : String} {v : Verdict}
    (hv : Introspection.cached cfg s key = some v) : ∃ token ∈ T, tokenKey token = key ∧
      ⟨token, v.active, v.evaluatedAt⟩ ∈ s.evaluations ∧
      s.now ≤ v.evaluatedAt + cfg.ttl + clientTimeout := by
  obtain ⟨at_, he, hl⟩ := TtlCache.get_eq_some.mp hv
  obtain ⟨token, hT, hk, hev, hat⟩ := h.cached key ⟨at_, v⟩ he
  exact ⟨token, hT, hk, hev, by simp only at hat; omega⟩

/-- One more answer. -/
theorem Inv.answers_append {T : List String} {s : State} {evs : List Evaluation} {as : List Answer}
    (h : Inv cfg tokenKey T s) (he : evs = s.evaluations) (ha : as = s.answers) {b : Answer} {t : Nat}
    (hT : b.token ∈ T) (hb : b.before ≤ s.answers.length) (ht : b.evaluatedAt = some t)
    (hev : ⟨b.token, b.active, t⟩ ∈ s.evaluations)
    (hr : b.active = true → b.returnedAt ≤ t + cfg.ttl + clientTimeout) :
    ∀ a ∈ as ++ [b], a.token ∈ T ∧ a.before ≤ (as ++ [b]).length ∧
      ∃ t, a.evaluatedAt = some t ∧ ⟨a.token, a.active, t⟩ ∈ evs ∧
        (a.active = true → a.returnedAt ≤ t + cfg.ttl + clientTimeout) := by
  subst he ha
  intro a ha
  rw [List.length_append]
  rcases List.mem_append.mp ha with ha | ha
  · obtain ⟨haT, hab, hrest⟩ := h.answers a ha
    exact ⟨haT, Nat.le_add_right_of_le hab, hrest⟩
  · rw [List.mem_singleton] at ha
    subst ha
    exact ⟨hT, Nat.le_add_right_of_le hb, t, ht, hev, hr⟩

theorem lookup_remember {s : State} (hn : (OrderedMap.keys s.cache).Nodup) {key k : String} {v : Verdict}
    {exp : Option Nat} {unixNow : Nat} {e : TtlCache.Entry Verdict}
    (h : (remember cfg s key v exp unixNow).lookup k = some e) :
    (k = key ∧ e = ⟨s.now, v⟩) ∨ s.cache.lookup k = some e := by
  unfold remember at h
  split at h
  · exact Or.inr h
  · exact (TtlCache.lookup_put hn h).imp_right And.right

theorem nodup_remember {s : State} (hn : (OrderedMap.keys s.cache).Nodup) (key : String) (v : Verdict)
    (exp : Option Nat) (unixNow : Nat) :
    (OrderedMap.keys (remember cfg s key v exp unixNow)).Nodup := by
  unfold remember
  split
  · exact hn
  · exact TtlCache.nodup_put _ _ _ _ _ hn

theorem inv_moves {T : List String} {s s' : State} {l : Label} (h : Inv cfg tokenKey T s)
    (hT : ∀ t ∈ T, ∀ u ∈ T, tokenKey t = tokenKey u → t = u) (hl : Within T l)
    (hm : Moves cfg tokenKey s l s') : Inv cfg tokenKey T s' := by
  have hg := hm.grows
  cases hm with
  | @hit call token exp v hv =>
    obtain ⟨u, hu, hk, hev, hb⟩ := h.token hv
    obtain rfl := hT u hu token hl hk
    refine ⟨h.nodup, h.cached, callOk_update h.calls hg call trivial, h.evaluations, ?_⟩
    exact h.answers_append rfl rfl hl (Nat.le_refl _) rfl hev fun _ => hb
  | @miss call token exp =>
    refine ⟨h.nodup, h.cached, callOk_update h.calls hg call ?_, h.evaluations, h.answers⟩
    refine ⟨hl, Nat.le_refl _, Nat.le_refl _, ?_⟩
    intro i a t ha _ ht
    obtain ⟨-, -, u, hu, hev, -⟩ := h.answers a (List.mem_of_getElem? ha)
    obtain rfl := Option.some.inj (ht.symm.trans hu)
    exact h.evaluations _ hev
  | @evaluated call q body hc =>
    have hq := h.calls call
    rw [hc] at hq
    refine ⟨h.nodup, ?_, callOk_update h.calls hg call ⟨hq.grows hg, hq.started, ?_⟩, ?_, ?_⟩
    · intro k e he
      obtain ⟨u, hu, hk, hev, hat⟩ := h.cached k e he
      exact ⟨u, hu, hk, hg.evaluations _ hev, hat⟩
    · rw [readActive_eq]
      exact List.mem_append_right _ List.mem_cons_self
    · intro e he
      rcases List.mem_append.mp he with he | he
      · exact h.evaluations e he
      · rw [List.mem_singleton] at he
        subst he
        exact Nat.le_refl _
    · intro a ha
      obtain ⟨haT, hab, t, ht, hev, hr⟩ := h.answers a ha
      exact ⟨haT, hab, t, ht, hg.evaluations _ hev, hr⟩
  | @answered call unixNow q body t hc ht =>
    have hq := h.calls call
    rw [hc] at hq
    obtain ⟨hq, hst, hev⟩ := hq
    refine ⟨nodup_remember h.nodup _ _ _ _, ?_, callOk_update h.calls hg call trivial, h.evaluations, ?_⟩
    · intro k e he
      rcases lookup_remember h.nodup he with ⟨rfl, rfl⟩ | he
      · exact ⟨q.token, hq.token, rfl, hev, by simp only; omega⟩
      · exact h.cached k e he
    · exact h.answers_append rfl rfl hq.token hq.before rfl hev fun _ => by simp only; omega
  | @gone _ call =>
    exact ⟨h.nodup, h.cached, callOk_update h.calls hg call trivial, h.evaluations, h.answers⟩
  | @waited ns =>
    exact ⟨h.nodup, h.cached, fun c => (h.calls c).grows hg,
      fun e he => Nat.le_trans (h.evaluations e he) hg.now, h.answers⟩

theorem inv_initial (cfg : Config) (tokenKey : String → String) (T : List String) (now : Nat) :
    Inv cfg tokenKey T (.initial now) where
  nodup := List.nodup_nil
  cached k e h := by cases h
  calls c := trivial
  evaluations e h := by cases h
  answers a h := by cases h

/-! ## Runs without an overtaken answer -/

/-- An active verdict that the cache serves is from no evaluation before that of an inactive
answer for the token. -/
def Newest (cfg : Config) (tokenKey : String → String) (s : State) : Prop :=
  ∀ v a t, Introspection.cached cfg s (tokenKey a.token) = some v → v.active = true → a ∈ s.answers →
    a.active = false → a.evaluatedAt = some t → t ≤ v.evaluatedAt

theorem overtaken_eq_false {s : State} {token : String} {t : Nat} (h : overtaken s token t = false)
    {a : Answer} {u : Nat} (ha : a ∈ s.answers) (ht : a.token = token) (hi : a.active = false)
    (hu : a.evaluatedAt = some u) : u ≤ t := by
  simp only [overtaken, List.any_eq_false] at h
  have := h a ha
  simp only [ht, hi, hu, decide_true, Bool.not_false, Bool.and_self, Bool.true_and, Option.any_some,
    decide_eq_true_eq] at this
  omega

/-- One more answer, that rests on no evaluation before those of the answers it has seen. -/
theorem NotUndone.append {s s' : State} (h : NotUndone s) (hb : ∀ b ∈ s.answers, b.before ≤ s.answers.length)
    {b : Answer} (hs : s'.answers = s.answers ++ [b]) (hbl : b.before ≤ s.answers.length)
    (hnew : ∀ i a t u, s.answers[i]? = some a → i < b.before → a.token = b.token → a.active = false →
      b.active = true → a.evaluatedAt = some t → b.evaluatedAt = some u → t ≤ u) : NotUndone s' := by
  intro i a b' t u ha hb' hi
  have hlt : i < s.answers.length := by
    rw [hs] at hb'
    rcases List.mem_append.mp hb' with hb' | hb'
    · have := hb b' hb'
      omega
    · rw [List.mem_singleton.mp hb'] at hi
      omega
  rw [hs, List.getElem?_append_left hlt] at ha
  rw [hs] at hb'
  rcases List.mem_append.mp hb' with hb' | hb'
  · exact h i a b' t u ha hb' hi
  · rw [List.mem_singleton] at hb'
    subst hb'
    exact hnew i a t u ha hi

/-- What is served behind `remember`. -/
theorem cached_remember {s s' : State} (hn : (OrderedMap.keys s.cache).Nodup) {key k : String} {v w : Verdict}
    {exp : Option Nat} {unixNow : Nat} (h : Introspection.cached cfg s' k = some w) (hnow : s'.now = s.now)
    (hc : s'.cache = remember cfg s key v exp unixNow) :
    (expired exp unixNow = false ∧ k = key ∧ w = v) ∨
      ((expired exp unixNow = true ∨ k ≠ key) ∧ Introspection.cached cfg s k = some w) := by
  unfold Introspection.cached at *
  rw [hc, hnow] at h
  unfold remember at h
  split at h
  · next he => exact Or.inr ⟨Or.inl he, h⟩
  · next he =>
    by_cases hk : k = key
    · subst hk
      exact Or.inl ⟨Bool.eq_false_iff.mpr he, rfl, TtlCache.get_put_self h⟩
    · exact Or.inr ⟨Or.inr hk, TtlCache.get_put_of_ne hn hk h⟩

theorem newest_moves {T : List String} {s s' : State} {l : Label} (h : Inv cfg tokenKey T s)
    (hT : ∀ t ∈ T, ∀ u ∈ T, tokenKey t = tokenKey u → t = u) (hnew : Newest cfg tokenKey s)
    (hsafe : safe cfg tokenKey s l = true) (hm : Moves cfg tokenKey s l s') : Newest cfg tokenKey s' := by
  cases hm with
  | @hit call token exp v hv =>
    intro w a t hw hact ha hin ht
    rcases List.mem_append.mp ha with ha | ha
    · exact hnew w a t hw hact ha hin ht
    · -- the answer repeats what the cache serves
      rw [List.mem_singleton] at ha
      subst ha
      obtain rfl := Option.some.inj (hv.symm.trans hw)
      exact absurd hact (by simpa using hin)
  | miss | evaluated | gone => exact hnew
  | @answered call unixNow q body t hc ht =>
    have hq := h.calls call
    rw [hc] at hq
    simp only [safe, hc] at hsafe
    intro w a u hw hact ha hin hu
    rcases cached_remember h.nodup hw rfl rfl with ⟨hexp, hk, rfl⟩ | ⟨hexp, hw⟩
    · -- the verdict that was stored
      simp only at hact
      simp only [hact, hexp, if_true, Bool.false_or, Bool.not_eq_true'] at hsafe
      rcases List.mem_append.mp ha with ha | ha
      · have htok := hT a.token (h.answers a ha).1 q.token hq.1.token hk
        exact overtaken_eq_false hsafe ha htok hin hu
      · rw [List.mem_singleton.mp ha] at hin
        simp [hact] at hin
    · rcases List.mem_append.mp ha with ha | ha
      · exact hnew w a u hw hact ha hin hu
      · rw [List.mem_singleton] at ha
        subst ha
        simp only at hin hu hw hexp
        have hexp : expired q.exp unixNow = true := hexp.resolve_right fun hne => hne rfl
        rw [hin, hexp, hw] at hsafe
        simp only [Bool.false_eq_true, if_false, Bool.not_true, Bool.false_or, Option.all_some, hact,
          decide_eq_true_eq] at hsafe
        obtain rfl := Option.some.inj hu
        exact hsafe
  | @waited ns =>
    intro w a t hw
    exact hnew w a t (TtlCache.get_mono (Nat.le_add_right _ _) hw)

theorem notUndone_moves {T : List String} {s s' : State} {l : Label} (h : Inv cfg tokenKey T s)
    (hnew : Newest cfg tokenKey s) (hn : NotUndone s) (hm : Moves cfg tokenKey s l s') : NotUndone s' := by
  have hb : ∀ b ∈ s.answers, b.before ≤ s.answers.length := fun b hb => (h.answers b hb).2.1
  cases hm with
  | @hit call token exp v hv =>
    refine hn.append hb rfl (Nat.le_refl _) ?_
    intro i a t u ha _ htok hin hact ht hu
    obtain rfl := Option.some.inj hu
    simp only at htok hact
    subst htok
    exact hnew v a t hv hact (List.mem_of_getElem? ha) hin ht
  | miss | evaluated | gone | waited => exact hn
  | @answered call unixNow q body t hc ht =>
    have hq := h.calls call
    rw [hc] at hq
    refine hn.append hb rfl hq.1.before ?_
    intro i a u w ha hi _ _ _ hu hw
    obtain rfl := Option.some.inj hw
    exact Nat.le_trans (hq.1.earlier i a u ha hi hu) hq.2.1

theorem within_tokens {ls : List Label} {l : Label} (hl : l ∈ ls) : Within (tokens ls) l := by
  cases l with
  | start call token exp => exact List.mem_filterMap.mpr ⟨_, hl, rfl⟩
  | evaluate | answer | fail | cancel | wait => trivial

theorem inv_exec {T : List String} (hf : cfg.failOpen = false)
    (hT : ∀ t ∈ T, ∀ u ∈ T, tokenKey t = tokenKey u → t = u) :
    (system cfg tokenKey).Invariant (fun _ l => Within T l) (Inv cfg tokenKey T) where
  init := by
    intro s ⟨now, hs⟩
    rw [hs]
    exact inv_initial cfg tokenKey T now
  step _ _ _ h hl hs := inv_moves h hT hl (moves_of_step hf hs)

theorem ordered_exec {T : List String} (hf : cfg.failOpen = false)
    (hT : ∀ t ∈ T, ∀ u ∈ T, tokenKey t = tokenKey u → t = u) :
    (system cfg tokenKey).Invariant (fun s l => Within T l ∧ safe cfg tokenKey s l = true)
      (fun s => Inv cfg tokenKey T s ∧ Newest cfg tokenKey s ∧ NotUndone s) where
  init := by
    intro s ⟨now, hs⟩
    rw [hs]
    refine ⟨inv_initial cfg tokenKey T now, ?_, ?_⟩
    · intro v a t _ _ ha
      cases ha
    · intro i a b t u _ hb
      cases hb
  step s l s' h hl hs := by
    obtain ⟨h, hnew, hn⟩ := h
    have hm := moves_of_step hf hs
    exact ⟨inv_moves h hT hl.1 hm, newest_moves h hT hnew hl.2 hm, notUndone_moves h hnew hn hm⟩

/-- **The revocation bound.** Every run is bounded, and one whose steps are all safe is not
undone, for tokens that the digest tells apart. -/
theorem revocation_kept (cfg : Config) (tokenKey : String → String) (hf : cfg.failOpen = false)
    {s₀ s : State} {ls : List Label} (h₀ : (system cfg tokenKey).init s₀)
    (he : (system cfg tokenKey).exec s₀ ls = some s)
    (hk : ∀ t ∈ tokens ls, ∀ u ∈ tokens ls, tokenKey t = tokenKey u → t = u) :
    Bounded cfg s ∧
      ((system cfg tokenKey).Guarded (fun s l => safe cfg tokenKey s l = true) s₀ ls → NotUndone s) := by
  have hw : (system cfg tokenKey).Guarded (fun _ l => Within (tokens ls) l) s₀ ls :=
    LTS.guarded_of_forall (fun l hl _ => within_tokens hl) s₀
  refine ⟨((inv_exec hf hk).exec h₀ hw he).bounded, fun hs => ?_⟩
  exact ((ordered_exec hf hk).exec h₀ (hw.and hs) he).2.2

/-- The cache serves an active verdict older than an inactive answer. -/
theorem stale_undoes {s : State} {token : String} {v : Verdict} {a : Answer} {u : Nat}
    (hv : cached cfg s (tokenKey token) = some v) (hact : v.active = true) (ha : a ∈ s.answers)
    (htok : a.token = token) (hin : a.active = false) (hu : a.evaluatedAt = some u)
    (hlt : v.evaluatedAt < u) {c : Nat} (hc : s.calls c = .idle) (exp : Option Nat) :
    ∃ s', State.step cfg tokenKey s (.start c token exp) = some s' ∧ ¬ NotUndone s' := by
  refine ⟨_, by simp only [State.step, State.start, hc, hv]; rfl, fun hn => ?_⟩
  obtain ⟨i, hi, hia⟩ := List.mem_iff_getElem.mp ha
  have := hn i a ⟨token, v.active, some v.evaluatedAt, s.now, s.answers.length⟩ u v.evaluatedAt
    (by simp only [State.leave, List.getElem?_append_left hi, List.getElem?_eq_getElem hi, hia])
    (by simp [State.leave]) hi htok hin hact hu rfl
  omega

/-- The condition on a step is needed: behind one that is not safe, a call for the token may
be answered active from the older evaluation. -/
theorem unsafe_undoes (ht : 0 < cfg.ttl) {s s' : State} {l : Label} (hl : safe cfg tokenKey s l = false)
    (hs : State.step cfg tokenKey s l = some s') {c : Nat} (hc : s'.calls c = .idle) :
    ∃ token s'', State.step cfg tokenKey s' (.start c token none) = some s'' ∧ ¬ NotUndone s'' := by
  cases l with
  | start | evaluate | fail | cancel | wait => simp [safe] at hl
  | answer call unixNow =>
    simp only [State.step, State.answer] at hs
    split at hs
    · next q body t hq =>
      split at hs
      · obtain rfl := Option.some.inj hs
        simp only [safe, hq] at hl
        refine ⟨q.token, ?_⟩
        cases hr : readActive body with
        | true =>
          simp only [hr] at hc hl ⊢
          simp only [if_true, Bool.or_eq_false_iff, Bool.not_eq_false', overtaken, List.any_eq_true,
            Bool.and_eq_true, decide_eq_true_eq, Bool.not_eq_true', Option.any_eq_true] at hl
          obtain ⟨hexp, a, ha, ⟨htok, hin⟩, u, hu, hlt⟩ := hl
          refine stale_undoes (v := ⟨true, t⟩) ?_ rfl (List.mem_append_left _ ha) htok hin hu hlt hc none
          simp only [cached, State.leave, remember, hexp]
          exact TtlCache.get_put_now ht _ _ _
        | false =>
          simp only [hr] at hc hl ⊢
          simp only [Bool.false_eq_true, if_false, Bool.or_eq_false_iff, Bool.not_eq_false',
            Option.all_eq_false, Bool.or_eq_false_iff, decide_eq_false_iff_not, Nat.not_le] at hl
          obtain ⟨hexp, v, hv, hact, hlt⟩ := hl
          refine stale_undoes (v := v) ?_ hact (List.mem_append_right _ List.mem_cons_self) rfl rfl rfl
            hlt hc none
          simp only [cached, State.leave, remember, hexp, if_true]
          exact hv
      · cases hs
    · cases hs

end Runs

/-! ## Two overlapping lookups -/

def exampleConfig : Config := ⟨60, false⟩

def exampleToken : String := "eyJhbGciOiJSUzI1NiJ9"

/-- The digest, at the example's token. -/
def exampleKey (token : String) : String :=
  if token = exampleToken then "0b5892509195757e3968082b695b4873" else token

def activeBody (b : Bool) : Json := .obj [("active", .bool b)]

/-- The token is found active, and inactive after the first verdict has run out. -/
def laterRevoked : List Label :=
  [.start 0 exampleToken none, .evaluate 0 (activeBody true), .answer 0 0,
   .wait (60 * second), .start 1 exampleToken none, .evaluate 1 (activeBody false), .answer 1 60,
   .start 2 exampleToken none]

theorem later_revocation_is_kept : ∃ s,
    (system exampleConfig exampleKey).exec (.initial 0) laterRevoked = some s ∧
      s.answers.map (fun a => a.active) = [true, false, false] ∧
      Bounded exampleConfig s ∧ NotUndone s := by
  have hr : ((system exampleConfig exampleKey).exec (.initial 0) laterRevoked).any
      (fun s => s.answers.map (fun a => a.active) = [true, false, false]) = true := by decide +kernel
  rw [Option.any_eq_true] at hr
  obtain ⟨s, he, ha⟩ := hr
  obtain ⟨hb, hn⟩ := revocation_kept exampleConfig exampleKey rfl ⟨0, rfl⟩ he (by decide +kernel)
  exact ⟨s, he, of_decide_eq_true ha, hb, hn (by decide +kernel)⟩

/-- The second lookup starts a second later, and is answered first. -/
def overlapping : List Label :=
  [.start 0 exampleToken none, .evaluate 0 (activeBody true), .wait second,
   .start 1 exampleToken none, .evaluate 1 (activeBody false), .answer 1 1, .answer 0 1,
   .wait second, .start 2 exampleToken none]

/-- The third call gets the verdict that was revoked before it started. -/
theorem late_answer_undoes :
    (system exampleConfig exampleKey).init (.initial 0) ∧ exampleConfig.failOpen = false ∧
      ∃ s, (system exampleConfig exampleKey).exec (.initial 0) overlapping = some s ∧ ¬ NotUndone s := by
  have hr : ((system exampleConfig exampleKey).exec (.initial 0) overlapping).any
      (fun s => s.answers = [⟨exampleToken, false, some second, second, 0⟩,
        ⟨exampleToken, true, some 0, second, 0⟩,
        ⟨exampleToken, true, some 0, 2 * second, 2⟩]) = true := by decide +kernel
  rw [Option.any_eq_true] at hr
  obtain ⟨s, he, ha⟩ := hr
  refine ⟨⟨0, rfl⟩, rfl, s, he, fun hn => ?_⟩
  have ha := of_decide_eq_true ha
  have := hn 0 ⟨exampleToken, false, some second, second, 0⟩ ⟨exampleToken, true, some 0, 2 * second, 2⟩
    second 0 (by rw [ha]; rfl) (by simp [ha]) (by decide) rfl rfl rfl rfl rfl
  exact absurd this (by decide)

end MinMcp.L5.Introspection
