import MinMcp.L5Concurrency.Introspection

/-!
# A verdict behind the end of its token

`remember` of src/auth.rs does not cache a verdict about a token that has expired, "so a result
is never cached past the point the token dies anyway". It looks at the expiry once: `cached`
goes by the age of the entry alone, and the signature check has a leeway behind the expiry in
which a token still gets here.

The runs are those of `Introspection`, with one clock: the wall clock shows the seconds of the
time of the state, and a token comes with its own expiry each time.

* `servedDead`: a call at or after the expiry is answered from the cache.
* `inTime`: an answer that is cached arrives one time to live before the expiry, or earlier.
* `verdicts_die`: a run whose answers are in time serves no verdict about a dead token; behind
  an answer that is not, a call at the expiry is served.
* `verdict_outlives_token`: a run with the default time to live.
-/
namespace MinMcp.L5.Introspection

open MinMcp.Core

/-- A token's own expiry is passed with it, and the wall clock agrees with the time. -/
def clocked (expOf : String → Option Nat) (s : State) : Label → Bool
  | .start _ token exp => exp = expOf token
  | .answer _ unixNow => unixNow = s.now / second
  | _ => true

/-- A call at or after the token's expiry finds a verdict. -/
def servedDead (cfg : Config) (tokenKey : String → String) (s : State) : Label → Bool
  | .start _ token exp => expired exp (s.now / second) && (cached cfg s (tokenKey token)).isSome
  | _ => false

/-- What is cached is too old to be served when the token expires. -/
def inTime (cfg : Config) (s : State) : Label → Bool
  | .answer call unixNow =>
    match s.calls call with
    | .evaluated q _ _ => expired q.exp unixNow || q.exp.all fun exp => s.now + cfg.ttl ≤ exp * second
    | _ => true
  | _ => true

def Call.query : Call → Option Query
  | .asking q | .evaluated q _ _ => some q
  | _ => none

section Runs

variable {cfg : Config} {tokenKey : String → String} {expOf : String → Option Nat}

theorem expired_iff {exp : Option Nat} {now : Nat} :
    expired exp (now / second) = true ↔ ∃ e, exp = some e ∧ e * second ≤ now := by
  unfold expired
  rw [Option.any_eq_true]
  refine exists_congr fun e => and_congr_right fun _ => ?_
  rw [decide_eq_true_eq, Nat.le_div_iff_mul_le (by decide)]

/-! ## What a step does -/

/-- Only an answer changes the cache. -/
theorem cache_of_step {s s' : State} {l : Label} (hs : State.step cfg tokenKey s l = some s') :
    s'.cache = s.cache ∨ ∃ call unixNow q body t, l = .answer call unixNow ∧
      s.calls call = .evaluated q body t ∧ s'.now = s.now ∧
      s'.cache = remember cfg s (tokenKey q.token) ⟨readActive body, t⟩ q.exp unixNow := by
  cases l with
  | start call token exp =>
    simp only [State.step, State.start] at hs
    split at hs
    · split at hs
      · obtain rfl := Option.some.inj hs
        exact Or.inl rfl
      · obtain rfl := Option.some.inj hs
        exact Or.inl rfl
    · cases hs
  | evaluate call body =>
    simp only [State.step, State.evaluate] at hs
    split at hs
    · obtain rfl := Option.some.inj hs
      exact Or.inl rfl
    · cases hs
  | answer call unixNow =>
    simp only [State.step, State.answer] at hs
    split at hs
    · next q body t hc =>
      split at hs
      · obtain rfl := Option.some.inj hs
        exact Or.inr ⟨call, unixNow, q, body, t, rfl, hc, rfl, rfl⟩
      · cases hs
    · cases hs
  | fail call =>
    simp only [State.step, State.fail, State.unreachable] at hs
    split at hs
    · obtain rfl := Option.some.inj hs
      left; split <;> rfl
    · obtain rfl := Option.some.inj hs
      left; split <;> rfl
    · cases hs
  | cancel call =>
    simp only [State.step, State.cancel] at hs
    split at hs
    · obtain rfl := Option.some.inj hs
      exact Or.inl rfl
    · obtain rfl := Option.some.inj hs
      exact Or.inl rfl
    · cases hs
  | wait ns =>
    obtain rfl := Option.some.inj hs
    exact Or.inl rfl

/-- What `l` may begin: a call's lookup is the one it had, or that of its start. -/
def Begins (s : State) (l : Label) (s' : State) : Prop :=
  ∀ c q, (s'.calls c).query = some q → (s.calls c).query = some q ∨ l = .start c q.token q.exp

theorem begins_update {s s' : State} {l : Label} {call : Nat} {x : Call}
    (hs : s'.calls = Function.update s.calls call x)
    (hx : ∀ q, x.query = some q → (s.calls call).query = some q ∨ l = .start call q.token q.exp) :
    Begins s l s' := by
  intro c q hq
  rw [hs] at hq
  by_cases hc : c = call
  · subst hc
    rw [Function.update_self] at hq
    exact hx q hq
  · rw [Function.update_of_ne hc] at hq
    exact Or.inl hq

theorem begins_of_step {s s' : State} {l : Label} (hs : State.step cfg tokenKey s l = some s') :
    Begins s l s' := by
  have hgone : ∀ q : Query, Call.query .left ≠ some q := fun q h => by cases h
  cases l with
  | start call token exp =>
    simp only [State.step, State.start] at hs
    split at hs
    · split at hs
      · obtain rfl := Option.some.inj hs
        exact begins_update rfl fun q hq => absurd hq (hgone q)
      · obtain rfl := Option.some.inj hs
        refine begins_update rfl fun q hq => Or.inr ?_
        obtain rfl := Option.some.inj hq
        rfl
    · cases hs
  | evaluate call body =>
    simp only [State.step, State.evaluate] at hs
    split at hs
    · next q hc =>
      obtain rfl := Option.some.inj hs
      exact begins_update rfl fun q' hq => Or.inl (by rw [hc]; exact hq)
    · cases hs
  | answer call unixNow =>
    simp only [State.step, State.answer] at hs
    split at hs
    · split at hs
      · obtain rfl := Option.some.inj hs
        exact begins_update rfl fun q hq => absurd hq (hgone q)
      · cases hs
    · cases hs
  | fail call =>
    simp only [State.step, State.fail, State.unreachable] at hs
    split at hs
    · obtain rfl := Option.some.inj hs
      split <;> exact begins_update rfl fun q hq => absurd hq (hgone q)
    · obtain rfl := Option.some.inj hs
      split <;> exact begins_update rfl fun q hq => absurd hq (hgone q)
    · cases hs
  | cancel call =>
    simp only [State.step, State.cancel] at hs
    split at hs
    · obtain rfl := Option.some.inj hs
      exact begins_update rfl fun q hq => absurd hq (hgone q)
    · obtain rfl := Option.some.inj hs
      exact begins_update rfl fun q hq => absurd hq (hgone q)
    · cases hs
  | wait ns =>
    obtain rfl := Option.some.inj hs
    exact fun c q hq => Or.inl hq

/-! ## What lookups and the cache know of the expiry -/

/-- A lookup under way is of a token in `T`, with its expiry. -/
def Known (T : List String) (expOf : String → Option Nat) (s : State) : Prop :=
  ∀ c q, (s.calls c).query = some q → q.token ∈ T ∧ q.exp = expOf q.token

theorem known_step {T : List String} {s s' : State} {l : Label} (h : Known T expOf s) (hl : Within T l)
    (hc : clocked expOf s l = true) (hs : State.step cfg tokenKey s l = some s') : Known T expOf s' := by
  intro c q hq
  rcases begins_of_step hs c q hq with hq | rfl
  · exact h c q hq
  · exact ⟨hl, of_decide_eq_true hc⟩

/-- An entry has no time left when its token expires. -/
structure Dies (cfg : Config) (tokenKey : String → String) (T : List String) (expOf : String → Option Nat)
    (s : State) : Prop where
  nodup : (OrderedMap.keys s.cache).Nodup
  entries : ∀ k e, s.cache.lookup k = some e → ∃ token ∈ T, tokenKey token = k ∧
    ∀ exp, expOf token = some exp → e.storedAt + cfg.ttl ≤ exp * second

theorem dies_step {T : List String} {s s' : State} {l : Label} (hkn : Known T expOf s)
    (h : Dies cfg tokenKey T expOf s) (ht : inTime cfg s l = true)
    (hs : State.step cfg tokenKey s l = some s') : Dies cfg tokenKey T expOf s' := by
  rcases cache_of_step hs with hc | ⟨call, unixNow, q, body, t, rfl, hcall, -, hc⟩
  · exact ⟨by rw [hc]; exact h.nodup, by rw [hc]; exact h.entries⟩
  · refine ⟨by rw [hc]; exact nodup_remember h.nodup _ _ _ _, ?_⟩
    intro k e he
    rw [hc] at he
    unfold remember at he
    split at he
    · exact h.entries k e he
    · next hexp =>
      obtain ⟨hT, hq⟩ := hkn call q (by rw [hcall]; rfl)
      rcases TtlCache.lookup_put h.nodup he with ⟨rfl, rfl⟩ | ⟨-, he⟩
      · refine ⟨q.token, hT, rfl, fun exp hx => ?_⟩
        rw [Bool.not_eq_true] at hexp
        simp only [inTime, hcall, hexp, Bool.false_or] at ht
        rw [hq, hx, Option.all_some, decide_eq_true_eq] at ht
        exact ht
      · exact h.entries k e he

/-- Where entries die with their tokens, no dead token is served. -/
theorem Dies.served {T : List String} {s : State} {l : Label} (h : Dies cfg tokenKey T expOf s)
    (hT : ∀ t ∈ T, ∀ u ∈ T, tokenKey t = tokenKey u → t = u) (hl : Within T l)
    (hc : clocked expOf s l = true) : servedDead cfg tokenKey s l = false := by
  cases l with
  | evaluate | answer | fail | cancel | wait => rfl
  | start call token exp =>
    obtain rfl : exp = expOf token := of_decide_eq_true hc
    simp only [servedDead, Bool.and_eq_false_iff]
    by_cases hx : expired (expOf token) (s.now / second) = true
    · right
      obtain ⟨e, he, hle⟩ := expired_iff.mp hx
      cases hv : cached cfg s (tokenKey token) with
      | none => rfl
      | some v =>
        obtain ⟨at_, hat, hlive⟩ := TtlCache.get_eq_some.mp hv
        obtain ⟨u, hu, hk, hd⟩ := h.entries _ _ hat
        obtain rfl := hT u hu token hl hk
        have := hd e he
        simp only at this
        omega
    · exact Or.inl (Bool.eq_false_iff.mpr hx)

theorem known_initial (T : List String) (expOf : String → Option Nat) (now : Nat) :
    Known T expOf (.initial now) := by
  intro c q hq
  cases hq

theorem dies_initial (cfg : Config) (tokenKey : String → String) (T : List String)
    (expOf : String → Option Nat) (now : Nat) : Dies cfg tokenKey T expOf (.initial now) where
  nodup := List.nodup_nil
  entries k e h := by cases h

theorem known_exec {T : List String} : (system cfg tokenKey).Invariant
    (fun s l => Within T l ∧ clocked expOf s l = true) (Known T expOf) where
  init := by
    intro s ⟨now, hs⟩
    rw [hs]
    exact known_initial T expOf now
  step _ _ _ h hl hs := known_step h hl.1 hl.2 hs

theorem dies_preserved {T : List String} : (system cfg tokenKey).Preserves
    (fun s l => (Within T l ∧ clocked expOf s l = true) ∧ inTime cfg s l = true)
    (fun s => Known T expOf s ∧ Dies cfg tokenKey T expOf s) :=
  fun _ _ _ h hl hs => ⟨known_step h.1 hl.1.1 hl.1.2 hs, dies_step h.1 h.2 hl.2 hs⟩

theorem start_of_cached {s : State} {call : Nat} {token : String} {exp : Option Nat} {v : Verdict}
    (hc : s.calls call = .idle) (hv : cached cfg s (tokenKey token) = some v) :
    (State.step cfg tokenKey s (.start call token exp)).isSome = true := by
  simp only [State.step, State.start, hc, hv, Option.isSome_some]

/-- Behind an answer that is cached and not in time, the token is served when it expires. -/
theorem late_served {T : List String} {s s' : State} {l : Label} (hkn : Known T expOf s)
    (hc : clocked expOf s l = true) (ht : inTime cfg s l = false)
    (hs : State.step cfg tokenKey s l = some s') {c : Nat} (hidle : s'.calls c = .idle) :
    ∃ ns token s₁, State.step cfg tokenKey s' (.wait ns) = some s₁ ∧
      (State.step cfg tokenKey s₁ (.start c token (expOf token))).isSome = true ∧
      servedDead cfg tokenKey s₁ (.start c token (expOf token)) = true := by
  cases l with
  | start | evaluate | fail | cancel | wait => simp [inTime] at ht
  | answer call unixNow =>
    simp only [State.step, State.answer] at hs
    split at hs
    · next q body t hcall =>
      split at hs
      · obtain rfl := Option.some.inj hs
        obtain rfl : unixNow = s.now / second := of_decide_eq_true hc
        obtain ⟨-, hq⟩ := hkn call q (by rw [hcall]; rfl)
        simp only [inTime, hcall, Bool.or_eq_false_iff, Option.all_eq_false, decide_eq_false_iff_not,
          Nat.not_le] at ht
        obtain ⟨hexp, exp, hx, hlate⟩ := ht
        have hbefore : s.now < exp * second := by
          by_contra hle
          have := expired_iff.mpr ⟨exp, hx, Nat.le_of_not_lt hle⟩
          rw [hexp] at this
          cases this
        have hhit : TtlCache.get cfg.ttl (s.now + (exp * second - s.now))
            (remember cfg s (tokenKey q.token) ⟨readActive body, t⟩ q.exp (s.now / second))
            (tokenKey q.token) = some ⟨readActive body, t⟩ := by
          simp only [remember, hexp, Bool.false_eq_true, if_false]
          exact TtlCache.get_eq_some.mpr ⟨s.now, OrderedMap.lookup_insert_self _ _ _, by omega⟩
        refine ⟨exp * second - s.now, q.token, _, rfl, ?_, ?_⟩
        · exact start_of_cached hidle hhit
        · have hdead : expired (expOf q.token) ((s.now + (exp * second - s.now)) / second) = true :=
            expired_iff.mpr ⟨exp, hq ▸ hx, by omega⟩
          simp only [servedDead, cached, State.leave, hdead, hhit, Option.isSome_some, Bool.and_self]
      · cases hs
    · cases hs

/-- In a run whose answers are in time, no call at or after the expiry of its token is answered
from the cache. The condition on a step is needed: behind an answer that is not in time, a call
at the expiry is. -/
theorem verdicts_die (cfg : Config) (tokenKey : String → String) (expOf : String → Option Nat) {s₀ : State}
    {ls : List Label} (h₀ : (system cfg tokenKey).init s₀)
    (hk : ∀ t ∈ tokens ls, ∀ u ∈ tokens ls, tokenKey t = tokenKey u → t = u)
    (hc : (system cfg tokenKey).Guarded (fun s l => clocked expOf s l = true) s₀ ls) :
    ((system cfg tokenKey).Guarded (fun s l => inTime cfg s l = true) s₀ ls →
      (system cfg tokenKey).Guarded (fun s l => servedDead cfg tokenKey s l = false) s₀ ls) ∧
    ∀ s s' l c, (system cfg tokenKey).exec s₀ ls = some s → clocked expOf s l = true →
      inTime cfg s l = false → State.step cfg tokenKey s l = some s' → s'.calls c = .idle →
      ∃ ns token s₁, State.step cfg tokenKey s' (.wait ns) = some s₁ ∧
        (State.step cfg tokenKey s₁ (.start c token (expOf token))).isSome = true ∧
        servedDead cfg tokenKey s₁ (.start c token (expOf token)) = true := by
  have hw : (system cfg tokenKey).Guarded (fun _ l => Within (tokens ls) l) s₀ ls :=
    LTS.guarded_of_forall (fun l hl _ => within_tokens hl) s₀
  obtain ⟨now, rfl⟩ := h₀
  refine ⟨fun ht => ?_, fun s s' l c he hcl htl hs hidle => ?_⟩
  · refine ((hw.and hc).and ht).imp dies_preserved
      ⟨known_initial _ expOf now, dies_initial cfg tokenKey _ expOf now⟩ fun s l h hg => ?_
    exact h.2.served hk hg.1.1 hg.1.2
  · exact late_served (known_exec.exec ⟨now, rfl⟩ (hw.and hc) he) hcl htl hs hidle

end Runs

/-! ## A minute before the end -/

/-- Two calls, the second ten seconds after the token has expired. -/
def acrossExpiry (exp : Nat) : List Label :=
  [.start 0 exampleToken (some exp), .evaluate 0 (activeBody true), .answer 0 70, .wait (40 * second),
   .start 1 exampleToken (some exp)]

/-- A token that lives for 130 s when its verdict is stored; the last call comes behind its expiry. -/
theorem verdicts_die_later : (system exampleConfig exampleKey).Guarded
    (fun s l => servedDead exampleConfig exampleKey s l = false) (.initial (70 * second))
    (acrossExpiry 200 ++ [.wait (100 * second), .start 2 exampleToken (some 200)]) :=
  (verdicts_die exampleConfig exampleKey (fun _ => some 200) ⟨70 * second, rfl⟩ (by decide +kernel)
    (by decide +kernel)).1 (by decide +kernel)

/-- Stored 30 s before the token expires, the verdict is served 10 s after. -/
theorem verdict_outlives_token :
    (system exampleConfig exampleKey).init (.initial (70 * second)) ∧
    (system exampleConfig exampleKey).Guarded (fun s l => clocked (fun _ => some 100) s l = true)
      (.initial (70 * second)) (acrossExpiry 100) ∧
    (∀ t ∈ tokens (acrossExpiry 100), ∀ u ∈ tokens (acrossExpiry 100), exampleKey t = exampleKey u → t = u) ∧
    (∃ s, (system exampleConfig exampleKey).exec (.initial (70 * second)) (acrossExpiry 100) = some s ∧
      s.answers = [⟨exampleToken, true, some (70 * second), 70 * second, 0⟩,
        ⟨exampleToken, true, some (70 * second), 110 * second, 1⟩]) ∧
    ¬ (system exampleConfig exampleKey).Guarded (fun s l => servedDead exampleConfig exampleKey s l = false)
      (.initial (70 * second)) (acrossExpiry 100) := by
  have hr : ((system exampleConfig exampleKey).exec (.initial (70 * second)) (acrossExpiry 100)).any
      (fun s => s.answers = [⟨exampleToken, true, some (70 * second), 70 * second, 0⟩,
        ⟨exampleToken, true, some (70 * second), 110 * second, 1⟩]) = true := by decide +kernel
  rw [Option.any_eq_true] at hr
  obtain ⟨s, he, ha⟩ := hr
  exact ⟨⟨_, rfl⟩, by decide +kernel, by decide +kernel, ⟨s, he, of_decide_eq_true ha⟩, by decide +kernel⟩

end MinMcp.L5.Introspection
