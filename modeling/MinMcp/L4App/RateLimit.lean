import MinMcp.Core.Json.Compare
import MinMcp.Core.OrderedMap
import Mathlib.Algebra.Order.Ring.Unbundled.Rat

/-!
# Rate limits, enforced and report-only

Token buckets in 64-bit floats (`surface/ratelimit.rs`) and the tiers of one call:
the caller's budget, the caller's budget on the tool, the tool's own budget
(`surface/dispatch.rs`). Floats are rationals with `roundF64` after each operation;
a sum that overflows is cut at the capacity like any other large one. Instants are
nanoseconds, a negative span counts as none.

* `rateLimited`: one call. `run`: a sequence of calls.
* `Foreseen`: the first tier to refuse is an overlay's, or the only tier of the call.
* `passes_agree`: over such a call both modes charge alike and judge alike.
* `report_only_predicts`: so they do over a sequence of such calls.
* `report_only_overcharges`: a per-tool refusal that report-only does not refund.
-/
namespace MinMcp.L4.RateLimit

open MinMcp.Core

/-- mirrors src/config.rs:156-160 -/
structure Limit where
  calls : UInt32
  perS : UInt64
  deriving DecidableEq

structure Bucket where
  tokens : Rat
  updated : Nat
  deriving DecidableEq

abbrev Buckets := List (String × Bucket)

def maxBuckets : Nat := 10000

def idleEvictS : Nat := 600

/-- A float operation whose exact result is `q`. -/
def rnd (q : Rat) : Rat := (Num.roundF64 q).getD q

/-- `x.min(capacity)` of a float operation whose exact result is `q`. -/
def cap (q capacity : Rat) : Rat :=
  match Num.roundF64 q with
  | some x => min x capacity
  | none => capacity

def capacity (limit : Limit) : Rat := (max limit.calls 1).toNat

def rate (limit : Limit) : Rat := rnd (capacity limit / rnd (max limit.perS 1).toNat)

/-- `as_secs_f64` of a span in nanoseconds. -/
def secsF64 (span : Nat) : Rat :=
  rnd (rnd (span / 10 ^ 9 : Nat) + rnd (mkRat (span % 10 ^ 9 : Nat) (10 ^ 9)))

/-- Tokens of a bucket now, before the cut at its capacity. -/
def refilled (b : Bucket) (limit : Limit) (now : Nat) : Rat :=
  b.tokens + rnd (secsF64 (now - b.updated) * rate limit)

/-- Make room for a new key. -/
def evict (key : String) (now : Nat) (map : Buckets) : Buckets :=
  if maxBuckets ≤ map.length ∧ (map.lookup key).isNone then
    let map := map.filter fun e => (now - e.2.updated) / 10 ^ 9 < idleEvictS
    if maxBuckets ≤ map.length then [] else map
  else map

def retryIn (tokens : Rat) (limit : Limit) : Nat :=
  max (min (rnd (rnd (1 - tokens) / rate limit)).ceil.toNat (2 ^ 64 - 1)) 1

/-- mirrors src/surface/ratelimit.rs:35-56 -/
@[irreducible]
def take (map : Buckets) (key : String) (limit : Limit) (now : Nat) : Except Nat Unit × Buckets :=
  let map := evict key now map
  let b := (map.lookup key).getD ⟨capacity limit, now⟩
  let tokens := cap (refilled b limit now) (capacity limit)
  if 1 ≤ tokens then (.ok (), OrderedMap.insert key ⟨rnd (tokens - 1), now⟩ map)
  else (.error (retryIn tokens limit), OrderedMap.insert key ⟨tokens, now⟩ map)

/-- mirrors src/surface/ratelimit.rs:60-68 -/
def refund (map : Buckets) (key : String) (limit : Limit) (now : Nat) : Buckets :=
  match map.lookup key with
  | none => map
  | some b =>
    OrderedMap.insert key ⟨cap (rnd (refilled b limit now) + 1) (capacity limit), now⟩ map

/-- mirrors src/config.rs:175-187 (`overlayLimit`: the `rate_limit` of the tool's
overlay) -/
structure RateLimits where
  perCaller : Option Limit
  perTool : Option Limit
  reportOnly : Bool
  overlayLimit : String → Option Limit

structure Call where
  /-- `caller.rate_key()` -/
  who : String
  toolId : String
  now : Nat

structure Tier where
  key : String
  limit : Limit
  message : String
  enforced : Bool
  deriving DecidableEq

/-- mirrors src/surface/dispatch.rs:376-398 -/
def tiers (rl : RateLimits) (c : Call) : List Tier :=
  let enforce := !rl.reportOnly
  (rl.perCaller.map fun l =>
      ⟨s!"caller:{c.who}", l, s!"caller {c.who} exceeded {l.calls} calls per {l.perS}s",
        enforce⟩).toList ++
    (rl.perTool.map fun l =>
      ⟨s!"tool:{c.who}:{c.toolId}", l,
        s!"caller {c.who} exceeded {l.calls} calls per {l.perS}s on {c.toolId}", enforce⟩).toList ++
    ((rl.overlayLimit c.toolId).map fun l =>
      ⟨s!"overlay:{c.toolId}", l,
        s!"{c.toolId} is limited to {l.calls} calls per {l.perS}s across all callers", true⟩).toList

/-- What one call leaves behind: its `would_rate_limit` lines and its refusal, as
messages with the time to wait. -/
structure Judged (β : Type) where
  wouldLimit : List (String × Nat)
  refusal : Option (String × Nat)
  buckets : β

/-- The call is refused, or logged as one that would be. -/
def Judged.flagged {β : Type} (j : Judged β) : Bool := j.refusal.isSome || !j.wouldLimit.isEmpty

/-- What is done to buckets, in whatever arithmetic. -/
structure Ledger (β : Type) where
  take : β → String → Limit → Nat → Except Nat Unit × β
  refund : β → String → Limit → Nat → β

section Pass

variable {β : Type} (ledger : Ledger β)

def refundAll (map : β) (now : Nat) (charged : List (String × Limit)) : β :=
  charged.foldl (fun m e => ledger.refund m e.1 e.2 now) map

/-- The loop over the tiers, with the buckets charged and the lines logged so far. -/
def pass (now : Nat) (map : β) (charged : List (String × Limit)) (logged : List (String × Nat)) :
    List Tier → Judged β
  | [] => ⟨logged, none, map⟩
  | t :: ts =>
    match ledger.take map t.key t.limit now with
    | (.ok (), map) => pass now map (charged ++ [(t.key, t.limit)]) logged ts
    | (.error retry, map) =>
      if t.enforced then ⟨logged, some (t.message, retry), refundAll ledger map now charged⟩
      else pass now map charged (logged ++ [(t.message, retry)]) ts

/-- mirrors src/surface/dispatch.rs:361-420 -/
def rateLimited (rl : RateLimits) (map : β) (c : Call) : Judged β :=
  pass ledger c.now map [] [] (tiers rl c)

variable {ledger : Ledger β} {now retry : Nat} {map map' : β} {t : Tier} {ts : List Tier}
  {charged : List (String × Limit)} {logged : List (String × Nat)}

theorem pass_ok (h : ledger.take map t.key t.limit now = (.ok (), map')) :
    pass ledger now map charged logged (t :: ts) =
      pass ledger now map' (charged ++ [(t.key, t.limit)]) logged ts := by
  simp only [pass, h]

theorem pass_error (h : ledger.take map t.key t.limit now = (.error retry, map')) :
    pass ledger now map charged logged (t :: ts) =
      if t.enforced then ⟨logged, some (t.message, retry), refundAll ledger map' now charged⟩
      else pass ledger now map' charged (logged ++ [(t.message, retry)]) ts := by
  simp only [pass, h]

end Pass

/-- The buckets of the source. -/
def floats : Ledger Buckets := ⟨take, refund⟩

/-- One verdict for each call, and the buckets in the end. -/
def run (rl : RateLimits) (map : Buckets) : List Call → List (Judged Buckets) × Buckets
  | [] => ([], map)
  | c :: cs =>
    let j := rateLimited floats rl map c
    let (js, map) := run rl j.buckets cs
    (j :: js, map)

def inMode (rl : RateLimits) (reportOnly : Bool) : RateLimits := { rl with reportOnly := reportOnly }

/-- The tier that refuses first, one taken after the other. -/
def firstRefusal (now : Nat) (map : Buckets) : List Tier → Option Tier
  | [] => none
  | t :: ts =>
    match take map t.key t.limit now with
    | (.ok (), map) => firstRefusal now map ts
    | (.error _, _) => some t

/-- The first tier to refuse the call, if any, is the overlay's, or it is the only one. -/
def Foreseen (rl : RateLimits) (map : Buckets) (c : Call) : Prop :=
  ∀ t ∈ firstRefusal c.now map (tiers (inMode rl true) c),
    t.enforced = true ∨ tiers (inMode rl true) c = [t]

instance (rl : RateLimits) (map : Buckets) (c : Call) : Decidable (Foreseen rl map c) :=
  inferInstanceAs (Decidable (∀ t ∈ firstRefusal c.now map (tiers (inMode rl true) c), _))

/-- Every call of the sequence is foreseen where enforcement has got to. -/
def AllForeseen (rl : RateLimits) (map : Buckets) : List Call → Prop
  | [] => True
  | c :: cs => Foreseen rl map c ∧ AllForeseen rl (rateLimited floats (inMode rl false) map c).buckets cs

instance decidableAllForeseen (rl : RateLimits) (map : Buckets) :
    (cs : List Call) → Decidable (AllForeseen rl map cs)
  | [] => .isTrue trivial
  | c :: cs =>
    have := decidableAllForeseen rl (rateLimited floats (inMode rl false) map c).buckets cs
    inferInstanceAs (Decidable (_ ∧ _))

/-- The calls that report-only flags are those enforcement refuses. -/
def Predicts (rl : RateLimits) (map : Buckets) (cs : List Call) : Prop :=
  (run (inMode rl true) map cs).1.map Judged.flagged =
    (run (inMode rl false) map cs).1.map fun j => j.refusal.isSome

instance (rl : RateLimits) (map : Buckets) (cs : List Call) : Decidable (Predicts rl map cs) :=
  inferInstanceAs (Decidable (_ = _))

/-! ## One call -/

def Tier.enforce (t : Tier) : Tier := { t with enforced := true }

theorem tiers_enforced (rl : RateLimits) (c : Call) :
    tiers (inMode rl false) c = (tiers (inMode rl true) c).map Tier.enforce := by
  unfold tiers inMode
  cases rl.perCaller <;> cases rl.perTool <;> cases rl.overlayLimit c.toolId <;> rfl

variable {now retry : Nat} {map map' : Buckets} {t : Tier} {ts : List Tier}
  {charged : List (String × Limit)}

theorem firstRefusal_ok (h : take map t.key t.limit now = (.ok (), map')) :
    firstRefusal now map (t :: ts) = firstRefusal now map' ts := by
  simp only [firstRefusal, h]

theorem firstRefusal_error (h : take map t.key t.limit now = (.error retry, map')) :
    firstRefusal now map (t :: ts) = some t := by
  simp only [firstRefusal, h]

/-- **Pass.** Where the first tier to refuse is enforced in both modes, or stands
alone, the two passes charge the same buckets and come to the same verdict. -/
theorem passes_agree (h : ∀ t, firstRefusal now map ts = some t →
      t.enforced = true ∨ (ts = [t] ∧ charged = [])) :
    (pass floats now map charged [] ts).buckets = (pass floats now map charged [] (ts.map Tier.enforce)).buckets ∧
      (pass floats now map charged [] ts).flagged =
        (pass floats now map charged [] (ts.map Tier.enforce)).refusal.isSome := by
  induction ts generalizing map charged with
  | nil => exact ⟨rfl, rfl⟩
  | cons t ts ih =>
    rw [List.map_cons]
    obtain ⟨verdict, map', ht⟩ : ∃ r m, floats.take map t.key t.limit now = (r, m) := ⟨_, _, rfl⟩
    have hte : floats.take map t.enforce.key t.enforce.limit now = (verdict, map') := ht
    cases verdict with
    | ok u =>
      rw [pass_ok ht, pass_ok hte]
      rw [firstRefusal_ok ht] at h
      apply ih
      intro t' ht'
      rcases h t' ht' with he | ⟨hts, -⟩
      · exact Or.inl he
      · -- no tier is left to refuse
        obtain ⟨-, rfl⟩ := List.cons.inj hts
        cases ht'
    | error retry =>
      rw [pass_error ht, pass_error hte, if_pos (show t.enforce.enforced = true from rfl)]
      by_cases he : t.enforced = true
      · rw [if_pos he]
        exact ⟨rfl, rfl⟩
      · rcases h t (firstRefusal_error ht) with h | ⟨hts, hc⟩
        · exact absurd h he
        · obtain ⟨-, rfl⟩ := List.cons.inj hts
          rw [if_neg he, hc]
          exact ⟨rfl, rfl⟩

/-- **Step.** A foreseen call leaves both modes with the same buckets and verdict. -/
theorem rateLimited_agree {rl : RateLimits} {c : Call} (h : Foreseen rl map c) :
    (rateLimited floats (inMode rl true) map c).buckets = (rateLimited floats (inMode rl false) map c).buckets ∧
      (rateLimited floats (inMode rl true) map c).flagged =
        (rateLimited floats (inMode rl false) map c).refusal.isSome := by
  unfold rateLimited
  rw [tiers_enforced]
  apply passes_agree
  intro t ht
  rcases h t ht with he | hts
  · exact Or.inl he
  · exact Or.inr ⟨hts, rfl⟩

theorem run_cons (rl : RateLimits) (map : Buckets) (c : Call) (cs : List Call) :
    (run rl map (c :: cs)).1 = rateLimited floats rl map c :: (run rl (rateLimited floats rl map c).buckets cs).1 :=
  rfl

/-- **Run.** Over a sequence of foreseen calls report-only flags exactly the calls
enforcement refuses. -/
theorem report_only_predicts (rl : RateLimits) (map : Buckets) (cs : List Call)
    (h : AllForeseen rl map cs) : Predicts rl map cs := by
  induction cs generalizing map with
  | nil => rfl
  | cons c cs ih =>
    obtain ⟨hc, hcs⟩ := h
    obtain ⟨hbuckets, hflag⟩ := rateLimited_agree hc
    have hrest := ih _ hcs
    unfold Predicts at hrest ⊢
    rw [run_cons, run_cons, List.map_cons, List.map_cons, hflag, hbuckets, hrest]

/-! ## A refusal that is not refunded -/

/-- Two calls a minute for a caller, one for a caller on a tool. -/
def exampleLimits : RateLimits where
  perCaller := some ⟨2, 60⟩
  perTool := some ⟨1, 60⟩
  reportOnly := false
  overlayLimit _ := none

/-- The second call is refused its tool's budget and gets the caller's back; report-only
keeps it, and has none left for the third. -/
theorem report_only_overcharges :
    ¬ Predicts exampleLimits [] [⟨"a", "x", 0⟩, ⟨"a", "x", 0⟩, ⟨"a", "y", 0⟩] := by
  decide +kernel

/-- Behind a caller's budget alone, the third call of two a minute is foreseen. -/
theorem third_call_is_predicted :
    Predicts { exampleLimits with perTool := none } []
      [⟨"a", "x", 0⟩, ⟨"a", "x", 0⟩, ⟨"a", "y", 0⟩] :=
  report_only_predicts _ _ _ (by decide +kernel)

end MinMcp.L4.RateLimit
