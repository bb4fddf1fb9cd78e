import MinMcp.Core.TokenBucket
import MinMcp.L4App.RateLimit
import Mathlib.Algebra.Order.Floor.Semiring
import Mathlib.Data.Rat.Floor

/-!
# Rate limits in exact arithmetic

The buckets of `surface/ratelimit.rs` and the tiers of one call
(src/surface/dispatch.rs:361-420), with rationals for floats. The limits, tiers and keys are
those of `MinMcp.L4.RateLimit`.

* `retry_after_is_honest`: a refused call fits after the seconds it is told, and not sooner.
-/
namespace MinMcp.L4.ExactLimit

open MinMcp.Core
open MinMcp.L4.RateLimit (Limit RateLimits Call Tier tiers maxBuckets idleEvictS)

abbrev Bucket := TokenBucket.Bucket ℚ

/-- The buckets by key. -/
structure Buckets where
  entries : List (String × Bucket)
  nodup : (OrderedMap.keys entries).Nodup

namespace Buckets

def empty : Buckets := ⟨[], List.nodup_nil⟩

def lookup (map : Buckets) (key : String) : Option Bucket := map.entries.lookup key

def insert (map : Buckets) (key : String) (b : Bucket) : Buckets :=
  ⟨OrderedMap.insert key b map.entries, OrderedMap.nodup_insert key b map.nodup⟩

def retain (map : Buckets) (keep : Bucket → Bool) : Buckets :=
  ⟨map.entries.filter fun e => keep e.2, map.nodup.sublist (List.filter_sublist.map _)⟩

/-- Make room for a new key.
mirrors src/surface/ratelimit.rs:39-44 -/
def evict (map : Buckets) (key : String) (now : Nat) : Buckets :=
  if maxBuckets ≤ map.entries.length ∧ map.lookup key = none then
    let map := map.retain fun b => (now - b.updated) / 10 ^ 9 < idleEvictS
    if maxBuckets ≤ map.entries.length then empty else map
  else map

end Buckets

def capacity (limit : Limit) : ℚ := (max limit.calls 1).toNat

def rate (limit : Limit) : ℚ := capacity limit / (max limit.perS 1).toNat

/-- `as_secs_f64` of a span in nanoseconds. -/
def secs (span : Nat) : ℚ := span / 10 ^ 9

theorem one_le_calls (limit : Limit) : 1 ≤ (max limit.calls 1).toNat := by
  show 1 ≤ (if limit.calls ≤ 1 then 1 else limit.calls).toNat
  split <;> simp_all [UInt32.le_iff_toNat_le]
  omega

theorem one_le_capacity (limit : Limit) : 1 ≤ capacity limit := by
  unfold capacity
  exact_mod_cast one_le_calls limit

theorem one_le_perS (limit : Limit) : 1 ≤ (max limit.perS 1).toNat := by
  show 1 ≤ (if limit.perS ≤ 1 then 1 else limit.perS).toNat
  split <;> simp_all [UInt64.le_iff_toNat_le]
  omega

theorem rate_pos (limit : Limit) : 0 < rate limit :=
  div_pos (zero_lt_one.trans_le (one_le_capacity limit)) (by exact_mod_cast one_le_perS limit)

/-- The bucket of a limit, by nanoseconds. -/
def pace (limit : Limit) : TokenBucket.Rate ℚ where
  capacity := capacity limit
  perTick := rate limit / 10 ^ 9
  one_le_capacity := one_le_capacity limit
  perTick_pos := div_pos (rate_pos limit) (by norm_num)

/-- mirrors src/surface/ratelimit.rs:48-49 -/
def refilled (limit : Limit) (b : Bucket) (now : Nat) : ℚ :=
  min (b.tokens + secs (now - b.updated) * rate limit) (capacity limit)

theorem refilled_eq (limit : Limit) (b : Bucket) (now : Nat) :
    refilled limit b now = TokenBucket.level (pace limit) b now := by
  unfold refilled secs TokenBucket.level pace
  dsimp only
  rw [div_mul_eq_mul_div, mul_div_assoc]

theorem refilled_nonneg (limit : Limit) (b : Bucket) (now : Nat) : 0 ≤ refilled limit b now := by
  rw [refilled_eq]
  exact TokenBucket.level_nonneg (pace limit) b now

/-- The seconds until the next token.
mirrors src/surface/ratelimit.rs:55 -/
def retryIn (tokens : ℚ) (limit : Limit) : Nat :=
  max (min ⌈(1 - tokens) / rate limit⌉₊ (2 ^ 64 - 1)) 1

/-- The bucket of the key, a full one where there is none.
mirrors src/surface/ratelimit.rs:45-47 -/
def entry (map : Buckets) (key : String) (limit : Limit) (now : Nat) : Bucket :=
  (map.lookup key).getD ⟨capacity limit, now, zero_le_one.trans (one_le_capacity limit)⟩

/-- mirrors src/surface/ratelimit.rs:35-57 -/
def take (map : Buckets) (key : String) (limit : Limit) (now : Nat) : Except Nat Unit × Buckets :=
  let map := map.evict key now
  let b := entry map key limit now
  if h : 1 ≤ refilled limit b now then
    (.ok (), map.insert key ⟨refilled limit b now - 1, now, sub_nonneg.mpr h⟩)
  else
    (.error (retryIn (refilled limit b now) limit),
      map.insert key ⟨refilled limit b now, now, refilled_nonneg limit b now⟩)

theorem refunded_nonneg (limit : Limit) (b : Bucket) (now : Nat) :
    0 ≤ min (b.tokens + secs (now - b.updated) * rate limit + 1) (capacity limit) := by
  have h := refilled_nonneg limit b now
  unfold refilled at h
  rw [le_min_iff] at h ⊢
  exact ⟨by linarith, h.2⟩

/-- mirrors src/surface/ratelimit.rs:61-69 -/
def refund (map : Buckets) (key : String) (limit : Limit) (now : Nat) : Buckets :=
  match map.lookup key with
  | none => map
  | some b => map.insert key ⟨min (b.tokens + secs (now - b.updated) * rate limit + 1) (capacity limit),
      now, refunded_nonneg limit b now⟩

/-! ## Single operations -/

variable {map map' : Buckets} {key key' : String} {limit : Limit} {now : Nat} {b : Bucket}

theorem lookup_insert_self (map : Buckets) (key : String) (b : Bucket) :
    (map.insert key b).lookup key = some b := OrderedMap.lookup_insert_self key b map.entries

theorem lookup_insert_of_ne (h : key' ≠ key) (b : Bucket) :
    (map.insert key b).lookup key' = map.lookup key' := OrderedMap.lookup_insert_of_ne h b map.entries

theorem evict_of_lookup (h : map.lookup key = some b) : map.evict key now = map := by
  unfold Buckets.evict
  rw [h]
  exact if_neg (by simp)

theorem evict_of_length (h : map.entries.length < maxBuckets) : map.evict key now = map :=
  if_neg (by omega)

/-- A call fits if the bucket holds a token. -/
theorem take_fst_eq_ok :
    (take map key limit now).1 = .ok () ↔
      1 ≤ refilled limit (entry (map.evict key now) key limit now) now := by
  unfold take
  dsimp only
  split <;> simp [*]

/-- What a refused call leaves. -/
theorem take_error {retry : Nat} (h : (take map key limit now).1 = .error retry) :
    ∃ b : Bucket, (take map key limit now).2.lookup key = some b ∧ b.updated = now ∧ b.tokens < 1 ∧
      retry = retryIn b.tokens limit := by
  unfold take at h ⊢
  dsimp only at h ⊢
  split at h
  · cases h
  · rename_i hlt
    rw [dif_neg hlt]
    exact ⟨_, lookup_insert_self .., rfl, not_le.mp hlt, (Except.error.inj h).symm⟩

/-! ## The time to wait -/

theorem secs_mul (n : Nat) : secs (n * 10 ^ 9) = n := by
  unfold secs
  push_cast
  exact mul_div_cancel_right₀ _ (by norm_num)

/-- Whole seconds until a token is there. -/
theorem ceil_wait_le_iff (tokens : ℚ) (limit : Limit) (n : Nat) :
    ⌈(1 - tokens) / rate limit⌉₊ ≤ n ↔ 1 ≤ tokens + n * rate limit := by
  rw [Nat.ceil_le, div_le_iff₀ (rate_pos limit)]
  constructor <;> intro h <;> linarith

/-- The wait fits its 64 bits. -/
theorem ceil_wait_lt (h : 0 ≤ b.tokens) (limit : Limit) :
    ⌈(1 - b.tokens) / rate limit⌉₊ ≤ 2 ^ 64 - 1 := by
  have hper : (max limit.perS 1).toNat ≤ 2 ^ 64 - 1 := by
    have := (max limit.perS 1).toNat_lt
    omega
  apply le_trans _ hper
  rw [ceil_wait_le_iff]
  have hne : ((max limit.perS 1).toNat : ℚ) ≠ 0 := by
    have := one_le_perS limit
    exact_mod_cast (show (max limit.perS 1).toNat ≠ 0 by omega)
  rw [rate, mul_div_cancel₀ _ hne]
  linarith [one_le_capacity limit]

/-- **Retry.** A call refused with so many seconds fits after them and not after fewer, as long
as the bucket is left alone. -/
theorem retry_after_is_honest (map later : Buckets) (key : String) (limit : Limit) (now retry : Nat)
    (h : (take map key limit now).1 = .error retry)
    (hl : later.lookup key = (take map key limit now).2.lookup key) :
    (take later key limit (now + retry * 10 ^ 9)).1 = .ok () ∧
      ∀ r < retry, (take later key limit (now + r * 10 ^ 9)).1 ≠ .ok () := by
  obtain ⟨b, hb, hu, hlt, hretry⟩ := take_error h
  rw [hb] at hl
  have hfits : ∀ n : Nat, (take later key limit (now + n * 10 ^ 9)).1 = .ok () ↔
      ⌈(1 - b.tokens) / rate limit⌉₊ ≤ n := by
    intro n
    rw [take_fst_eq_ok, evict_of_lookup hl, entry, hl, Option.getD_some, ceil_wait_le_iff, refilled,
      hu, Nat.add_sub_cancel_left, secs_mul, le_min_iff, and_iff_left (one_le_capacity limit)]
  have hpos : 1 ≤ ⌈(1 - b.tokens) / rate limit⌉₊ :=
    Nat.one_le_ceil_iff.mpr (div_pos (by linarith) (rate_pos limit))
  have hwait : retry = ⌈(1 - b.tokens) / rate limit⌉₊ := by
    have := ceil_wait_lt b.nonneg limit
    rw [hretry, retryIn]
    omega
  simp only [ne_eq, hfits]
  refine ⟨by omega, fun r hr => ?_⟩
  omega

/-- Three calls a minute. -/
def exampleLimit : Limit := ⟨3, 60⟩

/-- The fourth of a burst fits after 20 s, not after 19 s. -/
theorem fourth_call_waits :
    let spent := (take (take (take .empty "k" exampleLimit 0).2 "k" exampleLimit 0).2 "k" exampleLimit 0).2
    let after := (take spent "k" exampleLimit 0).2
    (take after "k" exampleLimit (0 + 20 * 10 ^ 9)).1 = .ok () ∧
      ∀ r < 20, (take after "k" exampleLimit (0 + r * 10 ^ 9)).1 ≠ .ok () :=
  retry_after_is_honest _ _ _ _ _ _ (by decide +kernel) rfl

end MinMcp.L4.ExactLimit
