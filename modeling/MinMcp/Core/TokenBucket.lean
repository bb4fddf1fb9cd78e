import Mathlib.Algebra.Order.Field.Basic
import Mathlib.Tactic.Linarith
import Mathlib.Tactic.Ring

/-!
# Token buckets

A bucket holds tokens and the tick they were counted at, and gains `perTick` tokens a tick
up to its capacity. Tokens are exact.

* `level_level`: counting in between changes nothing.
* `Spent.level`, `Spent.take`, `Spent.give`: what operations in order of time leave of the
  bound on the tokens spent in a window; `Spent.bound` reads it off.
-/
namespace MinMcp.Core.TokenBucket

variable {K : Type} [Field K] [LinearOrder K]

structure Rate (K : Type) [Field K] [LinearOrder K] where
  capacity : K
  perTick : K
  one_le_capacity : 1 ≤ capacity
  perTick_pos : 0 < perTick

structure Bucket (K : Type) [Field K] [LinearOrder K] where
  tokens : K
  updated : Nat
  nonneg : 0 ≤ tokens
  deriving DecidableEq

variable (p : Rate K) {b : Bucket K} {now t : Nat}

/-- What the bucket holds now. -/
def level (b : Bucket K) (now : Nat) : K :=
  min (b.tokens + (now - b.updated : Nat) * p.perTick) p.capacity

theorem level_le (b : Bucket K) (now : Nat) : level p b now ≤ p.capacity := min_le_right _ _

theorem level_le_gained (b : Bucket K) (now : Nat) :
    level p b now ≤ b.tokens + (now - b.updated : Nat) * p.perTick := min_le_left _ _

theorem level_self (h : b.tokens ≤ p.capacity) : level p b b.updated = b.tokens := by
  unfold level
  rw [Nat.sub_self, Nat.cast_zero, zero_mul, add_zero, min_eq_left h]

variable [IsStrictOrderedRing K]

theorem Rate.capacity_nonneg : 0 ≤ p.capacity := zero_le_one.trans p.one_le_capacity

theorem gained_nonneg (n : Nat) : 0 ≤ n * p.perTick :=
  mul_nonneg (Nat.cast_nonneg n) p.perTick_pos.le

theorem level_nonneg (b : Bucket K) (now : Nat) : 0 ≤ level p b now :=
  le_min (add_nonneg b.nonneg (gained_nonneg p _)) p.capacity_nonneg

/-- The bucket counted anew. -/
def counted (b : Bucket K) (now : Nat) : Bucket K := ⟨level p b now, now, level_nonneg p b now⟩

def full (now : Nat) : Bucket K := ⟨p.capacity, now, p.capacity_nonneg⟩

/-- A token is put back. -/
def give (b : Bucket K) : Bucket K where
  tokens := min (b.tokens + 1) p.capacity
  updated := b.updated
  nonneg := le_min (by linarith [b.nonneg]) p.capacity_nonneg

/-- A token is taken. -/
def spend (b : Bucket K) (h : 1 ≤ b.tokens) : Bucket K := ⟨b.tokens - 1, b.updated, sub_nonneg.mpr h⟩

theorem level_full (t now : Nat) : level p (full p t) now = p.capacity :=
  min_eq_right (by simpa [full] using gained_nonneg p (now - t))

/-- Counting in between changes nothing. -/
theorem level_level (ht : b.updated ≤ t) (hn : t ≤ now) : level p (counted p b t) now = level p b now := by
  have hsplit : ((now - b.updated : Nat) : K) = (t - b.updated : Nat) + (now - t : Nat) := by
    rw [← Nat.cast_add]
    congr 1
    omega
  have hg := gained_nonneg p (now - t)
  unfold counted level
  dsimp only
  rw [hsplit, add_mul, ← add_assoc]
  -- a bucket that was full stays full
  rcases le_total (b.tokens + (t - b.updated : Nat) * p.perTick) p.capacity with h | h
  · rw [min_eq_left h]
  · rw [min_eq_right h, min_eq_right (by linarith), min_eq_right (by linarith)]

/-! ## Tokens spent in a window -/

/-- `n` tokens were spent in the ticks from `a` to `b`. What the bucket holds and what was
spent were both there at `a` or came since. -/
structure Spent (a b n : Nat) (k : Bucket K) : Prop where
  before : k.updated < a → n = 0
  inside : a ≤ k.updated → k.updated ≤ b → n + k.tokens ≤ p.capacity + (k.updated - a : Nat) * p.perTick
  behind : b < k.updated → (n : K) ≤ p.capacity + (b - a : Nat) * p.perTick

variable {a e n : Nat} {k : Bucket K}

theorem spent_full (a e now : Nat) : Spent p a e 0 (full p now) where
  before _ := rfl
  inside _ _ := by simpa [full] using gained_nonneg p (now - a)
  behind _ := by simpa using add_nonneg p.capacity_nonneg (gained_nonneg p (e - a))

theorem gained_mono {m n : Nat} (h : m ≤ n) : m * p.perTick ≤ n * p.perTick :=
  mul_le_mul_of_nonneg_right (Nat.cast_le.mpr h) p.perTick_pos.le

theorem Spent.bound (h : Spent p a e n k) (hae : a ≤ e) :
    (n : K) ≤ p.capacity + (e - a : Nat) * p.perTick := by
  have hc := p.capacity_nonneg
  have hg := gained_nonneg p (e - a)
  rcases Nat.lt_or_ge k.updated a with hb | hb
  · rw [h.before hb, Nat.cast_zero]
    linarith
  rcases Nat.lt_or_ge e k.updated with he | he
  · exact h.behind he
  · have := h.inside hb he
    have := gained_mono p (show k.updated - a ≤ e - a by omega)
    have := k.nonneg
    linarith

/-- Counting the bucket later spends nothing. -/
theorem Spent.level (h : Spent p a e n k) (hae : a ≤ e) (hn : k.updated ≤ now) :
    Spent p a e n (counted p k now) where
  before hb := h.before (lt_of_le_of_lt hn hb)
  inside ha he := by
    have hle : TokenBucket.level p k now ≤ _ := level_le_gained p k now
    rcases Nat.lt_or_ge k.updated a with hb | hb
    · rw [h.before hb, Nat.cast_zero, zero_add]
      have := level_le p k now
      have := gained_nonneg p (now - a)
      unfold counted
      linarith
    · have hin := h.inside hb (hn.trans he)
      have hsplit : ((now - a : Nat) : K) = (k.updated - a : Nat) + (now - k.updated : Nat) := by
        rw [← Nat.cast_add]
        congr 1
        omega
      unfold counted
      dsimp only
      rw [hsplit, add_mul]
      linarith
  behind _ := h.bound p hae

/-- A token is spent at the tick the bucket was counted. -/
theorem Spent.take (h : Spent p a e n k) (ht : 1 ≤ k.tokens) :
    Spent p a e (if a ≤ k.updated ∧ k.updated ≤ e then n + 1 else n) (spend k ht) where
  before hb := by
    have hb : k.updated < a := hb
    rw [if_neg (by omega)]
    exact h.before hb
  inside ha he := by
    have := h.inside ha he
    rw [if_pos ⟨ha, he⟩, Nat.cast_add, Nat.cast_one]
    unfold spend
    dsimp only
    linarith
  behind hb := by
    have hb : e < k.updated := hb
    rw [if_neg (by omega)]
    exact h.behind hb

/-- A token spent at the tick the bucket was counted comes back. -/
theorem Spent.give (h : Spent p a e (if a ≤ k.updated ∧ k.updated ≤ e then n + 1 else n) k) :
    Spent p a e n (give p k) where
  before hb := by
    have hb : k.updated < a := hb
    rw [if_neg (by omega)] at h
    exact h.before hb
  inside ha he := by
    rw [if_pos ⟨ha, he⟩] at h
    have := h.inside ha he
    rw [Nat.cast_add, Nat.cast_one] at this
    have hle : (TokenBucket.give p k).tokens ≤ k.tokens + 1 := min_le_left _ _
    have hu : (TokenBucket.give p k).updated = k.updated := rfl
    rw [hu]
    linarith
  behind hb := by
    have hb : e < k.updated := hb
    rw [if_neg (by omega)] at h
    exact h.behind hb

end MinMcp.Core.TokenBucket
