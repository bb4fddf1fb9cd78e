import MinMcp.L4App.ExactLimit
import Mathlib.Data.Finset.Card

/-!
# A refused call costs nothing

A call is charged to one tier after the other; the first enforced tier to refuse it gives back
what the tiers before it took (src/surface/dispatch.rs:400-418). A tier that only reports stays
counted up to the time of the call, with nothing taken.

* `Alike`: at a time, buckets that hold the same under the limits of some keys and are the same
  elsewhere. `answers_eq`: from then on they answer alike.
* `pass_alike`: with what is charged given back, the buckets are alike at every tier.
* `refused_costs_nothing`: so they are after a refused call.
-/
namespace MinMcp.L4.ExactLimit

open MinMcp.Core
open MinMcp.L4.RateLimit (Limit RateLimits Call Tier Ledger tiers maxBuckets refundAll pass rateLimited pass_ok
  pass_error)

/-! ## One call -/

/-- The buckets without rounding. -/
def exact : Ledger Buckets := ⟨take, refund⟩

/-- A take or a refund of some bucket. -/
inductive Op where
  | take (key : String) (limit : Limit) (time : Nat)
  | refund (key : String) (limit : Limit) (time : Nat)

def Op.key : Op → String
  | .take key _ _ | .refund key _ _ => key

def Op.limit : Op → Limit
  | .take _ limit _ | .refund _ limit _ => limit

def Op.time : Op → Nat
  | .take _ _ time | .refund _ _ time => time

/-- What the takes of a sequence answer. -/
def answers (map : Buckets) : List Op → List (Except Nat Unit)
  | [] => []
  | .take key limit t :: ops => (take map key limit t).1 :: answers (take map key limit t).2 ops
  | .refund key limit t :: ops => answers (refund map key limit t) ops

/-! ## Room for every key -/

variable {map map' : Buckets} {key k : String} {limit : Limit} {now t : Nat} {K : Finset String}

/-- The buckets are among these keys. -/
def Among (K : Finset String) (map : Buckets) : Prop := ∀ k ∈ OrderedMap.keys map.entries, k ∈ K

theorem evict_of_among (h : Among K map) (hK : K.card ≤ maxBuckets) (hk : key ∈ K) (now : Nat) :
    map.evict key now = map := by
  cases hl : map.lookup key with
  | some b => exact evict_of_lookup hl
  | none =>
    apply evict_of_length
    -- the key itself is not one of them
    have hsub : (OrderedMap.keys map.entries).toFinset ⊆ K.erase key := by
      intro k hk'
      rw [List.mem_toFinset] at hk'
      refine Finset.mem_erase.mpr ⟨?_, h k hk'⟩
      rintro rfl
      exact OrderedMap.lookup_eq_none.mp hl hk'
    have hcard := Finset.card_le_card hsub
    rw [List.toFinset_card_of_nodup map.nodup, Finset.card_erase_of_mem hk, OrderedMap.keys,
      List.length_map] at hcard
    have : 0 < K.card := Finset.card_pos.mpr ⟨key, hk⟩
    omega

theorem Among.insert (h : Among K map) (hk : key ∈ K) (b : Bucket) : Among K (map.insert key b) := by
  intro k hk'
  rcases OrderedMap.mem_keys_insert (k := key) b map.entries |>.mp hk' with rfl | hk'
  · exact hk
  · exact h k hk'

/-! ## What a bucket holds -/

/-- What the bucket of the key holds, a new one included. -/
def held (map : Buckets) (key : String) (limit : Limit) (now : Nat) : ℚ :=
  refilled limit (entry map key limit now) now

theorem held_congr (h : map.lookup key = map'.lookup key) (limit : Limit) (now : Nat) :
    held map key limit now = held map' key limit now := by
  unfold held entry
  rw [h]

theorem take_ok (he : map.evict key now = map) (h : 1 ≤ held map key limit now) :
    take map key limit now =
      (.ok (), map.insert key ⟨held map key limit now - 1, now, sub_nonneg.mpr h⟩) := by
  unfold take
  simp only [he]
  exact dif_pos h

theorem take_refused (he : map.evict key now = map) (h : ¬ 1 ≤ held map key limit now) :
    take map key limit now = (.error (retryIn (held map key limit now) limit),
      map.insert key ⟨held map key limit now, now, refilled_nonneg limit _ now⟩) := by
  unfold take
  simp only [he]
  exact dif_neg h

/-- The bucket a refund leaves. -/
def refunded (limit : Limit) (b : Bucket) (now : Nat) : Bucket where
  tokens := min (refilled limit b now + 1) (capacity limit)
  updated := now
  nonneg := le_min (by linarith [refilled_nonneg limit b now])
    (zero_le_one.trans (one_le_capacity limit))

/-- Capping before the token is put back makes no difference. -/
theorem lookup_refund (map : Buckets) (key k : String) (limit : Limit) (now : Nat) :
    (refund map key limit now).lookup k =
      if k = key then (map.lookup k).map (refunded limit · now) else map.lookup k := by
  have hmin : ∀ x : ℚ, min (x + 1) (capacity limit) = min (min x (capacity limit) + 1) (capacity limit) := by
    intro x
    rcases le_total x (capacity limit) with h | h
    · rw [min_eq_left h]
    · rw [min_eq_right h, min_eq_right (by linarith), min_eq_right (by linarith)]
  unfold refund
  by_cases hk : k = key
  · subst hk
    rw [if_pos rfl]
    cases hl : map.lookup k with
    | none => exact hl
    | some b =>
      dsimp only
      rw [lookup_insert_self, Option.map_some, refunded]
      simp only [Option.some.injEq, TokenBucket.Bucket.mk.injEq, and_true]
      exact hmin _
  · rw [if_neg hk]
    cases map.lookup key with
    | none => rfl
    | some b => exact lookup_insert_of_ne hk _

/-- A refund puts one token back, into a bucket that is there or not. -/
theorem held_refund (map : Buckets) (key : String) (limit : Limit) (now : Nat) :
    held (refund map key limit now) key limit now = min (held map key limit now + 1) (capacity limit) := by
  unfold held entry
  rw [lookup_refund, if_pos rfl]
  cases map.lookup key with
  | none =>
    have hc : refilled limit ⟨capacity limit, now, zero_le_one.trans (one_le_capacity limit)⟩ now =
        capacity limit := by
      rw [refilled_eq]
      exact TokenBucket.level_full (pace limit) now now
    simp only [Option.map_none, Option.getD_none, hc]
    exact (min_eq_right (by linarith)).symm
  | some b =>
    simp only [Option.map_some, Option.getD_some]
    rw [refilled_eq limit (refunded limit b now)]
    exact TokenBucket.level_self (pace limit) (min_le_right _ _)

/-- Every bucket was counted by now. -/
def Counted (now : Nat) (map : Buckets) : Prop := ∀ k b, map.lookup k = some b → b.updated ≤ now

/-- What is held later follows from what is held now. -/
theorem held_later (h : Counted now map) (ht : now ≤ t) (key : String) (limit : Limit) :
    held map key limit t =
      min (held map key limit now + (t - now : Nat) * (pace limit).perTick) (capacity limit) := by
  unfold held entry
  cases hl : map.lookup key with
  | none =>
    have hfull : ∀ n, refilled limit ⟨capacity limit, n, zero_le_one.trans (one_le_capacity limit)⟩ n =
        capacity limit := by
      intro n
      rw [refilled_eq]
      exact TokenBucket.level_full (pace limit) n n
    simp only [Option.getD_none, hfull]
    have := TokenBucket.gained_nonneg (pace limit) (t - now)
    exact (min_eq_right (by linarith)).symm
  | some b =>
    simp only [Option.getD_some, refilled_eq]
    exact (TokenBucket.level_level (pace limit) (h key b hl) ht).symm

theorem Counted.mono (h : Counted now map) (ht : now ≤ t) : Counted t map :=
  fun k b hl => (h k b hl).trans ht

theorem Counted.insert (h : Counted now map) (key : String) {b : Bucket} (hb : b.updated = now) :
    Counted now (map.insert key b) := by
  intro k b' hl
  by_cases hk : k = key
  · subst hk
    rw [lookup_insert_self] at hl
    obtain rfl := Option.some.inj hl
    exact hb.le
  · rw [lookup_insert_of_ne hk] at hl
    exact h k b' hl

theorem Counted.refund (h : Counted now map) (key : String) (limit : Limit) :
    Counted now (refund map key limit now) := by
  intro k b hl
  rw [lookup_refund] at hl
  split at hl
  · obtain ⟨b', -, rfl⟩ := Option.map_eq_some_iff.mp hl
    exact Nat.le_refl _
  · exact h k b hl

theorem Among.refund (h : Among K map) (key : String) (limit : Limit) (now : Nat) :
    Among K (refund map key limit now) := by
  unfold ExactLimit.refund
  cases hl : map.lookup key with
  | none => exact h
  | some b => exact h.insert (h key (OrderedMap.mem_keys_of_lookup hl)) _

/-! ## Buckets that answer alike -/

/-- Now, the bucket of each key is the same, or holds the same under its limit `L`. -/
def Alike (now : Nat) (L : String → Limit → Prop) (map map' : Buckets) : Prop :=
  ∀ k, map.lookup k = map'.lookup k ∨ ∃ limit, L k limit ∧ held map k limit now = held map' k limit now

variable {L : String → Limit → Prop}

theorem Alike.later (h : Alike now L map map') (hm : Counted now map) (hm' : Counted now map')
    (ht : now ≤ t) : Alike t L map map' := by
  intro k
  rcases h k with he | ⟨limit, hl, he⟩
  · exact Or.inl he
  · refine Or.inr ⟨limit, hl, ?_⟩
    rw [held_later hm ht, held_later hm' ht, he]

theorem Alike.held_eq (h : Alike now L map map') (hl : ∀ limit', L key limit' → limit' = limit) :
    held map key limit now = held map' key limit now := by
  rcases h key with he | ⟨limit', hk, he⟩
  · exact held_congr he limit now
  · rwa [hl limit' hk] at he

theorem Alike.insert (h : Alike now L map map') (key : String) (b : Bucket) :
    Alike now L (map.insert key b) (map'.insert key b) := by
  intro k
  by_cases hk : k = key
  · rw [hk, lookup_insert_self, lookup_insert_self]
    exact Or.inl rfl
  · rw [lookup_insert_of_ne hk, lookup_insert_of_ne hk]
    rcases h k with he | ⟨limit, hl, he⟩
    · exact Or.inl he
    · refine Or.inr ⟨limit, hl, ?_⟩
      rwa [held_congr (lookup_insert_of_ne hk b), held_congr (lookup_insert_of_ne hk b)]

theorem Alike.refund (h : Alike now L map map') (hl : ∀ limit', L key limit' → limit' = limit) :
    Alike now L (refund map key limit now) (refund map' key limit now) := by
  intro k
  have hother : ∀ m : Buckets, k ≠ key → (ExactLimit.refund m key limit now).lookup k = m.lookup k := by
    intro m hk
    rw [lookup_refund, if_neg hk]
  rcases h k with he | ⟨limit', hk', he⟩
  · exact Or.inl (by rw [lookup_refund, lookup_refund, he])
  · refine Or.inr ⟨limit', hk', ?_⟩
    by_cases hk : k = key
    · subst hk
      rw [hl limit' hk'] at he ⊢
      rw [held_refund, held_refund, he]
    · rwa [held_congr (hother map hk), held_congr (hother map' hk)]

/-- **Answers.** Alike buckets answer every later sequence of takes and refunds alike. -/
theorem answers_eq {ops : List Op} (h : Alike now L map map') (hm : Counted now map)
    (hm' : Counted now map') (hK : K.card ≤ maxBuckets) (ha : Among K map) (ha' : Among K map')
    (ho : ∀ op ∈ ops, op.key ∈ K) (hl : ∀ op ∈ ops, ∀ limit, L op.key limit → limit = op.limit)
    (hs : (now :: ops.map Op.time).Pairwise (· ≤ ·)) : answers map ops = answers map' ops := by
  induction ops generalizing now map map' with
  | nil => rfl
  | cons op ops ih =>
    rw [List.map_cons, List.pairwise_cons] at hs
    have ht : now ≤ op.time := hs.1 op.time List.mem_cons_self
    have h := h.later hm hm' ht
    have hm := hm.mono ht
    have hm' := hm'.mono ht
    rw [List.forall_mem_cons] at ho hl
    obtain ⟨hk, ho⟩ := ho
    obtain ⟨hop, hl⟩ := hl
    cases op with
    | refund key limit t =>
      exact ih (h.refund hop) (hm.refund key limit) (hm'.refund key limit) (ha.refund key limit t)
        (ha'.refund key limit t) ho hl hs.2
    | take key limit t =>
      have he : map.evict key t = map := evict_of_among ha hK hk t
      have he' : map'.evict key t = map' := evict_of_among ha' hK hk t
      have hheld : held map key limit t = held map' key limit t := h.held_eq hop
      simp only [answers]
      by_cases hfit : 1 ≤ held map key limit t
      · have hfit' : 1 ≤ held map' key limit t := hheld ▸ hfit
        rw [take_ok he hfit, take_ok he' hfit']
        simp only [← hheld]
        congr 1
        exact ih (h.insert key _) (hm.insert key rfl) (hm'.insert key rfl) (ha.insert hk _)
          (ha'.insert hk _) ho hl hs.2
      · have hfit' : ¬ 1 ≤ held map' key limit t := hheld ▸ hfit
        rw [take_refused he hfit, take_refused he' hfit']
        simp only [← hheld]
        congr 1
        exact ih (h.insert key _) (hm.insert key rfl) (hm'.insert key rfl) (ha.insert hk _)
          (ha'.insert hk _) ho hl hs.2

/-! ## What a refused call leaves -/

variable {map₀ : Buckets} {charged : List (String × Limit)} {ts : List Tier}
  {logged : List (String × Nat)}

theorem refundAll_snoc (map : Buckets) (now : Nat) (charged : List (String × Limit)) (e : String × Limit) :
    refundAll exact map now (charged ++ [e]) = refund (refundAll exact map now charged) e.1 e.2 now := by
  rw [refundAll, List.foldl_append]
  rfl

theorem refundAll_cons (map : Buckets) (now : Nat) (e : String × Limit) (charged : List (String × Limit)) :
    refundAll exact map now (e :: charged) = refundAll exact (refund map e.1 e.2 now) now charged := rfl

/-- What refunds leave of a bucket depends on that bucket alone. -/
theorem lookup_refundAll (h : map.lookup k = map'.lookup k) (now : Nat) (charged : List (String × Limit)) :
    (refundAll exact map now charged).lookup k = (refundAll exact map' now charged).lookup k := by
  induction charged generalizing map map' with
  | nil => exact h
  | cons e es ih =>
    rw [refundAll_cons, refundAll_cons]
    exact ih (by rw [lookup_refund, lookup_refund, h])

theorem lookup_refundAll_of_notMem (h : k ∉ charged.map Prod.fst) (map : Buckets) (now : Nat) :
    (refundAll exact map now charged).lookup k = map.lookup k := by
  induction charged generalizing map with
  | nil => rfl
  | cons e es ih =>
    rw [List.map_cons, List.mem_cons, not_or] at h
    rw [refundAll_cons, ih h.2, lookup_refund, if_neg h.1]

theorem Counted.refundAll (h : Counted now map) (charged : List (String × Limit)) :
    Counted now (refundAll exact map now charged) := by
  induction charged generalizing map with
  | nil => exact h
  | cons e es ih => exact ih (h.refund e.1 e.2)

theorem Among.refundAll (h : Among K map) (now : Nat) (charged : List (String × Limit)) :
    Among K (refundAll exact map now charged) := by
  induction charged generalizing map with
  | nil => exact h
  | cons e es ih => exact ih (h.refund e.1 e.2 now)

/-- A bucket counted up to now still holds the same. -/
theorem held_insert (map : Buckets) (key : String) (limit : Limit) {b : Bucket} (hb : b.updated = now)
    (hc : b.tokens ≤ capacity limit) : held (map.insert key b) key limit now = b.tokens := by
  unfold held entry
  rw [lookup_insert_self, Option.getD_some, refilled_eq, ← hb]
  exact TokenBucket.level_self (pace limit) hc

theorem held_le (map : Buckets) (key : String) (limit : Limit) (now : Nat) :
    held map key limit now ≤ capacity limit := min_le_right _ _

/-- A tier that is charged and given back, or refuses, leaves its bucket with what it held. -/
theorem alike_insert (h : Alike now L (refundAll exact map now charged) map₀) (hL : L key limit)
    (hkey : ∀ limit', L key limit' → limit' = limit) {m : Buckets}
    (hm : ∀ k, k ≠ key → m.lookup k = (refundAll exact map now charged).lookup k)
    (hheld : held m key limit now = held (refundAll exact map now charged) key limit now) :
    Alike now L m map₀ := by
  intro k
  by_cases hk : k = key
  · subst hk
    exact Or.inr ⟨limit, hL, hheld.trans (h.held_eq hkey)⟩
  · rcases h k with he | ⟨limit', hl, he⟩
    · exact Or.inl ((hm k hk).trans he)
    · exact Or.inr ⟨limit', hl, (held_congr (hm k hk) limit' now).trans he⟩

theorem alike_charge (h : Alike now L (refundAll exact map now charged) map₀) (hL : L key limit)
    (hkey : ∀ limit', L key limit' → limit' = limit) (hn : key ∉ charged.map Prod.fst)
    (hfit : 1 ≤ held map key limit now) :
    Alike now L (refundAll exact (map.insert key ⟨held map key limit now - 1, now, sub_nonneg.mpr hfit⟩) now
      (charged ++ [(key, limit)])) map₀ := by
  apply alike_insert h hL hkey
  · intro k hk
    rw [refundAll_snoc, lookup_refund, if_neg hk]
    exact lookup_refundAll (lookup_insert_of_ne hk _) now charged
  · rw [refundAll_snoc, held_refund, held_congr (lookup_refundAll_of_notMem hn _ now),
      held_congr (lookup_refundAll_of_notMem hn map now),
      held_insert map key limit rfl (by linarith [held_le map key limit now])]
    dsimp only
    rw [sub_add_cancel, min_eq_left (held_le map key limit now)]

theorem alike_refuse (h : Alike now L (refundAll exact map now charged) map₀) (hL : L key limit)
    (hkey : ∀ limit', L key limit' → limit' = limit) (hn : key ∉ charged.map Prod.fst) :
    Alike now L (refundAll exact (map.insert key ⟨held map key limit now, now, refilled_nonneg limit _ now⟩) now
      charged) map₀ := by
  apply alike_insert h hL hkey
  · intro k hk
    exact lookup_refundAll (lookup_insert_of_ne hk _) now charged
  · rw [held_congr (lookup_refundAll_of_notMem hn _ now), held_congr (lookup_refundAll_of_notMem hn map now)]
    exact held_insert map key limit rfl (held_le map key limit now)

variable {t : Tier} {retry : Nat}

/-- **Pass.** A pass over the tiers that ends in a refusal leaves the buckets like those it
would have left by giving back what it had charged before. -/
theorem pass_alike (hL : ∀ t ∈ ts, L t.key t.limit)
    (hkey : ∀ t ∈ ts, ∀ limit', L t.key limit' → limit' = t.limit)
    (hn : (charged.map Prod.fst ++ ts.map Tier.key).Nodup)
    (h : Alike now L (refundAll exact map now charged) map₀) (hm : Counted now map) (ha : Among K map)
    (hK : K.card ≤ maxBuckets) (hk : ∀ t ∈ ts, t.key ∈ K)
    (hr : (pass exact now map charged logged ts).refusal ≠ none) :
    Alike now L (pass exact now map charged logged ts).buckets map₀ ∧
      Counted now (pass exact now map charged logged ts).buckets ∧
        Among K (pass exact now map charged logged ts).buckets := by
  induction ts generalizing map charged logged with
  | nil => exact absurd rfl hr
  | cons t ts ih =>
    rw [List.forall_mem_cons] at hL hkey hk
    have hnt : t.key ∉ charged.map Prod.fst := by
      intro hmem
      exact (List.nodup_append.mp hn).2.2 _ hmem _ List.mem_cons_self rfl
    have he := evict_of_among ha hK hk.1 now
    by_cases hfit : 1 ≤ held map t.key t.limit now
    · rw [pass_ok (take_ok he hfit)] at hr ⊢
      refine ih hL.2 hkey.2 ?_ (alike_charge h hL.1 hkey.1 hnt hfit) (hm.insert _ rfl)
        (ha.insert hk.1 _) hk.2 hr
      simpa using hn
    · have halike := alike_refuse h hL.1 hkey.1 hnt
      rw [pass_error (take_refused he hfit)] at hr ⊢
      split at hr
      · rename_i henf
        rw [if_pos henf]
        exact ⟨halike, (hm.insert _ rfl).refundAll charged, (ha.insert hk.1 _).refundAll now charged⟩
      · rename_i henf
        rw [if_neg henf]
        refine ih hL.2 hkey.2 ?_ halike (hm.insert _ rfl) (ha.insert hk.1 _) hk.2 hr
        exact hn.sublist (List.Sublist.append_left (List.sublist_cons_self _ _) _)

/-! ## The tiers of a call -/

theorem tag_head {tag : String} {ch : Char} (h : tag.toList.head? = some ch) (rest : String) :
    (tag ++ rest).toList.head? = some ch := by
  rw [String.toList_append, List.head?_append, h, Option.some_or]

theorem tags_differ {tag tag' : String} {ch ch' : Char} (h : tag.toList.head? = some ch)
    (h' : tag'.toList.head? = some ch') (hne : ch ≠ ch') (rest rest' : String) :
    tag ++ rest ≠ tag' ++ rest' := by
  intro he
  have hhead := tag_head h rest
  rw [he, tag_head h' rest', Option.some.injEq] at hhead
  exact hne hhead.symm

theorem head_caller : "caller:".toList.head? = some 'c' := rfl

theorem head_tool : "tool:".toList.head? = some 't' := rfl

theorem head_overlay : "overlay:".toList.head? = some 'o' := rfl

theorem heads_tier {f : Limit → Tier} {ch : Char} (h : ∀ l, (f l).key.toList.head? = some ch)
    (o : Option Limit) :
    (((o.map f).toList.map Tier.key).map fun key => key.toList.head?).Sublist [some ch] := by
  cases o with
  | none => exact List.nil_sublist _
  | some l =>
    rw [Option.map_some, Option.toList_some, List.map_singleton, List.map_singleton, h]

/-- The keys of different tiers begin with different letters. -/
theorem tiers_nodup (rl : RateLimits) (c : Call) : ((tiers rl c).map Tier.key).Nodup := by
  apply List.Nodup.of_map fun key => key.toList.head?
  have hletters : ([some 'c'] ++ [some 't'] ++ [some 'o']).Nodup := by decide
  refine hletters.sublist ?_
  unfold tiers
  rw [List.map_append, List.map_append, List.map_append, List.map_append]
  refine List.Sublist.append (List.Sublist.append ?_ ?_) ?_
  · refine heads_tier (fun l => ?_) rl.perCaller
    exact tag_head head_caller c.who
  · refine heads_tier (fun l => ?_) rl.perTool
    exact tag_head (tag_head (tag_head head_tool c.who) ":") c.toolId
  · refine heads_tier (fun l => ?_) (rl.overlayLimit c.toolId)
    exact tag_head head_overlay c.toolId

theorem tier_cases {rl : RateLimits} {c : Call} {t : Tier} (h : t ∈ tiers rl c) :
    (t.key = "caller:" ++ c.who ∧ rl.perCaller = some t.limit) ∨
    (t.key = "tool:" ++ (c.who ++ ":" ++ c.toolId) ∧ rl.perTool = some t.limit) ∨
    (t.key = "overlay:" ++ c.toolId ∧ rl.overlayLimit c.toolId = some t.limit) := by
  unfold tiers at h
  simp only [List.mem_append, Option.mem_toList, Option.map_eq_some_iff] at h
  rcases h with (⟨l, hl, rfl⟩ | ⟨l, hl, rfl⟩) | ⟨l, hl, rfl⟩
  · exact Or.inl ⟨rfl, hl⟩
  · have hkey : "tool:" ++ c.who ++ ":" ++ c.toolId = "tool:" ++ (c.who ++ ":" ++ c.toolId) := by
      rw [String.append_assoc, String.append_assoc, String.append_assoc]
    exact Or.inr (Or.inl ⟨hkey, hl⟩)
  · exact Or.inr (Or.inr ⟨rfl, hl⟩)

/-- A key has one limit, whoever calls. -/
theorem tier_limit_unique {rl : RateLimits} {c c' : Call} {t t' : Tier} (h : t ∈ tiers rl c)
    (h' : t' ∈ tiers rl c') (hk : t.key = t'.key) : t.limit = t'.limit := by
  rcases tier_cases h with ⟨hk₁, hl⟩ | ⟨hk₁, hl⟩ | ⟨hk₁, hl⟩ <;>
    rcases tier_cases h' with ⟨hk₂, hl'⟩ | ⟨hk₂, hl'⟩ | ⟨hk₂, hl'⟩ <;> rw [hk₁, hk₂] at hk
  · exact Option.some.inj (hl.symm.trans hl')
  · exact absurd hk (tags_differ head_caller head_tool (by decide) _ _)
  · exact absurd hk (tags_differ head_caller head_overlay (by decide) _ _)
  · exact absurd hk (tags_differ head_tool head_caller (by decide) _ _)
  · exact Option.some.inj (hl.symm.trans hl')
  · exact absurd hk (tags_differ head_tool head_overlay (by decide) _ _)
  · exact absurd hk (tags_differ head_overlay head_caller (by decide) _ _)
  · exact absurd hk (tags_differ head_overlay head_tool (by decide) _ _)
  · rw [String.append_right_inj] at hk
    rw [hk] at hl
    exact Option.some.inj (hl.symm.trans hl')

/-- **Refusal.** After a refused call the buckets answer every later sequence of takes and
refunds as if the call had not been made. -/
theorem refused_costs_nothing (rl : RateLimits) (map : Buckets) (c : Call) (ops : List Op)
    (K : Finset String) (hK : K.card ≤ maxBuckets) (hmap : ∀ k ∈ OrderedMap.keys map.entries, k ∈ K)
    (htiers : ∀ t ∈ tiers rl c, t.key ∈ K) (hops : ∀ op ∈ ops, op.key ∈ K)
    (hlimit : ∀ op ∈ ops, ∀ t ∈ tiers rl c, t.key = op.key → t.limit = op.limit)
    (hnow : ∀ k b, map.lookup k = some b → b.updated ≤ c.now)
    (hlater : (c.now :: ops.map Op.time).Pairwise (· ≤ ·))
    (hr : (rateLimited exact rl map c).refusal ≠ none) :
    answers (rateLimited exact rl map c).buckets ops = answers map ops := by
  let L (key : String) (limit : Limit) : Prop := ∃ t ∈ tiers rl c, t.key = key ∧ t.limit = limit
  have hkey : ∀ t ∈ tiers rl c, ∀ limit', L t.key limit' → limit' = t.limit := by
    rintro t ht limit' ⟨t', ht', hk, rfl⟩
    exact tier_limit_unique ht' ht hk
  have hL : ∀ t ∈ tiers rl c, L t.key t.limit := fun t ht => ⟨t, ht, rfl, rfl⟩
  have hnodup : (([] : List (String × Limit)).map Prod.fst ++ (tiers rl c).map Tier.key).Nodup :=
    tiers_nodup rl c
  have hsame : Alike c.now L (refundAll exact map c.now []) map := fun k => Or.inl rfl
  obtain ⟨halike, hcounted, hamong⟩ := pass_alike hL hkey hnodup hsame hnow hmap hK htiers hr
  refine answers_eq halike hcounted hnow hK hamong hmap hops ?_ hlater
  rintro op hop limit ⟨t, ht, hk, rfl⟩
  exact hlimit op hop t ht hk

/-- Ten calls a minute for a caller, one for a caller on a tool. -/
def exampleLimits : RateLimits where
  perCaller := some ⟨10, 60⟩
  perTool := some ⟨1, 60⟩
  reportOnly := false
  overlayLimit _ := none

/-- One call of the tool went through. -/
def once : Buckets := (rateLimited exact exampleLimits .empty ⟨"a", "x", 0⟩).buckets

/-- The second is refused by the tool's budget, and the caller's is as before. -/
theorem second_call_costs_nothing :
    answers (rateLimited exact exampleLimits once ⟨"a", "x", 10 ^ 9⟩).buckets
        [.take "caller:a" ⟨10, 60⟩ (2 * 10 ^ 9), .take "tool:a:x" ⟨1, 60⟩ (61 * 10 ^ 9)] =
      answers once [.take "caller:a" ⟨10, 60⟩ (2 * 10 ^ 9), .take "tool:a:x" ⟨1, 60⟩ (61 * 10 ^ 9)] := by
  have hkeys : ∀ k b, once.lookup k = some b → b.updated ≤ 10 ^ 9 := by
    intro k b h
    have hall : ∀ e ∈ once.entries, e.2.updated ≤ 10 ^ 9 := by decide +kernel
    exact hall (k, b) (OrderedMap.mem_of_lookup h)
  exact refused_costs_nothing exampleLimits once ⟨"a", "x", 10 ^ 9⟩ _ {"caller:a", "tool:a:x"}
    (by decide) (by decide +kernel) (by decide +kernel) (by decide +kernel) (by decide +kernel) hkeys
    (by decide) (by decide +kernel)

end MinMcp.L4.ExactLimit
