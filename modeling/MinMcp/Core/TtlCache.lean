import MinMcp.Core.OrderedMap

/-!
# A bounded cache with a time to live

An entry is a value and the time it was stored at. `get` serves what is younger than the time
to live; `put` makes room first when the cache is full: expired entries go, and all entries
when that is not enough.

* `lookup_put`: behind `put`, a key has the new entry or its old one.
* `get_put_self`, `get_put_of_ne`: so it has for `get`.
* `mem_of_get`, `mem_put`: nothing else is served or kept.
* `get_mono`: what is served later was served before, unless it was stored in between.
-/
namespace MinMcp.Core.TtlCache

open MinMcp.Core.OrderedMap

variable {κ α : Type}

structure Entry (α : Type) where
  storedAt : Nat
  value : α
  deriving DecidableEq

def Entry.live (ttl now : Nat) (e : Entry α) : Bool := now - e.storedAt < ttl

def makeRoom (cap ttl now : Nat) (c : List (κ × Entry α)) : List (κ × Entry α) :=
  if cap ≤ c.length then
    let kept := c.filter fun p => p.2.live ttl now
    if cap ≤ kept.length then [] else kept
  else c

theorem makeRoom_sublist (cap ttl now : Nat) (c : List (κ × Entry α)) :
    (makeRoom cap ttl now c).Sublist c := by
  simp only [makeRoom]
  split
  · split
    · exact List.nil_sublist c
    · exact List.filter_sublist
  · exact List.Sublist.refl c

variable [DecidableEq κ]

def get (ttl now : Nat) (c : List (κ × Entry α)) (k : κ) : Option α :=
  ((c.lookup k).filter (Entry.live ttl now)).map Entry.value

def put (cap ttl now : Nat) (k : κ) (v : α) (c : List (κ × Entry α)) : List (κ × Entry α) :=
  insert k ⟨now, v⟩ (makeRoom cap ttl now c)

theorem nodup_put (cap ttl now : Nat) (k : κ) (v : α) {c : List (κ × Entry α)} (hn : (keys c).Nodup) :
    (keys (put cap ttl now k v c)).Nodup :=
  nodup_insert k _ (hn.sublist ((makeRoom_sublist cap ttl now c).map Prod.fst))

/-- Making room takes entries out and changes none. -/
theorem lookup_makeRoom {cap ttl now : Nat} {c : List (κ × Entry α)} (hn : (keys c).Nodup) {k : κ}
    {e : Entry α} (h : (makeRoom cap ttl now c).lookup k = some e) : c.lookup k = some e :=
  lookup_of_mem hn ((makeRoom_sublist cap ttl now c).subset (mem_of_lookup h))

theorem lookup_put {cap ttl now : Nat} {k k' : κ} {v : α} {c : List (κ × Entry α)} {e : Entry α}
    (hn : (keys c).Nodup) (h : (put cap ttl now k v c).lookup k' = some e) :
    (k' = k ∧ e = ⟨now, v⟩) ∨ (k' ≠ k ∧ c.lookup k' = some e) := by
  unfold put at h
  by_cases hk : k' = k
  · subst hk
    rw [lookup_insert_self, Option.some.injEq] at h
    exact Or.inl ⟨rfl, h.symm⟩
  · rw [lookup_insert_of_ne hk] at h
    exact Or.inr ⟨hk, lookup_makeRoom hn h⟩

theorem get_eq_some {ttl now : Nat} {c : List (κ × Entry α)} {k : κ} {v : α} :
    get ttl now c k = some v ↔ ∃ at_, c.lookup k = some ⟨at_, v⟩ ∧ now - at_ < ttl := by
  simp only [get, Option.map_eq_some_iff, Option.filter_eq_some_iff, Entry.live, decide_eq_true_eq]
  constructor
  · intro ⟨e, ⟨he, hl⟩, hv⟩
    exact ⟨e.storedAt, by rw [he, ← hv], hl⟩
  · intro ⟨at_, he, hl⟩
    exact ⟨⟨at_, v⟩, ⟨he, hl⟩, rfl⟩

theorem mem_of_get {ttl now : Nat} {c : List (κ × Entry α)} {k : κ} {v : α} (h : get ttl now c k = some v) :
    ∃ at_, (k, ⟨at_, v⟩) ∈ c := by
  obtain ⟨at_, he, -⟩ := get_eq_some.mp h
  exact ⟨at_, mem_of_lookup he⟩

/-- Whatever is evicted, the new entry and some of the old ones are left. -/
theorem mem_put {cap ttl now : Nat} {k : κ} {v : α} {c : List (κ × Entry α)} {p : κ × Entry α}
    (h : p ∈ put cap ttl now k v c) : p = (k, ⟨now, v⟩) ∨ p ∈ c :=
  (mem_insert h).imp_right fun hp => (makeRoom_sublist cap ttl now c).subset hp

/-- Under the key that was stored only the new value is served. -/
theorem get_put_self {cap ttl now now' : Nat} {k : κ} {v w : α} {c : List (κ × Entry α)}
    (h : get ttl now' (put cap ttl now k v c) k = some w) : w = v := by
  obtain ⟨at_, he, -⟩ := get_eq_some.mp h
  rw [put, lookup_insert_self, Option.some.injEq, Entry.mk.injEq] at he
  exact he.2.symm

theorem get_put_of_ne {cap ttl now now' : Nat} {k k' : κ} {v w : α} {c : List (κ × Entry α)}
    (hn : (keys c).Nodup) (hk : k' ≠ k) (h : get ttl now' (put cap ttl now k v c) k' = some w) :
    get ttl now' c k' = some w := by
  obtain ⟨at_, he, hl⟩ := get_eq_some.mp h
  rcases lookup_put hn he with ⟨hk', -⟩ | ⟨-, he⟩
  · exact absurd hk' hk
  · exact get_eq_some.mpr ⟨at_, he, hl⟩

theorem get_mono {ttl now now' : Nat} (hle : now ≤ now') {c : List (κ × Entry α)} {k : κ} {v : α}
    (h : get ttl now' c k = some v) : get ttl now c k = some v := by
  obtain ⟨at_, he, hl⟩ := get_eq_some.mp h
  exact get_eq_some.mpr ⟨at_, he, by omega⟩

theorem get_put_now {cap ttl now : Nat} (ht : 0 < ttl) (k : κ) (v : α) (c : List (κ × Entry α)) :
    get ttl now (put cap ttl now k v c) k = some v := by
  refine get_eq_some.mpr ⟨now, lookup_insert_self k _ _, ?_⟩
  omega

end MinMcp.Core.TtlCache
