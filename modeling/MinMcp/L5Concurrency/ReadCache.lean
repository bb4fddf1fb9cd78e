import MinMcp.Core.LTS
import MinMcp.Core.TtlCache
import MinMcp.L1Encoding.CanonicalArgs
import Mathlib.Logic.Function.Basic

/-!
# The read cache under concurrent calls

Reads look the cache up, ask the upstream on a miss and insert the answer; a write
asks the upstream and then drops the cached reads of that upstream
(`surface/dispatch.rs:145-165, 259-300`, `surface/cache.rs:50-62`). Each of these is
a step of its own, so calls overlap freely, and a re-index may swap the catalog
(`surface/catalog.rs:338`) between any two.

Values are told apart by the version of the upstream's data they were read from:
an upstream is at version `n` after `n` writes were performed on it. Calls the code
treats as reads are taken not to change the upstream.

`Coherent` is the promise: no cached answer is older than a write that returned
before the read started. `Safe` is the condition on each step under which it holds:

* an answer is inserted only while no newer write has dropped its upstream's reads,
* a drop finds every cached value of the upstream through the current catalog,
* no write is performed after its own call dropped the reads (a call that timed out).

Results: `inv_step`, `invariant`, and `coherent_of_safe` for whole runs.
`late_insert_is_stale` is a run with one read that straddles a write.
-/
namespace MinMcp.L5.ReadCache

open MinMcp.Core MinMcp.L1.CanonicalArgs

/-- mirrors src/upstream.rs:165-180 -/
structure ToolDef where
  upstream : Nat
  readOnly : Option Bool
  deriving DecidableEq

/-- `by_id`, with the definitions it points at. -/
abbrev Catalog := List (String × ToolDef)

structure Config where
  readCacheTtlS : Nat
  /-- The overlay's `cacheable`. -/
  cacheable : String → Option Bool

/-- mirrors src/surface/cache.rs:67-75 -/
def cacheAllowed (cfg : Config) (toolId : String) (readOnly : Option Bool) : Bool :=
  if cfg.readCacheTtlS = 0 then false
  else (cfg.cacheable toolId).getD (readOnly = some true)

/-- mirrors src/surface/cache.rs:8 -/
def readCacheMaxEntries : Nat := 512

/-- The tool and the canonical text of its arguments. -/
structure CacheKey where
  tool : String
  args : String
  deriving DecidableEq

/-- A cached result: which upstream produced it, and from which version of its data. -/
structure Cached where
  upstream : Nat
  version : Nat
  deriving DecidableEq

abbrev Cache := List (CacheKey × TtlCache.Entry Cached)

/-- The reads of an upstream, as far as the catalog knows them.
mirrors src/surface/cache.rs:53-62 -/
def bustUpstreamCache (cat : Catalog) (cache : Cache) (upstream : Nat) : Cache :=
  cache.filter fun p => (cat.lookup p.1.tool).all fun d => d.upstream ≠ upstream

/-- A call treated as a read. `floor` holds, for each upstream, the newest write that
had returned when the call started. -/
structure Read where
  key : CacheKey
  upstream : Nat
  cacheable : Bool
  floor : Nat → Nat

inductive Call where
  | idle
  /-- Before its cache lookup. -/
  | looking (r : Read)
  /-- Missed; the request is under way. -/
  | asking (r : Read)
  /-- The upstream produced its answer. -/
  | answered (r : Read) (version : Nat)
  /-- A write, with the version it brought about once it is performed. -/
  | writing (upstream : Nat) (performed : Option Nat)
  /-- It has dropped the cached reads. -/
  | busted (upstream : Nat) (performed : Option Nat)
  | returned (upstream : Nat) (performed : Option Nat)
  | done

/-- A read answered from the cache: the version of the value, and the newest write to
its upstream that had returned when the read started. -/
structure CachedAnswer where
  call : Nat
  version : Nat
  floor : Nat
  deriving DecidableEq

structure State where
  catalog : Catalog
  cache : Cache
  now : Nat
  calls : Nat → Call
  /-- Writes performed on an upstream. -/
  version : Nat → Nat
  /-- The newest write performed whose call has dropped the cached reads. -/
  busted : Nat → Nat
  /-- The newest write performed whose call has returned. -/
  returned : Nat → Nat
  answers : List CachedAnswer

inductive Label where
  | start (call : Nat) (tool : String) (args : Json)
  | lookup (call : Nat)
  /-- The upstream performs the request of a call, at the latest after it timed out. -/
  | perform (call : Nat)
  | insert (call : Nat)
  /-- A read ends without an insertion: an error, a partial or a large result, a tool
  that is not cached, a call refused before it was sent. -/
  | finish (call : Nat)
  /-- A write is refused before it is sent. -/
  | refuse (call : Nat)
  | bust (call : Nat)
  | ret (call : Nat)
  | swap (catalog : Catalog)
  | tick

/-- Raises an upstream's ghost counter to the write's version. -/
def raise (f : Nat → Nat) (upstream : Nat) (performed : Option Nat) : Nat → Nat :=
  Function.update f upstream (max (f upstream) (performed.getD 0))

variable (cfg : Config)

/-- A call is a read if the upstream says so or an overlay opted it into the cache.
mirrors src/surface/dispatch.rs:145-156 -/
def openCall (s : State) (tool : String) (args : Json) (d : ToolDef) : Call :=
  let cacheable := cacheAllowed cfg tool d.readOnly
  if d.readOnly = some true ∨ cacheable then
    .looking ⟨⟨tool, canonicalArgs args⟩, d.upstream, cacheable, s.returned⟩
  else .writing d.upstream none

/-- An unknown tool is refused.
mirrors src/surface/dispatch.rs:28-44 -/
def startCall (s : State) (call : Nat) (tool : String) (args : Json) : Option State :=
  match s.calls call with
  | .idle => (s.catalog.lookup tool).map fun d =>
    { s with calls := Function.update s.calls call (openCall cfg s tool args d) }
  | _ => none

/-- mirrors src/surface/dispatch.rs:157-165 -/
def lookupCall (s : State) (call : Nat) : Option State :=
  match s.calls call with
  | .looking r =>
    match if r.cacheable then TtlCache.get cfg.readCacheTtlS s.now s.cache r.key else none with
    | some e => some { s with
        calls := Function.update s.calls call .done
        answers := s.answers ++ [⟨call, e.version, r.floor e.upstream⟩] }
    | none => some { s with calls := Function.update s.calls call (.asking r) }
  | _ => none

/-- The upstream's own step. -/
def performCall (s : State) (call : Nat) : Option State :=
  match s.calls call with
  | .asking r => some { s with calls := Function.update s.calls call (.answered r (s.version r.upstream)) }
  | .writing u none => some { s with
      calls := Function.update s.calls call (.writing u (some (s.version u + 1)))
      version := Function.update s.version u (s.version u + 1) }
  | .busted u none => some { s with
      calls := Function.update s.calls call (.busted u (some (s.version u + 1)))
      version := Function.update s.version u (s.version u + 1)
      busted := raise s.busted u (some (s.version u + 1)) }
  | .returned u none => some { s with
      calls := Function.update s.calls call (.returned u (some (s.version u + 1)))
      version := Function.update s.version u (s.version u + 1)
      busted := raise s.busted u (some (s.version u + 1))
      returned := raise s.returned u (some (s.version u + 1)) }
  | _ => none

/-- mirrors src/surface/dispatch.rs:277-291 -/
def insertCall (s : State) (call : Nat) : Option State :=
  match s.calls call with
  | .answered r v =>
    if r.cacheable then some { s with
      calls := Function.update s.calls call .done
      cache := TtlCache.put readCacheMaxEntries cfg.readCacheTtlS s.now r.key ⟨r.upstream, v⟩ s.cache }
    else none
  | _ => none

def finishCall (s : State) (call : Nat) : Option State :=
  match s.calls call with
  | .asking _ | .answered _ _ => some { s with calls := Function.update s.calls call .done }
  | _ => none

/-- mirrors src/surface/dispatch.rs:10-12, 88-95, 127-140, 173-186 -/
def refuseCall (s : State) (call : Nat) : Option State :=
  match s.calls call with
  | .writing _ none => some { s with calls := Function.update s.calls call .done }
  | _ => none

/-- Whether the write succeeded or not: a time-out can land later.
mirrors src/surface/dispatch.rs:293-299 -/
def bustCall (s : State) (call : Nat) : Option State :=
  match s.calls call with
  | .writing u p => some { s with
      calls := Function.update s.calls call (.busted u p)
      cache := bustUpstreamCache s.catalog s.cache u
      busted := raise s.busted u p }
  | _ => none

def retCall (s : State) (call : Nat) : Option State :=
  match s.calls call with
  | .busted u p => some { s with
      calls := Function.update s.calls call (.returned u p)
      returned := raise s.returned u p }
  | _ => none

def step (s : State) : Label → Option State
  | .start call tool args => startCall cfg s call tool args
  | .lookup call => lookupCall cfg s call
  | .perform call => performCall s call
  | .insert call => insertCall cfg s call
  | .finish call => finishCall s call
  | .refuse call => refuseCall s call
  | .bust call => bustCall s call
  | .ret call => retCall s call
  | .swap cat => some { s with catalog := cat }
  | .tick => some { s with now := s.now + 1 }

/-- A process starts with an empty cache and no call. -/
def initial (cat : Catalog) : State :=
  ⟨cat, [], 0, fun _ => .idle, fun _ => 0, fun _ => 0, fun _ => 0, []⟩

def system : LTS State Label := ⟨fun s => ∃ cat, s = initial cat, step cfg⟩

/-- No cached answer is older than a write to its upstream that had returned when the
read started. -/
def Coherent (s : State) : Prop := ∀ a ∈ s.answers, a.floor ≤ a.version

/-- No newer write has dropped the reads of the answer's upstream. -/
def InsertSafe (s : State) : Call → Prop
  | .answered r v => s.busted r.upstream ≤ v
  | _ => True

/-- The catalog still lists the tool of every cached value of the write's upstream. -/
def BustSafe (s : State) : Call → Prop
  | .writing u _ =>
    ∀ p ∈ s.cache, p.2.value.upstream = u → (s.catalog.lookup p.1.tool).map ToolDef.upstream = some u
  | _ => True

/-- The call has not dropped the cached reads yet. -/
def PerformSafe : Call → Prop
  | .busted _ _ | .returned _ _ => False
  | _ => True

/-- The condition on a step. -/
def Safe (s : State) : Label → Prop
  | .insert call => InsertSafe s (s.calls call)
  | .bust call => BustSafe s (s.calls call)
  | .perform call => PerformSafe (s.calls call)
  | _ => True

instance (s : State) : (c : Call) → Decidable (InsertSafe s c)
  | .answered r v => inferInstanceAs (Decidable (s.busted r.upstream ≤ v))
  | .idle | .looking _ | .asking _ | .writing _ _ | .busted _ _ | .returned _ _ | .done => isTrue trivial

instance (s : State) : (c : Call) → Decidable (BustSafe s c)
  | .writing u _ => inferInstanceAs (Decidable (∀ p ∈ s.cache, p.2.value.upstream = u →
      (s.catalog.lookup p.1.tool).map ToolDef.upstream = some u))
  | .idle | .looking _ | .asking _ | .answered _ _ | .busted _ _ | .returned _ _ | .done => isTrue trivial

instance : (c : Call) → Decidable (PerformSafe c)
  | .busted _ _ | .returned _ _ => isFalse not_false
  | .idle | .looking _ | .asking _ | .answered _ _ | .writing _ _ | .done => isTrue trivial

instance (s : State) : (l : Label) → Decidable (Safe s l)
  | .insert call => inferInstanceAs (Decidable (InsertSafe s (s.calls call)))
  | .bust call => inferInstanceAs (Decidable (BustSafe s (s.calls call)))
  | .perform call => inferInstanceAs (Decidable (PerformSafe (s.calls call)))
  | .start _ _ _ | .lookup _ | .finish _ | .refuse _ | .ret _ | .swap _ | .tick => isTrue trivial

/-! ## The invariant -/

/-- What holds of a call: no read started behind a write that has not dropped its
upstream's reads, and a write that has dropped them is counted. -/
def CallOk (busted : Nat → Nat) : Call → Prop
  | .looking r => ∀ u, r.floor u ≤ busted u
  | .busted u p => p.getD 0 ≤ busted u
  | _ => True

structure Inv (s : State) : Prop where
  entries : ∀ p ∈ s.cache, s.busted p.2.value.upstream ≤ p.2.value.version
  returned_le : ∀ u, s.returned u ≤ s.busted u
  calls : ∀ c, CallOk s.busted (s.calls c)
  coherent : Coherent s

theorem le_raise (f : Nat → Nat) (u : Nat) (p : Option Nat) (v : Nat) : f v ≤ raise f u p v := by
  unfold raise
  by_cases h : v = u
  · rw [h, Function.update_self]; omega
  · rw [Function.update_of_ne h]

theorem CallOk.mono {b b' : Nat → Nat} (h : ∀ u, b u ≤ b' u) {c : Call} (hc : CallOk b c) :
    CallOk b' c := by
  cases c with
  | looking r => exact fun u => Nat.le_trans (hc u) (h u)
  | busted u p => exact Nat.le_trans hc (h u)
  | _ => trivial

theorem callOk_update {b : Nat → Nat} {calls : Nat → Call} (h : ∀ c, CallOk b (calls c)) (call : Nat)
    {c : Call} (hc : CallOk b c) : ∀ c', CallOk b (Function.update calls call c c') := by
  intro c'
  by_cases he : c' = call
  · rw [he, Function.update_self]; exact hc
  · rw [Function.update_of_ne he]; exact h c'

/-- Only the table of calls changes. -/
theorem inv_calls {s : State} (h : Inv s) (call : Nat) {c : Call} (hc : CallOk s.busted c) :
    Inv { s with calls := Function.update s.calls call c } :=
  ⟨h.entries, h.returned_le, callOk_update h.calls call hc, h.coherent⟩

/-- A drop that finds all values of the upstream leaves none of them. -/
theorem upstream_ne_of_mem_bust {cat : Catalog} {cache : Cache} {u : Nat}
    (hg : ∀ p ∈ cache, p.2.value.upstream = u → (cat.lookup p.1.tool).map ToolDef.upstream = some u)
    {p : CacheKey × TtlCache.Entry Cached} (h : p ∈ bustUpstreamCache cat cache u) :
    p ∈ cache ∧ p.2.value.upstream ≠ u := by
  unfold bustUpstreamCache at h
  obtain ⟨hm, hf⟩ := List.mem_filter.mp h
  refine ⟨hm, fun hu => ?_⟩
  have hl := hg p hm hu
  rw [Option.map_eq_some_iff] at hl
  obtain ⟨d, hd, hdu⟩ := hl
  rw [hd] at hf
  simp [hdu] at hf

/-! ## One lemma for each label -/

variable {cfg}

theorem inv_start {s s' : State} {call : Nat} {tool : String} {args : Json} (h : Inv s)
    (hs : startCall cfg s call tool args = some s') : Inv s' := by
  unfold startCall at hs
  split at hs
  · rw [Option.map_eq_some_iff] at hs
    obtain ⟨d, -, rfl⟩ := hs
    apply inv_calls h
    unfold openCall
    simp only []
    split
    · exact h.returned_le
    · trivial
  · cases hs

theorem inv_lookup {s s' : State} {call : Nat} (h : Inv s) (hs : lookupCall cfg s call = some s') :
    Inv s' := by
  unfold lookupCall at hs
  split at hs
  · next r hr =>
    have hfloor : ∀ u, r.floor u ≤ s.busted u := by
      have hc := h.calls call
      rw [hr] at hc
      exact hc
    split at hs
    · next e he =>
      rw [← Option.some.inj hs]
      refine ⟨h.entries, h.returned_le, callOk_update h.calls call trivial, ?_⟩
      intro a ha
      rcases List.mem_append.mp ha with ha | ha
      · exact h.coherent a ha
      · rw [List.mem_singleton] at ha
        rw [ha]
        split at he
        · obtain ⟨at_, hmem⟩ := TtlCache.mem_of_get he
          exact Nat.le_trans (hfloor e.upstream) (h.entries _ hmem)
        · cases he
    · rw [← Option.some.inj hs]
      exact inv_calls h call trivial
  · cases hs

theorem inv_perform {s s' : State} {call : Nat} (h : Inv s) (hg : Safe s (.perform call))
    (hs : performCall s call = some s') : Inv s' := by
  unfold performCall at hs
  unfold Safe PerformSafe at hg
  split at hs
  · rw [← Option.some.inj hs]
    exact inv_calls h call trivial
  · rw [← Option.some.inj hs]
    exact ⟨h.entries, h.returned_le, callOk_update h.calls call trivial, h.coherent⟩
  · next hc => simp only [hc] at hg
  · next hc => simp only [hc] at hg
  · cases hs

theorem inv_insert {s s' : State} {call : Nat} (h : Inv s) (hg : Safe s (.insert call))
    (hs : insertCall cfg s call = some s') : Inv s' := by
  unfold insertCall at hs
  unfold Safe InsertSafe at hg
  split at hs
  · next r v hc =>
    simp only [hc] at hg
    split at hs
    · rw [← Option.some.inj hs]
      refine ⟨?_, h.returned_le, callOk_update h.calls call trivial, h.coherent⟩
      intro p hp
      rcases TtlCache.mem_put hp with rfl | hp
      · exact hg
      · exact h.entries p hp
    · cases hs
  · cases hs

theorem inv_finish {s s' : State} {call : Nat} (h : Inv s) (hs : finishCall s call = some s') :
    Inv s' := by
  unfold finishCall at hs
  split at hs
  · rw [← Option.some.inj hs]; exact inv_calls h call trivial
  · rw [← Option.some.inj hs]; exact inv_calls h call trivial
  · cases hs

theorem inv_refuse {s s' : State} {call : Nat} (h : Inv s) (hs : refuseCall s call = some s') :
    Inv s' := by
  unfold refuseCall at hs
  split at hs
  · rw [← Option.some.inj hs]; exact inv_calls h call trivial
  · cases hs

theorem inv_bust {s s' : State} {call : Nat} (h : Inv s) (hg : Safe s (.bust call))
    (hs : bustCall s call = some s') : Inv s' := by
  unfold bustCall at hs
  unfold Safe BustSafe at hg
  split at hs
  · next u p hc =>
    simp only [hc] at hg
    rw [← Option.some.inj hs]
    refine ⟨?_, ?_, ?_, h.coherent⟩
    · intro q hq
      obtain ⟨hm, hne⟩ := upstream_ne_of_mem_bust hg hq
      show raise s.busted u p q.2.value.upstream ≤ q.2.value.version
      unfold raise
      rw [Function.update_of_ne hne]
      exact h.entries q hm
    · intro v
      exact Nat.le_trans (h.returned_le v) (le_raise s.busted u p v)
    · apply callOk_update
      · intro c
        exact (h.calls c).mono (le_raise s.busted u p)
      · show p.getD 0 ≤ raise s.busted u p u
        unfold raise
        rw [Function.update_self]
        omega
  · cases hs

theorem inv_ret {s s' : State} {call : Nat} (h : Inv s) (hs : retCall s call = some s') : Inv s' := by
  unfold retCall at hs
  split at hs
  · next u p hc =>
    have hp : p.getD 0 ≤ s.busted u := by
      have hk := h.calls call
      rw [hc] at hk
      exact hk
    rw [← Option.some.inj hs]
    refine ⟨h.entries, ?_, callOk_update h.calls call trivial, h.coherent⟩
    intro v
    show raise s.returned u p v ≤ s.busted v
    unfold raise
    by_cases hv : v = u
    · have := h.returned_le u
      rw [hv, Function.update_self]
      omega
    · rw [Function.update_of_ne hv]
      exact h.returned_le v
  · cases hs

theorem inv_step {s s' : State} {l : Label} (h : Inv s) (hg : Safe s l) (hs : step cfg s l = some s') :
    Inv s' := by
  cases l with
  | start call tool args => exact inv_start h hs
  | lookup call => exact inv_lookup h hs
  | perform call => exact inv_perform h hg hs
  | insert call => exact inv_insert h hg hs
  | finish call => exact inv_finish h hs
  | refuse call => exact inv_refuse h hs
  | bust call => exact inv_bust h hg hs
  | ret call => exact inv_ret h hs
  | swap cat =>
    rw [← Option.some.inj hs]
    exact ⟨h.entries, h.returned_le, h.calls, h.coherent⟩
  | tick =>
    rw [← Option.some.inj hs]
    exact ⟨h.entries, h.returned_le, h.calls, h.coherent⟩

theorem inv_initial (cat : Catalog) : Inv (initial cat) := by
  refine ⟨?_, ?_, ?_, ?_⟩
  · intro p hp; cases hp
  · intro u; exact Nat.le_refl 0
  · intro c; trivial
  · intro a ha; cases ha

variable (cfg)

theorem invariant : (system cfg).Invariant Safe Inv where
  init := by
    intro s ⟨cat, hs⟩
    rw [hs]
    exact inv_initial cat
  step _ _ _ h hg hs := inv_step h hg hs

/-- **Coherence.** In every run whose steps are all safe, no cached answer is older
than a write that returned before the read started. -/
theorem coherent_of_safe (s₀ s : State) (ls : List Label) (h₀ : (system cfg).init s₀)
    (hg : (system cfg).Guarded Safe s₀ ls) (he : (system cfg).exec s₀ ls = some s) : Coherent s :=
  ((invariant cfg).exec h₀ hg he).coherent

/-! ## A read that straddles a write -/

def exampleConfig : Config := ⟨60, fun _ => none⟩

def exampleCatalog : Catalog :=
  [("shop.GetOrders", ⟨0, some true⟩), ("shop.PostOrders", ⟨0, some false⟩)]

/-- A read, and behind it a write and two more reads. -/
def sequentialRun : List Label :=
  [.start 0 "shop.GetOrders" .null, .lookup 0, .perform 0, .insert 0,
   .start 1 "shop.PostOrders" .null, .perform 1, .bust 1, .ret 1,
   .start 2 "shop.GetOrders" .null, .lookup 2, .perform 2, .insert 2,
   .start 3 "shop.GetOrders" .null, .lookup 3]

/-- The upstream answers the first read before the write, and the answer is inserted
after the write has dropped the cached reads. -/
def straddlingRun : List Label :=
  [.start 0 "shop.GetOrders" .null, .lookup 0, .perform 0,
   .start 1 "shop.PostOrders" .null, .perform 1, .bust 1, .ret 1,
   .insert 0,
   .start 2 "shop.GetOrders" .null, .lookup 2]

theorem sequential_reads_are_coherent :
    ∃ s, (system exampleConfig).exec (initial exampleCatalog) sequentialRun = some s ∧
      s.answers = [⟨3, 1, 1⟩] ∧ Coherent s := by
  have hr : ((system exampleConfig).exec (initial exampleCatalog) sequentialRun).any
      (fun s => s.answers = [⟨3, 1, 1⟩]) = true := by decide +kernel
  rw [Option.any_eq_true] at hr
  obtain ⟨s, he, ha⟩ := hr
  exact ⟨s, he, of_decide_eq_true ha, coherent_of_safe exampleConfig (initial exampleCatalog) s
    sequentialRun ⟨exampleCatalog, rfl⟩ (by decide +kernel) he⟩

/-- The third call reads version 0 from the cache, after the write of version 1 has
returned. -/
theorem late_insert_is_stale :
    (system exampleConfig).init (initial exampleCatalog) ∧
      ∃ s, (system exampleConfig).exec (initial exampleCatalog) straddlingRun = some s ∧
        ¬ Coherent s := by
  have hr : ((system exampleConfig).exec (initial exampleCatalog) straddlingRun).any
      (fun s => s.answers = [⟨2, 0, 1⟩]) = true := by decide +kernel
  rw [Option.any_eq_true] at hr
  obtain ⟨s, he, ha⟩ := hr
  have ha := of_decide_eq_true ha
  refine ⟨⟨exampleCatalog, rfl⟩, s, he, fun hc => ?_⟩
  have := hc ⟨2, 0, 1⟩ (by rw [ha]; exact List.mem_singleton_self _)
  exact absurd this (by decide)

end MinMcp.L5.ReadCache
