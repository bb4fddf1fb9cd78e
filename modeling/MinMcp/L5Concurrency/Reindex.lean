import MinMcp.Core.LTS
import MinMcp.L4App.Vet
import Mathlib.Logic.Function.Basic

/-!
# Re-indexing an upstream whose tools changed

`refresh_if_due` of src/surface/catalog.rs: a request finds upstreams flagged stale or past
their recheck time, lists them one by one, and swaps in a catalog with the new listings that
the checks accept. The lock `refreshing` admits one such task; a request that finds it taken
goes on without a step. The task can be dropped where it awaits a listing or a header
secret.

The changes of an upstream's tools are numbered. `announced`, `served` and `refused` say
which change was announced last, which one the served listing shows, and which one was
refused last; `asked` and `version` in a task say which changes a listing has seen at least.

* `Kept`: an announced change is served, refused, flagged, scheduled or in work.
* `step_kept`: what every step keeps, but for a task that is dropped with the only trace of
  a signal, and a listing that differs where the fingerprint does not look.
* `change_not_lost`: so it is in every run without these.
* `cancelled_signal_is_lost`: a task dropped while it lists.
-/
namespace MinMcp.L5.Reindex

open MinMcp.Core MinMcp.L4.Catalogs MinMcp.L4.Vet

structure Proxy where
  cfg : Config
  upstreams : List Backend
  lowercase : List Char → List Char

/-- A listing with a new fingerprint. -/
structure Fresh where
  idx : Nat
  version : Nat
  tools : List ToolDef

/-- A call of `refresh_if_due` past its lock. -/
structure Task where
  current : Catalog
  due : List Nat
  /-- The upstream being listed, and its last change when it was asked. -/
  listing : Option (Nat × Nat)
  fresh : List Fresh
  accepted : Option Catalog
  /-- The verdicts so far. -/
  judged : List (Fresh × Bool)

structure State where
  cat : Catalog
  stale : Nat → Bool
  recheckAt : Nat → Option Nat
  now : Nat
  task : Option Task
  version : Nat → Nat
  announced : Nat → Nat
  served : Nat → Nat
  refused : Nat → Nat
  /-- The listings at start-up, and those accepted since, in order. -/
  start : List (List ToolDef)
  history : List (Nat × List ToolDef)

inductive Label where
  | change (idx : Nat)
  | announce (idx number : Nat)
  | tick (ms : Nat)
  | begin
  | request
  | answer (page : List Json) (ttl : Option Nat) (version : Nat)
  | fail
  | judge (expand : String → Option String)
  | finish
  | cancel

/-! ## The steps -/

/-- mirrors src/surface/catalog.rs:21-28 -/
def minRecheck : Nat := 10 * 1000

def maxRecheck : Nat := 24 * 60 * 60 * 1000

def retryAfterFailure : Nat := 30 * 1000

def pairLe (a b : String × String) : Bool := a.1 < b.1 || (a.1 = b.1 && a.2 ≤ b.2)

/-- mirrors src/surface/catalog.rs:225-230 -/
def listingFingerprint (tools : List ToolDef) : List (String × String) :=
  (tools.map fun t => (t.id, toolFingerprint t.description t.inputSchema)).mergeSort pairLe

/-- The upstreams a task has taken the signal of, and not dealt with. -/
def Task.held (t : Task) : List Nat :=
  (t.listing.map Prod.fst).toList ++ t.fresh.map Fresh.idx ++ (t.judged.filter Prod.snd).map fun j => j.1.idx

/-- What the last accepted listings are. -/
def Task.inForce (t : Task) : List (List ToolDef) := (t.accepted.getD t.current).listings

namespace State

variable (px : Proxy) (s : State)

/-- mirrors src/surface/catalog.rs:254-261 -/
def scheduleRecheck (idx : Nat) (ttl : Option Nat) : State :=
  { s with
    recheckAt := Function.update s.recheckAt idx
      (ttl.map fun ms => s.now + max minRecheck (min ms maxRecheck)) }

/-- mirrors src/surface/catalog.rs:344-348 -/
def retryLater (idx : Nat) : State :=
  { s with recheckAt := Function.update s.recheckAt idx (some (s.now + retryAfterFailure)) }

/-- mirrors src/surface/catalog.rs:264-270 -/
def due : List Nat :=
  (List.range px.upstreams.length).filter fun i => s.stale i || (s.recheckAt i).any fun at_ => at_ ≤ s.now

/-- mirrors src/surface/catalog.rs:277-289 -/
def begin : Option State :=
  match s.task with
  | some _ => none
  | none =>
    if s.due px = [] then none
    else some { s with task := some ⟨s.cat, s.due px, none, [], none, []⟩ }

/-- The next upstream's flag is cleared and it is asked for its tools.
mirrors src/surface/catalog.rs:290-294 -/
def request : Option State :=
  match s.task with
  | some t =>
    match t.listing, t.due with
    | none, i :: rest =>
      some { s with
        stale := Function.update s.stale i false
        task := some { t with due := rest, listing := some (i, s.version i) } }
    | _, _ => none
  | none => none

/-- It answers with its tools as they were after some change, at some moment since it was
asked.
mirrors src/surface/catalog.rs:295-306 -/
def answer (page : List Json) (ttl : Option Nat) (version : Nat) : Option State :=
  match s.task with
  | some t =>
    match t.listing with
    | some (i, asked) =>
      match px.upstreams[i]? with
      | some up =>
        if asked ≤ version ∧ version ≤ s.version i then
          let tools := page.map (toolDef up.name i)
          let current := (t.current.listings[i]?).getD []
          let s := s.scheduleRecheck i ttl
          if listingFingerprint tools ≠ listingFingerprint current then
            some { s with task := some { t with listing := none, fresh := t.fresh ++ [⟨i, version, tools⟩] } }
          else
            some { s with
              task := some { t with listing := none }
              served := if tools.Perm current then Function.update s.served i version else s.served }
        else none
      | none => none
    | none => none
  | none => none

/-- mirrors src/surface/catalog.rs:307-310 -/
def fail : Option State :=
  match s.task with
  | some t =>
    match t.listing with
    | some (i, _) => some ({ s with task := some { t with listing := none } }.retryLater i)
    | none => none
  | none => none

/-- The next new listing, on top of those accepted so far.
mirrors src/surface/catalog.rs:317-334 -/
def judge (expand : String → Option String) : Option State :=
  match s.task with
  | some t =>
    match t.listing, t.due, t.fresh with
    | none, [], f :: rest =>
      match assemble px.cfg expand px.upstreams (t.inForce.set f.idx f.tools) with
      | none =>
        some ({ s with
          task := some { t with fresh := rest, judged := t.judged ++ [(f, false)] } }.retryLater f.idx)
      | some c =>
        match vet px.cfg px.upstreams px.lowercase c with
        | .ok () => some { s with
            task := some { t with fresh := rest, accepted := some c, judged := t.judged ++ [(f, true)] } }
        | .error _ =>
          some ({ s with
            task := some { t with fresh := rest, judged := t.judged ++ [(f, false)] }
            refused := Function.update s.refused f.idx f.version }.retryLater f.idx)
    | _, _, _ => none
  | none => none

/-- mirrors src/surface/catalog.rs:335-341 -/
def finish : Option State :=
  match s.task with
  | some t =>
    match t.listing, t.due, t.fresh with
    | none, [], [] =>
      match t.accepted with
      | none => some { s with task := none }
      | some next =>
        let done := (t.judged.filter Prod.snd).map Prod.fst
        some { s with
          task := none
          cat := next
          served := done.foldl (fun m f => Function.update m f.idx f.version) s.served
          history := s.history ++ done.map fun f => (f.idx, f.tools) }
    | _, _, _ => none
  | none => none

/-- The request is dropped where its task awaits. -/
def cancel : Option State :=
  match s.task with
  | some t =>
    if t.listing.isSome ∨ (t.due = [] ∧ t.fresh ≠ []) then some { s with task := none } else none
  | none => none

def announce (idx number : Nat) : Option State :=
  if number ≤ s.version idx then
    some { s with
      announced := Function.update s.announced idx (max (s.announced idx) number)
      stale := Function.update s.stale idx true }
  else none

def step : Label → Option State
  | .change idx => some { s with version := Function.update s.version idx (s.version idx + 1) }
  | .announce idx number => s.announce idx number
  | .tick ms => some { s with now := s.now + ms }
  | .begin => s.begin px
  | .request => s.request
  | .answer page ttl version => s.answer px page ttl version
  | .fail => s.fail
  | .judge expand => s.judge px expand
  | .finish => s.finish
  | .cancel => s.cancel

/-- The proxy has listed its upstreams, and what it serves passed the checks. -/
structure Starts : Prop where
  listed : AllListed px.upstreams s.start
  complete : s.start.length = px.upstreams.length
  assembled : ∃ expand, assemble px.cfg expand px.upstreams s.start = some s.cat
  vetted : vet px.cfg px.upstreams px.lowercase s.cat = .ok ()
  idle : s.task = none
  served : ∀ i, s.announced i ≤ s.served i ∨ s.stale i = true
  reached : ∀ i, s.announced i ≤ s.version i
  history : s.history = []

end State

def system (px : Proxy) : LTS State Label := ⟨State.Starts px, State.step px⟩

/-! ## No announced change is lost -/

/-- The announced changes of the upstream `i` are served, or were examined and refused, or the
upstream is flagged or scheduled for a recheck. -/
def Covered (s : State) (i : Nat) : Prop :=
  s.announced i ≤ s.served i ∨ s.announced i ≤ s.refused i ∨ s.stale i = true ∨ s.recheckAt i ≠ none

/-- So they are, or the upstream is being re-indexed. -/
def Kept (s : State) (i : Nat) : Prop :=
  Covered s i ∨ ∃ t, s.task = some t ∧ (i ∈ t.due ∨ i ∈ t.held)

/-- A task is dropped only when each upstream it holds is flagged again or scheduled; and a
listing with the fingerprint of the served one has the same tools. -/
def keeps (px : Proxy) (s : State) : Label → Bool
  | .cancel =>
    s.task.all fun t => t.held.all fun i => s.stale i || (s.recheckAt i).isSome
  | .answer page _ _ =>
    s.task.all fun t => t.listing.all fun l => (px.upstreams[l.1]?).all fun up =>
      let tools := page.map (toolDef up.name l.1)
      let current := (t.current.listings[l.1]?).getD []
      decide (listingFingerprint tools ≠ listingFingerprint current) || decide (tools.Perm current)
  | _ => true

/-! ## The invariant -/

/-- What was seen at `v` has every announced change, or another was announced since. -/
def Seen (s : State) (i v : Nat) : Prop := s.announced i ≤ v ∨ s.stale i = true

structure Inv (s : State) : Prop where
  reached : ∀ i, s.announced i ≤ s.version i
  listing : ∀ t i v, s.task = some t → t.listing = some (i, v) → Seen s i v
  fresh : ∀ t f, s.task = some t → f ∈ t.fresh → Seen s f.idx f.version
  accepted : ∀ t f, s.task = some t → (f, true) ∈ t.judged → Seen s f.idx f.version
  /-- A task deals with an upstream once. -/
  distinct : ∀ t, s.task = some t → (t.due ++ t.held).Nodup
  pending : ∀ t, s.task = some t → t.accepted = none → ∀ f, (f, true) ∉ t.judged
  /-- Upstreams still due have kept their flag or their time. -/
  kept : ∀ i, Covered s i ∨ ∃ t, s.task = some t ∧ i ∈ t.held

theorem Inv.toKept {s : State} (h : Inv s) (i : Nat) : Kept s i := by
  rcases h.kept i with hk | ⟨t, ht, hk⟩
  · exact Or.inl hk
  · exact Or.inr ⟨t, ht, Or.inr hk⟩

theorem Covered.of_stale {s : State} {i : Nat} (h : s.stale i = true) : Covered s i :=
  Or.inr (Or.inr (Or.inl h))

theorem Covered.of_recheck {s : State} {i : Nat} (h : s.recheckAt i ≠ none) : Covered s i :=
  Or.inr (Or.inr (Or.inr h))

/-- What the served listing has seen is served. -/
theorem Seen.covered {s : State} {i : Nat} (h : Seen s i (s.served i)) : Covered s i := by
  rcases h with h | h
  · exact Or.inl h
  · exact .of_stale h

variable {px : Proxy}

/-- Without a task only the signals count. -/
theorem Inv.idle {s : State} (hi : s.task = none) (hr : ∀ i, s.announced i ≤ s.version i)
    (hk : ∀ i, Covered s i) : Inv s where
  reached := hr
  listing t i v ht := by rw [hi] at ht; cases ht
  fresh t f ht := by rw [hi] at ht; cases ht
  accepted t f ht := by rw [hi] at ht; cases ht
  distinct t ht := by rw [hi] at ht; cases ht
  pending t ht := by rw [hi] at ht; cases ht
  kept i := Or.inl (hk i)

theorem Inv.kept_by {s : State} {t : Task} (h : Inv s) (ht : s.task = some t) (i : Nat) :
    Covered s i ∨ i ∈ t.held := by
  rcases h.kept i with hk | ⟨u, hu, hk⟩
  · exact Or.inl hk
  · obtain rfl := Option.some.inj (ht.symm.trans hu)
    exact Or.inr hk

theorem inv_starts {s : State} (h : s.Starts px) : Inv s := by
  refine .idle h.idle h.reached fun i => ?_
  rcases h.served i with hs | hs
  · exact Or.inl hs
  · exact .of_stale hs

section Steps

variable {s s' : State}

theorem inv_change (h : Inv s) (idx : Nat) :
    Inv { s with version := Function.update s.version idx (s.version idx + 1) } := by
  refine ⟨fun i => ?_, h.listing, h.fresh, h.accepted, h.distinct, h.pending, h.kept⟩
  dsimp only
  by_cases he : i = idx
  · subst he
    rw [Function.update_self]
    exact Nat.le_succ_of_le (h.reached i)
  · rw [Function.update_of_ne he]
    exact h.reached i

theorem inv_tick (h : Inv s) (ms : Nat) : Inv { s with now := s.now + ms } :=
  ⟨h.reached, h.listing, h.fresh, h.accepted, h.distinct, h.pending, h.kept⟩

theorem inv_announce {idx number : Nat} (h : Inv s) (hs : s.announce idx number = some s') : Inv s' := by
  unfold State.announce at hs
  split at hs
  · next hn =>
    obtain rfl := Option.some.inj hs
    -- the upstream is flagged; nothing changes for the others
    have hseen : ∀ i v, Seen s i v → Seen { s with
        announced := Function.update s.announced idx (max (s.announced idx) number)
        stale := Function.update s.stale idx true } i v := by
      intro i v hv
      by_cases he : i = idx
      · subst he
        exact Or.inr (Function.update_self ..)
      · unfold Seen
        dsimp only
        rw [Function.update_of_ne he, Function.update_of_ne he]
        exact hv
    refine ⟨fun i => ?_, fun t i v ht hl => hseen i v (h.listing t i v ht hl),
      fun t f ht hf => hseen _ _ (h.fresh t f ht hf), fun t f ht hf => hseen _ _ (h.accepted t f ht hf),
      h.distinct, h.pending, fun i => ?_⟩
    · dsimp only
      by_cases he : i = idx
      · subst he
        rw [Function.update_self]
        exact Nat.max_le.mpr ⟨h.reached i, hn⟩
      · rw [Function.update_of_ne he]
        exact h.reached i
    · dsimp only
      by_cases he : i = idx
      · subst he
        exact Or.inl (.of_stale (Function.update_self ..))
      · unfold Covered
        dsimp only
        rw [Function.update_of_ne he, Function.update_of_ne he]
        exact h.kept i
  · cases hs

theorem inv_begin (h : Inv s) (hs : s.begin px = some s') : Inv s' := by
  unfold State.begin at hs
  split at hs
  · cases hs
  · next hidle =>
    split at hs
    · cases hs
    · obtain rfl := Option.some.inj hs
      refine ⟨h.reached, ?_, ?_, ?_, ?_, ?_, fun i => ?_⟩
      · intro t i v ht hl
        obtain rfl := Option.some.inj ht
        cases hl
      · intro t f ht hf
        obtain rfl := Option.some.inj ht
        cases hf
      · intro t f ht hf
        obtain rfl := Option.some.inj ht
        cases hf
      · intro t ht
        obtain rfl := Option.some.inj ht
        simp only [Task.held, Option.map_none, Option.toList_none, List.map_nil, List.filter_nil,
          List.append_nil]
        exact List.nodup_range.filter _
      · rintro t ht - f hf
        obtain rfl := Option.some.inj ht
        cases hf
      · rcases h.kept i with hk | ⟨t, ht, -⟩
        · exact Or.inl hk
        · rw [hidle] at ht
          cases ht

/-- **Taking the signal.** From here on the task holds it. -/
theorem inv_request (h : Inv s) (hs : s.request = some s') : Inv s' := by
  unfold State.request at hs
  split at hs
  · next t ht =>
    split at hs
    · next i rest hl hd =>
      obtain rfl := Option.some.inj hs
      have hnodup : (i :: (rest ++ t.held)).Nodup := by
        have := h.distinct t ht
        rwa [hd] at this
      have hheld : Task.held { t with due := rest, listing := some (i, s.version i) } = i :: t.held := by
        simp [Task.held, hl]
      -- the task holds no other listing of the upstream
      have hother : ∀ f : Fresh, f.idx ∈ t.held → ∀ v, Seen s f.idx v → Seen { s with
          stale := Function.update s.stale i false
          task := some { t with due := rest, listing := some (i, s.version i) } } f.idx v := by
        intro f hf v hv
        have hne : f.idx ≠ i := by
          intro he
          have := (List.nodup_cons.mp hnodup).1
          exact this (List.mem_append.mpr (Or.inr (he ▸ hf)))
        unfold Seen
        dsimp only
        rw [Function.update_of_ne hne]
        exact hv
      refine ⟨h.reached, ?_, ?_, ?_, ?_, ?_, fun k => ?_⟩
      · intro t' i' v' ht' hl'
        obtain rfl := Option.some.inj ht'
        obtain ⟨rfl, rfl⟩ := Prod.mk.inj (Option.some.inj hl')
        exact Or.inl (h.reached i)
      · intro t' f ht' hf
        obtain rfl := Option.some.inj ht'
        refine hother f ?_ _ (h.fresh t f ht hf)
        unfold Task.held
        exact List.mem_append_left _ (List.mem_append_right _ (List.mem_map_of_mem hf))
      · intro t' f ht' hf
        obtain rfl := Option.some.inj ht'
        refine hother f ?_ _ (h.accepted t f ht hf)
        unfold Task.held
        exact List.mem_append_right _ (List.mem_map.mpr ⟨(f, true), List.mem_filter.mpr ⟨hf, rfl⟩, rfl⟩)
      · intro t' ht'
        obtain rfl := Option.some.inj ht'
        rw [hheld]
        exact (List.perm_middle.nodup_iff).mpr hnodup
      · intro t' ht' ha
        obtain rfl := Option.some.inj ht'
        exact h.pending t ht ha
      · dsimp only
        by_cases he : k = i
        · subst he
          exact Or.inr ⟨_, rfl, hheld ▸ List.mem_cons_self⟩
        · rcases h.kept_by ht k with hk | hk
          · unfold Covered
            dsimp only
            rw [Function.update_of_ne he]
            exact Or.inl hk
          · exact Or.inr ⟨_, rfl, hheld ▸ List.mem_cons_of_mem _ hk⟩
    · cases hs
  · cases hs

/-- The task moves on with what it holds; an upstream it lets go of is covered. -/
theorem Inv.setTask (h : Inv s) {t t' : Task} {recheckAt : Nat → Option Nat} {served refused : Nat → Nat}
    (ht : s.task = some t)
    (hlisting : t'.listing = none)
    (hfresh : ∀ f ∈ t'.fresh, Seen s f.idx f.version)
    (haccepted : ∀ f, (f, true) ∈ t'.judged → Seen s f.idx f.version)
    (hdistinct : (t'.due ++ t'.held).Nodup)
    (hpending : t'.accepted = none → ∀ f, (f, true) ∉ t'.judged)
    (hkept : ∀ i, Covered s i ∨ i ∈ t.held →
      Covered { s with recheckAt := recheckAt, served := served, refused := refused } i ∨ i ∈ t'.held) :
    Inv { s with task := some t', recheckAt := recheckAt, served := served, refused := refused } := by
  refine ⟨h.reached, ?_, ?_, ?_, ?_, ?_, fun i => ?_⟩
  · intro u i v hu hl
    obtain rfl := Option.some.inj hu
    rw [hlisting] at hl
    cases hl
  · intro u f hu hf
    obtain rfl := Option.some.inj hu
    exact hfresh f hf
  · intro u f hu hf
    obtain rfl := Option.some.inj hu
    exact haccepted f hf
  · intro u hu
    obtain rfl := Option.some.inj hu
    exact hdistinct
  · intro u hu ha
    obtain rfl := Option.some.inj hu
    exact hpending ha
  · rcases hkept i (h.kept_by ht i) with hk | hk
    · exact Or.inl hk
    · exact Or.inr ⟨_, rfl, hk⟩

theorem held_listing {t : Task} {i a : Nat} (h : t.listing = some (i, a)) :
    t.held = i :: Task.held { t with listing := none } := by
  simp [Task.held, h]

theorem held_fresh {t : Task} {f : Fresh} {rest : List Fresh} (hl : t.listing = none)
    (h : t.fresh = f :: rest) :
    t.held = f.idx :: Task.held { t with fresh := rest } := by
  simp [Task.held, hl, h]

theorem covered_retry {i : Nat} (at_ : Nat) :
    Covered { s with recheckAt := Function.update s.recheckAt i (some at_) } i := by
  apply Covered.of_recheck
  dsimp only
  rw [Function.update_self]
  exact Option.some_ne_none _

theorem Covered.of_eq {u : State} {k : Nat} (h : Covered s k) (ha : u.announced k = s.announced k)
    (hs : u.served k = s.served k) (hr : u.refused k = s.refused k) (hst : u.stale k = s.stale k)
    (hat : u.recheckAt k = s.recheckAt k) : Covered u k := by
  unfold Covered
  rw [ha, hs, hr, hst, hat]
  exact h

theorem Seen.mono {i v w : Nat} (h : Seen s i v) (hvw : v ≤ w) : Seen s i w := by
  rcases h with h | h
  · exact Or.inl (Nat.le_trans h hvw)
  · exact Or.inr h

/-- A new listing is held in place of the upstream being listed. -/
theorem Inv.newListing (h : Inv s) {t : Task} {i asked version : Nat} {tools : List ToolDef}
    {recheckAt : Nat → Option Nat} (ht : s.task = some t) (hl : t.listing = some (i, asked))
    (hseen : Seen s i version) (hat : ∀ k, k ≠ i → recheckAt k = s.recheckAt k) :
    Inv { s with
      task := some { t with listing := none, fresh := t.fresh ++ [⟨i, version, tools⟩] }
      recheckAt := recheckAt } := by
  have hheld := held_listing hl
  have hperm : (Task.held { t with
      listing := none, fresh := t.fresh ++ [⟨i, version, tools⟩] }).Perm t.held := by
    rw [hheld]
    simp only [Task.held, Option.map_none, Option.toList_none, List.nil_append, List.map_append,
      List.map_cons, List.map_nil, List.append_assoc]
    exact List.perm_middle
  apply h.setTask ht
  · rfl
  · intro f hf
    rcases List.mem_append.mp hf with hf | hf
    · exact h.fresh t f ht hf
    · obtain rfl := List.mem_singleton.mp hf
      exact hseen
  · exact fun f hf => h.accepted t f ht hf
  · exact ((List.Perm.append_left t.due hperm).nodup_iff).mpr (h.distinct t ht)
  · exact h.pending t ht
  · intro k hk
    by_cases hne : k = i
    · subst hne
      exact Or.inr (hperm.mem_iff.mpr (hheld ▸ List.mem_cons_self))
    · rcases hk with hk | hk
      · exact Or.inl (hk.of_eq rfl rfl rfl rfl (hat k hne))
      · exact Or.inr (hperm.mem_iff.mpr hk)

/-- A listing ends with nothing new, and its upstream is covered. -/
theorem Inv.endListing (h : Inv s) {t : Task} {i asked : Nat} {recheckAt : Nat → Option Nat}
    {served : Nat → Nat} (ht : s.task = some t) (hl : t.listing = some (i, asked))
    (hi : Covered { s with recheckAt := recheckAt, served := served } i)
    (hat : ∀ k, k ≠ i → recheckAt k = s.recheckAt k) (hserved : ∀ k, k ≠ i → served k = s.served k) :
    Inv { s with task := some { t with listing := none }, recheckAt := recheckAt, served := served } := by
  have hheld := held_listing hl
  have hnodup : (t.due ++ i :: Task.held { t with listing := none }).Nodup := hheld ▸ h.distinct t ht
  apply h.setTask ht
  · rfl
  · exact fun f hf => h.fresh t f ht hf
  · exact fun f hf => h.accepted t f ht hf
  · exact hnodup.sublist (List.Sublist.append_left (List.sublist_cons_self _ _) _)
  · exact h.pending t ht
  · intro k hk
    by_cases hne : k = i
    · exact Or.inl (hne ▸ hi)
    · rcases hk with hk | hk
      · exact Or.inl (hk.of_eq rfl (hserved k hne) rfl rfl (hat k hne))
      · rw [hheld] at hk
        exact Or.inr ((List.mem_cons.mp hk).resolve_left hne)

theorem inv_answer {page : List Json} {ttl : Option Nat} {version : Nat} (h : Inv s)
    (hg : keeps px s (.answer page ttl version) = true)
    (hs : s.answer px page ttl version = some s') : Inv s' := by
  unfold State.answer at hs
  split at hs
  · next t ht =>
    split at hs
    · next i asked hl =>
      split at hs
      · next up hup =>
        split at hs
        · next hv =>
          have hseen : Seen s i version := (h.listing t i asked ht hl).mono hv.1
          dsimp only at hs
          split at hs
          · obtain rfl := Option.some.inj hs
            exact h.newListing ht hl hseen fun k hne => Function.update_of_ne hne ..
          · next hsame =>
            obtain rfl := Option.some.inj hs
            have hkeep : (page.map (toolDef up.name i)).Perm ((t.current.listings[i]?).getD []) := by
              simp only [keeps, ht, hl, hup, Option.all_some, Bool.or_eq_true, decide_eq_true_eq] at hg
              rcases hg with hg | hg
              · exact absurd hg hsame
              · exact hg
            rw [if_pos hkeep]
            apply h.endListing ht hl
            · apply Seen.covered
              dsimp only
              rw [Function.update_self]
              exact hseen
            · exact fun k hne => Function.update_of_ne hne ..
            · exact fun k hne => Function.update_of_ne hne ..
        · cases hs
      · cases hs
    · cases hs
  · cases hs

theorem inv_fail (h : Inv s) (hs : s.fail = some s') : Inv s' := by
  unfold State.fail at hs
  split at hs
  · next t ht =>
    split at hs
    · next i asked hl =>
      obtain rfl := Option.some.inj hs
      exact h.endListing ht hl (covered_retry _) (fun k hne => Function.update_of_ne hne ..) fun _ _ => rfl
    · cases hs
  · cases hs

/-- A new listing is refused: its upstream is scheduled. -/
theorem inv_refuse {t : Task} {f : Fresh} {rest : List Fresh} (refused : Nat → Nat) (at_ : Nat) (h : Inv s)
    (ht : s.task = some t) (hl : t.listing = none) (hf : t.fresh = f :: rest)
    (hr : ∀ k, k ≠ f.idx → refused k = s.refused k) :
    Inv { s with
      task := some { t with fresh := rest, judged := t.judged ++ [(f, false)] }
      recheckAt := Function.update s.recheckAt f.idx (some at_)
      refused := refused } := by
  have hheld : Task.held { t with fresh := rest, judged := t.judged ++ [(f, false)] } =
      Task.held { t with fresh := rest } := by
    simp [Task.held]
  have hold := held_fresh hl hf
  have hnodup : (t.due ++ f.idx :: Task.held { t with fresh := rest }).Nodup := hold ▸ h.distinct t ht
  have haccepted : ∀ g, (g, true) ∈ t.judged ++ [(f, false)] → (g, true) ∈ t.judged := by
    intro g hg
    rcases List.mem_append.mp hg with hg | hg
    · exact hg
    · cases List.mem_singleton.mp hg
  apply h.setTask ht
  · exact hl
  · exact fun g hg => h.fresh t g ht (hf ▸ List.mem_cons_of_mem _ hg)
  · exact fun g hg => h.accepted t g ht (haccepted g hg)
  · rw [hheld]
    exact hnodup.sublist (List.Sublist.append_left (List.sublist_cons_self _ _) _)
  · exact fun ha g hg => h.pending t ht ha g (haccepted g hg)
  · intro k hk
    by_cases hne : k = f.idx
    · subst hne
      exact Or.inl (.of_recheck (by dsimp only; rw [Function.update_self]; exact Option.some_ne_none _))
    · rcases hk with hk | hk
      · exact Or.inl (hk.of_eq rfl rfl (hr k hne) rfl (Function.update_of_ne hne ..))
      · rw [hold] at hk
        rw [hheld]
        exact Or.inr ((List.mem_cons.mp hk).resolve_left hne)

theorem inv_judge {expand : String → Option String} (h : Inv s) (hs : s.judge px expand = some s') :
    Inv s' := by
  unfold State.judge at hs
  split at hs
  · next t ht =>
    split at hs
    · next f rest hl hd hf =>
      split at hs
      · obtain rfl := Option.some.inj hs
        have hr := inv_refuse s.refused (s.now + retryAfterFailure) h ht hl hf fun _ _ => rfl
        exact hr
      · split at hs
        · obtain rfl := Option.some.inj hs
          have hperm : (Task.held { t with
              fresh := rest, judged := t.judged ++ [(f, true)] }).Perm t.held := by
            rw [held_fresh hl hf]
            simp only [Task.held, hl, Option.map_none, Option.toList_none, List.nil_append, List.filter_append,
              List.map_append, List.filter_cons_of_pos, List.filter_nil, List.map_cons, List.map_nil]
            rw [← List.append_assoc]
            exact List.perm_append_singleton _ _
          apply h.setTask ht
          · exact hl
          · exact fun g hg => h.fresh t g ht (hf ▸ List.mem_cons_of_mem _ hg)
          · intro g hg
            rcases List.mem_append.mp hg with hg | hg
            · exact h.accepted t g ht hg
            · obtain ⟨rfl, -⟩ := Prod.mk.inj (List.mem_singleton.mp hg)
              exact h.fresh t g ht (hf ▸ List.mem_cons_self)
          · exact ((List.Perm.append_left t.due hperm).nodup_iff).mpr (h.distinct t ht)
          · intro ha
            cases ha
          · intro k hk
            rcases hk with hk | hk
            · exact Or.inl hk
            · exact Or.inr (hperm.mem_iff.mpr hk)
        · obtain rfl := Option.some.inj hs
          have hr := inv_refuse (Function.update s.refused f.idx f.version)
            (s.now + retryAfterFailure) h ht hl hf
            fun k hne => Function.update_of_ne hne ..
          exact hr
    · cases hs
  · cases hs

/-- Publishing the versions of listings of different upstreams. -/
theorem foldl_served (done : List Fresh) (m : Nat → Nat) (hn : (done.map Fresh.idx).Nodup) (k : Nat) :
    (∃ f ∈ done, f.idx = k ∧ done.foldl (fun m f => Function.update m f.idx f.version) m k = f.version) ∨
      ((∀ f ∈ done, f.idx ≠ k) ∧ done.foldl (fun m f => Function.update m f.idx f.version) m k = m k) := by
  induction done generalizing m with
  | nil => exact Or.inr ⟨fun f hf => absurd hf List.not_mem_nil, rfl⟩
  | cons g done ih =>
    rw [List.map_cons, List.nodup_cons] at hn
    rw [List.foldl_cons]
    rcases ih (Function.update m g.idx g.version) hn.2 with ⟨f, hf, hk, hv⟩ | ⟨hno, hv⟩
    · exact Or.inl ⟨f, List.mem_cons_of_mem _ hf, hk, hv⟩
    · by_cases hk : g.idx = k
      · refine Or.inl ⟨g, List.mem_cons_self, hk, ?_⟩
        rw [hv, ← hk, Function.update_self]
      · refine Or.inr ⟨fun f hf => ?_, ?_⟩
        · rcases List.mem_cons.mp hf with rfl | hf
          · exact hk
          · exact hno f hf
        · rw [hv, Function.update_of_ne (Ne.symm hk)]

theorem inv_finish (h : Inv s) (hs : s.finish = some s') : Inv s' := by
  unfold State.finish at hs
  split at hs
  · next t ht =>
    split at hs
    · next hl hd hf =>
      have hheld : t.held = ((t.judged.filter Prod.snd).map Prod.fst).map Fresh.idx := by
        simp [Task.held, hl, hf]
      have hidle : ∀ {cat : Catalog} {served : Nat → Nat} {history : List (Nat × List ToolDef)},
          (∀ i, Covered s i ∨ i ∈ t.held → Covered { s with served := served } i) →
          Inv { s with task := none, cat := cat, served := served, history := history } := by
        intro cat served history hk
        exact .idle rfl h.reached fun i => hk i (h.kept_by ht i)
      split at hs
      · next ha =>
        obtain rfl := Option.some.inj hs
        -- nothing was accepted, so nothing is held any more
        refine hidle fun i hi => ?_
        rcases hi with hi | hi
        · exact hi
        · rw [hheld] at hi
          obtain ⟨f, hf', -⟩ := List.mem_map.mp hi
          obtain ⟨⟨g, b⟩, hg, rfl⟩ := List.mem_map.mp hf'
          obtain ⟨hg, hb⟩ := List.mem_filter.mp hg
          dsimp only at hb
          subst hb
          exact absurd hg (h.pending t ht ha g)
      · obtain rfl := Option.some.inj hs
        refine hidle fun i hi => ?_
        have hn : (((t.judged.filter Prod.snd).map Prod.fst).map Fresh.idx).Nodup := by
          have := h.distinct t ht
          rw [hd, List.nil_append, hheld] at this
          exact this
        rcases foldl_served ((t.judged.filter Prod.snd).map Prod.fst) s.served hn i with
          ⟨f, hf', rfl, hv⟩ | ⟨hno, hv⟩
        · obtain ⟨⟨g, b⟩, hg, rfl⟩ := List.mem_map.mp hf'
          obtain ⟨hg, hb⟩ := List.mem_filter.mp hg
          dsimp only at hb
          subst hb
          have hseen := h.accepted t g ht hg
          refine Seen.covered ?_
          dsimp only
          rw [hv]
          exact hseen
        · rcases hi with hi | hi
          · exact hi.of_eq rfl hv rfl rfl rfl
          · rw [hheld] at hi
            obtain ⟨f, hf', rfl⟩ := List.mem_map.mp hi
            exact absurd rfl (hno f hf')
    · cases hs
  · cases hs

theorem inv_cancel (h : Inv s) (hg : keeps px s .cancel = true) (hs : s.cancel = some s') : Inv s' := by
  unfold State.cancel at hs
  split at hs
  · next t ht =>
    split at hs
    · obtain rfl := Option.some.inj hs
      refine .idle rfl h.reached fun i => ?_
      rcases h.kept_by ht i with hk | hk
      · exact hk
      · simp only [keeps, ht, Option.all_some, List.all_eq_true, Bool.or_eq_true] at hg
        rcases hg i hk with hst | hat
        · exact .of_stale hst
        · refine .of_recheck ?_
          obtain ⟨a, ha⟩ := Option.isSome_iff_exists.mp hat
          dsimp only
          rw [ha]
          exact Option.some_ne_none _
    · cases hs
  · cases hs

end Steps

/-- **Step.** -/
theorem step_kept : (system px).Preserves (fun s l => keeps px s l = true) Inv := by
  intro s l s' h hg hs
  cases l with
  | change idx =>
    obtain rfl := Option.some.inj hs
    exact inv_change h idx
  | announce idx number => exact inv_announce h hs
  | tick ms =>
    obtain rfl := Option.some.inj hs
    exact inv_tick h ms
  | begin => exact inv_begin h hs
  | request => exact inv_request h hs
  | answer page ttl version => exact inv_answer h hg hs
  | fail => exact inv_fail h hs
  | judge expand => exact inv_judge h hs
  | finish => exact inv_finish h hs
  | cancel => exact inv_cancel h hg hs

theorem kept_invariant : (system px).Invariant (fun s l => keeps px s l = true) Inv where
  init _ hs := inv_starts hs
  step := step_kept

/-- **No lost change.** In every run in which no task is dropped while it holds the only trace
of a signal, and no listing differs from the served one where the fingerprint does not look,
every announced change is served, or refused, or will be looked at. -/
theorem change_not_lost (px : Proxy) (s₀ s : State) (ls : List Label) (h₀ : s₀.Starts px)
    (hg : (system px).Guarded (fun s l => keeps px s l = true) s₀ ls)
    (hs : (system px).exec s₀ ls = some s) (i : Nat) : Kept s i :=
  (kept_invariant.exec h₀ hg hs).toKept i

/-! ## Two runs -/

def oneUpstream : Proxy where
  cfg := ⟨.threeTool, ⟨[], []⟩, ⟨[], false⟩, .weak, .warn, []⟩
  upstreams := [⟨"crm", fun _ => none⟩]
  lowercase := id

def page (names : List String) : List Json := names.map fun n => .obj [("name", .str n)]

def oneListing : List (List ToolDef) := [(page ["get"]).map (toolDef "crm" 0)]

def oneCatalog : Option Catalog := assemble oneUpstream.cfg some oneUpstream.upstreams oneListing

def oneStart : State where
  cat := oneCatalog.getD ⟨[], [], [], [], [], [], [], []⟩
  stale _ := false
  recheckAt _ := none
  now := 0
  task := none
  version _ := 0
  announced _ := 0
  served _ := 0
  refused _ := 0
  start := oneListing
  history := []

theorem oneStart_starts : oneStart.Starts oneUpstream where
  listed i up ts hup hts := by
    match i with
    | 0 =>
      obtain rfl := Option.some.inj hup
      obtain rfl := Option.some.inj hts
      exact listed_toolDefs "crm" 0 (page ["get"])
    | i + 1 => cases hup
  complete := rfl
  assembled := by
    have hs : oneCatalog.isSome = true := by decide +kernel
    obtain ⟨cat, hcat⟩ := Option.isSome_iff_exists.mp hs
    refine ⟨some, ?_⟩
    unfold oneStart
    rw [hcat, Option.getD_some]
    exact hcat
  vetted := by
    rw [vet_ok_iff]
    refine ⟨fun o ho => ?_, fun hp => ?_⟩
    · cases ho.1
    · cases hp
  idle := rfl
  served _ := Or.inl (Nat.le_refl 0)
  reached _ := Nat.le_refl 0
  history := rfl

def servedRun : List Label :=
  [.change 0, .announce 0 1, .begin, .request, .answer (page ["list"]) none 1, .judge some, .finish]

theorem served_change_is_kept :
    ∃ s, (system oneUpstream).exec oneStart servedRun = some s ∧ s.served 0 = 1 ∧ Kept s 0 := by
  have hr : ((system oneUpstream).exec oneStart servedRun).map (fun s => s.served 0) = some 1 := by
    decide +kernel
  obtain ⟨s, hs, hserved⟩ := Option.map_eq_some_iff.mp hr
  exact ⟨s, hs, hserved,
    change_not_lost oneUpstream oneStart s servedRun oneStart_starts (by decide +kernel) hs 0⟩

/-- The client takes its request back while the upstream is being listed: the change it
announced is not served, and nothing is left that would lead back to it. -/
theorem cancelled_signal_is_lost :
    ∃ s, (system oneUpstream).exec oneStart [.change 0, .announce 0 1, .begin, .request, .cancel] = some s ∧
      ¬ Kept s 0 := by
  have hr : ((system oneUpstream).exec oneStart [.change 0, .announce 0 1, .begin, .request, .cancel]).map
      (fun s => s.served 0 < s.announced 0 && s.refused 0 < s.announced 0 && !s.stale 0 &&
        (s.recheckAt 0).isNone && s.task.isNone) = some true := by decide +kernel
  obtain ⟨s, hs, hfields⟩ := Option.map_eq_some_iff.mp hr
  simp only [Bool.and_eq_true, decide_eq_true_eq, Bool.not_eq_true', Option.isNone_iff_eq_none] at hfields
  obtain ⟨⟨⟨⟨hserved, hrefused⟩, hstale⟩, hat⟩, htask⟩ := hfields
  refine ⟨s, hs, ?_⟩
  rintro ((hk | hk | hk | hk) | ⟨t, ht, -⟩)
  · omega
  · omega
  · rw [hstale] at hk
    cases hk
  · exact hk hat
  · rw [ht] at htask
    cases htask

end MinMcp.L5.Reindex
