import MinMcp.Core.SingleFlight
import MinMcp.L4App.Breaker

/-!
# The child of a stdio upstream

An upstream's child may die at any time: its reader sees the end of its output, or a write to it
fails. A call that finds it dead takes `respawn`, looks again, and spawns another, unless the last
spawn is less than a second old (src/upstream.rs). A spawn starts a process, and a second one where
the server is of the older protocol and its first process is dead when the spawn looks. A caller may
be dropped while it waits for the lock or for the child, and what it was spawning is killed.

`children` is the single flight of `connection`; its history is the model's own.

* `Orderly`: spawns are a second apart and start two processes at most, and nothing starts while a
  process lives.
* `HandedOut`: who finds a connection finds it alive; who makes one gets it as it is, since
  `connection` does not look at it again.
* `rule`: what is not held any more has died, and `last_spawn` is the last spawn.
* `respawns_kept`: in every run, one spawn at a time, an orderly history, and every caller gets a
  child that was alive or has just been connected for it.
-/
namespace MinMcp.L5.Respawn

open MinMcp.Core
open MinMcp.L4.Breaker (second)

/-- mirrors src/upstream.rs:36-39 -/
def minRespawnInterval : Nat := 1 * second

/-- A child process; `dead` is set by its reader or a failed write.
mirrors src/upstream.rs:235-258 -/
structure Conn where
  id : Nat
  dead : Bool
  deriving DecidableEq

/-- A `Conn::spawn` under way: before its first process, or with one; `again` is its second. -/
inductive Spawning where
  | begun
  | running (conn : Conn) (again : Bool)
  deriving DecidableEq

inductive Event where
  | spawned (t : Nat)
  | started (id t : Nat)
  | connected (id t : Nat)
  | died (id t : Nat)
  deriving DecidableEq

/-- `next` numbers the processes; `legacy` is the era of the server.
mirrors src/upstream.rs:484-501 -/
structure Upstream where
  legacy : Bool
  conn : Option Conn
  spawning : Option Spawning
  lastSpawn : Nat
  next : Nat
  history : List Event
  deriving DecidableEq

/-- Why there is no connection: the crash-loop guard, or the spawn failed. -/
inductive Failure where
  | crashLoop (since : Nat)
  | respawning
  deriving DecidableEq

/-- A connection that a caller gets; `made` by its own spawn. -/
structure Handed where
  id : Nat
  made : Bool
  deriving DecidableEq

/-- How a spawn came out. -/
inductive Spawned where
  | failed
  | ready

inductive Happening where
  /-- The process that lives dies. -/
  | dies
  /-- The spawn under way starts a process. -/
  | starts

/-- The first child is connected when its spawn is stamped.
mirrors src/upstream.rs:504-518 -/
def Upstream.spawn (legacy : Bool) (now : Nat) : Upstream :=
  ⟨legacy, some ⟨0, false⟩, none, now, 1, [.spawned now, .started 0 now, .connected 0 now]⟩

/-- mirrors src/upstream.rs:531-534 -/
def live (up : Upstream) (_now : Nat) : Option Handed :=
  (up.conn.filter fun c => !c.dead).map fun c => ⟨c.id, false⟩

/-- mirrors src/upstream.rs:546-562 -/
def attempt (up : Upstream) (now : Nat) : Except Failure Upstream :=
  if now - up.lastSpawn < minRespawnInterval then .error (.crashLoop (now - up.lastSpawn))
  else .ok { up with lastSpawn := now, spawning := some .begun, history := up.history ++ [.spawned now] }

/-- mirrors src/upstream.rs:291-319 -/
def start (up : Upstream) (now : Nat) (again : Bool) : Upstream :=
  { up with spawning := some (.running ⟨up.next, false⟩ again), next := up.next + 1
            history := up.history ++ [.started up.next now] }

/-- The first process, or a second one for a server of the older protocol whose first is dead.
mirrors src/upstream.rs:269, 281-285 -/
def starts (up : Upstream) (now : Nat) : Upstream :=
  match up.spawning with
  | some .begun => start up now false
  | some (.running ⟨_, true⟩ false) => if up.legacy then start up now true else up
  | _ => up

/-- The process of a spawn that is given up is killed with it.
mirrors src/upstream.rs:304, 255-261 -/
def kill (up : Upstream) (now : Nat) : Upstream :=
  match up.spawning with
  | some (.running ⟨id, false⟩ _) => { up with spawning := none, history := up.history ++ [.died id now] }
  | _ => { up with spawning := none }

/-- The child is connected as it is.
mirrors src/upstream.rs:563-568 -/
def spawned (up : Upstream) (now : Nat) : Spawned → Upstream × Except Failure Handed
  | .failed => (kill up now, .error .respawning)
  | .ready =>
    match up.spawning with
    | some (.running c _) =>
      ({ up with conn := some c, spawning := none, history := up.history ++ [.connected c.id now] },
        .ok ⟨c.id, true⟩)
    | _ => (kill up now, .error .respawning)

/-- mirrors src/upstream.rs:378-379, 469-470 -/
def dies (up : Upstream) (now : Nat) : Upstream :=
  match up.conn, up.spawning with
  | some ⟨id, false⟩, _ => { up with conn := some ⟨id, true⟩, history := up.history ++ [.died id now] }
  | _, some (.running ⟨id, false⟩ again) =>
    { up with spawning := some (.running ⟨id, true⟩ again), history := up.history ++ [.died id now] }
  | _, _ => up

def happens (up : Upstream) (now : Nat) : Happening → Upstream
  | .dies => dies up now
  | .starts => starts up now

/-- mirrors src/upstream.rs:536-569 -/
def connection : Flight Upstream Happening Spawned Failure Handed where
  current := live
  begins := attempt
  ends := spawned
  drops := kill
  env := happens

def children : LTS (Flight.State Upstream Failure Handed) (Flight.Label Happening Spawned) :=
  Flight.system connection fun up now => ∃ legacy, up = .spawn legacy now

/-! ## What a run keeps -/

/-- Spawns are a second apart. -/
def Event.Before : Event → Event → Prop
  | .spawned t, .spawned t' => t + minRespawnInterval ≤ t'
  | _, _ => True

def Event.begins : Event → Bool
  | .spawned _ | .started _ _ => true
  | .connected _ _ | .died _ _ => false

/-- Every process started before this has died. -/
def Over (es : List Event) : Prop := ∀ id t, .started id t ∈ es → ∃ td, .died id td ∈ es

/-- Processes started since the last spawn began. -/
def startsSince (es : List Event) : Nat :=
  es.foldl (fun n e => match e with | .spawned _ => 0 | .started _ _ => n + 1 | _ => n) 0

structure Orderly (es : List Event) : Prop where
  spaced : es.Pairwise Event.Before
  /-- No spawn and no process begins while a process lives. -/
  replaced : ∀ pre e post, es = pre ++ e :: post → e.begins = true → Over pre
  few : ∀ pre, pre <+: es → startsSince pre ≤ 2

/-- Who has made the connection has it as it was when it was connected; who has found it, found it
connected and not dead. -/
def HandedOut (up : Upstream) (h : Handed) (now : Nat) : Prop :=
  if h.made then .connected h.id now ∈ up.history
  else (∃ t ≤ now, .connected h.id t ∈ up.history) ∧ ∀ td, .died h.id td ∈ up.history → now ≤ td

/-- The process lives, as far as anyone has seen. -/
def Upstream.Holds (up : Upstream) (id : Nat) : Prop :=
  up.conn = some ⟨id, false⟩ ∨ ∃ again, up.spawning = some (.running ⟨id, false⟩ again)

/-- How many processes the spawn under way has started at most. -/
def Upstream.mostStarts (up : Upstream) : Nat :=
  match up.spawning with
  | some .begun => 0
  | some (.running _ false) => 1
  | _ => 2

/-- What is not held has died. -/
structure Sound (up : Upstream) (now : Nat) : Prop where
  orderly : Orderly up.history
  last : ∀ t, .spawned t ∈ up.history → t ≤ up.lastSpawn
  before : up.lastSpawn ≤ now
  accounted : ∀ id t, .started id t ∈ up.history → (∃ td, .died id td ∈ up.history) ∨ up.Holds id
  alive : ∀ id, up.Holds id → ∀ td, .died id td ∉ up.history
  made : ∀ id, up.conn = some ⟨id, false⟩ → ∃ t ≤ now, .connected id t ∈ up.history
  known : ∀ id t, .died id t ∈ up.history → id < up.next
  numbered : ∀ id, up.Holds id → id < up.next
  counted : startsSince up.history ≤ up.mostStarts

/-- Between spawns. -/
structure Rest (up : Upstream) (now : Nat) : Prop extends Sound up now where
  idle : up.spawning = none

/-- During a spawn the connected child is dead. -/
structure Busy (up : Upstream) (now : Nat) : Prop extends Sound up now where
  ended : live up now = none

theorem live_eq_some {up : Upstream} {now : Nat} {h : Handed} :
    live up now = some h ↔ up.conn = some ⟨h.id, false⟩ ∧ h.made = false := by
  obtain ⟨id, made⟩ := h
  unfold live
  rcases up.conn with _ | ⟨id', _ | _⟩ <;> simp [Option.filter]

theorem live_eq_none {up : Upstream} {now : Nat} : live up now = none ↔ ∀ id, up.conn ≠ some ⟨id, false⟩ := by
  rw [Option.eq_none_iff_forall_ne_some]
  constructor
  · intro h id hc
    exact h ⟨id, false⟩ (live_eq_some.mpr ⟨hc, rfl⟩)
  · intro h c hc
    exact h c.id (live_eq_some.mp hc).1

theorem live_dies {up : Upstream} {now : Nat} (h : live up now = none) : live (dies up now) now = none := by
  rw [live_eq_none] at h ⊢
  intro id
  unfold dies
  split
  · nofun
  · exact h id
  · exact h id

theorem live_starts {up : Upstream} {now : Nat} (h : live up now = none) : live (starts up now) now = none := by
  rw [live_eq_none] at h ⊢
  intro id
  unfold starts
  split
  · exact h id
  · split <;> exact h id
  · exact h id

/-! ### What happens to the history -/

theorem startsSince_snoc (es : List Event) (e : Event) :
    startsSince (es ++ [e]) = match e with
      | .spawned _ => 0
      | .started _ _ => startsSince es + 1
      | _ => startsSince es := by
  unfold startsSince
  rw [List.foldl_append]
  cases e <;> rfl

theorem replaced_snoc {es : List Event} (h : Orderly es) {e : Event} (he : e.begins = true → Over es)
    (pre : List Event) (d : Event) (post : List Event) (heq : es ++ [e] = pre ++ d :: post)
    (hd : d.begins = true) : Over pre := by
  rcases List.eq_nil_or_concat post with rfl | ⟨post', e', rfl⟩
  · obtain ⟨rfl, hlast⟩ := List.append_inj' heq rfl
    obtain rfl := (List.cons.inj hlast).1
    exact he hd
  · rw [List.concat_eq_append, ← List.cons_append, ← List.append_assoc] at heq
    obtain ⟨rfl, -⟩ := List.append_inj' heq rfl
    exact h.replaced pre d post' rfl hd

theorem Orderly.snoc {es : List Event} (h : Orderly es) {e : Event}
    (hspaced : ∀ t t', .spawned t ∈ es → e = .spawned t' → t + minRespawnInterval ≤ t')
    (hover : e.begins = true → Over es) (hfew : startsSince (es ++ [e]) ≤ 2) : Orderly (es ++ [e]) where
  spaced := by
    refine List.pairwise_append.mpr ⟨h.spaced, List.pairwise_singleton _ _, fun a ha b hb => ?_⟩
    obtain rfl := List.mem_singleton.mp hb
    cases a with
    | spawned t =>
      cases b with
      | spawned t' => exact hspaced t t' ha rfl
      | started | connected | died => trivial
    | started | connected | died => trivial
  replaced := replaced_snoc h hover
  few pre hp := by
    rcases List.prefix_concat_iff.mp hp with rfl | hp
    · exact hfew
    · exact h.few pre hp

/-- What begins nothing changes no order. -/
theorem Orderly.quiet {es : List Event} (h : Orderly es) {e : Event} (he : e.begins = false) :
    Orderly (es ++ [e]) := by
  refine h.snoc (fun t t' _ ht => ?_) (fun hb => ?_) ?_
  · rw [ht] at he
    cases he
  · rw [hb] at he
    cases he
  · have := h.few es (List.prefix_refl es)
    rw [startsSince_snoc]
    cases e with
    | spawned | started => cases he
    | connected | died => exact this

theorem startsSince_quiet {es : List Event} {e : Event} (he : e.begins = false) :
    startsSince (es ++ [e]) = startsSince es := by
  rw [startsSince_snoc]
  cases e with
  | spawned | started => cases he
  | connected | died => rfl

/-! ### What one step keeps -/

theorem Sound.later {up : Upstream} {now ns : Nat} (h : Sound up now) : Sound up (now + ns) where
  orderly := h.orderly
  last := h.last
  before := Nat.le_add_right_of_le h.before
  accounted := h.accounted
  alive := h.alive
  made id hc := by
    obtain ⟨t, ht, hm⟩ := h.made id hc
    exact ⟨t, Nat.le_add_right_of_le ht, hm⟩
  known := h.known
  numbered := h.numbered
  counted := h.counted

theorem Sound.over {up : Upstream} {now : Nat} (h : Sound up now) (hn : ∀ id, ¬ up.Holds id) :
    Over up.history := fun id t hs => (h.accounted id t hs).resolve_right (hn id)

theorem Rest.held {up : Upstream} {now id : Nat} (h : Rest up now) (hh : up.Holds id) :
    up.conn = some ⟨id, false⟩ := by
  rcases hh with hc | ⟨again, hs⟩
  · exact hc
  · rw [h.idle] at hs
    cases hs

theorem Busy.held {up : Upstream} {now id : Nat} (h : Busy up now) (hh : up.Holds id) :
    ∃ again, up.spawning = some (.running ⟨id, false⟩ again) :=
  hh.resolve_left (live_eq_none.mp h.ended id)

/-- A process that was held has died, and no other is lost or gained. -/
theorem Sound.died {up up' : Upstream} {now id : Nat} (h : Sound up now) (hid : up.Holds id)
    (hhist : up'.history = up.history ++ [.died id now]) (hlast : up'.lastSpawn = up.lastSpawn)
    (hnext : up'.next = up.next) (hheld : ∀ j, up'.Holds j ↔ up.Holds j ∧ j ≠ id)
    (hconn : ∀ j, up'.conn = some ⟨j, false⟩ → up.conn = some ⟨j, false⟩)
    (hmost : up.mostStarts ≤ up'.mostStarts) : Sound up' now where
  orderly := by
    rw [hhist]
    exact h.orderly.quiet rfl
  last t ht := by
    rw [hhist] at ht
    rw [hlast]
    exact h.last t (by simpa using ht)
  before := hlast ▸ h.before
  accounted j t hs := by
    rw [hhist] at hs ⊢
    by_cases hj : j = id
    · exact Or.inl ⟨now, by simp [hj]⟩
    · rcases h.accounted j t (by simpa using hs) with ⟨td, hd⟩ | hh
      · exact Or.inl ⟨td, List.mem_append_left _ hd⟩
      · exact Or.inr ((hheld j).mpr ⟨hh, hj⟩)
  alive j hj td hd := by
    obtain ⟨hh, hne⟩ := (hheld j).mp hj
    rw [hhist] at hd
    exact h.alive j hh td (by simpa [hne] using hd)
  made j hc := by
    obtain ⟨t, ht, hm⟩ := h.made j (hconn j hc)
    exact ⟨t, ht, by rw [hhist]; exact List.mem_append_left _ hm⟩
  known j t hd := by
    rw [hhist] at hd
    rw [hnext]
    rcases List.mem_append.mp hd with hd | hd
    · exact h.known j t hd
    · obtain ⟨rfl, -⟩ : j = id ∧ t = now := by simpa using hd
      exact h.numbered _ hid
  numbered j hj := hnext ▸ h.numbered j ((hheld j).mp hj).1
  counted := by
    rw [hhist, startsSince_quiet rfl]
    exact Nat.le_trans h.counted hmost

theorem Rest.attempted {up up' : Upstream} {now : Nat} (hr : Rest up now) (hl : live up now = none)
    (h : attempt up now = .ok up') : Busy up' now := by
  have hn : ∀ id, ¬ up.Holds id := fun id hh => live_eq_none.mp hl id (hr.held hh)
  unfold attempt at h
  split at h
  · cases h
  · next hsince =>
    obtain rfl := Except.ok.inj h
    have hheld : ∀ id, ¬ ({ up with lastSpawn := now, spawning := some .begun
                                    history := up.history ++ [.spawned now] } : Upstream).Holds id := by
      rintro id (hc | ⟨again, hs⟩)
      · exact hn id (Or.inl hc)
      · cases hs
    refine { orderly := ?_, last := ?_, before := Nat.le_refl _, accounted := ?_,
             alive := fun id hh => absurd hh (hheld id),
             made := fun id hc => absurd hc (live_eq_none.mp hl id), known := by simpa using hr.known,
             numbered := fun id hh => absurd hh (hheld id), counted := ?_, ended := hl }
    · refine hr.orderly.snoc (fun t t' ht he => ?_) (fun _ => hr.over hn) ?_
      · obtain rfl := Event.spawned.inj he
        have := hr.last t ht
        unfold minRespawnInterval second at hsince ⊢
        omega
      · rw [startsSince_snoc]
        exact Nat.zero_le 2
    · intro t ht
      rcases List.mem_append.mp ht with ht | ht
      · exact Nat.le_trans (hr.last t ht) hr.before
      · obtain rfl : t = now := by simpa using ht
        exact Nat.le_refl _
    · intro id t hs
      obtain ⟨td, hd⟩ := hr.over hn id t (by simpa using hs)
      exact Or.inl ⟨td, List.mem_append_left _ hd⟩
    · rw [startsSince_snoc]
      exact Nat.zero_le _

/-- A process of the spawn under way starts, and none lives. -/
theorem Busy.start {up : Upstream} {now : Nat} (hb : Busy up now) (hn : ∀ id, ¬ up.Holds id) {again : Bool}
    (hcount : startsSince up.history < if again then 2 else 1) : Busy (start up now again) now := by
  have hheld : ∀ id, (Respawn.start up now again).Holds id → id = up.next := by
    rintro id (hc | ⟨_, hs⟩)
    · exact absurd hc (live_eq_none.mp hb.ended id)
    · simp only [Respawn.start, Option.some.injEq, Spawning.running.injEq, Conn.mk.injEq] at hs
      exact hs.1.1.symm
  refine { orderly := ?_, last := by simpa [Respawn.start] using hb.last, before := hb.before,
           accounted := ?_, alive := ?_, made := fun id hc => absurd hc (live_eq_none.mp hb.ended id),
           known := ?_, numbered := ?_, counted := ?_, ended := hb.ended }
  · refine hb.orderly.snoc (fun _ _ _ he => by cases he) (fun _ => hb.over hn) ?_
    rw [startsSince_snoc]
    show startsSince up.history + 1 ≤ 2
    split at hcount <;> omega
  · intro id t hs
    rcases List.mem_append.mp hs with hs | hs
    · obtain ⟨td, hd⟩ := hb.over hn id t hs
      exact Or.inl ⟨td, List.mem_append_left _ hd⟩
    · obtain ⟨rfl, -⟩ : id = up.next ∧ t = now := by simpa using hs
      exact Or.inr (Or.inr ⟨again, rfl⟩)
  · intro id hh td hd
    have hd : .died id td ∈ up.history := by simpa [Respawn.start] using hd
    have := hb.known id td hd
    have := hheld id hh
    omega
  · intro id t hd
    have hd : .died id t ∈ up.history := by simpa [Respawn.start] using hd
    exact Nat.lt_succ_of_lt (hb.known id t hd)
  · intro id hh
    rw [hheld id hh]
    exact Nat.lt_succ_self _
  · show startsSince (up.history ++ [.started up.next now]) ≤ _
    rw [startsSince_snoc]
    show startsSince up.history + 1 ≤ (Respawn.start up now again).mostStarts
    cases again
    · exact hcount
    · exact hcount

theorem Busy.starts {up : Upstream} {now : Nat} (hb : Busy up now) : Busy (starts up now) now := by
  have hcount := hb.counted
  unfold Upstream.mostStarts at hcount
  have hnone : (∀ id again, up.spawning ≠ some (.running ⟨id, false⟩ again)) → ∀ id, ¬ up.Holds id := by
    intro hs id hh
    obtain ⟨again, he⟩ := hb.held hh
    exact hs id again he
  unfold Respawn.starts
  split
  · next hs =>
    rw [hs] at hcount
    exact hb.start (hnone fun id again he => by rw [hs] at he; cases he) (Nat.lt_succ_of_le hcount)
  · next hs =>
    rw [hs] at hcount
    split
    · exact hb.start (hnone fun id again he => by rw [hs] at he; cases he) (Nat.lt_succ_of_le hcount)
    · exact hb
  · exact hb

theorem Rest.starts {up : Upstream} {now : Nat} (hr : Rest up now) : starts up now = up := by
  unfold Respawn.starts
  rw [hr.idle]

/-- The process of the spawn under way is not held any more; nothing else changes. -/
theorem Busy.died {up up' : Upstream} {now id : Nat} {again : Bool} (hb : Busy up now)
    (hs : up.spawning = some (.running ⟨id, false⟩ again)) (hconn : up'.conn = up.conn)
    (hspawning : ∀ j a, up'.spawning ≠ some (.running ⟨j, false⟩ a))
    (hhist : up'.history = up.history ++ [.died id now]) (hlast : up'.lastSpawn = up.lastSpawn)
    (hnext : up'.next = up.next) (hmost : up.mostStarts ≤ up'.mostStarts) : Sound up' now := by
  refine hb.toSound.died (Or.inr ⟨again, hs⟩) hhist hlast hnext (fun j => ?_)
    (fun j hc => by rwa [hconn] at hc) hmost
  constructor
  · rintro (hc | ⟨a, ha⟩)
    · rw [hconn] at hc
      exact absurd hc (live_eq_none.mp hb.ended j)
    · exact absurd ha (hspawning j a)
  · rintro ⟨hh, hne⟩
    obtain ⟨a, ha⟩ := hb.held hh
    rw [hs] at ha
    simp only [Option.some.injEq, Spawning.running.injEq, Conn.mk.injEq] at ha
    exact absurd ha.1.1.symm hne

theorem Rest.dies {up : Upstream} {now : Nat} (hr : Rest up now) : Rest (dies up now) now := by
  unfold Respawn.dies
  split
  · next id hc =>
    refine ⟨hr.toSound.died (show up.Holds id from Or.inl hc) rfl rfl rfl (fun j => ?_) (fun j he => by cases he) ?_, hr.idle⟩
    · constructor
      · rintro (he | ⟨a, ha⟩)
        · cases he
        · rw [hr.idle] at ha
          cases ha
      · rintro ⟨hh, hne⟩
        have := hr.held hh
        rw [hc] at this
        simp only [Option.some.injEq, Conn.mk.injEq] at this
        exact absurd this.1.symm hne
    · exact Nat.le_refl _
  · next hs _ =>
    rw [hr.idle] at hs
    cases hs
  · exact hr

theorem Busy.dies {up : Upstream} {now : Nat} (hb : Busy up now) : Busy (dies up now) now := by
  unfold Respawn.dies
  split
  · next id hc => exact absurd hc (live_eq_none.mp hb.ended id)
  · next id again hs _ =>
    refine ⟨hb.died hs rfl (fun j a he => ?_) rfl rfl rfl ?_, hb.ended⟩
    · cases he
    · unfold Upstream.mostStarts
      rw [hs]
      cases again <;> exact Nat.le_refl _
  · exact hb

/-- A spawn that is given up leaves no process behind. -/
theorem Busy.kill {up : Upstream} {now : Nat} (hb : Busy up now) : Rest (kill up now) now := by
  unfold Respawn.kill
  split
  · next id again hs =>
    refine ⟨hb.died hs rfl nofun rfl rfl rfl ?_, rfl⟩
    unfold Upstream.mostStarts
    rw [hs]
    cases again
    · exact Nat.le_succ 1
    · exact Nat.le_refl _
  · next hs =>
    have hsub : ∀ id, ({ up with spawning := none } : Upstream).Holds id ↔ up.Holds id := by
      intro id
      constructor
      · rintro (hc | ⟨a, ha⟩)
        · exact Or.inl hc
        · cases ha
      · intro hh
        obtain ⟨a, ha⟩ := hb.held hh
        exact absurd ha (hs id a)
    have hfew := hb.orderly.few up.history (List.prefix_refl _)
    exact ⟨{ orderly := hb.orderly, last := hb.last, before := hb.before
             accounted := fun id t h => (hb.accounted id t h).imp_right (hsub id).mpr
             alive := fun id hh => hb.alive id ((hsub id).mp hh), made := hb.made, known := hb.known
             numbered := fun id hh => hb.numbered id ((hsub id).mp hh), counted := hfew }, rfl⟩

theorem Busy.ready {up : Upstream} {now : Nat} {c : Conn} {again : Bool} (hb : Busy up now)
    (hs : up.spawning = some (.running c again)) :
    Rest { up with conn := some c, spawning := none, history := up.history ++ [.connected c.id now] } now := by
  have hsub : ∀ id, ({ up with conn := some c, spawning := none
                               history := up.history ++ [.connected c.id now] } : Upstream).Holds id ↔
      up.Holds id := by
    intro id
    constructor
    · rintro (hc | ⟨a, ha⟩)
      · obtain rfl := Option.some.inj hc
        exact Or.inr ⟨again, hs⟩
      · cases ha
    · intro hh
      obtain ⟨a, ha⟩ := hb.held hh
      rw [hs] at ha
      simp only [Option.some.injEq, Spawning.running.injEq] at ha
      exact Or.inl (congrArg some ha.1)
  have hfew := hb.orderly.few up.history (List.prefix_refl _)
  refine ⟨{ orderly := hb.orderly.quiet rfl, last := by simpa using hb.last, before := hb.before
            accounted := fun id t h => ?_, alive := fun id hh => ?_, made := fun id hc => ?_
            known := by simpa using hb.known, numbered := fun id hh => hb.numbered id ((hsub id).mp hh)
            counted := ?_ }, rfl⟩
  · rcases hb.accounted id t (by simpa using h) with ⟨td, hd⟩ | hh
    · exact Or.inl ⟨td, List.mem_append_left _ hd⟩
    · exact Or.inr ((hsub id).mpr hh)
  · simpa using hb.alive id ((hsub id).mp hh)
  · obtain rfl := Option.some.inj hc
    exact ⟨now, Nat.le_refl _, by simp⟩
  · rw [startsSince_quiet rfl]
    exact hfew

theorem HandedOut.append {up up' : Upstream} {h : Handed} {now : Nat} (ho : HandedOut up h now)
    {es : List Event} (hes : up'.history = up.history ++ es)
    (hlate : ∀ id td, .died id td ∈ es → now ≤ td) : HandedOut up' h now := by
  unfold HandedOut at ho ⊢
  rw [hes]
  split at ho
  · next hm =>
    rw [if_pos hm]
    exact List.mem_append_left _ ho
  · next hm =>
    rw [if_neg hm]
    obtain ⟨⟨t, hle, ht⟩, hd⟩ := ho
    exact ⟨⟨t, hle, List.mem_append_left _ ht⟩, fun td htd =>
      (List.mem_append.mp htd).elim (hd td) (hlate _ td)⟩

/-- What a step adds to the history: nothing, or an event of this moment. -/
theorem history_dies (up : Upstream) (now : Nat) :
    ∃ es, (dies up now).history = up.history ++ es ∧ ∀ id td, .died id td ∈ es → td = now := by
  unfold dies
  split
  · exact ⟨_, rfl, by simp⟩
  · exact ⟨_, rfl, by simp⟩
  · exact ⟨[], by simp, by simp⟩

theorem history_starts (up : Upstream) (now : Nat) :
    ∃ es, (starts up now).history = up.history ++ es ∧ ∀ id td, .died id td ∈ es → td = now := by
  unfold starts
  split
  · exact ⟨_, rfl, by simp⟩
  · split
    · exact ⟨_, rfl, by simp⟩
    · exact ⟨[], by simp, by simp⟩
  · exact ⟨[], by simp, by simp⟩

theorem history_happens (up : Upstream) (now : Nat) (e : Happening) :
    ∃ es, (happens up now e).history = up.history ++ es ∧ ∀ id td, .died id td ∈ es → td = now := by
  cases e with
  | dies => exact history_dies up now
  | starts => exact history_starts up now

theorem history_kill (up : Upstream) (now : Nat) :
    ∃ es, (kill up now).history = up.history ++ es ∧ ∀ id td, .died id td ∈ es → td = now := by
  unfold kill
  split
  · exact ⟨_, rfl, by simp⟩
  · exact ⟨[], by simp, by simp⟩

theorem history_spawned (up : Upstream) (now : Nat) (o : Spawned) :
    ∃ es, (spawned up now o).1.history = up.history ++ es ∧ ∀ id td, .died id td ∈ es → td = now := by
  cases o with
  | failed => exact history_kill up now
  | ready =>
    unfold spawned
    dsimp only
    split
    · exact ⟨_, rfl, by simp⟩
    · exact history_kill up now

theorem HandedOut.later {up up' : Upstream} {h : Handed} {now t : Nat} (ht : t ≤ now) (ho : HandedOut up h t)
    (hes : ∃ es, up'.history = up.history ++ es ∧ ∀ id td, .died id td ∈ es → td = now) : HandedOut up' h t := by
  obtain ⟨es, hes, hd⟩ := hes
  exact ho.append hes fun id td htd => hd id td htd ▸ ht

theorem rest_spawn (legacy : Bool) (now : Nat) : Rest (.spawn legacy now) now where
  orderly := by
    have hnil : Orderly [] := ⟨.nil, fun pre e post h => by simp at h, fun pre h => by
      rw [List.prefix_nil.mp h]
      exact Nat.zero_le 2⟩
    have hspawned : Orderly ([] ++ [.spawned now]) := hnil.snoc (by simp) (by simp [Over]) (Nat.zero_le 2)
    have hstarted : Orderly ([.spawned now] ++ [.started 0 now]) :=
      Orderly.snoc hspawned (by simp) (by simp [Over]) (Nat.le_succ 1)
    exact Orderly.quiet hstarted rfl
  last t ht := by
    obtain rfl : t = now := by simpa [Upstream.spawn] using ht
    exact Nat.le_refl _
  before := Nat.le_refl _
  accounted id t hs := by
    obtain ⟨rfl, -⟩ : id = 0 ∧ t = now := by simpa [Upstream.spawn] using hs
    exact Or.inr (Or.inl rfl)
  alive id _ td hd := by simp [Upstream.spawn] at hd
  made id hc := by
    obtain rfl : 0 = id := by simpa [Upstream.spawn] using hc
    exact ⟨now, Nat.le_refl _, by simp [Upstream.spawn]⟩
  known id t hd := by simp [Upstream.spawn] at hd
  numbered id hh := by
    rcases hh with hc | ⟨_, hs⟩
    · obtain rfl : 0 = id := by simpa [Upstream.spawn] using hc
      exact Nat.one_pos
    · cases hs
  counted := Nat.le_succ 1
  idle := rfl

theorem rule :
    Flight.Rule connection (fun up now => ∃ legacy, up = .spawn legacy now) Rest Busy HandedOut where
  starts h := by
    obtain ⟨legacy, rfl⟩ := h
    exact rest_spawn legacy _
  rest_later hr := ⟨hr.toSound.later, hr.idle⟩
  busy_later hb := ⟨hb.toSound.later, hb.ended⟩
  rest_env {up now e} hr := by
    cases e with
    | dies => exact hr.dies
    | starts =>
      show Rest (starts up now) now
      rwa [hr.starts]
  busy_env {_ _ e} hb := by
    cases e with
    | dies => exact hb.dies
    | starts => exact hb.starts
  spent_later h := h
  spent_env {up now e} h := by
    have h : live up now = none := h
    cases e with
    | dies => exact live_dies h
    | starts => exact live_starts h
  takesOff hr hc hb := hr.attempted hc hb
  lands {up now o} hb := by
    cases o with
    | failed => exact hb.kill
    | ready =>
      show Rest (spawned up now .ready).1 now
      unfold spawned
      dsimp only
      split
      · next hs => exact hb.ready hs
      · exact hb.kill
  lost hb := hb.kill
  finds {up now h} hx hc := by
    have hs : Sound up now := hx.elim Rest.toSound Busy.toSound
    have hc : live up now = some h := hc
    obtain ⟨hconn, hmade⟩ := live_eq_some.mp hc
    unfold HandedOut
    rw [hmade, if_neg (by decide)]
    exact ⟨hs.made _ hconn, fun td hd => absurd hd (hs.alive _ (Or.inl hconn) td)⟩
  brings {up now o h} hb hr := by
    cases o with
    | failed => cases hr
    | ready =>
      unfold connection spawned at hr ⊢
      dsimp only at hr ⊢
      split at hr
      · next hs =>
        obtain rfl := Except.ok.inj hr
        simp [HandedOut]
      · cases hr
  right_env ht h := h.later ht (history_happens _ _ _)
  right_begins {up up' now h t} hb ht ho := by
    unfold connection attempt at hb
    dsimp only at hb
    split at hb
    · cases hb
    · obtain rfl := Except.ok.inj hb
      exact ho.append rfl (by simp)
  right_ends ht h := h.later ht (history_spawned _ _ _)
  right_drops ht h := h.later ht (history_kill _ _)

/-- However the callers of one upstream interleave and give up, and whenever its processes die: one
spawn is under way at a time; two spawns are a second apart and start two processes at most; neither
a spawn nor a process begins while a process lives; and every child a caller gets was alive when it
was found, or has just been connected by the caller's own spawn, dead or not. -/
theorem respawns_kept {s : Flight.State Upstream Failure Handed} (hr : children.Reachable s) :
    (∀ i j, s.tasks i = .flying → s.tasks j = .flying → i = j) ∧ Orderly s.shared.history ∧
      ∀ a ∈ s.answers, HandedOut s.shared a.1 a.2 := by
  have hk := rule.reachable hr
  have hsound : Sound s.shared s.now := hk.rest_or_busy.elim Rest.toSound Busy.toSound
  exact ⟨fun i j hi hj => hk.eq_of_flying hi hj, hsound.orderly, hk.right⟩

/-- Two callers find the child dead, a second after its spawn. The spawn of one serves both; its
first process dies before `initialize`, and it starts a second. -/
def twoCallers : List (Flight.Label Happening Spawned) :=
  [.wait second, .env .dies, .call 0, .call 1, .run 0, .run 1, .run 0, .run 1, .run 0, .run 0,
    .env .starts, .wait 2, .env .dies, .env .starts, .wait 3, .land 0 .ready, .wait 1, .run 0, .run 1, .run 1,
    .run 1]

theorem two_callers_respawn : ∃ s, children.exec (.initial (.spawn true 0) 0) twoCallers = some s ∧
    s.answers = [(⟨2, true⟩, second + 5), (⟨2, false⟩, second + 6)] ∧ s.shared.history.length = 9 ∧
    (∀ i j, s.tasks i = .flying → s.tasks j = .flying → i = j) ∧ Orderly s.shared.history ∧
    ∀ a ∈ s.answers, HandedOut s.shared a.1 a.2 := by
  have hr : (children.exec (.initial (.spawn true 0) 0) twoCallers).any (fun s =>
      s.answers = [(⟨2, true⟩, second + 5), (⟨2, false⟩, second + 6)] ∧ s.shared.history.length = 9) = true := by
    decide +kernel
  obtain ⟨s, he, hs⟩ := (Option.any_eq_true _ _).mp hr
  obtain ⟨ha, hl⟩ := of_decide_eq_true hs
  exact ⟨s, he, ha, hl, respawns_kept ⟨_, _, ⟨_, _, ⟨true, rfl⟩, rfl⟩, he⟩⟩

end MinMcp.L5.Respawn
