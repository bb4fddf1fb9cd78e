import MinMcp.L5Concurrency.StdioMux
import Mathlib.Algebra.GroupWithZero.Nat

/-!
# The pipes of a child process

Frames go to the child through a pipe, one at a time under the writer lock, and the lines it
writes come back through another (src/upstream.rs:341-348, 367-391, 428-467). Both pipes hold a
bounded number of bytes. A request of the child is answered by the reader itself, which takes
the writer lock like any caller; while it does so it reads nothing. The child may write at any
time, and while it writes it does not read.

The lock is given in the order it was asked for. Responses, deadlines and the end of the
child's output are in `StdioMux`.

* `Deadlocked`: a caller with the lock waits for space, the child for its output to be read,
  the reader for the lock. `Deadlocked.stays`: no step but the caller's giving up ends it.
* `safe`: the reader takes up a request of the child only when what the callers in front of it
  have still to write fits into the pipe.
* `no_deadlock`: a run of such steps does not deadlock.
* `unsafe_deadlocks`: behind any other step the child can deadlock the transport.
* `ping_deadlocks`: a frame larger than the pipe, and a ping while it is written.
-/
namespace MinMcp.L5.StdioPipes

open MinMcp.Core
open MinMcp.L5.StdioMux (handleLine)

/-- How many bytes each pipe holds. -/
structure Pipes where
  stdin : Nat
  stdout : Nat

inductive Party where
  | caller (r : Nat)
  | reader
  deriving DecidableEq

/-- A frame, or what is left of it. -/
structure Write where
  who : Party
  rest : List UInt8
  deriving DecidableEq

inductive Reader where
  | reading
  /-- It waits for the lock, or has it. -/
  | replying
  | ended
  deriving DecidableEq

structure State where
  /-- In the pipe to the child. -/
  stdin : List UInt8
  /-- In the pipe from the child. -/
  stdout : List UInt8
  /-- Who has the writer lock, and behind it who waits for it. -/
  writers : List Write
  reader : Reader
  /-- Read, and not yet taken for a line. -/
  buffer : List UInt8
  /-- What the child is writing. -/
  output : List UInt8
  deriving DecidableEq

def State.start : State := ⟨[], [], [], .reading, [], []⟩

inductive Label where
  | send (r : Nat) (msg : Json)
  | write (n : Nat)
  | release
  /-- A caller is dropped, or its time for a cancellation is over. -/
  | giveUp (r : Nat)
  | pull (n : Nat)
  | line
  | produce (bytes : List UInt8)
  | emit (n : Nat)
  | consume (n : Nat)

/-- mirrors src/upstream.rs:342-343 -/
def frame (msg : Json) : List UInt8 := msg.render.toUTF8.data.toList ++ [10]

/-- `Lines` takes the end of a line away. -/
def stripCr (line : List UInt8) : List UInt8 := if line.getLast? = some 13 then line.dropLast else line

/-- What the reader writes for a line, if anything; nothing at all when the line cannot be read.
mirrors src/upstream.rs:427-461 -/
def reply (line : List UInt8) : Option (Option (List UInt8)) :=
  (String.fromUTF8? ⟨(stripCr line).toArray⟩).map fun text =>
    match handleLine text.toList with
    | .reply v => some (frame v)
    | _ => none

namespace State

variable (p : Pipes) (s : State)

def space : Nat := p.stdin - s.stdin.length

def outSpace : Nat := p.stdout - s.stdout.length

/-- mirrors src/upstream.rs:341-344 -/
def send (r : Nat) (msg : Json) : Option State :=
  if .caller r ∈ s.writers.map Write.who then none
  else some { s with writers := s.writers ++ [⟨.caller r, frame msg⟩] }

/-- The pipe takes some bytes of who has the lock.
mirrors src/upstream.rs:345 -/
def write (n : Nat) : Option State :=
  match s.writers with
  | w :: ws =>
    if 0 < n ∧ n ≤ w.rest.length ∧ n ≤ s.space p then
      some { s with stdin := s.stdin ++ w.rest.take n, writers := ⟨w.who, w.rest.drop n⟩ :: ws }
    else none
  | [] => none

/-- mirrors src/upstream.rs:346-347, 443-447 -/
def release : Option State :=
  match s.writers with
  | ⟨who, []⟩ :: ws =>
    some { s with writers := ws, reader := if who = .reader then .reading else s.reader }
  | _ => none

def giveUp (r : Nat) : Option State :=
  if .caller r ∈ s.writers.map Write.who then
    some { s with writers := s.writers.filter fun w => w.who ≠ .caller r }
  else none

/-- The reader fills its buffer when that has no line.
mirrors src/upstream.rs:428 -/
def pull (n : Nat) : Option State :=
  if s.reader = .reading ∧ 10 ∉ s.buffer ∧ 0 < n ∧ n ≤ s.stdout.length ∧ n ≤ 8192 then
    some { s with buffer := s.buffer ++ s.stdout.take n, stdout := s.stdout.drop n }
  else none

/-- mirrors src/upstream.rs:427-461 -/
def line : Option State :=
  if s.reader = .reading ∧ 10 ∈ s.buffer then
    let s' := { s with buffer := (s.buffer.dropWhile (· ≠ 10)).drop 1 }
    match reply (s.buffer.takeWhile (· ≠ 10)) with
    | none => some { s' with reader := .ended }
    | some none => some s'
    | some (some bytes) => some { s' with reader := .replying, writers := s.writers ++ [⟨.reader, bytes⟩] }
  else none

/-- The child starts to write. -/
def produce (bytes : List UInt8) : Option State :=
  if s.output = [] then some { s with output := bytes } else none

def emit (n : Nat) : Option State :=
  if 0 < n ∧ n ≤ s.output.length ∧ n ≤ s.outSpace p then
    some { s with stdout := s.stdout ++ s.output.take n, output := s.output.drop n }
  else none

/-- The child reads when it is not writing. -/
def consume (n : Nat) : Option State :=
  if s.output = [] ∧ 0 < n ∧ n ≤ s.stdin.length then some { s with stdin := s.stdin.drop n } else none

def step : Label → Option State
  | .send r msg => s.send r msg
  | .write n => s.write p n
  | .release => s.release
  | .giveUp r => s.giveUp r
  | .pull n => s.pull n
  | .line => s.line
  | .produce bytes => s.produce bytes
  | .emit n => s.emit p n
  | .consume n => s.consume n

end State

def transport (p : Pipes) : LTS State Label := ⟨(· = .start), State.step p⟩

/-! ## The circular wait -/

/-- A caller has the lock and no space to write. -/
def CallerWaits (p : Pipes) (s : State) : Prop :=
  ∃ r rest ws, s.writers = ⟨.caller r, rest⟩ :: ws ∧ rest ≠ [] ∧ s.space p = 0

/-- The child has output and no space to write. -/
def ChildWaits (p : Pipes) (s : State) : Prop := s.output ≠ [] ∧ s.outSpace p = 0

def ReaderWaits (s : State) : Prop := ∃ w ∈ s.writers, w.who = .reader

/-- A caller has the lock, and the reader waits behind it. A reader that has the lock for an answer of
its own can wait for space too; that is another wait. -/
structure Deadlocked (p : Pipes) (s : State) : Prop where
  caller : CallerWaits p s
  child : ChildWaits p s
  reader : ReaderWaits s

/-- What is still to be written. -/
def toWrite (ws : List Write) : Nat := (ws.map fun w => w.rest.length).sum

/-- A line that the reader answers comes when all that is to be written fits. -/
def safe (p : Pipes) (s : State) : Label → Bool
  | .line =>
    match reply (s.buffer.takeWhile (· ≠ 10)) with
    | some (some _) => toWrite s.writers ≤ s.space p
    | _ => true
  | _ => true

/-! ## The invariant -/

def readers (ws : List Write) : Nat := ws.countP fun w => w.who = .reader

/-- What is to be written in front of the reader, when it is in the queue. -/
def ahead : List Write → Option Nat
  | [] => none
  | w :: ws => if w.who = .reader then some 0 else (ahead ws).map (w.rest.length + ·)

structure Inv (p : Pipes) (s : State) : Prop where
  front : ∀ n, ahead s.writers = some n → n ≤ s.space p
  /-- The reader is in the queue at most once, and only while it replies. -/
  once : readers s.writers ≤ if s.reader = .replying then 1 else 0

@[simp] theorem readers_append (xs ys : List Write) : readers (xs ++ ys) = readers xs + readers ys :=
  List.countP_append

theorem ahead_eq_none {ws : List Write} : ahead ws = none ↔ readers ws = 0 := by
  induction ws with
  | nil => simp [ahead, readers]
  | cons w ws ih =>
    by_cases h : w.who = .reader
    · simp [ahead, readers, h]
    · simp only [ahead, readers, List.countP_cons, h, if_false, Option.map_eq_none_iff, decide_false] at ih ⊢
      simpa using ih

/-- A caller joins behind all others. -/
theorem ahead_append_caller (ws : List Write) (r : Nat) (rest : List UInt8) :
    ahead (ws ++ [⟨.caller r, rest⟩]) = ahead ws := by
  induction ws with
  | nil => rfl
  | cons w ws ih => simp [ahead, ih]

theorem ahead_append_reader {ws : List Write} (h : readers ws = 0) (rest : List UInt8) (more : List Write) :
    ahead (ws ++ ⟨.reader, rest⟩ :: more) = some (toWrite ws) := by
  induction ws with
  | nil => rfl
  | cons w ws ih =>
    by_cases hw : w.who = .reader
    · simp [readers, hw] at h
    · simp only [readers, List.countP_cons, hw, decide_false] at h
      have := ih (by simpa [readers] using h)
      simp [ahead, hw, this, toWrite]

theorem ahead_filter {ws : List Write} (r n : Nat)
    (h : ahead (ws.filter fun w => w.who ≠ .caller r) = some n) : ∃ m, ahead ws = some m ∧ n ≤ m := by
  induction ws generalizing n with
  | nil => cases h
  | cons w ws ih =>
    by_cases hw : w.who = .caller r
    · simp only [List.filter_cons, hw, ne_eq, not_true_eq_false, decide_false] at h
      obtain ⟨m, hm, hle⟩ := ih n (by simpa using h)
      exact ⟨w.rest.length + m, by simp [ahead, hw, hm], by omega⟩
    · simp only [List.filter_cons, ne_eq, hw, not_false_eq_true, decide_true, if_true, ahead] at h
      split at h
      · next hr => exact ⟨0, by simp [ahead, hr], by simp at h; omega⟩
      · next hr =>
        obtain ⟨k, hk, rfl⟩ := Option.map_eq_some_iff.mp h
        obtain ⟨m, hm, hle⟩ := ih k hk
        exact ⟨w.rest.length + m, by simp [ahead, hr, hm], by omega⟩

section Steps

variable {p : Pipes} {s s' : State}

theorem inv_write {n : Nat} (h : Inv p s) (hs : s.write p n = some s') : Inv p s' := by
  unfold State.write at hs
  split at hs
  · next w ws hw =>
    split at hs
    · next hn =>
      obtain rfl := Option.some.inj hs
      have hfront := h.front
      have honce := h.once
      rw [hw] at hfront honce
      refine ⟨?_, by simpa [readers, List.countP_cons] using honce⟩
      intro m hm
      simp only [ahead] at hm hfront
      simp only [State.space, List.length_append, List.length_take] at hn hfront ⊢
      split at hm
      · obtain rfl := Option.some.inj hm
        omega
      · next hne =>
        obtain ⟨k, hk, rfl⟩ := Option.map_eq_some_iff.mp hm
        have := hfront (w.rest.length + k) (by simp [hne, hk])
        simp only [List.length_drop]
        omega
    · cases hs
  · cases hs

theorem inv_release (h : Inv p s) (hs : s.release = some s') : Inv p s' := by
  unfold State.release at hs
  split at hs
  · next who ws hw =>
    obtain rfl := Option.some.inj hs
    have hfront := h.front
    have honce := h.once
    rw [hw] at hfront honce
    simp only [readers, List.countP_cons, decide_eq_true_eq] at honce
    by_cases hr : who = .reader
    · simp only [hr, if_true] at honce ⊢
      have hnone : readers ws = 0 := by
        unfold readers
        split at honce <;> omega
      refine ⟨?_, by simp [hnone]⟩
      intro n hn
      rw [ahead_eq_none.mpr hnone] at hn
      cases hn
    · simp only [hr, if_false] at honce ⊢
      refine ⟨?_, by simpa [readers] using honce⟩
      intro n hn
      have := hfront n (by simp [ahead, hr, hn])
      simpa [State.space] using this
  · cases hs

theorem inv_line (h : Inv p s) (hg : safe p s .line = true) (hs : s.line = some s') : Inv p s' := by
  unfold State.line at hs
  split at hs
  · next hr =>
    have hnone : readers s.writers = 0 := by
      have := h.once
      simp only [hr.1] at this
      simpa using this
    have hahead := ahead_eq_none.mpr hnone
    simp only [] at hs
    split at hs
    · obtain rfl := Option.some.inj hs
      exact ⟨fun n hn => (by rw [hahead] at hn; cases hn), by simp [hnone]⟩
    · obtain rfl := Option.some.inj hs
      exact ⟨fun n hn => (by rw [hahead] at hn; cases hn), by simp [hnone]⟩
    · next bytes hreply =>
      obtain rfl := Option.some.inj hs
      simp only [safe, hreply, decide_eq_true_eq] at hg
      refine ⟨?_, by simp [hnone]; simp [readers]⟩
      intro n hn
      rw [ahead_append_reader hnone, Option.some.injEq] at hn
      simpa [State.space, ← hn] using hg
  · cases hs

/-- **Step.** -/
theorem inv_step {l : Label} (h : Inv p s) (hg : safe p s l = true) (hs : s.step p l = some s') :
    Inv p s' := by
  cases l with
  | send r msg =>
    simp only [State.step, State.send] at hs
    split at hs
    · cases hs
    · obtain rfl := Option.some.inj hs
      refine ⟨fun n hn => h.front n (by rwa [ahead_append_caller] at hn), ?_⟩
      simpa [readers] using h.once
  | write n => exact inv_write h hs
  | release => exact inv_release h hs
  | giveUp r =>
    simp only [State.step, State.giveUp] at hs
    split at hs
    · obtain rfl := Option.some.inj hs
      refine ⟨fun n hn => ?_, ?_⟩
      · obtain ⟨m, hm, hle⟩ := ahead_filter r n hn
        exact Nat.le_trans hle (h.front m hm)
      · exact Nat.le_trans (List.Sublist.countP_le List.filter_sublist) h.once
    · cases hs
  | pull n =>
    simp only [State.step, State.pull] at hs
    split at hs
    · obtain rfl := Option.some.inj hs
      exact ⟨h.front, h.once⟩
    · cases hs
  | line => exact inv_line h hg hs
  | produce bytes =>
    simp only [State.step, State.produce] at hs
    split at hs
    · obtain rfl := Option.some.inj hs
      exact ⟨h.front, h.once⟩
    · cases hs
  | emit n =>
    simp only [State.step, State.emit] at hs
    split at hs
    · obtain rfl := Option.some.inj hs
      exact ⟨h.front, h.once⟩
    · cases hs
  | consume n =>
    simp only [State.step, State.consume] at hs
    split at hs
    · obtain rfl := Option.some.inj hs
      refine ⟨fun m hm => ?_, h.once⟩
      have := h.front m hm
      simp only [State.space, List.length_drop] at this ⊢
      omega
    · cases hs

theorem Inv.not_deadlocked (h : Inv p s) : ¬ Deadlocked p s := by
  intro hd
  obtain ⟨r, rest, ws, hw, hrest, hspace⟩ := hd.caller
  obtain ⟨w, hwm, hwho⟩ := hd.reader
  have hpos : readers s.writers ≠ 0 := by
    intro hzero
    have := List.countP_eq_zero.mp hzero w hwm
    simp [hwho] at this
  obtain ⟨n, hn⟩ := Option.ne_none_iff_exists'.mp fun hnone => hpos (ahead_eq_none.mp hnone)
  have hle := h.front n hn
  rw [hw] at hn
  simp only [ahead, reduceCtorEq, if_false, Option.map_eq_some_iff] at hn
  obtain ⟨k, -, rfl⟩ := hn
  have := List.length_pos_iff.mpr hrest
  omega

end Steps

theorem invariant (p : Pipes) : (transport p).Invariant (fun s l => safe p s l = true) (Inv p) where
  init := by
    intro s hs
    obtain rfl : s = .start := hs
    exact ⟨fun n hn => (by cases hn), by simp [State.start, readers]⟩
  step _ _ _ h hg hs := inv_step h hg hs

/-- **No circular wait.** In every run in which the reader takes up requests of the child only
when all that is to be written fits into the pipe, the transport is not deadlocked. -/
theorem no_deadlock (p : Pipes) {s : State} {ls : List Label}
    (hg : (transport p).Guarded (fun s l => safe p s l = true) .start ls)
    (hs : (transport p).exec .start ls = some s) : ¬ Deadlocked p s :=
  ((invariant p).exec rfl hg hs).not_deadlocked

/-! ## What a deadlock is, and how it comes about -/

section Deadlock

variable {p : Pipes}

/-- The state in which the reader is in the queue only while it replies. -/
theorem ReaderWaits.replying {s : State} (h : ReaderWaits s)
    (honce : readers s.writers ≤ if s.reader = .replying then 1 else 0) : s.reader = .replying := by
  obtain ⟨w, hw, hwho⟩ := h
  by_contra hr
  rw [if_neg hr, Nat.le_zero] at honce
  have := List.countP_eq_zero.mp honce w hw
  simp [hwho] at this

/-- The wait ends by no step, but for the caller's giving up. -/
theorem Deadlocked.stays {s s' : State} {l : Label} (h : Deadlocked p s)
    (honce : readers s.writers ≤ if s.reader = .replying then 1 else 0)
    (hl : ∀ r rest ws, s.writers = ⟨.caller r, rest⟩ :: ws → ∀ r', l = .giveUp r' → r' ≠ r)
    (hs : s.step p l = some s') : Deadlocked p s' := by
  have hreplying := h.reader.replying honce
  obtain ⟨⟨r, rest, ws, hw, hrest, hspace⟩, ⟨hout, hfull⟩, w, hwm, hwho⟩ := h
  have hpos := List.length_pos_iff.mpr hrest
  cases l with
  | send r' msg =>
    simp only [State.step, State.send] at hs
    split at hs
    · cases hs
    · obtain rfl := Option.some.inj hs
      exact ⟨⟨r, rest, ws ++ [⟨.caller r', frame msg⟩], by simp [hw], hrest, hspace⟩, ⟨hout, hfull⟩, w,
        List.mem_append_left _ hwm, hwho⟩
  | write n =>
    simp only [State.step, State.write, hw] at hs
    split at hs
    · omega
    · cases hs
  | release =>
    simp only [State.step, State.release, hw] at hs
    split at hs
    · next hws =>
      injection hws with hhead
      injection hhead with _ hnil
      exact absurd hnil hrest
    · cases hs
  | giveUp r' =>
    have hne : Party.caller r' ≠ .caller r := by
      intro he
      injection he with he
      exact hl r rest ws hw r' rfl he
    simp only [State.step, State.giveUp] at hs
    split at hs
    · obtain rfl := Option.some.inj hs
      refine ⟨⟨r, rest, ws.filter fun w => w.who ≠ .caller r', ?_, hrest, hspace⟩, ⟨hout, hfull⟩, w, ?_, hwho⟩
      · simp [hw, Ne.symm hne]
      · exact List.mem_filter.mpr ⟨hwm, by simp [hwho]⟩
    · cases hs
  | pull n => simp [State.step, State.pull, hreplying] at hs
  | line => simp [State.step, State.line, hreplying] at hs
  | produce bytes => simp [State.step, State.produce, hout] at hs
  | emit n =>
    simp only [State.step, State.emit, hfull] at hs
    split at hs
    · omega
    · cases hs
  | consume n => simp [State.step, State.consume, hout] at hs

theorem exec_write {s : State} {w : Write} {ws : List Write} {n : Nat} (hw : s.writers = w :: ws)
    (hn : 0 < n ∧ n ≤ w.rest.length ∧ n ≤ s.space p) : (transport p).exec s [.write n] = some { s with
      stdin := s.stdin ++ w.rest.take n, writers := ⟨w.who, w.rest.drop n⟩ :: ws } := by
  simp only [LTS.exec_cons, transport, State.step, State.write, hw]
  rw [if_pos hn]
  rfl

theorem exec_emit {s : State} {n : Nat} (hn : 0 < n ∧ n ≤ s.output.length ∧ n ≤ s.outSpace p) :
    (transport p).exec s [.emit n] = some { s with
      stdout := s.stdout ++ s.output.take n, output := s.output.drop n } := by
  simp only [LTS.exec_cons, transport, State.step, State.emit]
  rw [if_pos hn]
  rfl

/-- A frame that fits goes through. -/
theorem write_frame {s : State} {w : Write} {ws : List Write} (hw : s.writers = w :: ws)
    (hfit : w.rest.length ≤ s.space p) : ∃ ls s', (transport p).exec s ls = some s' ∧
      s'.writers = ⟨w.who, []⟩ :: ws ∧ s'.space p = s.space p - w.rest.length := by
  by_cases hnil : w.rest = []
  · refine ⟨[], s, rfl, ?_, by simp [hnil]⟩
    rw [hw, ← hnil]
  · refine ⟨[.write w.rest.length], _,
      exec_write hw ⟨List.length_pos_iff.mpr hnil, Nat.le_refl _, hfit⟩, ?_, ?_⟩
    · simp
    · simp only [State.space, List.length_append, List.length_take]
      omega

/-- The callers in front of the reader write until the pipe is full. -/
theorem fill_stdin {s : State} {front more : List Write} {rest : List UInt8}
    (hw : s.writers = front ++ ⟨.reader, rest⟩ :: more) (hfront : readers front = 0)
    (hmuch : s.space p < toWrite front) : ∃ ls s', (transport p).exec s ls = some s' ∧
      CallerWaits p s' ∧ ReaderWaits s' := by
  induction front generalizing s with
  | nil => simp [toWrite] at hmuch
  | cons w front ih =>
    obtain ⟨who, bytes⟩ := w
    cases who with
    | reader => simp [readers] at hfront
    | caller r =>
      have hfront' : readers front = 0 := by simpa [readers] using hfront
      by_cases hfit : bytes.length ≤ s.space p
      · -- this frame goes through, and the lock with it
        obtain ⟨ls, s₁, hs₁, hw₁, hspace₁⟩ := write_frame hw hfit
        have hmuch' : s.space p - bytes.length < toWrite front := by
          simp only [toWrite, List.map_cons, List.sum_cons] at hmuch ⊢
          omega
        obtain ⟨ls', s', hs', hc, hr⟩ := ih (s := { s₁ with
          writers := front ++ ⟨.reader, rest⟩ :: more
          reader := if Party.caller r = .reader then .reading else s₁.reader }) rfl hfront' (hspace₁ ▸ hmuch')
        refine ⟨ls ++ .release :: ls', s', ?_, hc, hr⟩
        rw [LTS.exec_append, hs₁, Option.bind_some, LTS.exec_cons]
        simp only [transport, State.step, State.release, hw₁, Option.bind_some]
        exact hs'
      · -- this one fills the pipe
        by_cases hz : s.space p = 0
        · refine ⟨[], s, rfl, ⟨r, bytes, front ++ ⟨.reader, rest⟩ :: more, hw, ?_, hz⟩, ⟨.reader, rest⟩,
            ?_, rfl⟩
          · intro he
            simp [he] at hfit
          · simp [hw]
        · refine ⟨[.write (s.space p)], _, exec_write hw ⟨by omega, by simp only; omega, Nat.le_refl _⟩,
            ?_, ?_⟩
          · refine ⟨r, bytes.drop (s.space p), _, rfl, ?_, ?_⟩
            · intro he
              rw [List.drop_eq_nil_iff] at he
              exact hfit he
            · simp only [State.space, List.length_append, List.length_take] at hfit hz ⊢
              omega
          · exact ⟨⟨.reader, rest⟩, by simp, rfl⟩

/-- The child writes until its pipe is full. -/
theorem fill_stdout (s : State) : ∃ ls s', (transport p).exec s ls = some s' ∧ ChildWaits p s' ∧
    s'.writers = s.writers ∧ s'.stdin = s.stdin := by
  -- with more output than space
  have hmore : ∀ s : State, s.outSpace p < s.output.length → ∃ ls s', (transport p).exec s ls = some s' ∧
      ChildWaits p s' ∧ s'.writers = s.writers ∧ s'.stdin = s.stdin := by
    intro s hlt
    by_cases hz : s.outSpace p = 0
    · refine ⟨[], s, rfl, ⟨?_, hz⟩, rfl, rfl⟩
      intro he
      simp [he] at hlt
    · refine ⟨[.emit (s.outSpace p)], _, exec_emit ⟨by omega, by omega, Nat.le_refl _⟩, ⟨?_, ?_⟩, rfl, rfl⟩
      · intro he
        rw [List.drop_eq_nil_iff] at he
        omega
      · simp only [State.outSpace, List.length_append, List.length_take] at hlt hz ⊢
        omega
  have hempty : ∀ s : State, s.output = [] → ∃ ls s', (transport p).exec s ls = some s' ∧
      ChildWaits p s' ∧ s'.writers = s.writers ∧ s'.stdin = s.stdin := by
    intro s he
    obtain ⟨ls, s', hs', hc⟩ := hmore { s with output := List.replicate (s.outSpace p + 1) 0 } (by
      simp [State.outSpace])
    refine ⟨.produce (List.replicate (s.outSpace p + 1) 0) :: ls, s', ?_, hc⟩
    simp only [LTS.exec_cons, transport, State.step, State.produce, he, if_true, Option.bind_some]
    exact hs'
  by_cases hlt : s.outSpace p < s.output.length
  · exact hmore s hlt
  · by_cases he : s.output = []
    · exact hempty s he
    · have hpos := List.length_pos_iff.mpr he
      obtain ⟨ls, s', hs', hc⟩ := hempty { s with stdout := s.stdout ++ s.output, output := [] } rfl
      refine ⟨[.emit s.output.length] ++ ls, s', ?_, hc⟩
      rw [LTS.exec_append, exec_emit ⟨hpos, Nat.le_refl _, by omega⟩, List.take_length, List.drop_length]
      exact hs'

/-- The condition on a step is needed: behind any other one the child can bring about a
deadlock. -/
theorem unsafe_deadlocks {s s' : State} {l : Label} (h : Inv p s) (hl : safe p s l = false)
    (hs : s.step p l = some s') : ∃ ls s'', (transport p).exec s' ls = some s'' ∧ Deadlocked p s'' := by
  cases l with
  | send | write | release | giveUp | pull | produce | emit | consume => simp [safe] at hl
  | line =>
    simp only [State.step, State.line] at hs
    split at hs
    · next hr =>
      have hnone : readers s.writers = 0 := by
        have := h.once
        simpa [hr.1] using this
      simp only [safe] at hl
      split at hl
      · next bytes hreply =>
        simp only [hreply] at hs
        obtain rfl := Option.some.inj hs
        have hmuch : s.space p < toWrite s.writers := by simpa using hl
        obtain ⟨ls, s₁, hs₁, hc, hrd⟩ := fill_stdin (p := p) (s := { s with
          buffer := (s.buffer.dropWhile (· ≠ 10)).drop 1
          reader := .replying
          writers := s.writers ++ [⟨.reader, bytes⟩] }) rfl hnone hmuch
        obtain ⟨ls', s₂, hs₂, hchild, hw, hin⟩ := fill_stdout (p := p) s₁
        refine ⟨ls ++ ls', s₂, ?_, ?_, hchild, ?_⟩
        · rw [LTS.exec_append, hs₁]
          exact hs₂
        · obtain ⟨r, rest, ws, hw', hrest, hspace⟩ := hc
          exact ⟨r, rest, ws, hw ▸ hw', hrest, by simpa [State.space, hin] using hspace⟩
        · obtain ⟨w, hwm, hwho⟩ := hrd
          exact ⟨w, hw ▸ hwm, hwho⟩
      · cases hl
    · cases hs

end Deadlock

/-! ## A ping while a frame is written -/

/-- A call with `n` characters of text. -/
def callWith (n : Nat) : Json :=
  .obj [("jsonrpc", .str "2.0"), ("id", .num (Num.ofNat 1)), ("method", .str "tools/call"),
    ("params", .obj [("text", .str (String.ofList (List.replicate n 'a')))])]

def ping : List UInt8 := "\x7b\"id\":1,\"method\":\"ping\"\x7d\n".toUTF8.data.toList

/-- The child pings before the frame of a caller, with `n` characters, is written. -/
def pinged (n : Nat) : List Label :=
  [.send 0 (callWith n), .produce ping, .emit ping.length, .pull ping.length]

/-- Pipes of one page. -/
def page : Pipes := ⟨4096, 4096⟩

/-- A frame of less than a page is written, and the ping answered. -/
def shortFrame : List Label :=
  pinged 10 ++ [.line, .write (frame (callWith 10)).length, .release, .write 37, .release]

theorem short_frame_goes_through : ∃ s, (transport page).exec .start shortFrame = some s ∧
    s.writers = [] ∧ s.reader = .reading ∧ ¬ Deadlocked page s := by
  have hr : ((transport page).exec .start shortFrame).any
    (fun s => s.writers = [] ∧ s.reader = .reading) = true := by
    decide +kernel
  rw [Option.any_eq_true] at hr
  obtain ⟨s, hs, ha⟩ := hr
  obtain ⟨hw, hrd⟩ := of_decide_eq_true ha
  exact ⟨s, hs, hw, hrd, no_deadlock page (by decide +kernel) hs⟩

theorem length_le_utf8Encode (cs : List Char) : cs.length ≤ cs.utf8Encode.size := by
  induction cs with
  | nil => simp
  | cons c cs ih =>
    rw [List.utf8Encode_cons, ByteArray.size_append, List.utf8Encode_singleton, List.size_toByteArray,
      String.length_utf8EncodeChar]
    have := c.utf8Size_pos
    simp only [List.length_cons]
    omega

/-- A character is at least one byte on the wire. -/
theorem length_le_frame (msg : Json) : msg.print.length ≤ (frame msg).length := by
  have h := length_le_utf8Encode msg.print
  have : msg.render.toUTF8.data.toList.length = msg.print.utf8Encode.size := Array.length_toList
  simp only [frame, List.length_append]
  omega

theorem length_le_callWith (n : Nat) : n ≤ (callWith n).print.length := by
  have hescape : (List.replicate n 'a').flatMap Json.escapeChar = List.replicate n 'a' := by
    induction n with
    | zero => rfl
    | succ n ih =>
      rw [List.replicate_succ, List.flatMap_cons, ih]
      rfl
  simp only [callWith, Json.print, Json.printEntries, Json.printString, String.toList_ofList, hescape,
    List.length_cons, List.length_append, List.length_replicate]
  omega

/-- The ping is read, and the frame not yet written. -/
def atPing (n : Nat) : State := ⟨[], [], [⟨.caller 0, frame (callWith n)⟩], .reading, ping, []⟩

theorem exec_pinged (n : Nat) : (transport page).exec .start (pinged n) = some (atPing n) := by
  have hping : 0 < ping.length ∧ ping.length ≤ 4096 := by decide +kernel
  simp [pinged, LTS.exec_cons, transport, State.step, State.send, State.produce, State.emit, State.pull,
    State.start, State.outSpace, page, hping, atPing]
  omega

/-- A ping read in front of a frame of more than a page. -/
theorem long_frame_deadlocks {n : Nat} (hn : 4096 < n) : ∃ ls s,
    (transport page).exec .start (pinged n ++ .line :: ls) = some s ∧ Deadlocked page s := by
  have hbytes := Nat.le_trans (length_le_callWith n) (length_le_frame _)
  obtain ⟨hreply, hline⟩ : (reply (ping.takeWhile (· ≠ 10))).any (fun r => r.isSome) = true ∧ 10 ∈ ping := by
    decide +kernel
  obtain ⟨r, hr, hsome⟩ := Option.any_eq_true _ _ |>.mp hreply
  obtain ⟨bytes, rfl⟩ := Option.isSome_iff_exists.mp hsome
  have hinv : Inv page (atPing n) := ⟨fun m hm => (by simp [atPing, ahead] at hm), by simp [atPing, readers]⟩
  have hunsafe : safe page (atPing n) .line = false := by
    simp only [safe, atPing, hr, toWrite, State.space, page, List.map_cons, List.map_nil, List.sum_cons,
      List.sum_nil, List.length_nil, decide_eq_false_iff_not]
    omega
  obtain ⟨s, hs⟩ : ∃ s, (atPing n).step page .line = some s := by
    simp only [State.step, State.line, atPing, hr, hline, true_and, if_true]
    exact ⟨_, rfl⟩
  obtain ⟨ls, s', hs', hd⟩ := unsafe_deadlocks hinv hunsafe hs
  refine ⟨ls, s', ?_, hd⟩
  rw [LTS.exec_append, exec_pinged, Option.bind_some, LTS.exec_cons]
  simpa [transport, hs] using hs'

theorem ping_deadlocks : ∃ ls s, (transport page).exec .start (pinged 5000 ++ .line :: ls) = some s ∧
    Deadlocked page s :=
  long_frame_deadlocks (by decide)

end MinMcp.L5.StdioPipes
