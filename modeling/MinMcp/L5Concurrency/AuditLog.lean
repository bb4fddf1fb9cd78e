import MinMcp.Core.LTS
import MinMcp.L1Encoding.AuditChain

/-!
# The audit log under concurrent calls

`Surface::log_event` (`surface.rs:319-338`) has two steps: it stamps its line
under the chain lock, and appends it under the file lock. Between the two a call
holds a stamped line that is not in the file (`pending`). A label is one step of
one call; the runs are all interleavings.

`InOrder` is the condition under which the file verifies: the call that appends
is the one that was stamped first among those pending.

* `Inv`: the file followed by the pending lines, in stamp order, checks up to the
  state of the chain.
* `inv_step`, `invariant`: steps in order keep it.
* `verify_of_inOrder`: every run in order leaves a file that verifies.
* `swapped_calls_break_the_log`: two calls that append in the other order.
-/
namespace MinMcp.L5.AuditLog

open MinMcp.Core MinMcp.L1.AuditChain
open MinMcp.Core.Text (records EndsAtLine)

/-- One call of `log_event`: the caller's label, the kind and the event's own fields,
which every caller builds flat. -/
structure LogEvent where
  tsMs : Nat
  event : String
  caller : String
  fields : Json
  wf : fields.WF
  depth : fields.depth ≤ JsonReader.depthLimit

/-- The line before it is stamped; the event's own fields may replace the three.
mirrors src/surface.rs:321-326 -/
def lineFields (e : LogEvent) : List (String × Json) :=
  (e.fields.asObject.getD []).foldl (fun es f => OrderedMap.insert f.1 f.2 es)
    [("ts_ms", .num (Num.ofNat e.tsMs)), ("event", .str e.event), ("caller", .str e.caller)]

theorem foldl_insert_ok (fs : List (String × Json)) (es : List (String × Json))
    (hf : ∀ f ∈ fs, f.2.WF ∧ f.2.depth < JsonReader.depthLimit)
    (hw : (Json.obj es).WF) (hd : (Json.obj es).depth ≤ JsonReader.depthLimit) :
    (Json.obj (fs.foldl (fun es f => OrderedMap.insert f.1 f.2 es) es)).WF ∧
      (Json.obj (fs.foldl (fun es f => OrderedMap.insert f.1 f.2 es) es)).depth ≤
        JsonReader.depthLimit := by
  induction fs generalizing es with
  | nil => exact ⟨hw, hd⟩
  | cons f fs ih =>
    have hf0 := hf f List.mem_cons_self
    apply ih
    · intro g hg
      exact hf g (List.mem_cons_of_mem _ hg)
    · exact OrderedMap.wf_insert hf0.1 hw
    · exact depth_insert hd hf0.2

theorem entries_ok (e : LogEvent) :
    ∀ f ∈ e.fields.asObject.getD [], f.2.WF ∧ f.2.depth < JsonReader.depthLimit := by
  intro f hf
  obtain ⟨ts, ev, ca, v, hw, hd⟩ := e
  cases v with
  | obj es =>
    have hf : f ∈ es := hf
    rw [Json.depth] at hd
    have hm := (Json.depthEntries_le (n := JsonReader.depthLimit - 1)).mp (by omega) f hf
    have hl : 0 < JsonReader.depthLimit := by decide
    exact ⟨(Json.wf_obj.mp hw).2 f hf, by omega⟩
  | _ => cases hf

theorem lineFields_ok (e : LogEvent) :
    (Json.obj (lineFields e)).WF ∧ (Json.obj (lineFields e)).depth ≤ JsonReader.depthLimit := by
  apply foldl_insert_ok _ _ (entries_ok e)
  · rw [Json.wf_obj]
    refine ⟨?_, ?_⟩
    · show ["ts_ms", "event", "caller"].Nodup
      decide
    · simp [Json.WF]
  · simp [Json.depth, Json.depthEntries, JsonReader.depthLimit]

/-- The unstamped line as an event of the chain. -/
def LogEvent.line (e : LogEvent) : Event := ⟨lineFields e, (lineFields_ok e).1, (lineFields_ok e).2⟩

structure State where
  chain : Chain
  /-- Stamped and not yet appended, in the order of the stamps. -/
  pending : List (Nat × Json)
  file : List Char
  deriving DecidableEq

inductive Label where
  | stamp (call : Nat) (e : LogEvent)
  | append (call : Nat)

variable (sign : String → String)

/-- mirrors src/surface.rs:327-334: one critical section a step. -/
def step (s : State) : Label → Option State
  | .stamp call e =>
    if call ∈ OrderedMap.keys s.pending then none
    else
      let (line, chain) := stamp sign s.chain (.obj e.line.fields)
      some { s with chain := chain, pending := s.pending ++ [(call, line)] }
  | .append call =>
    (s.pending.lookup call).map fun line =>
      { s with pending := s.pending.eraseP fun p => p.1 == call, file := s.file ++ writeln line }

/-- A process starts on a log that verifies and ends at a line break (a new one
does), with the chain resumed from it. -/
def Starts (path : String) (s : State) : Prop :=
  (verify sign s.file).ok = true ∧ EndsAtLine s.file ∧ s.pending = [] ∧
    resumeFrom genesis path (some s.file) = .ok s.chain

def system (path : String) : LTS State Label := ⟨Starts sign path, step sign⟩

/-- Lines are appended in the order in which they were stamped. -/
def InOrder (s : State) : Label → Prop
  | .stamp _ _ => True
  | .append call => s.pending.head?.map Prod.fst = some call

instance (s : State) (l : Label) : Decidable (InOrder s l) :=
  match l with
  | .stamp _ _ => isTrue trivial
  | .append call => inferInstanceAs (Decidable (s.pending.head?.map Prod.fst = some call))

def pendingLines (s : State) : List (List Char) := s.pending.map fun p => p.2.print

structure Inv (s : State) : Prop where
  checks : check sign genesis (records s.file ++ pendingLines s) = some s.chain
  endsAtLine : EndsAtLine s.file
  objects : ∀ p ∈ s.pending, ∃ es, p.2 = .obj es

theorem inv_init {path : String} {s : State} (h : Starts sign path s) : Inv sign s := by
  obtain ⟨hv, he, hp, hr⟩ := h
  obtain ⟨c, hc⟩ := (verify_ok_iff sign s.file).mp hv
  have hs := resumeFrom_of_check sign path hc
  rw [hr, Except.ok.injEq] at hs
  refine ⟨?_, he, by rw [hp]; intro p hp; cases hp⟩
  rw [pendingLines, hp, List.map_nil, List.append_nil, hc, hs]

theorem inv_stamp {s : State} (h : Inv sign s) (call : Nat) (e : Event) :
    Inv sign { s with chain := (stamp sign s.chain (.obj e.fields)).2, pending := s.pending ++
      [(call, (stamp sign s.chain (.obj e.fields)).1)] } := by
  refine ⟨?_, h.endsAtLine, ?_⟩
  · have hl := checkLine_stamp sign s.chain e [] (by intro d hd; cases hd)
    have hc := h.checks
    unfold pendingLines at hc ⊢
    rw [List.map_append, ← List.append_assoc, check_append, hc, Option.bind_some, List.map_cons,
      List.map_nil, check]
    rw [List.nil_append] at hl
    rw [hl]
    rfl
  · intro p hp
    rcases List.mem_append.mp hp with hp | hp
    · exact h.objects p hp
    · rw [List.mem_singleton] at hp
      exact ⟨_, by rw [hp]; exact stamp_obj sign s.chain e⟩

/-- Appending the line stamped first only moves it from the pending ones to the file. -/
theorem inv_append {s : State} {call : Nat} {line : Json} {rest : List (Nat × Json)}
    (h : Inv sign s) (hp : s.pending = (call, line) :: rest) :
    Inv sign { s with pending := rest, file := s.file ++ writeln line } := by
  obtain ⟨es, he⟩ := h.objects (call, line) (by rw [hp]; exact List.mem_cons_self)
  have he : line = .obj es := he
  refine ⟨?_, Text.endsAtLine_line s.file line.print, ?_⟩
  · have hr : records (s.file ++ writeln line) = records s.file ++ [line.print] := by
      rw [he, records_writeln, records_body (blankTail_of_endsAtLine h.endsAtLine),
        Text.tail_eq_nil h.endsAtLine, List.nil_append]
    have hc := h.checks
    unfold pendingLines at hc ⊢
    rw [hp, List.map_cons] at hc
    rw [hr, List.append_assoc, List.singleton_append]
    exact hc
  · intro p hm
    exact h.objects p (by rw [hp]; exact List.mem_cons_of_mem _ hm)

theorem inv_step {s s' : State} {l : Label} (h : Inv sign s) (hg : InOrder s l)
    (hs : step sign s l = some s') : Inv sign s' := by
  cases l with
  | stamp call e =>
    simp only [step] at hs
    split at hs
    · cases hs
    · rw [← Option.some.inj hs]
      exact inv_stamp sign h call e.line
  | append call =>
    simp only [step] at hs
    simp only [InOrder] at hg
    cases hp : s.pending with
    | nil => rw [hp] at hg; cases hg
    | cons p rest =>
      obtain ⟨k, line⟩ := p
      rw [hp] at hg hs
      obtain rfl : k = call := Option.some.inj hg
      rw [List.lookup_cons_self, Option.map_some, List.eraseP_cons_of_pos (by simp)] at hs
      rw [← Option.some.inj hs]
      exact inv_append sign h hp

theorem invariant (path : String) : (system sign path).Invariant InOrder (Inv sign) where
  init _ h := inv_init sign h
  step _ _ _ h hg hs := inv_step sign h hg hs

/-- The file alone checks, as it is the front of what does. -/
theorem verify_of_inv {s : State} (h : Inv sign s) : (verify sign s.file).ok = true := by
  rw [verify_ok_iff]
  have hc := h.checks
  rw [check_append, Option.bind_eq_some_iff] at hc
  obtain ⟨c, hc, -⟩ := hc
  exact ⟨c, hc⟩

/-- **The log verifies.** In every run in which the lines are appended in the order
of their stamps, the file verifies in every state reached. -/
theorem verify_of_inOrder (path : String) (s₀ s : State) (ls : List Label)
    (h₀ : (system sign path).init s₀) (hg : (system sign path).Guarded InOrder s₀ ls)
    (he : (system sign path).exec s₀ ls = some s) : (verify sign s.file).ok = true :=
  verify_of_inv sign ((invariant sign path).exec h₀ hg he)

/-! ## Two overlapping calls -/

def exampleCall (tsMs : Nat) (tool : String) : LogEvent where
  tsMs := tsMs
  event := "call"
  caller := "alice"
  fields := .obj [("tool_id", .str tool)]
  wf := by simp [Json.WF, Json.WFEntries]
  depth := by simp [Json.depth, Json.depthEntries, JsonReader.depthLimit]

/-- A new log. -/
def fresh : State := ⟨genesis, [], []⟩

def inOrderRun : List Label :=
  [.stamp 0 (exampleCall 1000 "t0"), .stamp 1 (exampleCall 1001 "t1"), .append 0, .append 1]

def swappedRun : List Label :=
  [.stamp 0 (exampleCall 1000 "t0"), .stamp 1 (exampleCall 1001 "t1"), .append 1, .append 0]

theorem starts_fresh (path : String) : Starts sign path fresh := ⟨rfl, Or.inl rfl, rfl, rfl⟩

theorem overlapping_calls_in_order :
    ∃ s, (system exampleSign "audit.ndjson").exec fresh inOrderRun = some s ∧
      s.pending = [] ∧ (records s.file).length = 2 ∧ (verify exampleSign s.file).ok = true := by
  have hr : ((system exampleSign "audit.ndjson").exec fresh inOrderRun).any
      (fun s => s.pending = [] ∧ (records s.file).length = 2) = true := by decide +kernel
  rw [Option.any_eq_true] at hr
  obtain ⟨s, he, hs⟩ := hr
  have hs := of_decide_eq_true hs
  exact ⟨s, he, hs.1, hs.2, verify_of_inOrder exampleSign "audit.ndjson" fresh s inOrderRun
    (starts_fresh exampleSign "audit.ndjson") (by decide +kernel) he⟩

/-- The call stamped second appends first: the sequence is seen to jump. -/
theorem swapped_calls_break_the_log :
    (system exampleSign "audit.ndjson").init fresh ∧
      ((system exampleSign "audit.ndjson").exec fresh swappedRun).map
          (fun s => (s.pending, verify exampleSign s.file)) =
        some ([], ⟨1, [(1, .sequenceJumped 1 2)]⟩) :=
  ⟨starts_fresh exampleSign "audit.ndjson", by decide +kernel⟩

end MinMcp.L5.AuditLog
