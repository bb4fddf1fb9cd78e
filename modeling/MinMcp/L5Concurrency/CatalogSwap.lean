import MinMcp.L5Concurrency.ScopedSearch

/-!
# Which requests a swap leaves whole

A request of `Isolation` whose catalog is swapped between two of its looks comes to what it comes to
on the old catalog, or on the new one, under a condition on the two catalogs that is stated for each
kind of request (`Kept`). It says what the two must share: a look that meets the catalog that it is
compared with (`own`) needs nothing.

* `comes`: the answer, and what was taken from a catalog: the tool a name stands for, what the gate
  lets through with the schema, headers and injected fields that go with it, the details of a tool,
  the hits that are shown. Error hints and near misses are in the answer; what no client sees (the
  hits behind the last one shown, whose the cached reads are) is left out.
* `call_iff`, `named_iff`, `details_iff`, `search_iff`: a call by id, a call by name, details and a
  search, each exactly. Details of a tool the old catalog shows cannot mix (`detailsKept_of_shown`).
* `composite_kept`: a composite is left whole when the catalogs agree on the tools of the steps on
  one side of the swap.
* `isolated`: every request; `name_of_one_tool_of_the_other`: a call by name that is refused though
  no catalog refuses it.
-/
namespace MinMcp.L5.Isolation

open MinMcp.Core MinMcp.Core.Text MinMcp.Core.Snapshots
open MinMcp.L4 MinMcp.L4.Catalogs MinMcp.L4.Results MinMcp.L4.Shaping
open MinMcp.L4.CallReach (Reach callResult)
open MinMcp.L4.Minify (truncateInPlace)
open MinMcp.L4.Workflows (Workflow Step Outs)
open MinMcp.L5.ScopedSearch (limit limit_pos overFetch)

section Facts

variable {S : Type} (px : Proxy S) (granted : List String)

/-- What is taken from a catalog. -/
inductive Fact where
  | named (r : Except String (String × Bool))
  | gated (id : String) (t : Option Taken)
  | detailed (d : Option (String × Json))
  | shown (id summary : String)

/-- The first line of a description, cut.
mirrors src/surface.rs:653-657 -/
def summary (desc : String) : String := truncateInPlace (firstLine desc) 110

/-- What a search shows of a tool, or of a composite, given the tool's line.
mirrors src/surface.rs:822-827, 653-657 -/
def shownLine (id : String) (line : Option String) : Option String :=
  (line.or ((px.workflows.find? fun wf => wf.id = id).map px.workflowDescription)).map summary

def shownAs (snap : Snapshot) (id : String) : Option String :=
  shownLine px id (ask px granted snap (.describe id))

def fact : (q : Query) → q.Answer → Option Fact
  | .name _, r => some (.named r)
  | .gate id, t => some (.gated id t)
  | .details _, d => some (.detailed d)
  | .describe id, line => (shownLine px id line).map (.shown id)
  | .nearMisses _, _ | .owned _ _, _ | .hintSchema _, _ | .fromSpec _, _ | .readOnly _, _ | .hits _ _, _ => none

/-- The answer of a request, or of a part of it, and what it took. -/
@[ext] structure Come (α : Type) where
  answer : α
  facts : List Fact

/-- The `i`-th look meets `s i`. -/
def comes {α : Type} (s : Nat → Snapshot) (p : Prog Query.Answer α) : Come α :=
  let o := run (ask px granted) s p
  ⟨o.answer, o.seen.filterMap fun e => fact px e.1 e.2⟩

/-- The request comes to what it comes to on one of the two catalogs. -/
def Isolated (p : Prog Query.Answer Json) (old new : Snapshot) (n : Nat) : Prop :=
  comes px granted (swapAt old new n) p = comes px granted (fun _ => old) p ∨
    comes px granted (swapAt old new n) p = comes px granted (fun _ => new) p

variable {α β : Type}

@[simp] theorem comes_pure (s : Nat → Snapshot) (a : α) : comes px granted s (pure a) = ⟨a, []⟩ := rfl

theorem comes_look (s : Nat → Snapshot) (q : Query) (f : q.Answer → Prog Query.Answer α) :
    comes px granted s (look q >>= f) =
      let c := comes px granted (fun i => s (i + 1)) (f (ask px granted (s 0) q))
      ⟨c.answer, (fact px q (ask px granted (s 0) q)).toList ++ c.facts⟩ := by
  unfold comes look
  simp only [run_look_bind, List.filterMap_cons]
  cases fact px q (ask px granted (s 0) q) with
  | none => rfl
  | some a => rfl

theorem comes_map (s : Nat → Snapshot) (p : Prog Query.Answer α) (f : α → β) :
    comes px granted s (p >>= fun a => pure (f a)) =
      ⟨f (comes px granted s p).answer, (comes px granted s p).facts⟩ := by
  unfold comes
  rw [run_bind]
  simp

theorem isolated_pure (a : Json) (old new : Snapshot) (n : Nat) : Isolated px granted (pure a) old new n :=
  Or.inl rfl

/-- In front of a swap at the first look there is none. -/
theorem isolated_zero (p : Prog Query.Answer Json) (old new : Snapshot) : Isolated px granted p old new 0 :=
  Or.inr rfl

/-- What is done with the answer matters only as far as it can be told apart. -/
theorem isolated_of_run {p : Prog Query.Answer Json} {old new : Snapshot} {n : Nat}
    (h : run (ask px granted) (swapAt old new n) p = whole (ask px granted) old p ∨
      run (ask px granted) (swapAt old new n) p = whole (ask px granted) new p) :
    Isolated px granted p old new n := by
  rcases h with h | h
  · left
    unfold comes
    rw [h]
    rfl
  · right
    unfold comes
    rw [h]
    rfl

end Facts

/-! ## A call -/

section Calls

variable {S : Type} (px : Proxy S) (granted : List String)

/-- The looks at whose the cached reads are.
mirrors src/surface/cache.rs:53-62 -/
def settleLooks (b : Behind S) : Nat := if b.busts && !(px.cachedIds b.state).isEmpty then 1 else 0

/-- The result of a call that was not refused, with hints from this schema. -/
def finished (id : String) (fields : List String) (b : Behind S) (schema : Option Json) : Json :=
  let r := (callResult id b.timeoutS b.call).1
  let out := hintedBy px id schema (b.shape.run r)
  if px.cfg.mode = .threeTool && fields.isEmpty && !isErrorResult (callResult id b.timeoutS b.call).1 then
    nudgeProjection out
  else out

/-- The result of a call that is let through its gate, with hints from this schema. -/
def callAnswer (st : S) (id : String) (args : Json) (fields : List String) (t : Taken)
    (schema : Option Json) : Json :=
  let b := px.behind st id t args fields
  match b.call with
  | .refused text => textResult text true
  | _ => finished px id fields b schema

/-- Which of its looks a call takes its hints from. -/
def hintPlace (st : S) (id : String) (args : Json) (fields : List String) (t : Taken) : Nat :=
  settleLooks px (px.behind st id t args fields) + 1

/-- The result of an id that is unknown or not the caller's. -/
def refusal (snap : Snapshot) (id : String) : Json :=
  textResult (unknownId px id (ask px granted snap (.nearMisses id))) true

theorem comes_settle {α : Type} (s : Nat → Snapshot) (b : Behind S) (idx : Nat)
    (f : S → Prog Query.Answer α) : ∃ st, comes px granted s (settle px b idx >>= f) =
      comes px granted (fun i => s (i + settleLooks px b)) (f st) := by
  unfold settle bustUpstreamCache settleLooks
  by_cases hb : b.busts = true
  · by_cases hc : (px.cachedIds b.state).isEmpty = true
    · rw [if_pos hb, if_pos hc]
      exact ⟨b.state, by simp [hb, hc]; rfl⟩
    · rw [if_pos hb, if_neg hc]
      refine ⟨px.dropCached b.state (ask px granted (s 0) (.owned idx (px.cachedIds b.state))), ?_⟩
      simp only [hb, hc, Bool.true_and, Bool.not_false, if_true]
      exact comes_look px granted s (.owned idx (px.cachedIds b.state)) _
  · rw [if_neg hb]
    exact ⟨b.state, by simp [hb]; rfl⟩

theorem comes_hinted (s : Nat → Snapshot) (id : String) (r : Json) : comes px granted s (hinted px id r) =
    ⟨hintedBy px id (ask px granted (s 0) (.hintSchema id)) r, []⟩ := by
  unfold hinted hintedBy
  simp only []
  split
  · rw [comes_look]
    rfl
  · rfl

theorem comes_afterCall (s : Nat → Snapshot) (id : String) (fields : List String) (idx : Nat) (b : Behind S) :
    (comes px granted s (afterCall px id fields idx b)).answer.1.1 =
        finished px id fields b (ask px granted (s (settleLooks px b)) (.hintSchema id)) ∧
      (comes px granted s (afterCall px id fields idx b)).facts = [] := by
  unfold afterCall
  simp only []
  obtain ⟨st, hst⟩ := comes_settle px granted s b idx fun st => do
    let out ← hinted px id (b.shape.run (callResult id b.timeoutS b.call).1)
    pure ((if px.cfg.mode = .threeTool && fields.isEmpty &&
      !isErrorResult (callResult id b.timeoutS b.call).1 then nudgeProjection out else out,
      (callResult id b.timeoutS b.call).2), st)
  rw [hst, comes_map, comes_hinted, Nat.zero_add]
  exact ⟨rfl, rfl⟩

/-- What a call comes to. -/
theorem comes_dispatch (s : Nat → Snapshot) (st : S) (id : String) (args : Json) (fields : List String) :
    (comes px granted s (dispatch px st id args fields)).answer.1.1 =
        (match ask px granted (s 0) (.gate id) with
          | none => refusal px granted (s 1) id
          | some t => callAnswer px st id args fields t
              (ask px granted (s (hintPlace px st id args fields t)) (.hintSchema id))) ∧
      (comes px granted s (dispatch px st id args fields)).facts = [.gated id (ask px granted (s 0) (.gate id))] := by
  unfold dispatch
  rw [comes_look]
  cases ask px granted (s 0) (.gate id) with
  | none =>
    simp only []
    rw [comes_look]
    exact ⟨rfl, rfl⟩
  | some t =>
    simp only [callAnswer, hintPlace]
    have hafter := comes_afterCall px granted (fun i => s (i + 1)) id fields t.upstreamIdx
      (px.behind st id t args fields)
    cases hcall : (px.behind st id t args fields).call with
    | refused text => exact ⟨rfl, rfl⟩
    | cached r wf clean => exact ⟨hafter.1, congrArg (Fact.gated id (some t) :: ·) hafter.2⟩
    | sent reply => exact ⟨hafter.1, congrArg (Fact.gated id (some t) :: ·) hafter.2⟩

variable (wrap : Json → Json) (st : S) (id : String) (args : Json) (fields : List String)

/-- A call whose result is handed on. -/
def wrapped : Prog Query.Answer Json := do
  let d ← dispatch px st id args fields
  pure (wrap d.1.1)

/-- A call comes to what it comes to on `c`, when its looks meet `c` itself or else `d`: both let the
same through the gate, and the near misses, or the hints, are the same for the client. -/
def CallAs (c d : Snapshot) (own : Nat → Prop) : Prop :=
  (own 0 ∨ ask px granted d (.gate id) = ask px granted c (.gate id)) ∧
    match ask px granted c (.gate id) with
    | none => own 1 ∨ wrap (refusal px granted d id) = wrap (refusal px granted c id)
    | some t => own (hintPlace px st id args fields t) ∨
        wrap (callAnswer px st id args fields t (ask px granted d (.hintSchema id))) =
          wrap (callAnswer px st id args fields t (ask px granted c (.hintSchema id)))

theorem comes_wrapped_iff (s : Nat → Snapshot) (c : Snapshot) :
    comes px granted s (wrapped px wrap st id args fields) =
        comes px granted (fun _ => c) (wrapped px wrap st id args fields) ↔
      ask px granted (s 0) (.gate id) = ask px granted c (.gate id) ∧
        match ask px granted c (.gate id) with
        | none => wrap (refusal px granted (s 1) id) = wrap (refusal px granted c id)
        | some t =>
          wrap (callAnswer px st id args fields t
              (ask px granted (s (hintPlace px st id args fields t)) (.hintSchema id))) =
            wrap (callAnswer px st id args fields t (ask px granted c (.hintSchema id))) := by
  have hs := comes_dispatch px granted s st id args fields
  have hc := comes_dispatch px granted (fun _ => c) st id args fields
  unfold wrapped
  rw [comes_map, comes_map, hs.1, hs.2, hc.1, hc.2, Come.mk.injEq, and_comm]
  simp only [List.cons.injEq, Fact.gated.injEq, true_and, and_true]
  refine and_congr_right fun hg => ?_
  rw [hg]
  cases ask px granted c (.gate id) <;> rfl

theorem call_old_iff (old new : Snapshot) (n : Nat) :
    comes px granted (swapAt old new n) (wrapped px wrap st id args fields) =
        comes px granted (fun _ => old) (wrapped px wrap st id args fields) ↔
      CallAs px granted wrap st id args fields old new fun i => i < n := by
  rw [comes_wrapped_iff]
  refine and_congr (swapAt_old_iff (P := fun c => ask px granted c (.gate id) = _) new n 0 rfl) ?_
  split
  · exact swapAt_old_iff (P := fun c => wrap (refusal px granted c id) = _) new n 1 rfl
  · exact swapAt_old_iff
      (P := fun c => wrap (callAnswer px st id args fields _ (ask px granted c (.hintSchema id))) = _) new n _ rfl

theorem call_new_iff (old new : Snapshot) (n : Nat) :
    comes px granted (swapAt old new n) (wrapped px wrap st id args fields) =
        comes px granted (fun _ => new) (wrapped px wrap st id args fields) ↔
      CallAs px granted wrap st id args fields new old fun i => n ≤ i := by
  rw [comes_wrapped_iff]
  refine and_congr (swapAt_new_iff (P := fun c => ask px granted c (.gate id) = _) old n 0 rfl) ?_
  split
  · exact swapAt_new_iff (P := fun c => wrap (refusal px granted c id) = _) old n 1 rfl
  · exact swapAt_new_iff
      (P := fun c => wrap (callAnswer px st id args fields _ (ask px granted c (.hintSchema id))) = _) old n _ rfl

/-- A call by id. -/
def CallKept (old new : Snapshot) (n : Nat) : Prop :=
  CallAs px granted wrap st id args fields old new (fun i => i < n) ∨
    CallAs px granted wrap st id args fields new old (fun i => n ≤ i)

theorem call_iff (old new : Snapshot) (n : Nat) :
    Isolated px granted (wrapped px wrap st id args fields) old new n ↔
      CallKept px granted wrap st id args fields old new n :=
  or_congr (call_old_iff px granted wrap st id args fields old new n)
    (call_new_iff px granted wrap st id args fields old new n)

end Calls

/-! ## A call by name -/

section Names

variable {S : Type} (px : Proxy S) (granted : List String) (st : S) (name : String) (args : Json)

/-- The name stands for the same in both, and what it stands for in `c` is called as on `c`. -/
def NamedAs (c d : Snapshot) (own : Nat → Prop) : Prop :=
  (own 0 ∨ ask px granted d (.name name) = ask px granted c (.name name)) ∧
    match ask px granted c (.name name) with
    | .error _ => True
    | .ok (id, declared) =>
      CallAs px granted (Hidden.boundPassthrough declared) st id args [] c d fun i => own (i + 1)

def NamedKept (old new : Snapshot) (n : Nat) : Prop :=
  NamedAs px granted st name args old new (fun i => i < n) ∨
    NamedAs px granted st name args new old (fun i => n ≤ i)

theorem comes_named_iff (s : Nat → Snapshot) (c : Snapshot) :
    comes px granted s (callByName px st name args) = comes px granted (fun _ => c) (callByName px st name args) ↔
      ask px granted (s 0) (.name name) = ask px granted c (.name name) ∧
        match ask px granted c (.name name) with
        | .error _ => True
        | .ok (id, declared) =>
          comes px granted (fun i => s (i + 1)) (wrapped px (Hidden.boundPassthrough declared) st id args []) =
            comes px granted (fun _ => c) (wrapped px (Hidden.boundPassthrough declared) st id args []) := by
  unfold callByName
  rw [comes_look, comes_look]
  simp only [fact, Option.toList_some, List.singleton_append, Come.mk.injEq, List.cons.injEq, Fact.named.injEq]
  constructor
  · rintro ⟨ha, hq, hf⟩
    refine ⟨hq, ?_⟩
    rw [hq] at ha hf
    split
    · trivial
    · next heq =>
      rw [heq] at ha hf
      exact Come.ext ha hf
  · rintro ⟨hq, h⟩
    rw [hq]
    refine and_left_comm.mp ⟨rfl, ?_⟩
    cases hc : ask px granted c (.name name) with
    | error hint => exact ⟨rfl, rfl⟩
    | ok r =>
      rw [hc] at h
      exact Come.mk.inj h

theorem named_iff (old new : Snapshot) (n : Nat) :
    Isolated px granted (callByName px st name args) old new n ↔ NamedKept px granted st name args old new n := by
  have hfront : (fun i => i + 1 < n) = fun i => i < n - 1 := by
    funext i
    simp [Nat.lt_sub_iff_add_lt]
  have hbehind : (fun i => n ≤ i + 1) = fun i => n - 1 ≤ i := by
    funext i
    simp
  refine or_congr ?_ ?_
  · rw [comes_named_iff, swapAt_shift]
    refine and_congr (swapAt_old_iff (P := fun c => ask px granted c (.name name) = _) new n 0 rfl) ?_
    cases ask px granted old (.name name) with
    | error hint => rfl
    | ok r =>
      simp only [hfront]
      exact call_old_iff px granted _ st r.1 args [] old new (n - 1)
  · rw [comes_named_iff, swapAt_shift]
    refine and_congr (swapAt_new_iff (P := fun c => ask px granted c (.name name) = _) old n 0 rfl) ?_
    cases ask px granted new (.name name) with
    | error hint => rfl
    | ok r =>
      simp only [hbehind]
      exact call_new_iff px granted _ st r.1 args [] old new (n - 1)

end Names

/-! ## Details -/

section Details

variable {S : Type} (px : Proxy S) (granted : List String) (id : String)

/-- The text of a tool's details, or of an id that is unknown.
mirrors src/surface.rs:680-693 -/
def detailsOf (d : Option (String × Json)) (near : String) : String :=
  match d with
  | none => unknownId px id near
  | some (description, schema) => px.toolDetails id description schema

/-- Both show the same of the tool, and the same near misses where they show nothing. -/
def DetailsAs (c d : Snapshot) (own : Nat → Prop) : Prop :=
  (own 0 ∨ ask px granted d (.details id) = ask px granted c (.details id)) ∧
    (ask px granted c (.details id) = none → own 1 ∨
      unknownId px id (ask px granted d (.nearMisses id)) = unknownId px id (ask px granted c (.nearMisses id)))

def DetailsKept (old new : Snapshot) (n : Nat) : Prop :=
  DetailsAs px granted id old new (fun i => i < n) ∨ DetailsAs px granted id new old (fun i => n ≤ i)

theorem comes_detailsText (s : Nat → Snapshot)
    (hwf : ((px.workflows.find? fun wf => wf.id = id).filter fun _ => px.cfg.scopes.visible granted id) = none) :
    comes px granted s (detailsText px granted id) =
      ⟨detailsOf px id (ask px granted (s 0) (.details id)) (ask px granted (s 1) (.nearMisses id)),
        [.detailed (ask px granted (s 0) (.details id))]⟩ := by
  unfold detailsText
  rw [hwf]
  simp only []
  rw [comes_look]
  cases ask px granted (s 0) (.details id) with
  | none =>
    simp only []
    rw [comes_look]
    rfl
  | some d => rfl

theorem textResult_inj {a b : String} {e : Bool} (h : textResult a e = textResult b e) : a = b := by
  simpa [textResult] using h

theorem comes_details_iff (s : Nat → Snapshot) (c : Snapshot)
    (hwf : ((px.workflows.find? fun wf => wf.id = id).filter fun _ => px.cfg.scopes.visible granted id) = none) :
    comes px granted s (detailsText px granted id >>= fun text => pure (textResult text false)) =
        comes px granted (fun _ => c) (detailsText px granted id >>= fun text => pure (textResult text false)) ↔
      ask px granted (s 0) (.details id) = ask px granted c (.details id) ∧
        (ask px granted c (.details id) = none →
          unknownId px id (ask px granted (s 1) (.nearMisses id)) =
            unknownId px id (ask px granted c (.nearMisses id))) := by
  rw [comes_map, comes_map, comes_detailsText px granted id s hwf, comes_detailsText px granted id _ hwf,
    Come.mk.injEq, and_comm]
  simp only [List.cons.injEq, Fact.detailed.injEq, and_true]
  refine and_congr_right fun hd => ?_
  rw [hd]
  cases ask px granted c (.details id) with
  | none => exact ⟨fun h _ => textResult_inj h, fun h => congrArg (textResult · false) (h rfl)⟩
  | some d => exact iff_of_true rfl nofun

theorem details_iff (old new : Snapshot) (n : Nat)
    (hwf : ((px.workflows.find? fun wf => wf.id = id).filter fun _ => px.cfg.scopes.visible granted id) = none) :
    Isolated px granted (detailsText px granted id >>= fun text => pure (textResult text false)) old new n ↔
      DetailsKept px granted id old new n := by
  refine or_congr ?_ ?_
  · rw [comes_details_iff px granted id _ old hwf]
    exact and_congr (swapAt_old_iff (P := fun c => ask px granted c (.details id) = _) new n 0 rfl)
      (imp_congr_right fun _ => swapAt_old_iff
        (P := fun c => unknownId px id (ask px granted c (.nearMisses id)) = _) new n 1 rfl)
  · rw [comes_details_iff px granted id _ new hwf]
    exact and_congr (swapAt_new_iff (P := fun c => ask px granted c (.details id) = _) old n 0 rfl)
      (imp_congr_right fun _ => swapAt_new_iff
        (P := fun c => unknownId px id (ask px granted c (.nearMisses id)) = _) old n 1 rfl)

/-- Only an id that the old catalog does not show can mix the two. -/
theorem detailsKept_of_shown {old new : Snapshot} (h : ask px granted old (.details id) ≠ none) (n : Nat) :
    DetailsKept px granted id old new n := by
  cases n with
  | zero => exact Or.inr ⟨Or.inl (Nat.zero_le 0), fun _ => Or.inl (Nat.zero_le 1)⟩
  | succ n => exact Or.inl ⟨Or.inl (Nat.succ_pos n), fun hn => absurd hn h⟩

end Details

/-! ## A search -/

section Searches

variable {S : Type} (px : Proxy S) (granted : List String)

/-- The hits that are shown, up to `room` of them, when the `i`-th look at one meets `s i`.
mirrors src/surface.rs:649-663 -/
def shownHits (s : Nat → Snapshot) : Nat → List String → List (String × String)
  | 0, _ => []
  | _, [] => []
  | room + 1, id :: hits =>
    match shownAs px granted (s 0) id with
    | some d => (id, d) :: shownHits (fun i => s (i + 1)) room hits
    | none => shownHits (fun i => s (i + 1)) (room + 1) hits

/-- The hits that are looked at until `room` of them are shown. -/
def lookedAt (c : Snapshot) : Nat → List String → List String
  | 0, _ => []
  | _, [] => []
  | room + 1, id :: hits =>
    id :: lookedAt c (if (shownAs px granted c id).isSome then room else room + 1) hits

/-- What a search of the index finds for the caller. -/
def found (snap : Snapshot) (query : String) (k : Nat) : List String :=
  (snap.search query (overFetch k)).filter fun id => px.cfg.scopes.visible granted id

/-- A hit's line.
mirrors src/surface.rs:657 -/
def line (hit : String × String) : String := s!"{hit.1} — {hit.2}"

/-- The hits of the old index that are looked at behind the swap are shown alike by the new
catalog; or what is shown so is what the new catalog's own hits show. -/
def SearchKept (query : String) (k : Nat) (old new : Snapshot) : Nat → Prop
  | 0 => True
  | n + 1 =>
    (∀ id ∈ (lookedAt px granted old (limit k) (found px granted old query k)).drop n,
      shownAs px granted new id = shownAs px granted old id) ∨
    shownHits px granted (swapAt old new n) (limit k) (found px granted old query k) =
      shownHits px granted (fun _ => new) (limit k) (found px granted new query k)

theorem comes_describe {α : Type} (s : Nat → Snapshot) (id : String) (f : Option String → Prog Query.Answer α) :
    ∃ desc, desc.map summary = shownAs px granted (s 0) id ∧ comes px granted s (describe px id >>= f) =
      let c := comes px granted (fun i => s (i + 1)) (f desc)
      ⟨c.answer, ((shownAs px granted (s 0) id).map (.shown id)).toList ++ c.facts⟩ := by
  have hlook : describe px id >>= f = look (.describe id) >>= fun r =>
      f (r.or ((px.workflows.find? fun wf => wf.id = id).map px.workflowDescription)) := by
    refine congrArg (Prog.look _) (funext fun r => ?_)
    cases r <;> rfl
  rw [hlook, comes_look]
  unfold shownAs shownLine fact
  cases ask px granted (s 0) (.describe id) with
  | some line => exact ⟨some line, rfl, rfl⟩
  | none => exact ⟨_, rfl, rfl⟩

theorem comes_searchLines (s : Nat → Snapshot) (k room : Nat) (lines hits : List String)
    (hk : k = lines.length + (room + 1)) : comes px granted s (searchLines px granted k lines hits) =
      ⟨lines ++ (shownHits px granted s (room + 1)
          (hits.filter fun id => px.cfg.scopes.visible granted id)).map line,
        (shownHits px granted s (room + 1)
          (hits.filter fun id => px.cfg.scopes.visible granted id)).map fun hit => .shown hit.1 hit.2⟩ := by
  induction hits generalizing s lines room with
  | nil => simp [searchLines, shownHits]
  | cons id hits ih =>
    unfold searchLines
    by_cases hv : px.cfg.scopes.visible granted id = true
    · rw [if_pos hv, List.filter_cons_of_pos hv]
      obtain ⟨desc, hdesc, hcomes⟩ := comes_describe px granted s id fun desc =>
        let lines := lines ++ (desc.map fun d => s!"{id} — {truncateInPlace (firstLine d) 110}").toList
        if k ≤ lines.length then pure lines else searchLines px granted k lines hits
      rw [hcomes]
      cases desc with
      | none =>
        have hnone : shownAs px granted (s 0) id = none := hdesc.symm
        simp only [shownHits, hnone, Option.map_none, Option.toList_none, List.append_nil, List.nil_append]
        rw [if_neg (by omega), ih _ room lines hk]
      | some raw =>
        have hsome : shownAs px granted (s 0) id = some (summary raw) := hdesc.symm
        have hlen : (lines ++ [line (id, summary raw)]).length = lines.length + 1 := by simp
        simp only [shownHits, hsome, Option.map_some, Option.toList_some, List.map_cons]
        change (let c := comes px granted _ (if k ≤ (lines ++ [line (id, summary raw)]).length then
          pure (lines ++ [line (id, summary raw)])
          else searchLines px granted k (lines ++ [line (id, summary raw)]) hits); (⟨c.answer, _ ++ c.facts⟩ : Come _)) = _
        cases room with
        | zero =>
          rw [if_pos (by omega)]
          simp [shownHits]
        | succ room =>
          rw [if_neg (by omega), ih _ room _ (by omega)]
          simp
    · rw [if_neg hv, List.filter_cons_of_neg hv]
      exact ih s room lines hk

/-- The text of a search.
mirrors src/surface.rs:664-670 -/
def searchResult (hits : List (String × String)) : String :=
  if hits.isEmpty then "no matches — try different words (resource or action names work best)"
  else "\n".intercalate (hits.map line)

theorem comes_searchText (s : Nat → Snapshot) (query : String) (k : Nat) :
    comes px granted s (searchText px granted query k) =
      ⟨searchResult (shownHits px granted (fun i => s (i + 1)) (limit k) (found px granted (s 0) query k)),
        (shownHits px granted (fun i => s (i + 1)) (limit k) (found px granted (s 0) query k)).map
          fun hit => .shown hit.1 hit.2⟩ := by
  obtain ⟨room, hroom⟩ := Nat.exists_eq_succ_of_ne_zero (Nat.ne_of_gt (limit_pos k))
  unfold searchText
  rw [comes_look, comes_map]
  change (⟨_, [] ++ (comes px granted _ (searchLines px granted (limit k) []
    ((s 0).search query (overFetch k)))).facts⟩ : Come String) = _
  rw [List.nil_append]
  change (⟨(fun lines : List String => if lines.isEmpty then
      "no matches — try different words (resource or action names work best)" else "\n".intercalate lines)
    (comes px granted _ (searchLines px granted (limit k) []
      ((s 0).search query (overFetch k)))).answer, _⟩ : Come String) = _
  rw [comes_searchLines px granted _ (limit k) room [] _ (by rw [hroom]; simp), ← Nat.succ_eq_add_one, ← hroom]
  simp [searchResult, found]

theorem comes_search_iff (s : Nat → Snapshot) (c : Snapshot) (query : String) (k : Nat) :
    comes px granted s (searchText px granted query k >>= fun text => pure (textResult text false)) =
        comes px granted (fun _ => c) (searchText px granted query k >>= fun text => pure (textResult text false)) ↔
      shownHits px granted (fun i => s (i + 1)) (limit k) (found px granted (s 0) query k) =
        shownHits px granted (fun _ => c) (limit k) (found px granted c query k) := by
  rw [comes_map, comes_map, comes_searchText, comes_searchText, Come.mk.injEq]
  constructor
  · intro h
    refine List.map_injective_iff.mpr (fun a b hab => ?_) h.2
    exact Prod.ext (Fact.shown.inj hab).1 (Fact.shown.inj hab).2
  · intro h
    rw [h]
    exact ⟨rfl, rfl⟩

/-- A hit that is shown is shown as the catalog describes it. -/
theorem shownAs_of_mem (c : Snapshot) (room : Nat) (hits : List String) :
    ∀ hit ∈ shownHits px granted (fun _ => c) room hits, shownAs px granted c hit.1 = some hit.2 := by
  induction hits generalizing room with
  | nil => cases room <;> exact nofun
  | cons id hits ih =>
    cases room with
    | zero => exact nofun
    | succ room =>
      unfold shownHits
      split
      · next d hd => exact List.forall_mem_cons.mpr ⟨hd, ih room⟩
      · exact ih (room + 1)

/-- Two catalogs show the same of these hits exactly when they show alike every hit that is looked
at: a hit's first difference is never made up by a later one. -/
theorem shownHits_eq_iff (c d : Snapshot) (room : Nat) (hits : List String) :
    shownHits px granted (fun _ => d) room hits = shownHits px granted (fun _ => c) room hits ↔
      ∀ id ∈ lookedAt px granted c room hits, shownAs px granted d id = shownAs px granted c id := by
  induction hits generalizing room with
  | nil => cases room <;> simp [shownHits, lookedAt]
  | cons id hits ih =>
    cases room with
    | zero => simp [shownHits, lookedAt]
    | succ room =>
      unfold shownHits lookedAt
      rw [List.forall_mem_cons]
      cases hc : shownAs px granted c id with
      | some x =>
        simp only [Option.isSome_some, if_true]
        cases hd : shownAs px granted d id with
        | some y => simp only [List.cons.injEq, Prod.mk.injEq, true_and, Option.some.injEq, ih]
        | none =>
          refine iff_of_false (fun h => ?_) nofun
          have hmem : (id, x) ∈ shownHits px granted (fun _ => d) (room + 1) hits := by
            rw [show shownHits px granted (fun _ => d) (room + 1) hits = _ from h]
            exact List.mem_cons_self
          have := shownAs_of_mem px granted d (room + 1) hits (id, x) hmem
          rw [hd] at this
          cases this
      | none =>
        simp only [Option.isSome_none, Bool.false_eq_true, if_false]
        cases hd : shownAs px granted d id with
        | some y =>
          refine iff_of_false (fun h => ?_) nofun
          have hmem : (id, y) ∈ shownHits px granted (fun _ => c) (room + 1) hits := by
            rw [← show _ = shownHits px granted (fun _ => c) (room + 1) hits from h]
            exact List.mem_cons_self
          have := shownAs_of_mem px granted c (room + 1) hits (id, y) hmem
          rw [hc] at this
          cases this
        | none => simp only [true_and, ih]

/-- The hits in front of the swap are shown as the old catalog shows them. -/
theorem shownHits_swap_iff (old new : Snapshot) (n room : Nat) (hits : List String) :
    shownHits px granted (swapAt old new n) room hits = shownHits px granted (fun _ => old) room hits ↔
      ∀ id ∈ (lookedAt px granted old room hits).drop n, shownAs px granted new id = shownAs px granted old id := by
  induction n generalizing room hits with
  | zero => exact shownHits_eq_iff px granted old new room hits
  | succ n ih =>
    cases hits with
    | nil => cases room <;> simp [shownHits, lookedAt]
    | cons id hits =>
      cases room with
      | zero => simp [shownHits, lookedAt]
      | succ room =>
        unfold shownHits lookedAt
        have hfirst : swapAt old new (n + 1) 0 = old := rfl
        rw [swapAt_shift, Nat.add_sub_cancel, hfirst, List.drop_succ_cons]
        cases shownAs px granted old id with
        | some d => simp only [Option.isSome_some, if_true, List.cons.injEq, true_and, ih]
        | none => simp only [Option.isSome_none, Bool.false_eq_true, if_false, ih]

theorem search_iff (old new : Snapshot) (query : String) (k n : Nat) :
    Isolated px granted (searchText px granted query k >>= fun text => pure (textResult text false)) old new n ↔
      SearchKept px granted query k old new n := by
  cases n with
  | zero => exact iff_of_true (isolated_zero px granted _ old new) trivial
  | succ n =>
    refine or_congr ?_ ?_
    · rw [comes_search_iff, swapAt_shift]
      exact shownHits_swap_iff px granted old new n _ _
    · rw [comes_search_iff, swapAt_shift]
      exact Iff.rfl

end Searches

/-! ## A composite -/

section Composites

variable {S : Type} (px : Proxy S) (granted : List String)

/-- Both say the same of a tool that a step calls. -/
structure SameTool (c d : Snapshot) (id : String) : Prop where
  gate : ask px granted d (.gate id) = ask px granted c (.gate id)
  near : ask px granted d (.nearMisses id) = ask px granted c (.nearMisses id)
  hints : ask px granted d (.hintSchema id) = ask px granted c (.hintSchema id)
  fromSpec : ask px granted d (.fromSpec id) = ask px granted c (.fromSpec id)

/-- Both say the same of the tools of `steps`, of the effects of these and of `done`, and of whose
the cached reads are. -/
structure Alike (c d : Snapshot) (done steps : List Step) : Prop where
  tools : ∀ s ∈ steps, SameTool px granted c d s.tool
  effects : ∀ s ∈ done ++ steps, ask px granted d (.readOnly s.tool) = ask px granted c (.readOnly s.tool)
  cached : ∀ idx st, ask px granted d (.owned idx (px.cachedIds st)) = ask px granted c (.owned idx (px.cachedIds st))

/-- What a composite asks on its way from `done` through `steps`. -/
def Asks (done steps : List Step) : Query → Prop
  | .gate id | .nearMisses id | .hintSchema id | .fromSpec id => ∃ s ∈ steps, s.tool = id
  | .readOnly id => ∃ s ∈ done ++ steps, s.tool = id
  | .owned _ ids => ∃ st, ids = px.cachedIds st
  | .name _ | .hits _ _ | .describe _ | .details _ => False

theorem Alike.asks {c d : Snapshot} {done steps : List Step} (h : Alike px granted c d done steps) {q : Query}
    (hq : Asks px done steps q) : ask px granted d q = ask px granted c q := by
  cases q with
  | gate id =>
    obtain ⟨s, hs, rfl⟩ := hq
    exact (h.tools s hs).gate
  | nearMisses id =>
    obtain ⟨s, hs, rfl⟩ := hq
    exact (h.tools s hs).near
  | hintSchema id =>
    obtain ⟨s, hs, rfl⟩ := hq
    exact (h.tools s hs).hints
  | fromSpec id =>
    obtain ⟨s, hs, rfl⟩ := hq
    exact (h.tools s hs).fromSpec
  | readOnly id =>
    obtain ⟨s, hs, rfl⟩ := hq
    exact h.effects s hs
  | owned idx ids =>
    obtain ⟨st, rfl⟩ := hq
    exact h.cached idx st
  | name | hits | describe | details => exact hq.elim

theorem asked_look (c : Snapshot) (q : Query) : asked (ask px granted) c (look q) = [q] := rfl

theorem asked_settle (c : Snapshot) (b : Behind S) (idx : Nat) :
    ∀ q ∈ asked (ask px granted) c (settle px b idx), q = .owned idx (px.cachedIds b.state) := by
  unfold settle bustUpstreamCache
  split
  · split
    · intro q hq
      cases hq
    · rw [asked_bind, asked_look]
      intro q hq
      exact List.mem_singleton.mp hq
  · intro q hq
    cases hq

theorem asked_hinted (c : Snapshot) (id : String) (r : Json) :
    ∀ q ∈ asked (ask px granted) c (hinted px id r), q = .hintSchema id := by
  unfold hinted
  simp only []
  split
  · rw [asked_bind, asked_look]
    intro q hq
    exact List.mem_singleton.mp hq
  · intro q hq
    cases hq

theorem asked_dispatch (c : Snapshot) (st : S) (step : Step) (args : Json) (fields : List String)
    (done rest : List Step) :
    ∀ q ∈ asked (ask px granted) c (dispatch px st step.tool args fields), Asks px done (step :: rest) q := by
  unfold dispatch
  rw [asked_bind, asked_look]
  intro q hq
  rcases List.mem_append.mp hq with hq | hq
  · obtain rfl := List.mem_singleton.mp hq
    exact ⟨step, List.mem_cons_self, rfl⟩
  · split at hq
    · rw [asked_bind, asked_look, asked_pure, List.append_nil] at hq
      obtain rfl := List.mem_singleton.mp hq
      exact ⟨step, List.mem_cons_self, rfl⟩
    · next t ht =>
      simp only [] at hq
      split at hq
      · cases hq
      · unfold afterCall at hq
        simp only [asked_bind, asked_pure, List.append_nil] at hq
        rcases List.mem_append.mp hq with hq | hq
        · obtain rfl := asked_settle px granted c _ _ q hq
          exact ⟨_, rfl⟩
        · obtain rfl := asked_hinted px granted c _ _ q hq
          exact ⟨step, List.mem_cons_self, rfl⟩

theorem asked_effects (c : Snapshot) (done : List Step) :
    asked (ask px granted) c (effects done) = done.map fun s => .readOnly s.tool := by
  induction done with
  | nil => rfl
  | cons s ss ih =>
    unfold effects
    rw [asked_bind, asked_look, asked_bind, asked_pure, List.append_nil, ih]
    rfl

theorem asked_inDoubt (c : Snapshot) (step : Step) (reach : Reach) :
    ∀ q ∈ asked (ask px granted) c (inDoubt step reach), q = .readOnly step.tool := by
  unfold inDoubt
  split
  · rw [asked_bind, asked_look]
    intro q hq
    exact List.mem_singleton.mp hq
  · intro q hq
    cases hq

theorem Asks.later {done steps : List Step} {step : Step} {q : Query} (h : Asks px (done ++ [step]) steps q) :
    Asks px done (step :: steps) q := by
  cases q with
  | gate | nearMisses | hintSchema | fromSpec =>
    obtain ⟨s, hs, he⟩ := h
    exact ⟨s, List.mem_cons_of_mem _ hs, he⟩
  | readOnly id =>
    obtain ⟨s, hs, he⟩ := h
    exact ⟨s, by simpa using hs, he⟩
  | owned => exact h
  | name | hits | describe | details => exact h.elim

variable (wf : Workflow) (inputs : Json)

theorem asked_runFrom (c : Snapshot) (steps : List Step) (st : S) (done : List Step) (outs : Outs) :
    ∀ q ∈ asked (ask px granted) c (runFrom px wf inputs st done outs steps), Asks px done steps q := by
  induction steps generalizing st done outs with
  | nil =>
    intro q hq
    cases hq
  | cons step rest ih =>
    unfold runFrom
    rw [asked_bind]
    intro q hq
    rcases List.mem_append.mp hq with hq | hq
    · exact asked_dispatch px granted c st step _ _ done rest q hq
    · split at hq
      · rw [asked_bind, asked_look] at hq
        rcases List.mem_append.mp hq with hq | hq
        · obtain rfl := List.mem_singleton.mp hq
          exact ⟨step, List.mem_cons_self, rfl⟩
        · exact Asks.later px (ih _ _ _ q hq)
      · rw [asked_bind, asked_bind, asked_effects, asked_pure, List.append_nil] at hq
        rcases List.mem_append.mp hq with hq | hq
        · obtain ⟨s, hs, rfl⟩ := List.mem_map.mp hq
          exact ⟨s, List.mem_append_left _ hs, rfl⟩
        · obtain rfl := asked_inDoubt px granted c step _ q hq
          exact ⟨step, by simp, rfl⟩

/-- What the first steps ask is asked first, and only the effects of their tools again later. -/
theorem asked_runFrom_append (c : Snapshot) (first rest : List Step) (st : S) (done : List Step) (outs : Outs) :
    ∃ qs, asked (ask px granted) c (runFrom px wf inputs st done outs (first ++ rest)) =
        asked (ask px granted) c (runFrom px wf inputs st done outs first) ++ qs ∧
      ∀ q ∈ qs, Asks px (done ++ first) rest q := by
  induction first generalizing st done outs with
  | nil =>
    refine ⟨_, (List.nil_append _).symm, fun q hq => ?_⟩
    rw [List.append_nil]
    exact asked_runFrom px granted wf inputs c rest st done outs q hq
  | cons step first ih =>
    rw [List.cons_append]
    unfold runFrom
    rw [asked_bind, asked_bind]
    split
    · rw [asked_bind, asked_bind]
      obtain ⟨qs, hqs, hasks⟩ := ih _ _ _
      rw [hqs]
      refine ⟨qs, by simp only [List.append_assoc], fun q hq => ?_⟩
      have := hasks q hq
      rwa [List.append_assoc] at this
    · refine ⟨[], ?_, fun q hq => absurd hq List.not_mem_nil⟩
      rw [List.append_nil]
      simp only [asked_bind, asked_pure]

/-- How many looks the first `i` steps make on a catalog. -/
def looksOf (c : Snapshot) (st : S) (i : Nat) : Nat :=
  (asked (ask px granted) c (runFrom px wf inputs st [] [] (wf.steps.take i))).length

/-- The first steps have made their looks when the catalog is swapped, and both catalogs say the
same of the others; or the others have made none, and both say the same of the first. -/
def CompositeKept (st : S) (old new : Snapshot) (n : Nat) : Prop :=
  (∃ i, looksOf px granted wf inputs old st i ≤ n ∧
    Alike px granted old new (wf.steps.take i) (wf.steps.drop i)) ∨
  ∃ i, n ≤ looksOf px granted wf inputs new st i ∧ Alike px granted new old [] (wf.steps.take i)

theorem composite_kept {st : S} {old new : Snapshot} {n : Nat}
    (h : CompositeKept px granted wf inputs st old new n) :
    Isolated px granted (runFrom px wf inputs st [] [] wf.steps) old new n := by
  apply isolated_of_run
  rcases h with ⟨i, hi, ha⟩ | ⟨i, hi, ha⟩
  · left
    apply run_swapAt_eq_old
    obtain ⟨qs, hqs, hasks⟩ := asked_runFrom_append px granted wf inputs old (wf.steps.take i) (wf.steps.drop i)
      st [] []
    rw [List.take_append_drop] at hqs
    intro q hq
    rw [hqs, List.drop_append, List.drop_eq_nil_of_le hi, List.nil_append] at hq
    exact ha.asks px granted (hasks q (List.mem_of_mem_drop hq))
  · right
    apply run_swapAt_eq_new
    obtain ⟨qs, hqs, -⟩ := asked_runFrom_append px granted wf inputs new (wf.steps.take i) (wf.steps.drop i)
      st [] []
    rw [List.take_append_drop] at hqs
    intro q hq
    rw [hqs, List.take_append_of_le_length hi] at hq
    exact ha.asks px granted (asked_runFrom px granted wf inputs new _ st [] [] q (List.mem_of_mem_take hq))

end Composites

/-! ## Requests -/

section Requests

variable {S : Type} (px : Proxy S) (granted : List String)

/-- The composite that a request runs. -/
def compositeOf (name : String) (args : Json) : Option Workflow :=
  if px.cfg.mode = .passthrough ∨ name ≠ "call_tool" then none
  else ((args.get "tool_id").bind Json.asStr).bind fun id =>
    (Hidden.callArguments (args.get "arguments")).bind fun _ =>
      (px.workflows.find? fun wf => wf.id = id).filter fun _ => px.cfg.scopes.mayCall granted id

/-- mirrors src/surface.rs:771-777 -/
def RouteKept (st : S) (id : String) (args : Json) (fields : List String) (old new : Snapshot) (n : Nat) : Prop :=
  match (px.workflows.find? fun wf => wf.id = id).filter fun _ => px.cfg.scopes.mayCall granted id with
  | some wf => CompositeKept px granted wf args st old new n
  | none => CallKept px granted Hidden.truncateResultText st id args fields old new n

/-- When a request is left whole, by its kind; a refusal of its arguments looks at no catalog.
mirrors src/surface.rs:539-638 -/
def Kept (st : S) (name : String) (args : Json) (old new : Snapshot) (n : Nat) : Prop :=
  if px.cfg.mode = .passthrough then NamedKept px granted st name args old new n
  else if name = "search_tools" then
    ∀ query, (args.get "query").bind Json.asStr = some query →
      SearchKept px granted query (CallAudit.searchK args) old new n
  else if name = "get_tool_details" then
    ∀ id, (args.get "tool_id").bind Json.asStr = some id →
      ((px.workflows.find? fun wf => wf.id = id).filter fun _ => px.cfg.scopes.visible granted id) = none →
      DetailsKept px granted id old new n
  else if name = "call_tool" then
    ∀ id, (args.get "tool_id").bind Json.asStr = some id →
      ∀ inner, Hidden.callArguments (args.get "arguments") = some inner →
        RouteKept px granted st id inner
          ((((args.get "fields").bind Json.asArray).getD []).filterMap Json.asStr) old new n
  else NamedKept px granted st name args old new n

theorem Isolated.map {p : Prog Query.Answer Json} {old new : Snapshot} {n : Nat}
    (h : Isolated px granted p old new n) (f : Json → Json) :
    Isolated px granted (p >>= fun a => pure (f a)) old new n := by
  unfold Isolated at h ⊢
  simp only [comes_map]
  rcases h with h | h
  · rw [h]
    exact Or.inl rfl
  · rw [h]
    exact Or.inr rfl

/-- A call by id is a call whose result is cut. -/
theorem comes_routed (s : Nat → Snapshot) (st : S) (id : String) (args : Json) (fields : List String)
    (hwf : ((px.workflows.find? fun wf => wf.id = id).filter fun _ => px.cfg.scopes.mayCall granted id) = none) :
    comes px granted s (routeCall px granted st id args fields >>= fun r => pure (Hidden.truncateResultText r)) =
      comes px granted s (wrapped px Hidden.truncateResultText st id args fields) := by
  unfold routeCall wrapped
  rw [hwf]
  simp only [comes_map]

theorem searchTools_iff (args : Json) (old new : Snapshot) (n : Nat) :
    Isolated px granted (searchTools px granted args) old new n ↔
      ∀ query, (args.get "query").bind Json.asStr = some query →
        SearchKept px granted query (CallAudit.searchK args) old new n := by
  unfold searchTools
  cases (args.get "query").bind Json.asStr with
  | none => exact iff_of_true (isolated_pure px granted _ old new n) nofun
  | some query => simpa using search_iff px granted old new query (CallAudit.searchK args) n

theorem toolDetails_iff (args : Json) (old new : Snapshot) (n : Nat) :
    Isolated px granted (toolDetails px granted args) old new n ↔
      ∀ id, (args.get "tool_id").bind Json.asStr = some id →
        ((px.workflows.find? fun wf => wf.id = id).filter fun _ => px.cfg.scopes.visible granted id) = none →
        DetailsKept px granted id old new n := by
  unfold toolDetails
  cases (args.get "tool_id").bind Json.asStr with
  | none => exact iff_of_true (isolated_pure px granted _ old new n) nofun
  | some id =>
    simp only [Option.some.injEq, forall_eq']
    cases hwf : (px.workflows.find? fun wf => wf.id = id).filter fun _ => px.cfg.scopes.visible granted id with
    | none => simpa using details_iff px granted id old new n hwf
    | some wf =>
      refine iff_of_true ?_ nofun
      unfold detailsText
      rw [hwf]
      exact isolated_pure px granted _ old new n

theorem routed_isolated {st : S} {id : String} {args : Json} {fields : List String} {old new : Snapshot} {n : Nat}
    (h : RouteKept px granted st id args fields old new n) :
    Isolated px granted (routeCall px granted st id args fields >>= fun r => pure (Hidden.truncateResultText r))
      old new n := by
  unfold RouteKept at h
  cases hwf : (px.workflows.find? fun wf => wf.id = id).filter fun _ => px.cfg.scopes.mayCall granted id with
  | some wf =>
    rw [hwf] at h
    unfold routeCall
    rw [hwf]
    exact (composite_kept px granted wf args h).map px granted _
  | none =>
    rw [hwf] at h
    unfold Isolated
    simp only [comes_routed px granted _ st id args fields hwf]
    exact (call_iff px granted _ st id args fields old new n).mpr h

theorem kept_of_routed {st : S} {id : String} {args : Json} {fields : List String} {old new : Snapshot} {n : Nat}
    (hwf : ((px.workflows.find? fun wf => wf.id = id).filter fun _ => px.cfg.scopes.mayCall granted id) = none)
    (h : Isolated px granted (routeCall px granted st id args fields >>= fun r =>
      pure (Hidden.truncateResultText r)) old new n) : RouteKept px granted st id args fields old new n := by
  unfold RouteKept
  rw [hwf]
  unfold Isolated at h
  simp only [comes_routed px granted _ st id args fields hwf] at h
  exact (call_iff px granted _ st id args fields old new n).mp h

end Requests

/-! ## A name that moves to another upstream -/

/-- The catalog of one tool `get`, of upstream `idx`. -/
def oneTool (upstream : String) (idx : Nat) : Snapshot :=
  let t := toolDef upstream idx (.obj [("name", .str "get")])
  { tools := [t], byId := [(t.id, 0)], exposed := exposedNames .passthrough [t], originSha := [],
    patchedSchemas := [], toolHeaders := [], userSupplied := [], listings := [],
    search := fun _ _ => [t.id] }

/-- A call of `get`. -/
def exampleCall : Prog Query.Answer Json := call exampleProxy [] () "get" (.obj [])

end MinMcp.L5.Isolation
