import MinMcp.Core.Json.Places
import MinMcp.L4App.Workflow

/-!
# Data flow of a composite

The outputs of all steps share one map, under the step's id and the output's name joined by a
dot, and a reference `$steps.X.Y` looks up what stands behind its prefix
(src/surface/workflow.rs:17-52, 142-168). Step ids are not checked, and may hold dots
(src/config.rs:1302-1308).

* `extracted`: what a step of this run extracted under one of its names.
* `lookup_outsBefore`: the map holds what the last step to extract under that text did.
* `Clear`: each reference of a template leads to what its step extracted, and what it leads to
  stands in the arguments as it is.
* `clear_iff`: so it is exactly when no step in front of the template is in the way (`InTheWay`).
-/
namespace MinMcp.L4.Workflows

open MinMcp.Core MinMcp.Core.Text MinMcp.L4.Results MinMcp.L4.CallReach

section DataFlow

variable (cat : Catalog) (wf : Workflow) (inputs : Json) (world : World)

/-- The text an output is kept under. -/
def joined (step : Step) (name : String) : String := step.id ++ "." ++ name

/-- The payload of a step that succeeds with these outputs in front of it. -/
def stepPayload (i : Nat) (step : Step) (outs : Outs) : Option Json :=
  let d := world i (resolveInput inputs outs step.input)
  match dispatchReach step.tool d.timeoutS d.call d.shape with
  | .ok (r, _) => if isErrorResult r = false then some (resultPayload r (cat.fromSpec step.tool)) else none
  | .error _ => none

/-- The payload of the `i`-th step of this run. -/
def payload (i : Nat) : Option Json :=
  (outsBefore cat wf inputs world i).bind fun outs => (wf.steps[i]?).bind fun step =>
    stepPayload cat inputs world i step outs

/-- What is found under a name of the step's outputs. -/
def extract (step : Step) (payload : Json) (name : String) : Option Json :=
  step.output.reverse.findSome? fun o => if o.1 = name then getPath payload o.2 else none

/-- What the `i`-th step of this run extracted under the name. -/
def extracted (i : Nat) (name : String) : Option Json :=
  (wf.steps[i]?).bind fun step => (payload cat wf inputs world i).bind fun p => extract step p name

/-- The `i`-th step names an output so that it is kept under this text. -/
def Declares (i : Nat) (name text : String) : Prop :=
  ∃ step, wf.steps[i]? = some step ∧ name ∈ step.output.map Prod.fst ∧ joined step name = text

/-- A template that is resolved with these outputs of the first `k` steps. -/
def Resolved (k : Nat) (template : Json) (outs : Outs) : Prop :=
  outsBefore cat wf inputs world k = some outs ∧
    ((∃ step, wf.steps[k]? = some step ∧ step.input = template) ∨
      (k = wf.steps.length ∧ ∃ o ∈ wf.outputs, o.2 = template))

/-- What a reference to the `i`-th step leads to behind `k` steps. -/
def flowsTo (k i : Nat) (name : String) : Option Json :=
  if i < k then extracted cat wf inputs world i name else none

structure Clear : Prop where
  /-- A reference leads to what the step it names extracted. -/
  refs : ∀ k template outs, Resolved cat wf inputs world k template outs → ∀ ps text,
    template.locate ps = some (.str ("$steps." ++ text)) → ∀ i name, Declares wf i name text →
      resolveRef ("$steps." ++ text) inputs outs = flowsTo cat wf inputs world k i name
  /-- What a string of the template leads to stands there as it is. -/
  verbatim : ∀ k template outs, Resolved cat wf inputs world k template outs → ∀ ps s,
    template.locate ps = some (.str s) →
      (resolveInput inputs outs template).locate ps = some ((resolveRef s inputs outs).getD (.str s))

/-- The `j`-th step is the last of the first `k` to extract under the text, and the value is
not what the `i`-th step extracted there before. -/
def InTheWay (k i : Nat) (name text : String) (j : Nat) : Prop :=
  j < k ∧ (∃ other v, Declares wf j other text ∧ extracted cat wf inputs world j other = some v ∧
    ¬ (i < k ∧ extracted cat wf inputs world i name = some v)) ∧
    ∀ l other, j < l → l < k → Declares wf l other text → extracted cat wf inputs world l other = none

/-! ## References -/

theorem toList_isPrefixOf_append (p s : String) : p.toList.isPrefixOf (p ++ s).toList = true := by
  rw [List.isPrefixOf_iff_prefix, String.toList_append]
  exact List.prefix_append _ _

theorem afterPrefix_append (p s : String) : afterPrefix p (p ++ s) = some s := by
  unfold afterPrefix
  rw [if_pos (toList_isPrefixOf_append p s), String.toList_append, List.drop_left, String.ofList_toList]

theorem resolveRef_steps (text : String) (inputs : Json) (outs : Outs) :
    resolveRef ("$steps." ++ text) inputs outs = outs.lookup text := by
  have hn : afterPrefix "$inputs." ("$steps." ++ text) = none := by
    unfold afterPrefix
    rw [if_neg]
    simp [String.toList_append]
  unfold resolveRef
  rw [hn, afterPrefix_append]

theorem lookup_resolveEntries (inputs : Json) (outs : Outs) (es : List (String × Json)) (k : String) :
    (resolveEntries inputs outs es).lookup k = (es.lookup k).map (resolveInput inputs outs) := by
  induction es with
  | nil => rfl
  | cons e es ih =>
    obtain ⟨k', v⟩ := e
    by_cases h : k = k'
    · subst h
      simp [resolveEntries]
    · rw [resolveEntries, OrderedMap.lookup_cons_of_ne h, OrderedMap.lookup_cons_of_ne h, ih]

theorem resolveList_eq_map (inputs : Json) (outs : Outs) (xs : List Json) :
    resolveList inputs outs xs = xs.map (resolveInput inputs outs) := by
  induction xs with
  | nil => rfl
  | cons x xs ih => rw [resolveList, ih, List.map_cons]

/-- The template alone says where a reference stands. -/
theorem locate_resolveInput (inputs : Json) (outs : Outs) {template : Json} {ps : List Json.Place}
    {s : String} (h : template.locate ps = some (.str s)) :
    (resolveInput inputs outs template).locate ps = some ((resolveRef s inputs outs).getD (.str s)) := by
  induction ps generalizing template with
  | nil =>
    obtain rfl : template = .str s := Option.some.inj h
    rfl
  | cons p ps ih =>
    rw [Json.locate, Option.bind_eq_some_iff] at h
    obtain ⟨c, hc, h⟩ := h
    have hchild : (resolveInput inputs outs template).child p = some (resolveInput inputs outs c) := by
      cases template with
      | obj es =>
        cases p with
        | key k => exact (lookup_resolveEntries inputs outs es k).trans (congrArg _ hc)
        | index i => cases hc
      | arr xs =>
        cases p with
        | key k => cases hc
        | index i =>
          have hc : xs[i]? = some c := hc
          show (resolveList inputs outs xs)[i]? = _
          rw [resolveList_eq_map, List.getElem?_map, hc, Option.map_some]
      | _ => cases p <;> cases hc
    rw [Json.locate, hchild, Option.bind_some]
    exact ih h

/-! ## The map -/

theorem joined_inj {step : Step} {a b : String} : joined step a = joined step b ↔ a = b := by
  unfold joined
  rw [String.append_right_inj]

/-- What a step extracts under the text. -/
def keyed (step : Step) (payload : Json) (text : String) : Option Json :=
  step.output.reverse.findSome? fun o => if joined step o.1 = text then getPath payload o.2 else none

theorem keyed_joined (step : Step) (payload : Json) (name : String) :
    keyed step payload (joined step name) = extract step payload name := by
  unfold keyed extract
  simp only [joined_inj]

theorem lookup_collect (step : Step) (r : Json) (outs : Outs) (text : String) :
    (collect cat step r outs).lookup text =
      (keyed step (resultPayload r (cat.fromSpec step.tool)) text).or (outs.lookup text) := by
  unfold collect keyed
  dsimp only
  generalize resultPayload r (cat.fromSpec step.tool) = payload
  induction step.output generalizing outs with
  | nil => rfl
  | cons o os ih =>
    rw [List.foldl_cons, ih, List.reverse_cons, List.findSome?_append, Option.or_assoc]
    congr 1
    by_cases ht : joined step o.1 = text
    · subst ht
      cases hp : getPath payload o.2 with
      | none => simp [hp]
      | some v => simp [hp, joined, OrderedMap.lookup_insert_self]
    · cases hp : getPath payload o.2 with
      | none => simp [ht]
      | some v =>
        have hl : (OrderedMap.insert (step.id ++ "." ++ o.1) v outs).lookup text = outs.lookup text :=
          OrderedMap.lookup_insert_of_ne (Ne.symm ht) v outs
        simp [ht, hl]

/-- What the `i`-th step of this run extracted under the text. -/
def extractedText (i : Nat) (text : String) : Option Json :=
  (wf.steps[i]?).bind fun step => (payload cat wf inputs world i).bind fun p => keyed step p text

variable {cat wf inputs world}
variable {k i j : Nat} {name text : String} {outs : Outs} {v : Json}

theorem extractedText_of_declares (h : Declares wf i name text) :
    extractedText cat wf inputs world i text = extracted cat wf inputs world i name := by
  obtain ⟨step, hs, -, rfl⟩ := h
  unfold extractedText extracted
  simp only [hs, Option.bind_some, keyed_joined]

theorem extractedText_eq_some :
    extractedText cat wf inputs world i text = some v ↔
      ∃ name, Declares wf i name text ∧ extracted cat wf inputs world i name = some v := by
  constructor
  · intro h
    obtain ⟨step, hs, h⟩ := Option.bind_eq_some_iff.mp h
    obtain ⟨p, hp, h⟩ := Option.bind_eq_some_iff.mp h
    obtain ⟨o, ho, hv⟩ := List.exists_of_findSome?_eq_some h
    split at hv
    · rename_i ht
      have hd : Declares wf i o.1 text :=
        ⟨step, hs, List.mem_map_of_mem (List.mem_reverse.mp ho), ht⟩
      refine ⟨o.1, hd, ?_⟩
      rw [← extractedText_of_declares hd, extractedText, hs, Option.bind_some, hp, Option.bind_some, h]
    · cases hv
  · intro ⟨name, hd, he⟩
    rwa [extractedText_of_declares hd]

variable (cat wf inputs world) in
/-- What the last of the first `k` steps to extract under the text did. -/
def lastText (text : String) : Nat → Option Json
  | 0 => none
  | k + 1 => (extractedText cat wf inputs world k text).or (lastText text k)

theorem lastText_eq_some :
    lastText cat wf inputs world text k = some v ↔
      ∃ j < k, extractedText cat wf inputs world j text = some v ∧
      ∀ l, j < l → l < k → extractedText cat wf inputs world l text = none := by
  induction k with
  | zero => simp [lastText]
  | succ k ih =>
    rw [lastText]
    cases he : extractedText cat wf inputs world k text with
    | some w =>
      rw [Option.some_or]
      constructor
      · intro h
        exact ⟨k, Nat.lt_succ_self k, he.trans h, fun l h1 h2 => absurd h2 (by omega)⟩
      · intro ⟨j, hj, hv, hlast⟩
        rcases Nat.lt_or_ge j k with hlt | hge
        · rw [hlast k hlt (Nat.lt_succ_self k)] at he
          cases he
        · obtain rfl : j = k := by omega
          exact he.symm.trans hv
    | none =>
      rw [Option.none_or, ih]
      constructor
      · intro ⟨j, hj, hv, hlast⟩
        refine ⟨j, by omega, hv, fun l h1 h2 => ?_⟩
        rcases Nat.lt_or_ge l k with hlt | hge
        · exact hlast l h1 hlt
        · obtain rfl : l = k := by omega
          exact he
      · intro ⟨j, hj, hv, hlast⟩
        refine ⟨j, ?_, hv, fun l h1 h2 => hlast l h1 (by omega)⟩
        rcases Nat.lt_or_ge j k with hlt | hge
        · exact hlt
        · obtain rfl : j = k := by omega
          rw [he] at hv
          cases hv

theorem lastText_eq_none (h : lastText cat wf inputs world text k = none) (hj : j < k) :
    extractedText cat wf inputs world j text = none := by
  induction k with
  | zero => omega
  | succ k ih =>
    rw [lastText, Option.or_eq_none_iff] at h
    rcases Nat.lt_or_ge j k with hlt | hge
    · exact ih h.2 hlt
    · obtain rfl : j = k := by omega
      exact h.1

/-- A step that succeeds adds what it extracts from its payload. -/
theorem runStep_ok {step : Step} {outs' : Outs} (h : runStep cat inputs world i step outs = .ok outs') :
    ∃ p, stepPayload cat inputs world i step outs = some p ∧
      ∀ text, outs'.lookup text = (keyed step p text).or (outs.lookup text) := by
  unfold runStep at h
  dsimp only at h
  split at h
  · rename_i r reach hd
    split at h
    · rename_i he
      obtain rfl := Except.ok.inj h
      refine ⟨_, ?_, lookup_collect cat step r outs⟩
      unfold stepPayload
      dsimp only
      rw [hd]
      exact if_pos he
    · cases h
  · cases h

/-- **Map.** In front of the `k`-th step the map holds under each text what the last step to
extract there did. -/
theorem lookup_outsBefore (h : outsBefore cat wf inputs world k = some outs) (text : String) :
    outs.lookup text = lastText cat wf inputs world text k := by
  induction k generalizing outs with
  | zero =>
    obtain rfl : [] = outs := Option.some.inj h
    rfl
  | succ k ih =>
    obtain ⟨step, before, ⟨hb, hs⟩, hr⟩ := outsBefore_succ cat wf inputs world h
    obtain ⟨p, hp, hl⟩ := runStep_ok hr
    have hpay : payload cat wf inputs world k = some p := by
      rw [payload, hb, Option.bind_some, hs, Option.bind_some, hp]
    rw [hl, ih hb, lastText, extractedText, hs, Option.bind_some, hpay, Option.bind_some]

/-- The last value under a text is the one that flows from the step unless one is in the way. -/
theorem lastText_eq_flowsTo (hd : Declares wf i name text) :
    lastText cat wf inputs world text k = flowsTo cat wf inputs world k i name ↔
      ∀ j, ¬ InTheWay cat wf inputs world k i name text j := by
  have hnone : ∀ l, (∀ other, Declares wf l other text → extracted cat wf inputs world l other = none) ↔
      extractedText cat wf inputs world l text = none := by
    intro l
    rw [Option.eq_none_iff_forall_ne_some]
    constructor
    · intro h v hv
      obtain ⟨other, ho, he⟩ := extractedText_eq_some.mp hv
      rw [h other ho] at he
      cases he
    · intro h other ho
      rw [← extractedText_of_declares ho, Option.eq_none_iff_forall_ne_some]
      exact h
  unfold flowsTo
  constructor
  · intro h j ⟨hj, ⟨other, v, ho, hv, hne⟩, hlast⟩
    have hl : lastText cat wf inputs world text k = some v :=
      lastText_eq_some.mpr ⟨j, hj, extractedText_eq_some.mpr ⟨other, ho, hv⟩,
        fun l h1 h2 => (hnone l).mp fun other' ho' => hlast l other' h1 h2 ho'⟩
    rw [hl] at h
    split at h
    · exact hne ⟨‹_›, h.symm⟩
    · cases h
  · intro h
    cases hl : lastText cat wf inputs world text k with
    | none =>
      split
      · rename_i hik
        rw [← extractedText_of_declares hd, lastText_eq_none hl hik]
      · rfl
    | some v =>
      obtain ⟨j, hj, hv, hlast⟩ := lastText_eq_some.mp hl
      obtain ⟨other, ho, he⟩ := extractedText_eq_some.mp hv
      have hin : i < k ∧ extracted cat wf inputs world i name = some v := by
        by_contra hne
        exact h j ⟨hj, ⟨other, v, ho, he, hne⟩,
          fun l other' h1 h2 => (hnone l).mpr (hlast l h1 h2) other'⟩
      rw [if_pos hin.1, hin.2]

/-- **Data flow.** The references of a run are clear exactly when, wherever a template refers to
a declared output, no step in front is in the way. -/
theorem clear_iff (cat : Catalog) (wf : Workflow) (inputs : Json) (world : World) :
    Clear cat wf inputs world ↔
      ∀ k template outs, Resolved cat wf inputs world k template outs → ∀ ps text,
        template.locate ps = some (.str ("$steps." ++ text)) → ∀ i name, Declares wf i name text →
          ∀ j, ¬ InTheWay cat wf inputs world k i name text j := by
  have hiff : ∀ k template outs text i name, Resolved cat wf inputs world k template outs →
      Declares wf i name text →
        (resolveRef ("$steps." ++ text) inputs outs = flowsTo cat wf inputs world k i name ↔
          ∀ j, ¬ InTheWay cat wf inputs world k i name text j) := by
    intro k template outs text i name hr hd
    rw [resolveRef_steps, lookup_outsBefore hr.1, lastText_eq_flowsTo hd]
  constructor
  · intro h k template outs hr ps text hs i name hd
    exact (hiff k template outs text i name hr hd).mp (h.refs k template outs hr ps text hs i name hd)
  · intro h
    refine ⟨?_, ?_⟩
    · intro k template outs hr ps text hs i name hd
      exact (hiff k template outs text i name hr hd).mpr (h k template outs hr ps text hs i name hd)
    · intro k template outs hr ps s hs
      exact locate_resolveInput inputs outs hs

end DataFlow

/-! ## Two steps under one text -/

/-- The customer's `b.c` and the output `c` of `a.b` are both kept under `a.b.c`. -/
def dottedWorkflow : Workflow where
  id := "report"
  steps := [⟨"a", "crm.GetCustomer", .null, [("b.c", "name")]⟩,
    ⟨"a.b", "crm.GetOrder", .null, [("c", "name")]⟩]
  outputs := [("customer", .str "$steps.a.b.c")]

/-- Each step answers with a record of its own. -/
def twoRecords : World := fun i _ =>
  ⟨0, .sent (.spec (.answered 200 (.obj [("name", .str (if i = 0 then "Ann" else "order 7"))]) false)),
    .transform true fun v => v⟩

/-- The reference to the customer's name leads to the order's. -/
theorem record_of_the_other_step : ¬ Clear exampleCatalog dottedWorkflow .null twoRecords := by
  intro h
  obtain ⟨outs, ho⟩ : ∃ outs, outsBefore exampleCatalog dottedWorkflow .null twoRecords 2 = some outs :=
    Option.isSome_iff_exists.mp (by decide +kernel)
  have hl : (outsBefore exampleCatalog dottedWorkflow .null twoRecords 2).bind
      (fun outs => outs.lookup "a.b.c") = some (.str "order 7") := by decide +kernel
  have he : flowsTo exampleCatalog dottedWorkflow .null twoRecords 2 0 "b.c" = some (.str "Ann") := by
    decide +kernel
  have hr := h.refs 2 _ outs ⟨ho, Or.inr ⟨rfl, _, List.mem_singleton_self _, rfl⟩⟩ [] "a.b.c" rfl 0 "b.c"
    ⟨_, rfl, List.mem_singleton_self _, rfl⟩
  rw [ho, Option.bind_some] at hl
  rw [resolveRef_steps, hl, he, Option.some.injEq, Json.str.injEq] at hr
  exact absurd hr (by decide)

end MinMcp.L4.Workflows
