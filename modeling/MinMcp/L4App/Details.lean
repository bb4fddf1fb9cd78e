import MinMcp.Core.Json.Printed
import MinMcp.L4App.Minify
import Mathlib.Data.List.Nodup
import Mathlib.Data.String.Basic
import Std.Data.String.ToNat

/-!
# The text of a tool's details

`details_text` of src/surface.rs renders a tool with its resolved schema, and again with less of the
schema until the text fits the display, under a note that says what was left out: prose and long
enums, then all docs, then the properties below one depth after the other. What does not fit even
then is cut like any text.

* `toolDetails_eq`: one working copy, changed from stage to stage, gives the first stage that fits,
  each of them made from the whole schema.
* `NoteTrue`: what the note of a stage says of a text.
* `noteTrue_whole`: it is true of the stage's own text.
* `noteTrue_cut_iff`: of a text that is cut, if all that the stage names ends in front of the cut.
* `toolDetails_truthful_iff`: when the note is true of what is returned.
* `wide_overclaims`: five thousand properties and one more.
-/
namespace MinMcp.L4.Details

open MinMcp.Core MinMcp.Core.Subschema MinMcp.L4.Minify
open MinMcp.L4.Workflows (takeBytes budgetTruncate)

/-- mirrors src/surface.rs:29 -/
def maxDetailChars : Nat := 20000

def proseNote : String :=
  "true — examples/long prose dropped and huge enums capped to fit the display budget; " ++
    "EVERY field name and type is listed."

def hardNote : String :=
  "hard — all field docs and enums elided to fit the display budget; EVERY field name, type, and " ++
    "required flag is listed. Use the field names as-is; consult the API's docs for value formats."

/-- mirrors src/surface.rs:737 -/
def depthNote : String :=
  "hard+depth — nested objects beyond a depth were elided (see nested_fields_elided counts); " ++
    "every shallower field name is listed."

/-- mirrors src/surface.rs:751 -/
def truncatedLabel : String :=
  "\n…TRUNCATED — even the depth-pruned schema exceeds the budget; unlisted fields still exist."

section Text

variable (toolId description : String)

/-- mirrors src/surface.rs:699-703 -/
def envelope (schema : Json) (note : Option String) : Json :=
  .obj ([("tool_id", .str toolId), ("description", .str description)] ++
    (note.map fun n => ("schema_minified", Json.str n)).toList ++ [("input_schema", schema)])

/-- mirrors src/surface.rs:698-706 -/
def render (schema : Json) (note : Option String) (pretty : Bool) : String :=
  if pretty then String.ofList (Json.printPretty 0 (envelope toolId description schema note))
  else (envelope toolId description schema note).render

/-- One depth after the other, and at last a cut.
mirrors src/surface.rs:738-752 -/
def depthStages (minified : Json) : List Nat → String
  | [] =>
    budgetTruncate (render toolId description (pruneBelowDepth minified 1) (some depthNote) false)
      maxDetailChars
      truncatedLabel
  | depth :: depths =>
    let minified := pruneBelowDepth minified depth
    let out := render toolId description minified (some depthNote) false
    if out.utf8ByteSize ≤ maxDetailChars then out else depthStages minified depths

/-- mirrors src/surface.rs:695-753 -/
def toolDetails (schema : Json) : String :=
  let full := render toolId description schema none true
  if full.utf8ByteSize ≤ maxDetailChars then full
  else
    let minified := minifySchema schema
    let out := render toolId description minified (some proseNote) true
    if out.utf8ByteSize ≤ maxDetailChars then out
    else
      let minified := minifySchemaHard minified
      let out := render toolId description minified (some hardNote) false
      if out.utf8ByteSize ≤ maxDetailChars then out else depthStages toolId description minified [5, 4, 3, 2]

/-! ## The stages -/

/-- A note, the depth that it speaks of, and the schema under it. -/
structure Stage where
  note : Option String
  depth : Option Nat
  pretty : Bool
  schema : Json

def hardSchema (schema : Json) : Json := minifySchemaHard (minifySchema schema)

def depthStage (schema : Json) (d : Nat) : Stage :=
  ⟨some depthNote, some d, false, pruneBelowDepth (hardSchema schema) d⟩

/-- Each stage from the whole schema. -/
def stages (schema : Json) : List Stage :=
  [⟨none, none, true, schema⟩, ⟨some proseNote, none, true, minifySchema schema⟩,
    ⟨some hardNote, none, false, hardSchema schema⟩] ++ [5, 4, 3, 2, 1].map (depthStage schema)

namespace Stage

variable (s : Stage)

def value : Json := envelope toolId description s.schema s.note

def text : String := render toolId description s.schema s.note s.pretty

def fits : Bool := (s.text toolId description).utf8ByteSize ≤ maxDetailChars

/-- Its text, cut where it is too long. -/
def limited : String := budgetTruncate (s.text toolId description) maxDetailChars truncatedLabel

end Stage

/-- The first stage that fits, or else the last one. -/
def firstFit (last : Stage) (ss : List Stage) : Stage := (ss.find? (Stage.fits toolId description)).getD last

def produced (schema : Json) : Stage := firstFit toolId description (depthStage schema 1) (stages schema)

variable {toolId description} in
theorem limited_of_fits {s : Stage} (h : s.fits toolId description = true) :
    s.limited toolId description = s.text toolId description :=
  if_pos (of_decide_eq_true h)

/-- A stage in front of others. -/
theorem limited_firstFit (s : Stage) {rest : List Stage} {last : Stage} {other : String}
    (h : other = (firstFit toolId description last rest).limited toolId description) :
    (if (s.text toolId description).utf8ByteSize ≤ maxDetailChars then s.text toolId description else other) =
      (firstFit toolId description last (s :: rest)).limited toolId description := by
  rw [firstFit, List.find?_cons]
  by_cases hfit : (s.text toolId description).utf8ByteSize ≤ maxDetailChars
  · have hfits : s.fits toolId description = true := decide_eq_true hfit
    rw [if_pos hfit, hfits, Option.getD_some, limited_of_fits hfits]
  · have hfits : s.fits toolId description = false := decide_eq_false hfit
    rw [if_neg hfit, hfits, h, firstFit]

theorem depthStages_eq (schema : Json) {w : Json} (hw : w.WF) (ds : List Nat)
    (hd : (ds ++ [1]).Pairwise (· ≥ ·))
    (hprune : ∀ d ∈ ds ++ [1], pruneBelowDepth w d = pruneBelowDepth (hardSchema schema) d) :
    depthStages toolId description w ds = (firstFit toolId description (depthStage schema 1)
      ((ds ++ [1]).map (depthStage schema))).limited toolId description := by
  induction ds generalizing w with
  | nil =>
    rw [depthStages, hprune 1 (by simp), firstFit]
    simp only [List.nil_append, List.map_cons, List.map_nil, List.find?_singleton]
    split <;> rfl
  | cons d ds ih =>
    rw [List.cons_append, List.pairwise_cons] at hd
    rw [List.cons_append, List.forall_mem_cons] at hprune
    have hrest : ∀ e ∈ ds ++ [1],
        pruneBelowDepth (pruneBelowDepth w d) e = pruneBelowDepth (hardSchema schema) e :=
      fun e he => (cutTwice w d e (hd.1 e he) hw).trans (hprune.2 e he)
    have htext : render toolId description (pruneBelowDepth w d) (some depthNote) false =
        (depthStage schema d).text toolId description := by rw [hprune.1]; rfl
    simp only [depthStages, htext]
    exact limited_firstFit toolId description (depthStage schema d) (ih (wf_prune hw d) hd.2 hrest)

theorem wf_hardSchema {schema : Json} (hv : schema.WF) : (hardSchema schema).WF :=
  wf_walk spared_stripHard (wf_walk spared_stripProse hv)

/-- The working copy shows nothing of the stages before. -/
theorem toolDetails_eq {schema : Json} (hv : schema.WF) : toolDetails toolId description schema =
    (produced toolId description schema).limited toolId description := by
  have hdepths := depthStages_eq toolId description schema (wf_hardSchema hv) [5, 4, 3, 2] (by decide)
    fun _ _ => rfl
  have hhard := limited_firstFit toolId description ⟨some hardNote, none, false, hardSchema schema⟩ hdepths
  have hprose := limited_firstFit toolId description ⟨some proseNote, none, true, minifySchema schema⟩ hhard
  have hfull := limited_firstFit toolId description ⟨none, none, true, schema⟩ hprose
  unfold toolDetails produced stages
  exact hfull

end Text

/-! ## What a note says -/

section Note

/-- The value of a keyword of the schema at a path. -/
def keyword (schema : Json) (p : List Step) (k : String) : Option Json :=
  (subschema schema p).bind fun c => c.get k

/-- What is there is there afterwards, with its type, its required properties, and the names of all. -/
structure Keeps (schema schema' : Json) : Prop where
  present : ∀ p c, subschema schema p = some c → ∃ c', subschema schema' p = some c'
  same : ∀ p, keyword schema' p "type" = keyword schema p "type" ∧
    keyword schema' p "required" = keyword schema p "required"
  names : ∀ p ps, keyword schema p "properties" = some (.obj ps) →
    ∃ ps', keyword schema' p "properties" = some (.obj ps') ∧ OrderedMap.keys ps' = OrderedMap.keys ps

theorem keeps_refl (schema : Json) : Keeps schema schema :=
  ⟨fun _ c hc => ⟨c, hc⟩, fun _ => ⟨rfl, rfl⟩, fun _ ps hps => ⟨ps, hps, rfl⟩⟩

theorem Keeps.trans {u v w : Json} (h : Keeps u v) (h' : Keeps v w) : Keeps u w := by
  refine ⟨fun p c hc => ?_, fun p => ?_, fun p ps hps => ?_⟩
  · obtain ⟨c', hc'⟩ := h.present p c hc
    exact h'.present p c' hc'
  · exact ⟨(h'.same p).1.trans (h.same p).1, (h'.same p).2.trans (h.same p).2⟩
  · obtain ⟨ps', hps', hlen⟩ := h.names p ps hps
    obtain ⟨ps'', hps'', hlen'⟩ := h'.names p ps' hps'
    exact ⟨ps'', hps'', hlen'.trans hlen⟩

/-- A keyword that the walk neither strips nor follows. -/
theorem keyword_walk {strip : List (String × Json) → List (String × Json)} (hs : ∀ es, Spared es (strip es))
    {v : Json} (hv : v.WF) {k : String} (hk : k ∉ proseKeywords) (hsame : ∀ w, walkKeyword strip k w = w)
    (p : List Step) : keyword (walk strip v) p k = keyword v p k := by
  unfold keyword
  rw [subschema_walk hs hv]
  cases hc : subschema v p with
  | none => rfl
  | some c =>
    rw [Option.map_some, Option.bind_some, Option.bind_some]
    split
    · rw [get_walk hs (wf_subschema hv hc) hk]
      cases c.get k with
      | none => rfl
      | some w => rw [Option.map_some, hsame]
    · rfl

theorem keeps_walk {strip : List (String × Json) → List (String × Json)} (hs : ∀ es, Spared es (strip es))
    {v : Json} (hv : v.WF) : Keeps v (walk strip v) := by
  refine ⟨fun p c hc => ?_, fun p => ?_, fun p ps hps => ?_⟩
  · rw [subschema_walk hs hv, hc]
    exact ⟨_, rfl⟩
  · exact ⟨keyword_walk hs hv (by decide) (fun _ => rfl) p, keyword_walk hs hv (by decide) (fun _ => rfl) p⟩
  · unfold keyword at hps ⊢
    obtain ⟨c, hc, hps⟩ := Option.bind_eq_some_iff.mp hps
    rw [subschema_walk hs hv, hc, Option.map_some, Option.bind_some]
    split
    · rw [get_walk hs (wf_subschema hv hc) (by decide), hps]
      refine ⟨walkValues strip ps, rfl, ?_⟩
      rw [walkValues_eq, OrderedMap.keys_mapValues]
    · exact ⟨ps, hps, rfl⟩

/-- Where the cut leaves a schema, it leaves the keywords beside its child schemas. -/
theorem get_pruneAt {d : Nat} {p : List Step} {f : Json → Json} (hf : pruneAt d p = some f) {c : Json}
    (hc : c.WF)
    {k : String} (hk : k ≠ "properties" ∧ k ≠ "nested_fields_elided")
    (hsame : ∀ d w, pruneKeyword d k w = w) :
    (f c).get k = c.get k := by
  induction p generalizing d with
  | nil =>
    obtain rfl := Option.some.inj hf
    rw [get_prune hc hk.1 hk.2]
    cases c.get k with
    | none => rfl
    | some w => rw [Option.map_some, hsame]
  | cons s p ih =>
    rw [pruneAt] at hf
    split at hf
    · cases hf
    · obtain rfl := Option.some.inj hf
      rfl
    · exact ih hf

theorem exists_pruneAt {v c' : Json} (hv : v.WF) {d : Nat} {p : List Step}
    (h : subschema (pruneBelowDepth v d) p = some c') : ∃ f, pruneAt d p = some f := by
  rw [subschema_prune hv] at h
  obtain ⟨f, hf, -⟩ := Option.bind_eq_some_iff.mp h
  exact ⟨f, hf⟩

theorem keyword_prune {v : Json} (hv : v.WF) {d : Nat} {p : List Step} (h : ∃ f, pruneAt d p = some f)
    {k : String} (hk : k ≠ "properties" ∧ k ≠ "nested_fields_elided")
    (hsame : ∀ d w, pruneKeyword d k w = w) :
    keyword (pruneBelowDepth v d) p k = keyword v p k := by
  obtain ⟨f, hf⟩ := h
  unfold keyword
  rw [subschema_prune hv, hf, Option.bind_some]
  cases hc : subschema v p with
  | none => rfl
  | some c => exact get_pruneAt hf (wf_subschema hv hc) hk hsame

/-- The properties at `q` were taken out and counted. -/
def CountedAt (schema schema' : Json) (q : List Step) : Prop :=
  ∃ ps, keyword schema q "properties" = some (.obj ps) ∧ keyword schema' q "properties" = none ∧
    keyword schema' q "nested_fields_elided" = some (.num (Num.ofNat ps.length))

/-- A way to a property leads through the properties of each node on it. -/
theorem properties_of_prefix {v c : Json} {p q : List Step} {name : String} (h : subschema v p = some c)
    (hq : q ++ [.property name] <+: p) : ∃ ps, keyword v q "properties" = some (.obj ps) := by
  obtain ⟨r, rfl⟩ := hq
  rw [List.append_assoc, subschema_append] at h
  obtain ⟨o, ho, h⟩ := Option.bind_eq_some_iff.mp h
  rw [List.singleton_append, subschema_cons, Step.places, locate_keys] at h
  obtain ⟨x, hx, -⟩ := Option.bind_eq_some_iff.mp h
  obtain ⟨m, hm, hx⟩ := Option.bind_eq_some_iff.mp hx
  cases m with
  | obj ps => exact ⟨ps, by rw [keyword, ho]; exact hm⟩
  | _ => cases hx

/-- A property that the cut takes away is below properties that are counted. -/
theorem counted_of_pruned {v w c : Json} (hw : w.WF) (hk : Keeps v w) {d : Nat} {p : List Step}
    (hc : subschema v p = some c) (hgone : subschema (pruneBelowDepth w d) p = none) :
    ∃ q name, q ++ [.property name] <+: p ∧ hops q = d ∧ CountedAt v (pruneBelowDepth w d) q := by
  obtain ⟨c', hc'⟩ := hk.present p c hc
  have hat : pruneAt d p = none := by
    rw [subschema_prune hw, hc'] at hgone
    cases hp : pruneAt d p with
    | none => rfl
    | some f =>
      rw [hp] at hgone
      cases hgone
  obtain ⟨q, name, hq, hhops, hprune⟩ := pruneAt_none hat
  obtain ⟨ps, hps⟩ := properties_of_prefix hc hq
  obtain ⟨ps', hps', hnames⟩ := hk.names q ps hps
  have hlen : ps'.length = ps.length := by simpa [OrderedMap.keys] using congrArg List.length hnames
  obtain ⟨o, ho, hget⟩ := Option.bind_eq_some_iff.mp hps'
  have hcut := get_cut (wf_subschema hw ho) hget
  have hthere : subschema (pruneBelowDepth w d) q = some (pruneBelowDepth o 0) := by
    rw [subschema_prune hw, hprune, ho]
    rfl
  refine ⟨q, name, hq, hhops, ps, hps, ?_, ?_⟩
  · rw [keyword, hthere]
    exact hcut.1
  · rw [keyword, hthere, ← hlen]
    exact hcut.2

variable {schema : Json} (hv : schema.WF) {s : Stage} (hs : s ∈ stages schema)

include hv in
theorem keeps_hardSchema : Keeps schema (hardSchema schema) :=
  (keeps_walk spared_stripProse hv).trans (keeps_walk spared_stripHard (wf_walk spared_stripProse hv))

include hv hs

/-- A stage keeps all, or cuts at its depth. -/
theorem stage_cases : (s.depth = none ∧ Keeps schema s.schema) ∨ ∃ d, s = depthStage schema d := by
  rcases List.mem_append.mp hs with hs | hs
  · left
    simp only [List.mem_cons, List.not_mem_nil, or_false] at hs
    obtain rfl | rfl | rfl := hs
    · exact ⟨rfl, keeps_refl schema⟩
    · exact ⟨rfl, keeps_walk spared_stripProse hv⟩
    · exact ⟨rfl, keeps_hardSchema hv⟩
  · obtain ⟨d, -, rfl⟩ := List.mem_map.mp hs
    exact Or.inr ⟨d, rfl⟩

theorem same_of_present {p : List Step} {name : String} {c' : Json}
    (h : subschema s.schema (p ++ [.property name]) = some c') :
    keyword s.schema (p ++ [.property name]) "type" = keyword schema (p ++ [.property name]) "type" ∧
      keyword s.schema p "required" = keyword schema p "required" := by
  rcases stage_cases hv hs with ⟨-, hk⟩ | ⟨d, rfl⟩
  · exact ⟨(hk.same _).1, (hk.same p).2⟩
  · have hhard := keeps_hardSchema hv
    have hwf := wf_hardSchema hv
    obtain ⟨o, ho, -⟩ := Option.bind_eq_some_iff.mp ((subschema_append _ p _).symm.trans h)
    have htype := keyword_prune hwf (exists_pruneAt hwf h) (k := "type") (by decide) fun _ _ => rfl
    have hrequired := keyword_prune hwf (exists_pruneAt hwf ho) (k := "required") (by decide) fun _ _ => rfl
    exact ⟨htype.trans (hhard.same _).1, hrequired.trans (hhard.same p).2⟩

theorem counted_of_absent {p : List Step} {c : Json} (hc : subschema schema p = some c)
    (hgone : subschema s.schema p = none) : ∃ d q name, s.depth = some d ∧ q ++ [.property name] <+: p ∧
      hops q = d ∧ CountedAt schema s.schema q := by
  rcases stage_cases hv hs with ⟨-, hk⟩ | ⟨d, rfl⟩
  · obtain ⟨c', hc'⟩ := hk.present p c hc
    rw [hc'] at hgone
    cases hgone
  · obtain ⟨q, name, hq, hhops, hcount⟩ := counted_of_pruned (wf_hardSchema hv) (keeps_hardSchema hv) hc hgone
    exact ⟨d, q, name, rfl, hq, hhops, hcount⟩

end Note

/-! ## What a text shows -/

section Shown

variable (toolId description : String)

/-- The text is the stage's, or begins with it up to the name at a place. -/
def Stage.ShowsUpTo (s : Stage) (text : String) (ps : List Json.Place) : Prop :=
  text = s.text toolId description ∨ s.pretty = false ∧
    Json.printedBefore (s.value toolId description) (.key "input_schema" :: ps) <+: text.toList

/-- So it does up to the end of the value there. -/
def Stage.Shows (s : Stage) (text : String) (ps : List Json.Place) (w : Json) : Prop :=
  text = s.text toolId description ∨ s.pretty = false ∧
    Json.printedBefore (s.value toolId description) (.key "input_schema" :: ps) ++ w.print <+: text.toList

/-- A keyword is as in the schema, and shown where it is. -/
def Stage.Tells (s : Stage) (text : String) (schema : Json) (p : List Step) (k : String) : Prop :=
  keyword s.schema p k = keyword schema p k ∧
    ∀ w, keyword s.schema p k = some w → s.Shows toolId description text (places p ++ [.key k]) w

/-- A property with its type and whether it is required. -/
structure Listed (s : Stage) (text : String) (schema : Json) (p : List Step) (name : String) : Prop where
  named : (∃ c, subschema s.schema (p ++ [.property name]) = some c) ∧
    s.ShowsUpTo toolId description text (places (p ++ [.property name]))
  typed : s.Tells toolId description text schema (p ++ [.property name]) "type"
  required : s.Tells toolId description text schema p "required"

/-- Properties that were taken out, and how many. -/
def Counted (s : Stage) (text : String) (schema : Json) (q : List Step) : Prop :=
  CountedAt schema s.schema q ∧ ∀ w, keyword s.schema q "nested_fields_elided" = some w →
    s.Shows toolId description text (places q ++ [.key "nested_fields_elided"]) w

/-- Every property is listed; the note of a depth promises it above the depth, and for the others
that they are below properties that are counted. -/
structure NoteTrue (s : Stage) (text : String) (schema : Json) : Prop where
  listed : ∀ p name c, subschema schema (p ++ [.property name]) = some c →
    (∀ d, s.depth = some d → hops p < d) → Listed toolId description s text schema p name
  counted : ∀ p name c, subschema schema (p ++ [.property name]) = some c →
    Listed toolId description s text schema p name ∨ ∃ d q other, s.depth = some d ∧
      q ++ [.property other] <+: p ++ [.property name] ∧ hops q = d ∧
        Counted toolId description s text schema q

variable {toolId description}

theorem hops_le_of_prefix {p q : List Step} {name other : String}
    (h : q ++ [.property other] <+: p ++ [.property name]) : hops q ≤ hops p := by
  obtain ⟨r, hr⟩ := h
  have := congrArg hops hr
  simp only [hops_append] at this
  have hone : ∀ name, hops [Step.property name] = 1 := fun _ => rfl
  rw [hone, hone] at this
  omega

/-- The second promise is the first one too. -/
theorem noteTrue_of_counted {s : Stage} {text : String} {schema : Json}
    (h : ∀ p name c, subschema schema (p ++ [.property name]) = some c →
      Listed toolId description s text schema p name ∨ ∃ d q other, s.depth = some d ∧
        q ++ [.property other] <+: p ++ [.property name] ∧ hops q = d ∧
          Counted toolId description s text schema q) : NoteTrue toolId description s text schema where
  listed p name c hc hd := by
    rcases h p name c hc with hl | ⟨d, q, other, hdepth, hq, hhops, -⟩
    · exact hl
    · have := hd d hdepth
      have := hops_le_of_prefix hq
      omega
  counted := h

/-- A stage's own text. -/
theorem noteTrue_whole {schema : Json} (hv : schema.WF) {s : Stage} (hs : s ∈ stages schema) :
    NoteTrue toolId description s (s.text toolId description) schema := by
  refine noteTrue_of_counted fun p name c hc => ?_
  cases hp : subschema s.schema (p ++ [.property name]) with
  | some c' =>
    obtain ⟨htype, hrequired⟩ := same_of_present hv hs hp
    exact Or.inl ⟨⟨⟨c', hp⟩, Or.inl rfl⟩, ⟨htype, fun _ _ => Or.inl rfl⟩, hrequired, fun _ _ => Or.inl rfl⟩
  | none =>
    obtain ⟨d, q, other, hdepth, hq, hhops, hcount⟩ := counted_of_absent hv hs hc hp
    exact Or.inr ⟨d, q, other, hdepth, hq, hhops, hcount, fun _ _ => Or.inl rfl⟩

/-! ## A text that is cut -/

theorem utf8Len_takeBytes (n : Nat) (cs : List Char) : String.utf8Len (takeBytes n cs) ≤ n := by
  induction cs generalizing n with
  | nil => exact Nat.zero_le n
  | cons c cs ih =>
    rw [takeBytes]
    split
    · have := ih (n - c.utf8Size)
      rw [String.utf8Len_cons]
      omega
    · exact Nat.zero_le n

theorem prefix_takeBytes {x cs : List Char} (hx : x <+: cs) {n : Nat} (hn : String.utf8Len x ≤ n) :
    x <+: takeBytes n cs := by
  induction x generalizing cs n with
  | nil => exact List.nil_prefix
  | cons c x ih =>
    obtain ⟨r, rfl⟩ := hx
    rw [String.utf8Len_cons] at hn
    rw [List.cons_append, takeBytes, if_pos (by omega)]
    exact List.cons_prefix_cons.mpr ⟨rfl, ih ⟨r, rfl⟩ (by omega)⟩

/-- The beginnings of one line that a cut leaves, in front of another line. -/
theorem prefix_cut_iff {x cs line : List Char} (hx : x <+: cs) (hnl : '\n' ∉ x) (n : Nat) :
    x <+: takeBytes n cs ++ '\n' :: line ↔ String.utf8Len x ≤ n := by
  refine ⟨fun h => ?_, fun h => (prefix_takeBytes hx h).trans (List.prefix_append _ _)⟩
  rcases List.prefix_or_prefix_of_prefix h (List.prefix_append _ _) with hle | ⟨r, rfl⟩
  · exact Nat.le_trans (String.utf8Len_le_of_prefix hle) (utf8Len_takeBytes n cs)
  · cases r with
    | nil =>
      rw [List.append_nil]
      exact utf8Len_takeBytes n cs
    | cons c r =>
      obtain rfl := (List.cons_prefix_cons.mp ((List.prefix_append_right_inj _).mp h)).1
      exact absurd (List.mem_append_right _ List.mem_cons_self) hnl

/-- How much of a text is left in front of the label. -/
def cutAt : Nat := maxDetailChars - truncatedLabel.utf8ByteSize

variable (toolId description) in
theorem size_limited (s : Stage) : (s.limited toolId description).utf8ByteSize ≤ maxDetailChars := by
  unfold Stage.limited budgetTruncate
  split
  · assumption
  · have hcut := utf8Len_takeBytes (maxDetailChars - truncatedLabel.utf8ByteSize)
      (s.text toolId description).toList
    have hlabel : truncatedLabel.utf8ByteSize ≤ maxDetailChars := by decide +kernel
    rw [String.utf8ByteSize_append, String.utf8ByteSize_ofList]
    omega

theorem locate_envelope (toolId description : String) (schema : Json) (note : Option String)
    (ps : List Json.Place) :
    (envelope toolId description schema note).locate (.key "input_schema" :: ps) = schema.locate ps := by
  cases note <;> exact Json.locate_cons rfl ps

theorem locate_keyword {v w : Json} {p : List Step} {k : String} (h : keyword v p k = some w) :
    v.locate (places p ++ [.key k]) = some w := by
  obtain ⟨c, hc, h⟩ := Option.bind_eq_some_iff.mp h
  rw [subschema_eq] at hc
  rw [Json.locate_append hc, locate_key, h]

variable (toolId description) in
/-- Where the value at a place of the schema begins in a compact text, and where it ends. -/
def beginsAt (s : Stage) (ps : List Json.Place) : Nat :=
  String.utf8Len (Json.printedBefore (s.value toolId description) (.key "input_schema" :: ps))

variable (toolId description) in
def endsAt (s : Stage) (ps : List Json.Place) (w : Json) : Nat :=
  beginsAt toolId description s ps + String.utf8Len w.print

section Cut

variable {s : Stage} (hp : s.pretty = false) (hlong : s.fits toolId description = false)
include hp

theorem text_toList : (s.text toolId description).toList = (s.value toolId description).print := by
  rw [Stage.text, render, hp]
  exact Json.render_toList _

include hlong

/-- What is printed in front of a value, and the value, in the text that is cut. -/
theorem shows_cut {ps : List Json.Place} {w : Json} (hw : s.schema.locate ps = some w) {x : List Char}
    (hx : x <+: Json.printedBefore (s.value toolId description) (.key "input_schema" :: ps) ++ w.print) :
    (s.limited toolId description = s.text toolId description ∨
      s.pretty = false ∧ x <+: (s.limited toolId description).toList) ↔
        String.utf8Len x ≤ cutAt := by
  have hprint := Json.print_begins ((locate_envelope toolId description s.schema s.note ps).trans hw)
  have hne : s.limited toolId description ≠ s.text toolId description := by
    intro he
    have := he ▸ size_limited toolId description s
    exact absurd this (of_decide_eq_false hlong)
  have hline : '\n' ∉ x := fun hm =>
    Json.newline_notMem_print (s.value toolId description) ((hx.trans hprint).subset hm)
  have hcut : (s.limited toolId description).toList =
      takeBytes cutAt (s.value toolId description).print ++ truncatedLabel.toList := by
    rw [Stage.limited, budgetTruncate, if_neg (of_decide_eq_false hlong), String.toList_append,
      String.toList_ofList, text_toList hp]
    rfl
  rw [hcut]
  have hlabel : truncatedLabel.toList = '\n' :: truncatedLabel.toList.tail := by decide +kernel
  rw [hlabel]
  exact ⟨fun h => (prefix_cut_iff (hx.trans hprint) hline cutAt).mp (h.resolve_left hne).2,
    fun h => Or.inr ⟨hp, (prefix_cut_iff (hx.trans hprint) hline cutAt).mpr h⟩⟩

variable {ps : List Json.Place} {w : Json} (hw : s.schema.locate ps = some w)
include hw

theorem showsUpTo_cut_iff : s.ShowsUpTo toolId description (s.limited toolId description) ps ↔
    beginsAt toolId description s ps ≤ cutAt :=
  shows_cut hp hlong hw (List.prefix_append _ _)

theorem shows_cut_iff : s.Shows toolId description (s.limited toolId description) ps w ↔
    endsAt toolId description s ps w ≤ cutAt := by
  rw [endsAt, beginsAt, ← String.utf8Len_append]
  exact shows_cut hp hlong hw (List.prefix_refl _)

end Cut

variable (toolId description) in
/-- All that the narrowest stage names or counts is printed in front of the cut. -/
structure InFront (schema : Json) : Prop where
  listed : ∀ p name c c', subschema schema (p ++ [.property name]) = some c →
    subschema (depthStage schema 1).schema (p ++ [.property name]) = some c' →
      beginsAt toolId description (depthStage schema 1) (places (p ++ [.property name])) ≤ cutAt ∧
      (∀ w, keyword (depthStage schema 1).schema (p ++ [.property name]) "type" = some w →
        endsAt toolId description (depthStage schema 1)
          (places (p ++ [.property name]) ++ [.key "type"]) w ≤ cutAt) ∧
      ∀ w, keyword (depthStage schema 1).schema p "required" = some w →
        endsAt toolId description (depthStage schema 1) (places p ++ [.key "required"]) w ≤ cutAt
  counted : ∀ q name c w, subschema schema (q ++ [.property name]) = some c →
    subschema (depthStage schema 1).schema (q ++ [.property name]) = none →
      keyword (depthStage schema 1).schema q "nested_fields_elided" = some w →
        endsAt toolId description (depthStage schema 1) (places q ++ [.key "nested_fields_elided"]) w ≤ cutAt

theorem depthStage_mem (schema : Json) : depthStage schema 1 ∈ stages schema := by
  simp [stages]

theorem exists_of_prefix {v c : Json} {p q : List Step} (h : subschema v p = some c) (hq : q <+: p) :
    ∃ o, subschema v q = some o := by
  obtain ⟨r, rfl⟩ := hq
  rw [subschema_append] at h
  obtain ⟨o, ho, -⟩ := Option.bind_eq_some_iff.mp h
  exact ⟨o, ho⟩

/-- Properties that are taken out hold nothing afterwards. -/
theorem absent_of_counted {schema schema' : Json} {q p : List Step} {name : String} {c : Json}
    (h : CountedAt schema schema' q) (hq : q ++ [.property name] <+: p) (hc : subschema schema' p = some c) :
    False := by
  obtain ⟨-, -, hnone, -⟩ := h
  obtain ⟨ps, hps⟩ := properties_of_prefix hc hq
  rw [hnone] at hps
  cases hps

theorem noteTrue_cut_iff {schema : Json} (hv : schema.WF)
    (hlong : (depthStage schema 1).fits toolId description = false) :
    NoteTrue toolId description (depthStage schema 1) ((depthStage schema 1).limited toolId description)
        schema ↔
      InFront toolId description schema := by
  have hs := depthStage_mem schema
  constructor
  · intro h
    refine ⟨fun p name c c' hc hc' => ?_, fun q name c w hc hnone hw => ?_⟩
    · rcases h.counted p name c hc with hl | ⟨d, q, other, -, hq, -, hcount, -⟩
      · have hloc : (depthStage schema 1).schema.locate (places (p ++ [.property name])) = some c' := by
          rw [← subschema_eq, hc']
        refine ⟨(showsUpTo_cut_iff rfl hlong hloc).mp hl.named.2, fun w hw => ?_, fun w hw => ?_⟩
        · exact (shows_cut_iff rfl hlong (locate_keyword hw)).mp (hl.typed.2 w hw)
        · exact (shows_cut_iff rfl hlong (locate_keyword hw)).mp (hl.required.2 w hw)
      · exact (absent_of_counted hcount hq hc').elim
    · rcases h.counted q name c hc with hl | ⟨d, q', other, -, hq, -, hcount, hshows⟩
      · obtain ⟨c', hc'⟩ := hl.named.1
        rw [hnone] at hc'
        cases hc'
      · -- what is counted above `q` leaves nothing at `q`
        obtain rfl : q' = q := by
          rcases List.prefix_concat_iff.mp hq with he | hq
          · exact (List.append_inj' he rfl).1
          · obtain ⟨o, ho, -⟩ := Option.bind_eq_some_iff.mp hw
            exact (absent_of_counted hcount hq ho).elim
        exact (shows_cut_iff rfl hlong (locate_keyword hw)).mp (hshows w hw)
  · intro h
    refine noteTrue_of_counted fun p name c hc => ?_
    cases hp : subschema (depthStage schema 1).schema (p ++ [.property name]) with
    | some c' =>
      obtain ⟨htype, hrequired⟩ := same_of_present hv hs hp
      obtain ⟨hbegins, htypes, hrequireds⟩ := h.listed p name c c' hc hp
      have hloc : (depthStage schema 1).schema.locate (places (p ++ [.property name])) = some c' := by
        rw [← subschema_eq, hp]
      exact Or.inl ⟨⟨⟨c', hp⟩, (showsUpTo_cut_iff rfl hlong hloc).mpr hbegins⟩,
        ⟨htype, fun w hw => (shows_cut_iff rfl hlong (locate_keyword hw)).mpr (htypes w hw)⟩,
        ⟨hrequired, fun w hw => (shows_cut_iff rfl hlong (locate_keyword hw)).mpr (hrequireds w hw)⟩⟩
    | none =>
      obtain ⟨d, q, other, hdepth, hq, hhops, hcount⟩ := counted_of_absent hv hs hc hp
      refine Or.inr ⟨d, q, other, hdepth, hq, hhops, hcount, fun w hw => ?_⟩
      obtain ⟨o, ho⟩ := exists_of_prefix hc hq
      have hgone : subschema (depthStage schema 1).schema (q ++ [.property other]) = none := by
        cases hq : subschema (depthStage schema 1).schema (q ++ [.property other]) with
        | none => rfl
        | some o' => exact (absent_of_counted hcount (List.prefix_refl _) hq).elim
      exact (shows_cut_iff rfl hlong (locate_keyword hw)).mpr (h.counted q other o w ho hgone hw)

theorem produced_of_fits {schema : Json} (h : ∃ s ∈ stages schema, s.fits toolId description = true) :
    produced toolId description schema ∈ stages schema ∧
      (produced toolId description schema).fits toolId description = true := by
  obtain ⟨s, hs⟩ := Option.isSome_iff_exists.mp (List.find?_isSome.mpr h)
  rw [produced, firstFit, hs, Option.getD_some]
  exact ⟨List.mem_of_find?_eq_some hs, List.find?_some hs⟩

theorem produced_of_none {schema : Json} (h : ¬∃ s ∈ stages schema, s.fits toolId description = true) :
    produced toolId description schema = depthStage schema 1 := by
  have hnone : (stages schema).find? (Stage.fits toolId description) = none :=
    List.find?_eq_none.mpr fun s hs hfits => h ⟨s, hs, hfits⟩
  rw [produced, firstFit, hnone, Option.getD_none]

/-- The text is never too long. The note over it is true if and only if some stage fits, or all
that the narrowest one has to name is in front of the cut. -/
theorem toolDetails_truthful_iff (toolId description : String) {schema : Json} (hv : schema.WF) :
    ((toolDetails toolId description schema).utf8ByteSize ≤ maxDetailChars ∧
      NoteTrue toolId description (produced toolId description schema) (toolDetails toolId description schema)
        schema) ↔
      (∃ s ∈ stages schema, s.fits toolId description = true) ∨ InFront toolId description schema := by
  rw [toolDetails_eq toolId description hv]
  refine (and_iff_right (size_limited toolId description _)).trans ?_
  by_cases hfits : ∃ s ∈ stages schema, s.fits toolId description = true
  · obtain ⟨hmem, hfit⟩ := produced_of_fits hfits
    refine iff_of_true ?_ (Or.inl hfits)
    rw [limited_of_fits hfit]
    exact noteTrue_whole hv hmem
  · have hlong : (depthStage schema 1).fits toolId description = false :=
      Bool.eq_false_iff.mpr fun hfit => hfits ⟨_, depthStage_mem schema, hfit⟩
    rw [produced_of_none hfits, or_iff_right hfits]
    exact noteTrue_cut_iff hv hlong

/-! ## More properties than fit -/

theorem length_le_utf8Len (cs : List Char) : cs.length ≤ String.utf8Len cs := by
  induction cs with
  | nil => exact Nat.le_refl 0
  | cons c cs ih =>
    have := c.utf8Size_pos
    rw [List.length_cons, String.utf8Len_cons]
    omega

variable (toolId description) in
theorem length_le_text (s : Stage) :
    (s.value toolId description).print.length ≤ (s.text toolId description).utf8ByteSize := by
  unfold Stage.text Stage.value render
  split
  · rw [String.utf8ByteSize_ofList]
    exact Nat.le_trans (Json.length_print_le_pretty _ 0) (length_le_utf8Len _)
  · rw [Json.render, String.utf8ByteSize_ofList]
    exact length_le_utf8Len _

/-- The names at the top are there in every stage. -/
theorem names_of_stage {schema : Json} (hv : schema.WF) {s : Stage} (hs : s ∈ stages schema)
    {ps : List (String × Json)} (hps : keyword schema [] "properties" = some (.obj ps)) :
    ∃ ps', keyword s.schema [] "properties" = some (.obj ps') ∧ OrderedMap.keys ps' = OrderedMap.keys ps := by
  rcases List.mem_append.mp hs with hs | hs
  · rcases stage_cases hv (List.mem_append_left _ hs) with ⟨-, hk⟩ | ⟨d, rfl⟩
    · exact hk.names [] ps hps
    · simp [depthStage] at hs
  · obtain ⟨d, hd, rfl⟩ := List.mem_map.mp hs
    obtain ⟨ps', hps', hnames⟩ := (keeps_hardSchema hv).names [] ps hps
    obtain ⟨d, rfl⟩ : ∃ e, d = e + 1 := ⟨d - 1, by simp at hd; omega⟩
    refine ⟨pruneValues ps' d, ?_, by rw [pruneValues_eq, OrderedMap.keys_mapValues, hnames]⟩
    have hget : (hardSchema schema).get "properties" = some (.obj ps') := hps'
    show (pruneBelowDepth (hardSchema schema) (d + 1)).get "properties" = _
    rw [properties_prune_succ, hget]
    rfl

variable (toolId description) in
theorem locate_properties {s : Stage} {ps : List (String × Json)}
    (hps : keyword s.schema [] "properties" = some (.obj ps)) :
    (s.value toolId description).locate [.key "input_schema", .key "properties"] = some (.obj ps) :=
  (locate_envelope toolId description s.schema s.note _).trans (locate_keyword hps)

theorem not_fits_of_wide {s : Stage} {ps : List (String × Json)}
    (hps : keyword s.schema [] "properties" = some (.obj ps)) (hlen : maxDetailChars < 4 * ps.length) :
    s.fits toolId description = false := by
  refine decide_eq_false (Nat.not_le.mpr ?_)
  have hentries := Json.length_entries_le ps true
  have hprint := Json.length_le_of_locate (locate_properties toolId description hps)
  have htext := length_le_text toolId description s
  rw [Json.print, List.length_cons] at hprint
  omega

variable (toolId description) in
/-- The last name stands behind the others. -/
theorem beginsAt_last {s : Stage} {ps : List (String × Json)} {name : String} {v : Json}
    (hps : keyword s.schema [] "properties" = some (.obj (ps ++ [(name, v)])))
    (hname : name ∉ OrderedMap.keys ps) :
    4 * ps.length ≤ beginsAt toolId description s (places [.property name]) := by
  obtain ⟨c, hc⟩ : ∃ c, (ps ++ [(name, v)]).lookup name = some c := OrderedMap.lookup_isSome.mpr (by simp)
  have hchild : Json.printedBefore (.obj (ps ++ [(name, v)])) [.key name] =
      '{' :: Json.entriesBefore true name (ps ++ [(name, v)]) := by
    have hc : (Json.obj (ps ++ [(name, v)])).child (.key name) = some c := hc
    rw [Json.printedBefore_cons hc, Json.printedBefore, List.append_nil]
    rfl
  have hbefore := Json.printedBefore_append (locate_properties toolId description hps) [.key name]
  have hentries := Json.length_entriesBefore_le hname v true
  have hlen := length_le_utf8Len (Json.printedBefore (s.value toolId description)
    ([.key "input_schema", .key "properties"] ++ [.key name]))
  rw [hbefore, hchild, List.length_append, List.length_cons, ← hchild, ← hbefore] at hlen
  show 4 * ps.length ≤ String.utf8Len (Json.printedBefore (s.value toolId description)
    ([.key "input_schema", .key "properties"] ++ [.key name]))
  omega

theorem exists_property {v : Json} {ps : List (String × Json)} {name : String}
    (hps : keyword v [] "properties" = some (.obj ps)) (h : name ∈ OrderedMap.keys ps) :
    ∃ c, subschema v [.property name] = some c := by
  obtain ⟨c, hc⟩ := OrderedMap.lookup_isSome.mpr h
  have hget : v.get "properties" = some (.obj ps) := hps
  refine ⟨c, ?_⟩
  rw [subschema_eq]
  show v.locate [.key "properties", .key name] = some c
  rw [locate_keys, hget, Option.bind_some, Json.get_obj, hc]

/-- More than five thousand properties at the top are never told. -/
theorem untrue_of_wide {schema : Json} (hv : schema.WF) {ps : List (String × Json)}
    (hps : keyword schema [] "properties" = some (.obj ps)) (hlen : 5000 < ps.length) :
    ¬NoteTrue toolId description (produced toolId description schema) (toolDetails toolId description schema)
      schema := by
  have hmax : maxDetailChars = 20000 := rfl
  have hlabel : 0 < truncatedLabel.utf8ByteSize := by decide +kernel
  have hlength : ∀ ps' : List (String × Json), OrderedMap.keys ps' = OrderedMap.keys ps →
    ps'.length = ps.length :=
    fun ps' h => by simpa [OrderedMap.keys] using congrArg List.length h
  have hnone : ¬∃ s ∈ stages schema, s.fits toolId description = true := by
    rintro ⟨s, hs, hfits⟩
    obtain ⟨ps', hps', hnames⟩ := names_of_stage hv hs hps
    have := hlength ps' hnames
    rw [not_fits_of_wide hps' (by omega)] at hfits
    cases hfits
  have hmem := depthStage_mem schema
  have hlong : (depthStage schema 1).fits toolId description = false :=
    Bool.eq_false_iff.mpr fun hfit => hnone ⟨_, hmem, hfit⟩
  rw [toolDetails_eq toolId description hv, produced_of_none hnone, noteTrue_cut_iff hv hlong]
  intro h
  obtain ⟨ps', hps', hnames⟩ := names_of_stage hv hmem hps
  have hcount := hlength ps' hnames
  rcases List.eq_nil_or_concat' ps' with rfl | ⟨front, ⟨name, v⟩, rfl⟩
  · rw [List.length_nil] at hcount
    omega
  · have hnodup : (OrderedMap.keys (front ++ [(name, v)])).Nodup := by
      rw [hnames]
      have hget : schema.get "properties" = some (.obj ps) := hps
      cases schema with
      | obj es => exact (Json.wf_obj.mp (Json.wf_field hv hget)).1
      | _ => cases hget
    have hname : name ∉ OrderedMap.keys front := by
      rw [OrderedMap.keys_append] at hnodup
      exact fun hm => (List.nodup_append.mp hnodup).2.2 name hm name (by simp) rfl
    obtain ⟨c', hc'⟩ := exists_property hps' (by simp : name ∈ OrderedMap.keys (front ++ [(name, v)]))
    obtain ⟨c, hc⟩ := exists_property hps (hnames ▸ by simp : name ∈ OrderedMap.keys ps)
    have hlast := beginsAt_last toolId description hps' hname
    have := (h.listed [] name c c' hc hc').1
    rw [List.length_append, List.length_singleton] at hcount
    simp only [cutAt, List.nil_append] at this
    omega

end Shown

theorem fits_of_short {toolId description : String} {schema : Json}
    (h : String.utf8Len (Json.printPretty 0 (envelope toolId description schema none)) ≤ maxDetailChars) :
    Stage.fits toolId description ⟨none, none, true, schema⟩ = true := by
  refine decide_eq_true ?_
  rw [Stage.text, render, if_pos rfl, String.utf8ByteSize_ofList]
  exact h

/-- A text that fits. -/
theorem orders_told :
    (toolDetails "shop.ListOrders" "List orders." orders).utf8ByteSize ≤ maxDetailChars ∧
      NoteTrue "shop.ListOrders" "List orders." (produced "shop.ListOrders" "List orders." orders)
        (toolDetails "shop.ListOrders" "List orders." orders) orders := by
  have horders : orders.WF := by
    simp [orders, Json.WF, Json.WFEntries, OrderedMap.keys]
  have hshort : String.utf8Len (Json.printPretty 0
      (envelope "shop.ListOrders" "List orders." orders none)) ≤ maxDetailChars := by
    decide +kernel
  exact (toolDetails_truthful_iff "shop.ListOrders" "List orders." horders).mpr
    (Or.inl ⟨⟨none, none, true, orders⟩, by simp [stages], fits_of_short hshort⟩)

/-! ## One property too many -/

/-- Properties `0` to `5000`. -/
def wideProperties : List (String × Json) :=
  (List.range 5001).map fun i => (toString i, .obj [("type", .str "string")])

def wide : Json := .obj [("type", .str "object"), ("properties", .obj wideProperties)]

theorem properties_record (ps : List (String × Json)) :
    keyword (.obj [("type", .str "object"), ("properties", .obj ps)]) [] "properties" = some (.obj ps) := rfl

theorem wf_wide : wide.WF := by
  have hkeys : OrderedMap.keys wideProperties = (List.range 5001).map toString := by
    simp [OrderedMap.keys, wideProperties]
  refine Json.wf_obj.mpr ⟨by decide, fun e he => ?_⟩
  obtain rfl | rfl : e = ("type", .str "object") ∨ e = ("properties", .obj wideProperties) := by
    simpa using he
  · simp [Json.WF]
  · refine Json.wf_obj.mpr ⟨?_, fun e he => ?_⟩
    · rw [hkeys]
      exact List.nodup_range.map fun _ _ h => Nat.repr_injective h
    · obtain ⟨i, -, rfl⟩ := List.mem_map.mp he
      simp [Json.WF, Json.WFEntries, OrderedMap.keys]

/-- The text is cut, under a note that every shallower field name is listed. -/
theorem wide_overclaims :
    ¬((toolDetails "crm.UpdateRecord" "Update a record." wide).utf8ByteSize ≤ maxDetailChars ∧
      NoteTrue "crm.UpdateRecord" "Update a record." (produced "crm.UpdateRecord" "Update a record." wide)
        (toolDetails "crm.UpdateRecord" "Update a record." wide) wide) := by
  intro ⟨_, h⟩
  have hlen : wideProperties.length = 5001 := by simp [wideProperties]
  exact untrue_of_wide wf_wide (properties_record wideProperties) (by omega) h

end MinMcp.L4.Details
