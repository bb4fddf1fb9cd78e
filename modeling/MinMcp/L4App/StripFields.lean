import MinMcp.L2Machine.Prune
import MinMcp.L4App.Shaping

/-!
# A stripped field never leaves

The response transform of an overlay that only removes paths, over a whole result
(src/surface/results.rs:199-285, src/surface/dispatch.rs:301-327). Where a removed path
leads, neither a JSON text of the result, nor the JSON body of a spec upstream's
envelope, nor `structuredContent` has a value when the shaping is over: not for an
error, not in a later block, and not after the caller's `fields`, the hints and the
nudge.

* `document_newText`: one block, in every shape its text can have.
* `stripped_transformResult`: the whole result.
* `stripped_shapeResult`: behind all of the shaping.
-/
namespace MinMcp.L4.Shaping

open MinMcp.Core MinMcp.Core.Json MinMcp.L2 MinMcp.L2.Project MinMcp.L4.Results MinMcp.L4.Pages

/-! ## Specification -/

structure ResponseTransform.OnlyRemoves (rt : ResponseTransform) : Prop where
  keep : rt.keep = []
  rename : rt.rename = []
  set : rt.set = []
  jq : rt.jq = none

/-- A path of dotted keys and `[]` with at least one of them; `*` is the other wildcard. -/
structure IsPath (path : String) : Prop where
  nonempty : steps path ≠ []
  plain : .key "*" ∉ steps path

/-- The JSON body of an envelope stands in it as it is, or as a text. -/
def bodyJson : Json → Option Json
  | .str body => JsonReader.read body.toList
  | body => some body

/-- What a JSON text carries: for a spec result the JSON body inside its envelope. -/
def carried (fromSpec : Bool) (parsed : Json) : Option Json :=
  if fromSpec && isEnvelope parsed then (parsed.get "body").bind bodyJson else some parsed

def document (fromSpec : Bool) (text : String) : Option Json :=
  (JsonReader.read text.toList).bind (carried fromSpec)

/-- The result has no value where the path leads. -/
structure Stripped (fromSpec : Bool) (path : String) (result : Json) : Prop where
  texts : ∀ text ∈ blockTexts result, ∀ doc, document fromSpec text = some doc →
    doc.valuesAt (steps path) = []
  structured : ∀ sc, result.get "structuredContent" = some sc → sc.valuesAt (steps path) = []

/-! ## One block -/

/-- What the transformation does to a payload: it takes parts away, among them all that
stands at `p`. -/
structure Strips (f : Json → Json) (p : List Json.Step) : Prop where
  wf : ∀ v, v.WF → (f v).WF
  narrower : ∀ v, v.WF → (f v).Narrower v
  cleared : ∀ v, v.WF → (f v).valuesAt p = []

theorem read_render {v w : Json} (hv : v.WF) (hw : JsonReader.read v.render.toList = some w) : w = v := by
  rw [render_toList, JsonReader.read_print_eq v hv] at hw
  split at hw
  · exact (Option.some.inj hw).symm
  · cases hw

theorem isEnvelope_of_narrower {v w : Json} (h : w.Narrower v) (hw : isEnvelope w = true) :
    isEnvelope v = true := by
  simp only [isEnvelope, Bool.and_eq_true, Option.isSome_iff_exists] at hw ⊢
  obtain ⟨⟨-, s, hs⟩, b, hb⟩ := hw
  have hstatus := get_of_narrower h hs
  have hbody := get_of_narrower h hb
  rw [Option.isSome_iff_exists] at hstatus hbody
  refine ⟨⟨?_, hstatus⟩, hbody⟩
  obtain ⟨c, hc⟩ := hbody
  cases v with
  | obj es => exact ⟨es, rfl⟩
  | _ => cases hc

theorem isEnvelope_setBody {parsed : Json} (h : isEnvelope parsed = true) (body : Json) :
    isEnvelope (setBody parsed body) = true ∧ (setBody parsed body).get "body" = some body := by
  cases parsed with
  | obj es =>
    simp only [isEnvelope, get_obj, Bool.and_eq_true] at h
    simp [isEnvelope, setBody, asObject, OrderedMap.lookup_insert_self,
      OrderedMap.lookup_insert_of_ne (show "status" ≠ "body" by decide), h.1.2]
  | _ => simp [isEnvelope, asObject] at h

theorem carried_setBody {parsed : Json} (h : isEnvelope parsed = true) (body : Json) :
    carried true (setBody parsed body) = bodyJson body := by
  obtain ⟨he, hb⟩ := isEnvelope_setBody h body
  rw [carried, he, hb]
  rfl

section Block

variable {f : Json → Json} {p : List Json.Step} (hf : Strips f p)
include hf

/-- A body that is rewritten as JSON: it does not turn into a text. -/
theorem cleared_body {body doc : Json} (hw : body.WF) (hstr : ∀ s, body ≠ .str s)
    (hd : bodyJson (f body) = some doc) : doc.valuesAt p = [] := by
  have hcleared := hf.cleared body hw
  cases hb : f body with
  | str s =>
    have hn := hf.narrower body hw
    rw [hb] at hn
    exact absurd (narrower_str hn) (hstr s)
  | _ =>
    rw [hb] at hd hcleared
    cases hd
    exact hcleared

theorem cleared_rewrite {fromSpec : Bool} {parsed v doc : Json} (hw : parsed.WF)
    (hv : rewrite fromSpec f parsed = some v) (hd : carried fromSpec v = some doc) :
    doc.valuesAt p = [] := by
  unfold rewrite at hv
  split at hv
  · next he =>
    obtain ⟨rfl, he⟩ := Bool.and_eq_true_iff.mp he
    split at hv
    · next es hb =>
      cases hv
      rw [carried_setBody he] at hd
      exact cleared_body hf (wf_of_get hw hb) (by simp) hd
    · next xs hb =>
      cases hv
      rw [carried_setBody he] at hd
      exact cleared_body hf (wf_of_get hw hb) (by simp) hd
    · next body hb =>
      obtain ⟨b, hr, rfl⟩ := Option.map_eq_some_iff.mp hv
      have hbw : b.WF := JsonReader.wf_read hr
      rw [carried_setBody he, bodyJson] at hd
      rw [read_render (hf.wf b hbw) hd]
      exact hf.cleared b hbw
    · cases hv
  · next he =>
    cases hv
    -- nothing is added, so the outcome is no envelope either
    have hout : ¬ (fromSpec && isEnvelope (f parsed)) = true := by
      intro hout
      rw [Bool.and_eq_true] at hout he
      exact he ⟨hout.1, isEnvelope_of_narrower (hf.narrower parsed hw) hout.2⟩
    rw [carried, if_neg hout] at hd
    cases hd
    exact hf.cleared parsed hw

omit hf in
/-- What is left alone has nothing inside. -/
theorem cleared_untouched {fromSpec : Bool} {parsed doc : Json} (hp : p ≠ [])
    (hv : rewrite fromSpec f parsed = none) (hd : carried fromSpec parsed = some doc) :
    doc.valuesAt p = [] := by
  unfold rewrite at hv
  unfold carried at hd
  split at hv
  · next he =>
    rw [if_pos he] at hd
    obtain ⟨body, hb, hd⟩ := Option.bind_eq_some_iff.mp hd
    rw [hb] at hv
    cases body with
    | obj es => cases hv
    | arr xs => cases hv
    | str body =>
      rw [Option.map_eq_none_iff] at hv
      rw [bodyJson, hv] at hd
      cases hd
    | _ =>
      cases hd
      exact valuesAt_scalar rfl rfl hp
  · cases hv

/-- Every shape a text can have. -/
theorem document_newText {fromSpec : Bool} {text : String} {doc : Json} (hp : p ≠ [])
    (hd : document fromSpec (newText fromSpec f text) = some doc) : doc.valuesAt p = [] := by
  rw [newText_eq] at hd
  cases hr : JsonReader.read text.toList with
  | none =>
    rw [hr] at hd
    rw [Option.bind_none, document, hr] at hd
    cases hd
  | some parsed =>
    have hw := JsonReader.wf_read hr
    rw [hr, Option.bind_some] at hd
    cases hv : rewrite fromSpec f parsed with
    | none =>
      rw [hv, document, hr, Option.bind_some] at hd
      exact cleared_untouched hp hv hd
    | some v =>
      rw [hv] at hd
      obtain ⟨w, hread, hcar⟩ := Option.bind_eq_some_iff.mp hd
      rw [read_render (wf_rewrite hf.wf hw hv) hread] at hcar
      exact cleared_rewrite hf hw hv hcar

end Block

/-! ## The whole result -/

theorem blockTexts_transformResult {r : Json} (h : r.WF) (fromSpec : Bool) (f : Json → Json) :
    blockTexts (transformResult r fromSpec f) = (blockTexts r).map (newText fromSpec f) := by
  rw [blockTexts, blockTexts, contentBlocks_transformResult h]
  cases (r.get "content").bind asArray with
  | none => rfl
  | some blocks =>
    have htext : (fun b => ((transformBlock fromSpec f b).get "text").bind asStr) =
        fun b => ((b.get "text").bind asStr).map (newText fromSpec f) :=
      funext fun b => get_text_transformBlock fromSpec f b
    simp only [Option.map_some, Option.getD_some, List.filterMap_map, List.map_filterMap, Function.comp_def,
      htext]

theorem get_structured_transformResult {r sc : Json} (h : r.WF) {fromSpec : Bool} {f : Json → Json}
    (hsc : (transformResult r fromSpec f).get "structuredContent" = some sc) :
    ∃ before, r.get "structuredContent" = some before ∧ sc = f before := by
  cases r with
  | obj es =>
    have hkeep : (transformResult (.obj es) fromSpec f).get "structuredContent" =
        (transformStructured f es).lookup "structuredContent" := by
      rw [transformResult]
      split
      · rw [get_obj, OrderedMap.lookup_insert_of_ne (by decide)]
      · rfl
    rw [hkeep, transformStructured] at hsc
    rw [get_obj]
    split at hsc
    · next hl =>
      rw [hl] at hsc
      cases hsc
    · next before hl =>
      refine ⟨before, hl, ?_⟩
      split at hsc
      · next fs hfs =>
        rw [OrderedMap.lookup_insert_self] at hsc
        rw [hfs]
        exact (Option.some.inj hsc).symm
      · rw [OrderedMap.lookup_swapRemove_self (wf_obj.mp h).1] at hsc
        cases hsc
  | _ => cases hsc

theorem stripped_transformResult {r : Json} (h : r.WF) (fromSpec : Bool) {f : Json → Json} {path : String}
    (hf : Strips f (steps path)) (hp : steps path ≠ []) :
    Stripped fromSpec path (transformResult r fromSpec f) where
  texts text htext doc hd := by
    rw [blockTexts_transformResult h] at htext
    obtain ⟨before, -, rfl⟩ := List.mem_map.mp htext
    exact document_newText hf hp hd
  structured sc hsc := by
    obtain ⟨before, hb, rfl⟩ := get_structured_transformResult h hsc
    exact hf.cleared before (wf_of_get h hb)

/-! ## Hints and nudge -/

theorem document_eq_none {c : Char} (hc : JsonReader.step JsonReader.init c = none) {text : String}
    (ht : text.toList.head? = some c) (fromSpec : Bool) : document fromSpec text = none := by
  obtain ⟨cs, hcs⟩ := List.head?_eq_some_iff.mp ht
  rw [document, hcs, JsonReader.read, JsonReader.outcome, JsonReader.run, hc]
  rfl

theorem head_append {c : Char} {s : String} (hs : s.toList.head? = some c) (t : String) :
    (s ++ t).toList.head? = some c := by
  rw [String.toList_append, List.head?_append, hs]
  rfl

theorem text_textBlock (t : String) : ((textBlock t).get "text").bind asStr = some t := rfl

theorem mem_blockTexts_pushBlock {r : Json} {t text : String}
    (h : text ∈ blockTexts (pushBlock r (textBlock t))) : text ∈ blockTexts r ∨ text = t := by
  cases hc : (r.get "content").bind asArray with
  | none =>
    refine Or.inl ?_
    cases r with
    | obj es =>
      rw [pushBlock] at h
      split at h
      · next blocks hl =>
        simp [get_obj, hl, asArray] at hc
      · exact h
    | _ => exact h
  | some blocks =>
    obtain ⟨c, hget, harr⟩ := Option.bind_eq_some_iff.mp hc
    obtain rfl : c = .arr blocks := by cases c <;> simp_all [asArray]
    rw [blockTexts, get_content_pushBlock hget] at h
    rw [blockTexts, hget]
    simp only [Option.bind_some, asArray, Option.getD_some, List.filterMap_append, List.mem_append] at h ⊢
    refine h.imp_right fun h => ?_
    simpa only [List.filterMap_cons, text_textBlock, List.filterMap_nil, List.mem_singleton] using h

theorem stripped_pushBlock {fromSpec : Bool} {path : String} {r : Json} (h : Stripped fromSpec path r)
    {t : String} (ht : document fromSpec t = none) : Stripped fromSpec path (pushBlock r (textBlock t)) where
  texts text htext doc hd := by
    rcases mem_blockTexts_pushBlock htext with hm | rfl
    · exact h.texts text hm doc hd
    · rw [ht] at hd
      cases hd
  structured sc hsc := by
    rw [get_pushBlock (by decide)] at hsc
    exact h.structured sc hsc

theorem stripped_pushBlocks {fromSpec : Bool} {path : String} {r : Json} (h : Stripped fromSpec path r)
    {blocks : List Json} (hb : ∀ b ∈ blocks, ∃ t, b = textBlock t ∧ document fromSpec t = none) :
    Stripped fromSpec path (blocks.foldl pushBlock r) := by
  induction blocks generalizing r with
  | nil => exact h
  | cons b bs ih =>
    obtain ⟨t, rfl, ht⟩ := hb b List.mem_cons_self
    exact ih (stripped_pushBlock h ht) fun c hc => hb c (List.mem_cons_of_mem _ hc)

theorem hintBlocks_text (schema : Option Json) (h : ErrorHint) (fromSpec : Bool) :
    ∀ b ∈ hintBlocks schema h, ∃ t, b = textBlock t ∧ document fromSpec t = none := by
  intro b hb
  rcases List.mem_cons.mp hb with rfl | hb
  · refine ⟨_, rfl, ?_⟩
    split
    · exact document_eq_none (c := 'E') (by decide) (head_append (by decide) _) fromSpec
    · exact document_eq_none (c := 'H') (by decide) (head_append (by decide) _) fromSpec
  · split at hb
    · exact ⟨_, List.mem_singleton.mp hb, document_eq_none (c := 'R') (by decide)
        (by decide +kernel) fromSpec⟩
    · exact ⟨_, List.mem_singleton.mp hb, document_eq_none (c := 'R') (by decide)
        (by decide +kernel) fromSpec⟩
    · cases hb

theorem stripped_nudge {fromSpec : Bool} {path : String} {r : Json} (h : Stripped fromSpec path r) :
    Stripped fromSpec path (nudgeProjection r) := by
  unfold nudgeProjection
  simp only []
  split
  · exact h
  · refine stripped_pushBlock h ?_
    exact document_eq_none (c := 'H') (by decide)
      (head_append (head_append (head_append (head_append (by decide) _) _) _) _) fromSpec

theorem stripped_errorHints {fromSpec : Bool} {path : String} {r : Json} (h : Stripped fromSpec path r)
    (hints : List ErrorHint) (schema : Option Json) :
    Stripped fromSpec path (applyErrorHints hints schema r) := by
  refine stripped_pushBlocks h fun b hb => ?_
  obtain ⟨hint, -, hb⟩ := List.mem_flatMap.mp hb
  exact hintBlocks_text schema hint fromSpec b hb

/-! ## All of the shaping -/

theorem applyResponseTransform_prune {rt : ResponseTransform} (h : rt.OnlyRemoves)
    (jq : String → Json → Option Json) (isError : Bool) (v : Json) :
    applyResponseTransform jq rt isError v = Project.prune v rt.remove := by
  simp [applyResponseTransform, h.keep, h.rename, h.set, h.jq]

/-- The removal, and behind it the caller's projection. -/
theorem strips_shape {rt : ResponseTransform} (honly : rt.OnlyRemoves) {path : String}
    (hmem : path ∈ rt.remove) (hpath : IsPath path) (jq : String → Json → Option Json) (isError : Bool)
    (keep : List String) :
    Strips (fun payload =>
      let payload := applyResponseTransform jq rt isError payload
      if keep.isEmpty then payload else Project.project payload keep) (steps path) := by
  simp only [applyResponseTransform_prune honly]
  constructor
  · intro v hv
    split
    · exact wf_prune hv _
    · exact wf_project (wf_prune hv _) keep
  · intro v hv
    split
    · exact narrower_prune hv _
    · exact narrower_trans (narrower_project (wf_prune hv _) keep) (narrower_prune hv _)
  · intro v hv
    have hcleared := valuesAt_prune hv hmem hpath.nonempty hpath.plain
    split
    · exact hcleared
    · exact valuesAt_of_narrower (narrower_project (wf_prune hv _) keep) hcleared

/-- **A stripped field never leaves.** Whatever the result, error or success, of an MCP
or a spec upstream: when the overlay's transform applies to it and only removes paths,
nothing of the shaped result stands where a removed path leads. -/
theorem stripped_shapeResult (jq : String → Json → Option Json) (s : Shape) (fields : List String)
    {result : Json} (hw : result.WF) {rt : ResponseTransform} (hrt : s.response = some rt)
    (happlies : rt.applies (isErrorResult result) = true) (honly : rt.OnlyRemoves) {path : String}
    (hmem : path ∈ rt.remove) (hpath : IsPath path) :
    Stripped s.fromSpec path (shapeResult s jq fields result) := by
  have hnoop : rt.isNoop = false := by
    cases hr : rt.remove with
    | nil => rw [hr] at hmem; cases hmem
    | cons p ps => simp [ResponseTransform.isNoop, hr]
  have hf := strips_shape honly hmem hpath jq (isErrorResult result)
    (if isErrorResult result then [] else fields)
  have hout := stripped_errorHints (stripped_transformResult hw s.fromSpec hf hpath.nonempty) s.hints s.schema
  unfold shapeResult
  simp only [hrt, Option.filter_some, happlies, if_true, Option.any_some, hnoop, Bool.not_false, Bool.true_or]
  split
  · exact stripped_nudge hout
  · exact hout

/-- An overlay that strips the secret of every charge. -/
def stripSecret : Shape where
  response := some ⟨[], ["data[].secret"], [], [], none, .always⟩
  fromSpec := false
  hints := [⟨"secret", "rotate the key", none, some false⟩]
  schema := none
  threeTool := true

/-- A failed call that hands out the secret twice. -/
def leaking : Json :=
  .obj [("content", .arr [textBlock "charge failed",
      textBlock "\x7b\"data\":[\x7b\"id\":1,\"secret\":\"sk\"\x7d]\x7d"]),
    ("structuredContent", .obj [("data", .arr [.obj [("secret", .str "sk")]])]), ("isError", .bool true)]

theorem failed_call_is_stripped :
    ¬ Stripped false "data[].secret" leaking ∧
      Stripped false "data[].secret" (shapeResult stripSecret (fun _ _ => none) ["data"] leaking) := by
  refine ⟨fun h => ?_, ?_⟩
  · have hs := h.structured _ rfl
    revert hs
    decide +kernel
  · have hw : leaking.WF := by simp [leaking, textBlock, WF, WFList, WFEntries]
    exact stripped_shapeResult _ stripSecret ["data"] hw rfl rfl ⟨rfl, rfl, rfl, rfl⟩
      List.mem_cons_self ⟨by decide +kernel, by decide +kernel⟩

end MinMcp.L4.Shaping
