import MinMcp.Core.Json.ReadWF
import MinMcp.Core.Json.RoundTrip
import MinMcp.L2Machine.Project

/-!
# Tool results and their payload

A tool result is a JSON object with `content` blocks, an `isError` flag and
sometimes `structuredContent` (src/surface/results.rs). The payload of a result is
the JSON in its first text block; a result of a spec upstream wraps the payload in
an envelope with `status` and `body`. `transformResult` rewrites the payload in
place, in every block and in `structuredContent`.

* `resultText_transformResult`: the first text after a transformation depends on
  the first text before it only.
* `textPayload_newText`: reading the new text gives the payload inside the rewritten
  JSON, unless that is nested too deep to be read.
-/
namespace MinMcp.L4.Results

open MinMcp.Core

/-- mirrors src/surface/results.rs:5-7 -/
def textResult (text : String) (isError : Bool) : Json :=
  .obj [("content", .arr [.obj [("type", .str "text"), ("text", .str text)]]), ("isError", .bool isError)]

def isErrorResult (result : Json) : Bool := (result.get "isError").bind Json.asBool == some true

/-- mirrors src/surface/results.rs:9-18 -/
def resultText (result : Json) : String :=
  (((((result.get "content").bind Json.asArray).bind List.head?).bind fun b => b.get "text").bind
    Json.asStr).getD ""

/-- mirrors src/surface/results.rs:42-49 -/
def isEnvelope (parsed : Json) : Bool :=
  parsed.asObject.isSome && (parsed.get "status").isSome && (parsed.get "body").isSome

/-- `path.split('.')`. -/
def dotSegments (path : String) : List (List Char) := path.toList.splitOn '.'

/-- `s.strip_suffix("[last]")`. -/
def stripLast (seg : List Char) : Option (List Char) :=
  if "[last]".toList.isSuffixOf seg then some (seg.take (seg.length - 6)) else none

/-- `seg.parse::<usize>().ok()`: digits, a leading `+` allowed, below `2^64`. -/
def parseUsize (seg : List Char) : Option Nat :=
  let digits := match seg with
    | '+' :: ds => ds
    | ds => ds
  if digits ≠ [] ∧ digits.all Char.isDigit ∧ Nat.ofDigitChars 10 digits 0 < 2 ^ 64 then
    some (Nat.ofDigitChars 10 digits 0)
  else none

/-- One segment of a `get_path`.
mirrors src/surface/results.rs:97-110 -/
def stepPath (cur : Json) (seg : List Char) : Option Json :=
  match stripLast seg with
  | some key =>
    ((if key = [] then some cur else cur.get (String.ofList key)).bind Json.asArray).bind List.getLast?
  | none =>
    match cur with
    | .obj es => es.lookup (String.ofList seg)
    | .arr xs => (parseUsize seg).bind fun i => xs[i]?
    | _ => none

/-- mirrors src/surface/results.rs:91-112 -/
def getPath (v : Json) (path : String) : Option Json :=
  (dotSegments path).foldlM stepPath v

/-- `payload["body"] = body`: the field exists. -/
def setBody (parsed body : Json) : Json :=
  match parsed with
  | .obj es => .obj (OrderedMap.insert "body" body es)
  | v => v

/-- The payload in a text, read by `rd`; `none` when the text is no JSON. The
`Bool` says whether a transformation reaches it. -/
def payloadOf (rd : List Char → Option Json) (fromSpec : Bool) (text : String) : Option (Json × Bool) :=
  (rd text.toList).map fun parsed =>
    if fromSpec && isEnvelope parsed then
      match parsed.get "body" with
      | some (.str body) =>
        match rd body.toList with
        | some b => (b, true)
        | none => (parsed, false)
      | some (.obj es) => (.obj es, true)
      | some (.arr xs) => (.arr xs, true)
      | some body => (body, false)
      | none => (parsed, false)
    else (parsed, true)

/-- mirrors src/surface/results.rs:20-40 -/
def resultPayload (result : Json) (fromSpec : Bool) : Json :=
  let text := resultText result
  match JsonReader.read text.toList with
  | none => .str text
  | some parsed =>
    if fromSpec && isEnvelope parsed then
      match parsed.get "body" with
      | some (.str body) =>
        match JsonReader.read body.toList with
        | some b => b
        | none => parsed
      | some body => body
      | none => parsed
    else parsed

/-- The text of a block after the transformation.
mirrors src/surface/results.rs:241-282 -/
def newText (fromSpec : Bool) (f : Json → Json) (text : String) : String :=
  match JsonReader.read text.toList with
  | none => text
  | some parsed =>
    if fromSpec && isEnvelope parsed then
      match parsed.get "body" with
      | some (.obj es) => (setBody parsed (f (.obj es))).render
      | some (.arr xs) => (setBody parsed (f (.arr xs))).render
      | some (.str body) =>
        match JsonReader.read body.toList with
        | some b => (setBody parsed (.str (f b).render)).render
        | none => text
      | _ => text
    else (f parsed).render

/-- One content block: its text, when it has one. -/
def transformBlock (fromSpec : Bool) (f : Json → Json) (block : Json) : Json :=
  match block with
  | .obj es =>
    match (es.lookup "text").bind Json.asStr with
    | some text => .obj (OrderedMap.insert "text" (.str (newText fromSpec f text)) es)
    | none => block
  | v => v

/-- `structuredContent` is transformed, and dropped when the outcome is no object.
mirrors src/surface/results.rs:231-240 -/
def transformStructured (f : Json → Json) (es : List (String × Json)) : List (String × Json) :=
  match es.lookup "structuredContent" with
  | none => es
  | some sc =>
    match f sc with
    | .obj fs => OrderedMap.insert "structuredContent" (.obj fs) es
    | _ => OrderedMap.swapRemove "structuredContent" es

/-- mirrors src/surface/results.rs:223-285 -/
def transformResult (result : Json) (fromSpec : Bool) (f : Json → Json) : Json :=
  match result with
  | .obj es =>
    let es := transformStructured f es
    match es.lookup "content" with
    | some (.arr blocks) =>
      .obj (OrderedMap.insert "content" (.arr (blocks.map (transformBlock fromSpec f))) es)
    | _ => .obj es
  | v => v

/-! ## Reading a transformed result -/

/-- The payload inside the JSON of a text. -/
def unwrap (fromSpec : Bool) (parsed : Json) : Json :=
  if fromSpec && isEnvelope parsed then
    match parsed.get "body" with
    | some (.str body) => (JsonReader.read body.toList).getD parsed
    | some body => body
    | none => parsed
  else parsed

/-- The payload a text is read as. -/
def textPayload (fromSpec : Bool) (text : String) : Json :=
  match JsonReader.read text.toList with
  | none => .str text
  | some parsed => unwrap fromSpec parsed

/-- The JSON a transformation leaves in a text, `none` when it leaves the text alone. -/
def rewrite (fromSpec : Bool) (f : Json → Json) (parsed : Json) : Option Json :=
  if fromSpec && isEnvelope parsed then
    match parsed.get "body" with
    | some (.obj es) => some (setBody parsed (f (.obj es)))
    | some (.arr xs) => some (setBody parsed (f (.arr xs)))
    | some (.str body) =>
      (JsonReader.read body.toList).map fun b => setBody parsed (.str (f b).render)
    | _ => none
  else some (f parsed)

theorem resultPayload_eq (result : Json) (fromSpec : Bool) :
    resultPayload result fromSpec = textPayload fromSpec (resultText result) := by
  simp only [resultPayload, textPayload]
  cases JsonReader.read (resultText result).toList with
  | none => rfl
  | some parsed =>
    simp only [unwrap]
    split
    · cases parsed.get "body" with
      | none => rfl
      | some b =>
        cases b with
        | str body => cases hb : JsonReader.read body.toList <;> simp [hb]
        | _ => rfl
    · rfl

theorem newText_eq (fromSpec : Bool) (f : Json → Json) (text : String) :
    newText fromSpec f text =
      match (JsonReader.read text.toList).bind (rewrite fromSpec f) with
      | some v => v.render
      | none => text := by
  unfold newText rewrite
  cases JsonReader.read text.toList with
  | none => rfl
  | some parsed =>
    simp only [Option.bind_some]
    split
    · cases parsed.get "body" with
      | none => rfl
      | some b =>
        cases b with
        | str body => cases hb : JsonReader.read body.toList <;> simp [hb]
        | _ => rfl
    · rfl

theorem lookup_transformStructured {es : List (String × Json)} (hn : (OrderedMap.keys es).Nodup)
    (f : Json → Json) {k : String} (hk : k ≠ "structuredContent") :
    (transformStructured f es).lookup k = es.lookup k := by
  unfold transformStructured
  split
  · rfl
  · split
    · exact OrderedMap.lookup_insert_of_ne hk _ _
    · exact OrderedMap.lookup_swapRemove_of_ne hk hn

/-- The blocks of a transformed result. -/
theorem get_content_transformResult {r : Json} (h : r.WF) (fromSpec : Bool) (f : Json → Json)
    {blocks : List Json} (hc : r.get "content" = some (.arr blocks)) :
    (transformResult r fromSpec f).get "content" =
      some (.arr (blocks.map (transformBlock fromSpec f))) := by
  cases r with
  | obj es =>
    have hs := lookup_transformStructured (Json.wf_obj.mp h).1 f (k := "content") (by decide)
    rw [Json.get_obj] at hc
    simp only [transformResult, hs, hc, Json.get_obj, OrderedMap.lookup_insert_self]
  | _ => cases hc

theorem get_text_transformBlock (fromSpec : Bool) (f : Json → Json) (block : Json) :
    ((transformBlock fromSpec f block).get "text").bind Json.asStr =
      ((block.get "text").bind Json.asStr).map (newText fromSpec f) := by
  cases block with
  | obj es =>
    rw [transformBlock, Json.get_obj]
    cases ht : (es.lookup "text").bind Json.asStr with
    | none => exact ht
    | some text => simp [OrderedMap.lookup_insert_self, Json.asStr]
  | _ => rfl

/-- What is no JSON text stays as it is. -/
theorem newText_empty (fromSpec : Bool) (f : Json → Json) : newText fromSpec f "" = "" := rfl

/-- The blocks of a transformed result are those of the result, each one transformed. -/
theorem contentBlocks_transformResult {r : Json} (h : r.WF) (fromSpec : Bool) (f : Json → Json) :
    ((transformResult r fromSpec f).get "content").bind Json.asArray =
      ((r.get "content").bind Json.asArray).map (List.map (transformBlock fromSpec f)) := by
  cases hc : (r.get "content").bind Json.asArray with
  | none =>
    cases r with
    | obj es =>
      have hs := lookup_transformStructured (Json.wf_obj.mp h).1 f (k := "content") (by decide)
      have hne : ∀ blocks, es.lookup "content" ≠ some (.arr blocks) := by
        intro blocks he
        simp [Json.get_obj, he, Json.asArray] at hc
      have hkeep : transformResult (.obj es) fromSpec f = .obj (transformStructured f es) := by
        simp only [transformResult, hs]
      rw [hkeep, Json.get_obj, hs, ← Json.get_obj, hc]
      rfl
    | _ => rfl
  | some blocks =>
    obtain ⟨c, hget, harr⟩ := Option.bind_eq_some_iff.mp hc
    obtain rfl : c = .arr blocks := by cases c <;> simp_all [Json.asArray]
    rw [get_content_transformResult h fromSpec f hget]
    rfl

theorem resultText_transformResult {r : Json} (h : r.WF) (fromSpec : Bool) (f : Json → Json) :
    resultText (transformResult r fromSpec f) = newText fromSpec f (resultText r) := by
  rw [resultText, resultText, contentBlocks_transformResult h]
  cases (r.get "content").bind Json.asArray with
  | none => exact (newText_empty fromSpec f).symm
  | some blocks =>
    cases blocks with
    | nil => rfl
    | cons b bs =>
      have := get_text_transformBlock fromSpec f b
      simp only [Option.map_some, Option.bind_some, List.map_cons, List.head?_cons, this]
      cases (b.get "text").bind Json.asStr <;> rfl

theorem wf_of_get {v w : Json} {k : String} (h : v.WF) (hk : v.get k = some w) : w.WF := by
  cases v with
  | obj es => exact Json.wf_field h hk
  | _ => cases hk

theorem wf_setBody {parsed body : Json} (h : parsed.WF) (hb : body.WF) : (setBody parsed body).WF := by
  cases parsed with
  | obj es => exact OrderedMap.wf_insert hb h
  | _ => exact h

theorem wf_str (s : String) : (Json.str s).WF := by simp [Json.WF]

theorem wf_rewrite {fromSpec : Bool} {f : Json → Json} (hf : ∀ v, v.WF → (f v).WF) {parsed v : Json}
    (h : parsed.WF) (hv : rewrite fromSpec f parsed = some v) : v.WF := by
  unfold rewrite at hv
  split at hv
  · split at hv
    · next es hb => cases hv; exact wf_setBody h (hf _ (wf_of_get h hb))
    · next xs hb => cases hv; exact wf_setBody h (hf _ (wf_of_get h hb))
    · obtain ⟨b, -, rfl⟩ := Option.map_eq_some_iff.mp hv
      exact wf_setBody h (wf_str _)
    · cases hv
  · cases hv; exact hf _ h

theorem wf_textPayload (fromSpec : Bool) (text : String) : (textPayload fromSpec text).WF := by
  unfold textPayload
  cases hr : JsonReader.read text.toList with
  | none => exact wf_str _
  | some parsed =>
    have hp := JsonReader.wf_read hr
    simp only [unwrap]
    split
    · split
      · next body hb =>
        cases hr : JsonReader.read body.toList with
        | none => exact hp
        | some b => exact JsonReader.wf_read hr
      · next body _ hb => exact wf_of_get hp hb
      · exact hp
    · exact hp

/-- The payload a transformed text is read as. -/
theorem textPayload_newText {fromSpec : Bool} {f : Json → Json} (hf : ∀ v, v.WF → (f v).WF)
    (text : String) : textPayload fromSpec (newText fromSpec f text) =
      match (JsonReader.read text.toList).bind (rewrite fromSpec f) with
      | some v => if v.depth ≤ JsonReader.depthLimit then unwrap fromSpec v else .str v.render
      | none => textPayload fromSpec text := by
  rw [newText_eq]
  cases hv : (JsonReader.read text.toList).bind (rewrite fromSpec f) with
  | none => rfl
  | some v =>
    obtain ⟨parsed, hr, hw⟩ := Option.bind_eq_some_iff.mp hv
    have hwf : v.WF := wf_rewrite hf (JsonReader.wf_read hr) hw
    simp only [textPayload, Json.render_toList, JsonReader.read_print_eq v hwf]
    by_cases hd : v.depth ≤ JsonReader.depthLimit <;> simp [hd]

end MinMcp.L4.Results
