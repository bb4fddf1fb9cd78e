import MinMcp.L2Machine.Projection
import MinMcp.L4App.Paginate
import MinMcp.L4App.Preflight
import Mathlib.Algebra.GroupWithZero.Nat

/-!
# Shaping a result

What dispatch does to a result once it has it (src/surface/dispatch.rs:303-327): the
overlay's response transform, the caller's `fields`, the error hints, and the nudge
towards `fields`. The jq program of a transform is run by `jq`, which is no code of
the program: its first output, `none` when it fails.
-/
namespace MinMcp.L4.Shaping

open MinMcp.Core MinMcp.L2 MinMcp.L4.Preflight MinMcp.L4.Results MinMcp.L4.Pages

/-- mirrors src/config.rs:426-434 -/
inductive When where
  | always | success | error
  deriving DecidableEq

/-- mirrors src/config.rs:399-424 -/
structure ResponseTransform where
  keep : List String
  remove : List String
  rename : List (String × String)
  set : List (String × Json)
  jq : Option String
  when : When

/-- mirrors src/config.rs:437-443 -/
def ResponseTransform.isNoop (rt : ResponseTransform) : Bool :=
  rt.keep.isEmpty && rt.remove.isEmpty && rt.rename.isEmpty && rt.set.isEmpty && rt.jq.isNone

/-- mirrors src/config.rs:446-452 -/
def ResponseTransform.applies (rt : ResponseTransform) (isError : Bool) : Bool :=
  match rt.when with
  | .always => true
  | .success => !isError
  | .error => isError

/-- mirrors src/surface/results.rs:199-221 -/
def applyResponseTransform (jq : String → Json → Option Json) (rt : ResponseTransform) (isError : Bool)
    (payload : Json) : Json :=
  let payload :=
    if !rt.keep.isEmpty && (!isError || rt.when = .error) then Project.project payload rt.keep else payload
  let payload := Project.prune payload rt.remove
  let payload := rt.rename.foldl (fun v r => Project.rename v r.1 r.2) payload
  let payload := rt.set.foldl (fun v s => Project.set v s.1 s.2) payload
  match rt.jq with
  | some program => (jq program payload).getD payload
  | none => payload

/-- mirrors src/config.rs:345-363 -/
structure ErrorHint where
  contains : String
  hint : String
  field : Option String
  retryable : Option Bool

/-- mirrors src/surface/preflight.rs:156-164 -/
def navRef (schema : Json) (path : String) : Option (Json × String) :=
  let parts := ((dotSegments path).filter fun s => !s.isEmpty).map String.ofList
  parts.getLast?.bind fun field =>
    (parts.dropLast.foldlM (fun (node : Json) s => (node.get "properties").bind fun ps => ps.get s) schema).map
      fun node => (node, field)

/-- mirrors src/surface/preflight.rs:38-41 -/
def structuredFieldErrorAt (root : Json) (dotted reason : String) : Option Json :=
  (navRef root dotted).bind fun p => structuredFieldError p.1 p.2 dotted reason

/-- The texts of a result's blocks. -/
def blockTexts (result : Json) : List String :=
  (((result.get "content").bind Json.asArray).getD []).filterMap fun b => (b.get "text").bind Json.asStr

def textBlock (text : String) : Json := .obj [("type", .str "text"), ("text", .str text)]

/-- mirrors src/surface/dispatch.rs:551-571 -/
def hintBlocks (schema : Option Json) (h : ErrorHint) : List Json :=
  let detail := h.field.bind fun fp => schema.bind fun s =>
    structuredFieldErrorAt s fp "invalid_or_missing_field"
  let text := match detail with
    | some se => "ERROR_DETAIL: " ++ se.render
    | none => "HINT: " ++ h.hint
  let retry := match h.retryable with
    | some true => [textBlock "RETRYABLE: true (transient — wait briefly and retry)"]
    | some false => [textBlock "RETRYABLE: false (permanent — do not retry; fix the request)"]
    | none => []
  textBlock text :: retry

/-- `hints` are the global ones and the tool's, `schema` is the tool's, for a caller
who is shown it.
mirrors src/surface/dispatch.rs:519-573 -/
def applyErrorHints (hints : List ErrorHint) (schema : Option Json) (result : Json) : Json :=
  let text := "\n".intercalate (blockTexts result)
  let matched := hints.filter fun h => h.contains.toList <:+: text.toList
  (matched.flatMap (hintBlocks schema)).foldl pushBlock result

/-- mirrors src/surface/results.rs:114 -/
def projectionNudgeChars : Nat := 2000

/-- mirrors src/surface/results.rs:166-188 -/
def nudgeProjection (result : Json) : Json :=
  let size := ((blockTexts result).map String.utf8ByteSize).sum
  if size ≤ projectionNudgeChars then result
  else pushBlock result (textBlock (s!"HINT: this result is ~{size} chars. If you only need some of it, " ++
    "re-call call_tool with a `fields` array (e.g. fields=[\"data[].id\",\"data[].amount\"]) " ++
    "to return just those fields and save context."))

/-- What the shaping reads of its tool and of the configuration. -/
structure Shape where
  response : Option ResponseTransform
  fromSpec : Bool
  hints : List ErrorHint
  schema : Option Json
  threeTool : Bool

/-- mirrors src/surface/dispatch.rs:303-327 -/
def shapeResult (s : Shape) (jq : String → Json → Option Json) (fields : List String)
    (result : Json) : Json :=
  let isError := isErrorResult result
  let rt := s.response.filter fun rt => rt.applies isError
  let hasTransform := rt.any fun rt => !rt.isNoop
  let keep := if isError then [] else fields
  let result :=
    if hasTransform || !keep.isEmpty then
      transformResult result s.fromSpec fun payload =>
        let payload := match rt with
          | some rt => applyResponseTransform jq rt isError payload
          | none => payload
        if keep.isEmpty then payload else Project.project payload keep
    else result
  let result := applyErrorHints s.hints s.schema result
  if s.threeTool && fields.isEmpty && !isError then nudgeProjection result else result

end MinMcp.L4.Shaping
