import MinMcp.L4App.SpecResolve

/-!
# The body an operation is shown with, and the body it is sent

`Spec::tool_input_schema` (src/spec.rs) shows the agent a schema for `body`; the executor
(src/exec.rs) encodes the agent's body by the operation's media type. The first looks
through references, the second reads the operation as written, and neither reads what a
Swagger 2 document says of its parameters' media types. The executor knows two encodings
only: JSON where the media type's text holds `json`, a url-encoded form for all others.
`body_media_type` says that the two can never disagree.

* `shown`: where the shown schema comes from; `properties_body` that it is what is shown.
* `Admits`: the encodings that are of a media type.
* `Agrees`: a body is sent in an encoding of the media type it is shown for.
* `picked_of_written`: a request body written in the operation itself is sent by the media
  type it is shown with.
* `agrees_iff`: the exact condition for any operation of any document.
* `referenced_json_is_sent_as_form`: a JSON request body by reference.
-/
namespace MinMcp.L4.OpenApi

open MinMcp.Core

/-- mirrors src/spec.rs:28-36 -/
structure Operation where
  method : String
  path : String
  raw : Json

/-- One rule for choosing among the media types of a request body.
mirrors src/spec.rs:380-384 -/
def pickMedia (content : List (String × Json)) : Option (String × Json) :=
  match content.lookup "application/json" with
  | some media => some ("application/json", media)
  | none => content.head?

def resolveIf (resolved : Bool) (root v : Json) : Json := if resolved then resolve root v else v

/-- mirrors src/spec.rs:217-227 -/
def bodySchema (root : Json) (op : Operation) (resolved : Bool) : Json :=
  let rb := resolveIf resolved root ((op.raw.get "requestBody").getD .null)
  match (rb.get "content").bind Json.asObject with
  | none => .null
  | some content => ((pickMedia content).bind fun entry => entry.2.get "schema").getD .null

/-- mirrors src/spec.rs:234-237 -/
def bodyMediaType (op : Operation) : Option String :=
  (op.raw.get "requestBody").bind fun rb =>
    ((rb.get "content").bind Json.asObject).bind fun content => (pickMedia content).map Prod.fst

/-- mirrors src/spec.rs:403-417 -/
def paramProp (p : Json) : Json :=
  let prop := (p.get "schema").getD
    (.obj (["type", "format", "items", "enum"].filterMap fun k => (p.get k).map fun v => (k, v)))
  match prop, p.get "description" with
  | .obj es, some d =>
    .obj (if (es.lookup "description").isSome then es else OrderedMap.insert "description" d es)
  | prop, _ => prop

/-- mirrors src/spec.rs:421-431 -/
def paramObject (props : List (String × Json)) (required : List String) (desc : String) : Json :=
  .obj ([("type", .str "object"), ("description", .str desc)] ++
    (if props = [] then [] else [("properties", .obj props)]) ++
    if required = [] then [] else [("required", .arr (required.map .str))])

/-- What the loop over the parameters has collected. -/
structure Envelope where
  pathProps : List (String × Json)
  pathReq : List String
  queryProps : List (String × Json)
  queryReq : List String
  formProps : List (String × Json)
  body : Json

def paramName (p : Json) : String := ((p.get "name").bind Json.asStr).getD ""

def paramIn (p : Json) : String := ((p.get "in").bind Json.asStr).getD ""

/-- One parameter.
mirrors src/spec.rs:330-360 -/
def Envelope.add (root : Json) (resolved : Bool) (env : Envelope) (p : Json) : Envelope :=
  let name := paramName p
  let required := ((p.get "required").bind Json.asBool).getD false
  if name = "" then env
  else match paramIn p with
    | "path" => { env with
        pathProps := OrderedMap.insert name (paramProp p) env.pathProps
        pathReq := if required then env.pathReq ++ [name] else env.pathReq }
    | "query" => { env with
        queryProps := OrderedMap.insert name (paramProp p) env.queryProps
        queryReq := if required then env.queryReq ++ [name] else env.queryReq }
    | "body" => { env with body := resolveIf resolved root ((p.get "schema").getD .null) }
    | "formData" => { env with formProps := OrderedMap.insert name (paramProp p) env.formProps }
    | _ => env

def params (root : Json) (op : Operation) (resolved : Bool) : List Json :=
  (resolveIf resolved root ((op.raw.get "parameters").getD (.arr []))).asArray.getD []

def envelope (root : Json) (op : Operation) (resolved : Bool) : Envelope :=
  (params root op resolved).foldl (Envelope.add root resolved) ⟨[], [], [], [], [], bodySchema root op resolved⟩

/-- mirrors src/spec.rs:361-363 -/
def Envelope.shownBody (env : Envelope) : Json :=
  if env.body.isNull ∧ env.formProps ≠ [] then
    .obj [("type", .str "object"), ("properties", .obj env.formProps)]
  else env.body

/-- mirrors src/spec.rs:318-374 -/
def buildInputSchema (root : Json) (op : Operation) (resolved : Bool) : Json :=
  let env := envelope root op resolved
  .obj [("type", .str "object"),
    ("description", .str (op.method.toUpper ++ " " ++ op.path ++
      " — call via \x7bpath_params, query_params, body\x7d.")),
    ("properties", .obj [
      ("path_params", paramObject env.pathProps env.pathReq "Values for {placeholders} in the path."),
      ("query_params", paramObject env.queryProps env.queryReq "Query-string parameters."),
      ("body", env.shownBody)])]

def toolInputSchema (root : Json) (op : Operation) : Json := buildInputSchema root op true

/-! ## What is sent -/

mutual
/-- mirrors src/exec.rs:78-96 -/
def flattenForm (key : String) : Json → List (String × String)
  | .obj es => flattenEntries key es
  | .arr xs => flattenElems key 0 xs
  | .bool b => [(key, if b then "true" else "false")]
  | .null => []
  | .str s => [(key, s)]
  | .num n => [(key, n.text)]
termination_by structural v => v
def flattenEntries (key : String) : List (String × Json) → List (String × String)
  | [] => []
  | (k, v) :: es =>
    flattenForm (if key = "" then k else key ++ "[" ++ k ++ "]") v ++ flattenEntries key es
termination_by structural es => es
def flattenElems (key : String) (i : Nat) : List Json → List (String × String)
  | [] => []
  | v :: xs => flattenForm (key ++ "[" ++ toString i ++ "]") v ++ flattenElems key (i + 1) xs
termination_by structural xs => xs
end

inductive Sent where
  | json (body : Json)
  | form (pairs : List (String × String))

/-- `media.contains("json")` -/
def namesJson (media : String) : Bool := media.toList.tails.any fun t => "json".toList.isPrefixOf t

/-- mirrors src/exec.rs:276 -/
def hasBody (body : Json) : Bool := !body.isNull && (body.asObject.map fun es => !es.isEmpty).getD true

/-- The body of a request, `none` when it has none.
mirrors src/exec.rs:275-286 -/
def encodeBody (op : Operation) (body : Json) : Option Sent :=
  if hasBody body then
    let media := (bodyMediaType op).getD ""
    if namesJson media then some (.json body) else some (.form (flattenForm "" body))
  else none

/-! ## What is shown -/

/-- Where the shown schema of a body comes from. -/
inductive Source where
  | entry (media : String)
  | bodyParam
  | formData
  deriving DecidableEq

def isBodyParam (p : Json) : Bool := paramName p ≠ "" && paramIn p = "body"

def isFormParam (p : Json) : Bool := paramName p ≠ "" && paramIn p = "formData"

/-- The content entry picked in the request body, references followed, and its schema. -/
def pickedEntry (root : Json) (op : Operation) : Option (String × Json) :=
  (((resolve root ((op.raw.get "requestBody").getD .null)).get "content").bind
      Json.asObject).bind fun content =>
    (pickMedia content).bind fun entry => (entry.2.get "schema").map fun schema => (entry.1, schema)

/-- The last `in: body` parameter comes before the request body, and form parameters count
where neither has a schema. -/
def shown (root : Json) (op : Operation) : Option Source :=
  let ps := params root op true
  let form := if ps.any isFormParam then some Source.formData else none
  match (ps.filter isBodyParam).getLast? with
  | some p => if (resolve root ((p.get "schema").getD .null)).isNull then form else some .bodyParam
  | none =>
    match pickedEntry root op with
    | some (media, schema) => if schema.isNull then form else some (.entry media)
    | none => form

/-- The media types that a Swagger 2 document declares for the operation's body, those of the
operation before those of the document. -/
def consumes (root : Json) (op : Operation) : List String :=
  ((((op.raw.get "consumes").or (root.get "consumes")).bind Json.asArray).getD []).filterMap Json.asStr

/-- The declared type a Swagger 2 body is of: the usual one of its kind where it is listed or
nothing is, else the first. -/
def declaredMedia (usual : String) (types : List String) : String :=
  if usual ∈ types then usual else types.head?.getD usual

def bodyParamMedia (root : Json) (op : Operation) : String :=
  declaredMedia "application/json" (consumes root op)

def formDataMedia (root : Json) (op : Operation) : String :=
  declaredMedia "application/x-www-form-urlencoded" (consumes root op)

def Source.media (root : Json) (op : Operation) : Source → String
  | .entry media => media
  | .bodyParam => bodyParamMedia root op
  | .formData => formDataMedia root op

/-- The two encodings that the executor knows. -/
inductive Encoding where
  | json
  | form
  deriving DecidableEq

def Sent.encoding : Sent → Encoding
  | .json _ => .json
  | .form _ => .form

/-- A media type without its parameters and the spelling of its letters. -/
def essence (media : String) : List Char :=
  let stop := (media.toList.takeWhile (· ≠ ';')).dropWhile Char.isWhitespace
  ((stop.reverse.dropWhile Char.isWhitespace).reverse).map Char.toLower

/-- The media types of JSON. -/
def isJsonType (e : List Char) : Bool :=
  e = "application/json".toList || e = "text/json".toList || "+json".toList.isSuffixOf e

def isFormType (e : List Char) : Bool := e = "application/x-www-form-urlencoded".toList

/-- A range of media types that holds both encodings. -/
def isRange (e : List Char) : Bool := e = "*/*".toList || e = "application/*".toList

/-- A body in this encoding is of this media type. -/
def Admits (media : String) : Encoding → Bool
  | .json => isJsonType (essence media) || isRange (essence media)
  | .form => isFormType (essence media) || isRange (essence media)

/-- A body that is sent at all is sent in an encoding of the media type whose schema is shown
for it. -/
def Agrees (root : Json) (op : Operation) : Prop :=
  ∀ src, shown root op = some src → ∀ body sent, encodeBody op body = some sent →
    Admits (src.media root op) sent.encoding

/-- The request body, or its content map, is given by reference. -/
def ByReference (op : Operation) : Prop :=
  ∃ rb, op.raw.get "requestBody" = some rb ∧
    ((refOf rb).isSome ∨ ∃ content, rb.get "content" = some content ∧ (refOf content).isSome)

/-- The operation itself, references not followed, has a request body whose picked media type
names JSON. -/
def WritesJson (op : Operation) : Prop :=
  ∃ rb content entry, op.raw.get "requestBody" = some rb ∧ rb.get "content" = some (.obj content) ∧
    pickMedia content = some entry ∧ namesJson entry.1 = true

/-! ## The shown schema -/

section Loop

variable (root : Json) (resolved : Bool)

theorem add_body (env : Envelope) (p : Json) :
    (env.add root resolved p).body =
      if isBodyParam p then resolveIf resolved root ((p.get "schema").getD .null) else env.body := by
  unfold Envelope.add isBodyParam
  by_cases hn : paramName p = ""
  · simp [hn]
  · by_cases hin : paramIn p = "body"
    · simp [hn, hin]
    · simp only [hn, hin, if_false, decide_false, Bool.and_false, Bool.false_eq_true]
      split <;> first | rfl | exact absurd ‹_› hin

theorem add_formProps (env : Envelope) (p : Json) :
    (env.add root resolved p).formProps =
      if isFormParam p then OrderedMap.insert (paramName p) (paramProp p) env.formProps else env.formProps := by
  unfold Envelope.add isFormParam
  by_cases hn : paramName p = ""
  · simp [hn]
  · by_cases hin : paramIn p = "formData"
    · simp [hn, hin]
    · simp only [hn, hin, if_false, decide_false, Bool.and_false, Bool.false_eq_true]
      split <;> first | rfl | exact absurd ‹_› hin

theorem insert_ne_nil (k : String) (v : Json) (es : List (String × Json)) :
    OrderedMap.insert k v es ≠ [] := by
  cases es with
  | nil => simp [OrderedMap.insert]
  | cons e es =>
    unfold OrderedMap.insert
    split <;> simp

/-- The last body parameter decides. -/
theorem loop_body (ps : List Json) (env : Envelope) :
    (ps.foldl (Envelope.add root resolved) env).body =
      match (ps.filter isBodyParam).getLast? with
      | some p => resolveIf resolved root ((p.get "schema").getD .null)
      | none => env.body := by
  induction ps generalizing env with
  | nil => rfl
  | cons p ps ih =>
    rw [List.foldl_cons, ih, add_body]
    by_cases hp : isBodyParam p = true
    · rw [List.filter_cons_of_pos hp, List.getLast?_cons, if_pos hp]
      cases (ps.filter isBodyParam).getLast? <;> rfl
    · rw [List.filter_cons_of_neg hp, if_neg hp]

theorem loop_formProps (ps : List Json) (env : Envelope) :
    (ps.foldl (Envelope.add root resolved) env).formProps = [] ↔
      env.formProps = [] ∧ ps.any isFormParam = false := by
  induction ps generalizing env with
  | nil => simp
  | cons p ps ih =>
    rw [List.foldl_cons, ih, add_formProps, List.any_cons, Bool.or_eq_false_iff]
    by_cases hp : isFormParam p = true
    · simp [hp, insert_ne_nil]
    · simp [hp]

end Loop

theorem bodySchema_eq (root : Json) (op : Operation) :
    bodySchema root op true = ((pickedEntry root op).map Prod.snd).getD .null := by
  unfold bodySchema pickedEntry resolveIf
  simp only [if_true]
  cases ((resolve root ((op.raw.get "requestBody").getD .null)).get "content").bind Json.asObject with
  | none => rfl
  | some content =>
    simp only [Option.bind_some]
    cases pickMedia content with
    | none => rfl
    | some entry =>
      simp only [Option.bind_some]
      cases entry.2.get "schema" <;> rfl

theorem eq_null_of_isNull {v : Json} (h : v.isNull = true) : v = .null := by
  cases v <;> first | rfl | cases h

/-- The object shown for form parameters. -/
def formObject (b : Json) : Prop :=
  ∃ props, props ≠ [] ∧ b = .obj [("type", .str "object"), ("properties", .obj props)]

theorem shownBody_of_not_null {env : Envelope} (h : env.body.isNull = false) :
    env.shownBody = env.body := by
  unfold Envelope.shownBody
  rw [h]
  simp

theorem shownBody_of_null {env : Envelope} (h : env.body.isNull = true) :
    if env.formProps = [] then env.shownBody = .null else formObject env.shownBody := by
  unfold Envelope.shownBody
  rw [h]
  by_cases hf : env.formProps = []
  · simp only [hf, if_true, ne_eq, not_true_eq_false, and_false, if_false]
    exact eq_null_of_isNull h
  · simp only [hf, if_false, ne_eq, not_false_eq_true, and_self, if_true]
    exact ⟨_, hf, rfl⟩

theorem get_body (root : Json) (op : Operation) :
    ((toolInputSchema root op).get "properties").bind (fun ps => ps.get "body") =
      some (envelope root op true).shownBody := by
  simp [toolInputSchema, buildInputSchema, List.lookup_cons]

/-- What `shown` says is what the schema shows for `body`. -/
theorem properties_body (root : Json) (op : Operation) :
    ∃ b, ((toolInputSchema root op).get "properties").bind (fun ps => ps.get "body") = some b ∧
      match shown root op with
      | some (.entry media) => pickedEntry root op = some (media, b)
      | some .bodyParam => ∃ p ∈ params root op true, isBodyParam p = true ∧
          b = resolve root ((p.get "schema").getD .null)
      | some .formData => formObject b
      | none => b = .null := by
  refine ⟨(envelope root op true).shownBody, get_body root op, ?_⟩
  have hbody : (envelope root op true).body = _ :=
    loop_body root true (params root op true) ⟨[], [], [], [], [], bodySchema root op true⟩
  have hform : (envelope root op true).formProps = [] ↔ _ :=
    loop_formProps root true (params root op true) ⟨[], [], [], [], [], bodySchema root op true⟩
  rw [eq_self, true_and] at hform
  have hfallback : (envelope root op true).body.isNull = true →
      match (if (params root op true).any isFormParam then some Source.formData else none) with
      | some (.entry media) => pickedEntry root op = some (media, (envelope root op true).shownBody)
      | some .bodyParam => ∃ p ∈ params root op true, isBodyParam p = true ∧
          (envelope root op true).shownBody = resolve root ((p.get "schema").getD .null)
      | some .formData => formObject (envelope root op true).shownBody
      | none => (envelope root op true).shownBody = .null := by
    intro hnull
    have h := shownBody_of_null hnull
    cases ha : (params root op true).any isFormParam with
    | true =>
      rw [if_neg (fun he => by rw [hform, ha] at he; cases he)] at h
      exact h
    | false =>
      rw [if_pos (hform.mpr ha)] at h
      exact h
  unfold shown
  dsimp only
  cases hlast : ((params root op true).filter isBodyParam).getLast? with
  | some p =>
    rw [hlast] at hbody
    simp only [resolveIf, if_true] at hbody ⊢
    by_cases hnull : (resolve root ((p.get "schema").getD .null)).isNull = true
    · rw [if_pos hnull]
      exact hfallback (hbody ▸ hnull)
    · rw [if_neg hnull]
      have hp := List.mem_filter.mp (List.mem_of_getLast? hlast)
      refine ⟨p, hp.1, hp.2, ?_⟩
      rw [shownBody_of_not_null (by rw [hbody]; simpa using hnull), hbody]
  | none =>
    rw [hlast, bodySchema_eq] at hbody
    dsimp only at hbody ⊢
    cases hentry : pickedEntry root op with
    | none =>
      rw [hentry] at hbody hfallback
      exact hfallback (by rw [hbody]; rfl)
    | some entry =>
      obtain ⟨media, schema⟩ := entry
      rw [hentry] at hbody hfallback
      simp only [Option.map_some, Option.getD_some] at hbody ⊢
      by_cases hnull : schema.isNull = true
      · rw [if_pos hnull]
        exact hfallback (hbody ▸ hnull)
      · rw [if_neg hnull]
        rw [shownBody_of_not_null (by rw [hbody]; simpa using hnull), hbody]

/-! ## Written in the operation itself -/

/-- Which entry is picked depends on the media types only. -/
theorem pickMedia_keys {content content' : List (String × Json)}
    (h : OrderedMap.keys content' = OrderedMap.keys content) :
    (pickMedia content').map Prod.fst = (pickMedia content).map Prod.fst := by
  have hhead : content'.head?.map Prod.fst = content.head?.map Prod.fst := by
    rw [← List.head?_map, ← List.head?_map]
    exact congrArg List.head? h
  unfold pickMedia
  cases hl : content.lookup "application/json" with
  | some media =>
    obtain ⟨media', hm⟩ := OrderedMap.lookup_isSome.mpr (h ▸ OrderedMap.mem_keys_of_lookup hl)
    rw [hm]
    rfl
  | none =>
    have hn := OrderedMap.lookup_eq_none.mp hl
    rw [← h] at hn
    rw [OrderedMap.lookup_eq_none.mpr hn]
    exact hhead

/-- An object met in a resolved object that was not a reference: it was an object, or a
reference. -/
theorem resolve_get {root v : Json} {k : String} {es' : List (String × Json)} (hv : refOf v = none)
    (hk : (resolve root v).get k = some (.obj es')) (hr : ∀ w, v.get k = some w → refOf w = none) :
    ∃ es, v.get k = some (.obj es) ∧ OrderedMap.keys es' = OrderedMap.keys es := by
  rcases resolve_eq root v with he | ⟨visit, p, p', he⟩
  · rw [he] at hk
    exact ⟨es', hk, rfl⟩
  · cases hobj : v.asObject with
    | none =>
      have := expandWith_of_not_obj hobj he
      unfold Json.get at hk
      rw [this] at hk
      cases hk
    | some es =>
      obtain rfl := Json.eq_obj_of_asObject hobj
      obtain ⟨out, hout, hkeys, hlook⟩ := expandWith_obj hv he
      rw [hout, Json.get_obj] at hk
      obtain ⟨w, hw⟩ := OrderedMap.lookup_isSome.mpr (hkeys ▸ OrderedMap.mem_keys_of_lookup hk)
      obtain ⟨w', q, q', hw', hexp⟩ := hlook k w hw
      obtain rfl := Option.some.inj (hk.symm.trans hw')
      cases hwo : w.asObject with
      | none => cases expandWith_of_not_obj hwo hexp
      | some fs =>
        obtain rfl := Json.eq_obj_of_asObject hwo
        obtain ⟨out', hout', hkeys', -⟩ := expandWith_obj (hr _ hw) hexp
        obtain rfl := Json.obj.inj hout'
        exact ⟨fs, hw, hkeys'⟩

/-- A request body written in the operation itself is shown with the media type it is sent
as. -/
theorem picked_of_written {root : Json} {op : Operation} {media : String} {schema : Json}
    (hw : ¬ ByReference op) (h : pickedEntry root op = some (media, schema)) :
    bodyMediaType op = some media := by
  unfold pickedEntry at h
  rw [Option.bind_eq_some_iff] at h
  obtain ⟨content', hcontent, h⟩ := h
  rw [Option.bind_eq_some_iff] at h
  obtain ⟨entry, hpick, h⟩ := h
  rw [Option.map_eq_some_iff] at h
  obtain ⟨_, -, h⟩ := h
  obtain ⟨rfl, -⟩ := Prod.mk.inj h
  rw [Option.bind_eq_some_iff] at hcontent
  obtain ⟨c', hc', hobj⟩ := hcontent
  obtain rfl := Json.eq_obj_of_asObject hobj
  cases hrb : op.raw.get "requestBody" with
  | none =>
    rw [hrb, Option.getD_none] at hc'
    obtain ⟨es, hes, -⟩ := resolve_get (v := .null) rfl hc' (by intro w hw; cases hw)
    cases hes
  | some rb =>
    rw [hrb, Option.getD_some] at hc'
    have href : refOf rb = none := Option.not_isSome_iff_eq_none.mp fun he => hw ⟨rb, hrb, Or.inl he⟩
    obtain ⟨content, hes, hkeys⟩ := resolve_get href hc' fun w hget =>
      Option.not_isSome_iff_eq_none.mp fun he => hw ⟨rb, hrb, Or.inr ⟨w, hget, he⟩⟩
    unfold bodyMediaType
    rw [hrb, Option.bind_some, hes, Option.bind_some]
    simp only [Json.asObject, Option.bind_some]
    rw [← pickMedia_keys hkeys, hpick, Option.map_some]

/-! ## What is sent -/

theorem writesJson_iff (op : Operation) :
    WritesJson op ↔ namesJson ((bodyMediaType op).getD "") = true := by
  unfold bodyMediaType
  constructor
  · intro ⟨rb, content, entry, hrb, hcontent, hpick, hj⟩
    rw [hrb, Option.bind_some, hcontent, Option.bind_some]
    simp only [Json.asObject, Option.bind_some, hpick, Option.map_some, Option.getD_some]
    exact hj
  · intro h
    cases hrb : op.raw.get "requestBody" with
    | none =>
      rw [hrb] at h
      exact absurd h (by decide +kernel)
    | some rb =>
      rw [hrb, Option.bind_some] at h
      cases hc : (rb.get "content").bind Json.asObject with
      | none =>
        rw [hc] at h
        exact absurd h (by decide +kernel)
      | some content =>
        rw [hc, Option.bind_some] at h
        cases hpick : pickMedia content with
        | none =>
          rw [hpick] at h
          exact absurd h (by decide +kernel)
        | some entry =>
          rw [hpick] at h
          obtain ⟨c, hget, hobj⟩ := Option.bind_eq_some_iff.mp hc
          obtain rfl := Json.eq_obj_of_asObject hobj
          exact ⟨rb, content, entry, hrb, hget, hpick, h⟩

theorem encodeBody_encoding {op : Operation} {body : Json} {sent : Sent}
    (h : encodeBody op body = some sent) :
    sent.encoding = if namesJson ((bodyMediaType op).getD "") then .json else .form := by
  unfold encodeBody at h
  split at h
  · dsimp only at h
    split at h
    · next hj =>
      obtain rfl := Option.some.inj h
      rw [if_pos hj]
      rfl
    · next hj =>
      obtain rfl := Option.some.inj h
      rw [if_neg hj]
      rfl
  · cases h

/-- `true` is a body that is sent. -/
theorem encodeBody_true (op : Operation) : ∃ sent, encodeBody op (.bool true) = some sent := by
  unfold encodeBody
  simp only [hasBody, Json.isNull, Json.asObject, Option.map_none, Option.getD_none, Bool.not_false,
    Bool.and_self, if_true]
  split <;> exact ⟨_, rfl⟩

theorem agrees_iff_media (root : Json) (op : Operation) :
    Agrees root op ↔
      ∀ src, shown root op = some src →
        Admits (src.media root op) (if namesJson ((bodyMediaType op).getD "") then .json else .form) := by
  constructor
  · intro h src hsrc
    obtain ⟨sent, hsent⟩ := encodeBody_true op
    rw [← encodeBody_encoding hsent]
    exact h src hsrc _ sent hsent
  · intro h src hsrc body sent hsent
    rw [encodeBody_encoding hsent]
    exact h src hsrc

theorem admits_sent_iff (media : String) (op : Operation) :
    (Admits media (if namesJson ((bodyMediaType op).getD "") then .json else .form) = true) ↔
      (WritesJson op → Admits media .json) ∧ (¬ WritesJson op → Admits media .form) := by
  rw [writesJson_iff]
  split <;> simp_all

/-- **Media type.** For any operation of any document, a body is sent as it is shown exactly
when: a content entry of the operation itself is of a JSON type or range where its text holds
`json`, and of the form type or a range where it does not; and an entry by reference, a body
parameter or form parameters are of a declared type that admits JSON where the operation
itself writes a JSON request body, and a form where it does not. -/
theorem agrees_iff (root : Json) (op : Operation) :
    Agrees root op ↔
      (∀ media, shown root op = some (.entry media) → ¬ ByReference op →
        if namesJson media then Admits media .json else Admits media .form) ∧
      (∀ src, shown root op = some src → (∀ media, src = .entry media → ByReference op) →
        (WritesJson op → Admits (src.media root op) .json) ∧
          (¬ WritesJson op → Admits (src.media root op) .form)) := by
  rw [agrees_iff_media]
  -- an entry that stands in the operation itself is the one it is sent by
  have hwritten : ∀ media, shown root op = some (.entry media) → ¬ ByReference op →
      bodyMediaType op = some media := by
    intro media hs hr
    obtain ⟨b, -, hshown⟩ := properties_body root op
    rw [hs] at hshown
    exact picked_of_written hr hshown
  constructor
  · intro h
    refine ⟨fun media hs hr => ?_, fun src hs _ => (admits_sent_iff _ op).mp (h src hs)⟩
    have := h _ hs
    rw [hwritten media hs hr, Option.getD_some] at this
    split at this
    · rwa [if_pos ‹_›]
    · rwa [if_neg ‹_›]
  · intro ⟨hinline, hother⟩ src hs
    by_cases hr : ∀ media, src = .entry media → ByReference op
    · exact (admits_sent_iff _ op).mpr (hother src hs hr)
    · push Not at hr
      obtain ⟨media, rfl, hr⟩ := hr
      have := hinline media hs hr
      rw [hwritten media hs hr, Option.getD_some]
      split at this
      · rwa [if_pos ‹_›]
      · rwa [if_neg ‹_›]

/-! ## A request body by reference -/

def noteDocument : Json :=
  .obj [("components", .obj [("requestBodies", .obj [("Note", .obj [("content", .obj
    [("application/json", .obj [("schema", .obj [("type", .str "object")])])])])])])]

def addNote : Operation where
  method := "post"
  path := "/notes"
  raw := .obj [("requestBody", .obj [("$ref", .str "#/components/requestBodies/Note")])]

/-- The JSON schema of a request body by reference is shown; the body is sent as a form. -/
theorem referenced_json_is_sent_as_form :
    shown noteDocument addNote = some (.entry "application/json") ∧
      (encodeBody addNote (.obj [("text", .str "hi")])).map Sent.encoding = some .form ∧
      ¬ Agrees noteDocument addNote := by
  have hs : shown noteDocument addNote = some (.entry "application/json") := by decide +kernel
  have he : (encodeBody addNote (.obj [("text", .str "hi")])).map Sent.encoding = some .form := by
    decide +kernel
  refine ⟨hs, he, fun h => ?_⟩
  obtain ⟨sent, hsent, hform⟩ := Option.map_eq_some_iff.mp he
  have hagree := h _ hs _ sent hsent
  rw [hform] at hagree
  exact absurd hagree (by decide +kernel)

/-- What a body written in the operation is sent as, and whether that is its media type. -/
example : ["application/json", "application/merge-patch+json", "Application/JSON", "multipart/form-data",
    "application/x-www-form-urlencoded", "text/plain", "application/x-ndjson", "*/*"].map (fun media =>
      if namesJson media then Admits media .json else Admits media .form) =
    [true, true, false, false, true, false, false, true] := by decide +kernel

end MinMcp.L4.OpenApi
