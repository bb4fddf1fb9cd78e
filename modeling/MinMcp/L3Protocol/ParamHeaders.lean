import MinMcp.Core.Json.Print
import MinMcp.Core.Text.Debug
import MinMcp.Core.Text.Base64
import Mathlib.Tactic.Tauto

/-!
# Parameters mirrored into request headers

A tool's input schema may mark a parameter with `x-mcp-header`; a call then carries the argument
in the header `Mcp-Param-…` as well, for those between the proxy and the server (src/modern.rs).
A mark is valid on a string, integer or boolean property that is reached through `properties`
alone; a tool with any other mark is dropped from the listing.

The walk collects in the order of the schema's keys and stops at the first invalid mark.
`base64` is the encoder of a third-party package.

* `admitTools_marks`: the marks recorded for a page are those of its kept tools.
* `paramValues_mem`: a header of a call holds an argument that is marked.
* `headerValue_safe`: the text of a header is printable, and no two values have one text.
-/
namespace MinMcp.L3.ParamHeaders

open MinMcp.Core MinMcp.Core.Text

/-- mirrors src/modern.rs:154-159 -/
structure ParamHeader where
  path : List String
  header : String
  deriving DecidableEq

/-- mirrors src/modern.rs:217-220 -/
def isTchar (c : Char) : Bool := c.isAlphanum || "!#$%&'*+-.^_`|~".toList.contains c

/-- mirrors src/modern.rs:206-215 -/
def annotation (value : Json) (property : List (String × Json)) (path : List String) :
    Except String ParamHeader :=
  let place := ".".intercalate path
  match value.asStr.filter fun h => h ≠ "" && h.toList.all isTchar with
  | none => .error s!"invalid x-mcp-header {value.render} on {place}"
  | some header =>
    if (property.lookup "type").bind Json.asStr ∈ [some "string", some "integer", some "boolean"] then
      .ok ⟨path, header⟩
    else .error s!"x-mcp-header on non-primitive parameter {place}"

/-- Instance data, where the key is not an annotation. -/
def instanceKeys : List String := ["default", "const", "enum", "examples", "example"]

mutual
/-- `path` is `some` while every step so far was a `properties` key.
mirrors src/modern.rs:178-204 -/
def collectAnnotations (path : Option (List String)) : Json → Except String (List ParamHeader)
  | .obj es => collectEntries path es es
  | .arr xs => collectElems xs
  | _ => .ok []
termination_by structural schema => schema
/-- The entries still to walk, of the object `property`. -/
def collectEntries (path : Option (List String)) (property : List (String × Json)) :
    List (String × Json) → Except String (List ParamHeader)
  | [] => .ok []
  | (key, value) :: es =>
    let here :=
      if key = "x-mcp-header" then
        match path with
        | some (p :: ps) => return [← annotation value property (p :: ps)]
        | _ => .error "x-mcp-header outside a property reachable through `properties`"
      else if key = "properties" then collectProperties path value
      else if key ∈ instanceKeys then .ok []
      else collectAnnotations none value
    here.bind fun hs => (collectEntries path property es).map fun more => hs ++ more
termination_by structural es => es
/-- What is under `properties`. -/
def collectProperties (path : Option (List String)) : Json → Except String (List ParamHeader)
  | .obj es => collectNamed path es
  | _ => .ok []
termination_by structural value => value
def collectNamed (path : Option (List String)) : List (String × Json) → Except String (List ParamHeader)
  | [] => .ok []
  | (name, property) :: es =>
    (collectAnnotations (path.map fun p => p ++ [name]) property).bind fun hs =>
      (collectNamed path es).map fun more => hs ++ more
termination_by structural es => es
def collectElems : List Json → Except String (List ParamHeader)
  | [] => .ok []
  | v :: xs => (collectAnnotations none v).bind fun hs => (collectElems xs).map fun more => hs ++ more
termination_by structural xs => xs
end

/-- The first header, in any case, that was there before. -/
def firstRepeated (seen : List String) : List ParamHeader → Option String
  | [] => none
  | p :: ps => if p.header.toLower ∈ seen then some p.header else firstRepeated (p.header.toLower :: seen) ps

/-- mirrors src/modern.rs:161-173 -/
def paramHeaders (schema : Json) : Except String (List ParamHeader) :=
  (collectAnnotations (some []) schema).bind fun found =>
    match firstRepeated [] found with
    | some header => .error s!"duplicate x-mcp-header {String.ofList (debugStr header.toList)}"
    | none => .ok found

def toolName (tool : Json) : String := ((tool.get "name").bind Json.asStr).getD ""

/-- The marks of a tool, or why it is dropped. -/
def toolHeaders (tool : Json) : Except String (List ParamHeader) :=
  match tool.get "inputSchema" with
  | none => .ok []
  | some schema => paramHeaders schema

def pageTools (result : Json) : List Json := ((result.get "tools").bind Json.asArray).getD []

/-- The tools of a page that are kept, and the marks of those that have any.
mirrors src/modern.rs:239-262 -/
def admitTools (tools : List Json) : List Json × List (String × List ParamHeader) :=
  (tools.filter fun tool => (toolHeaders tool).toOption.isSome,
    tools.filterMap fun tool =>
      match toolHeaders tool with
      | .ok (h :: hs) => some (toolName tool, h :: hs)
      | _ => none)

/-! ## The headers of a call -/

def base64Prefix : String := "=?base64?"

def base64Suffix : String := "?="

/-- A value that is no plain header value.
mirrors src/modern.rs:131-135 -/
def unsafeText (value : String) : Bool :=
  let edge (c : Option Char) : Bool := c = some ' ' || c = some '\t'
  edge value.toList.head? || edge value.toList.getLast? ||
    value.toList.any (fun c => !(' ' ≤ c && c ≤ '~')) ||
    (base64Prefix.toList.isPrefixOf value.toList && base64Suffix.toList.isSuffixOf value.toList)

/-- mirrors src/modern.rs:128-141 -/
def headerValue (base64 : String → String) (value : String) : String :=
  if unsafeText value then base64Prefix ++ base64 value ++ base64Suffix else value

/-- The text of an argument that is mirrored; an array, an object or null is not. -/
def argumentText : Json → Option String
  | .str s => some s
  | .bool b => some (if b then "true" else "false")
  | .num n => some n.text
  | _ => none

def valueAt (arguments : Json) (path : List String) : Option Json :=
  path.foldlM (fun v key => v.get key) arguments

/-- A parameter absent from the arguments, or null, has no header.
mirrors src/modern.rs:222-237 -/
def paramValues (base64 : String → String) (headers : List ParamHeader) (arguments : Json) :
    List (String × String) :=
  headers.filterMap fun p => ((valueAt arguments p.path).bind argumentText).map fun text =>
    ("Mcp-Param-" ++ p.header, headerValue base64 text)

theorem paramValues_mem {base64 : String → String} {headers : List ParamHeader} {arguments : Json}
    {pair : String × String} (h : pair ∈ paramValues base64 headers arguments) :
    ∃ p ∈ headers, ∃ v text, valueAt arguments p.path = some v ∧ argumentText v = some text ∧
      pair = ("Mcp-Param-" ++ p.header, headerValue base64 text) := by
  obtain ⟨p, hp, hpair⟩ := List.mem_filterMap.mp h
  obtain ⟨text, htext, rfl⟩ := Option.map_eq_some_iff.mp hpair
  obtain ⟨v, hv, htext⟩ := Option.bind_eq_some_iff.mp htext
  exact ⟨p, hp, v, text, hv, htext, rfl⟩

/-! ## What a header value can be -/

/-- Printable ASCII, which has no control character, with no blank at either end. -/
def fieldText (text : List Char) : Prop :=
  (∀ c ∈ text, ' ' ≤ c ∧ c ≤ '~') ∧ text.head? ≠ some ' ' ∧ text.head? ≠ some '\t' ∧
    text.getLast? ≠ some ' ' ∧ text.getLast? ≠ some '\t'

theorem unsafeText_eq_false {value : String} :
    unsafeText value = false ↔ fieldText value.toList ∧
      ¬(base64Prefix.toList <+: value.toList ∧ base64Suffix.toList <:+ value.toList) := by
  simp only [unsafeText, fieldText, Bool.or_eq_false_iff, decide_eq_false_iff_not, List.any_eq_false,
    Bool.not_eq_true', decide_eq_true_eq, Bool.and_eq_false_imp, ← List.isPrefixOf_iff_prefix,
    ← List.isSuffixOf_iff_suffix, not_and, Bool.not_eq_true, Classical.not_imp, not_not]
  tauto

theorem encoded_fieldText {code : String} (h : ∀ c ∈ code.toList, ' ' ≤ c ∧ c ≤ '~') :
    fieldText (base64Prefix ++ code ++ base64Suffix).toList := by
  have hpre : ∀ c ∈ base64Prefix.toList, ' ' ≤ c ∧ c ≤ '~' := by simp [base64Prefix]
  have hsuf : ∀ c ∈ base64Suffix.toList, ' ' ≤ c ∧ c ≤ '~' := by simp [base64Suffix]
  have hfirst : base64Prefix.toList = '=' :: "?base64?".toList := by decide
  have hlast : base64Suffix.toList = ['?', '='] := by decide
  refine ⟨fun c hc => ?_, ?_⟩
  · simp only [String.toList_append, List.mem_append] at hc
    obtain (hc | hc) | hc := hc
    · exact hpre c hc
    · exact h c hc
    · exact hsuf c hc
  · simp only [String.toList_append, hlast, List.getLast?_append]
    rw [hfirst]
    simp

/-- A plain value never has the form of an encoded one. -/
theorem plain_ne_encoded {value code : String} (h : unsafeText value = false) :
    value ≠ base64Prefix ++ code ++ base64Suffix := by
  intro he
  refine (unsafeText_eq_false.mp h).2 ⟨?_, ?_⟩ <;> rw [he, String.toList_append]
  · rw [String.toList_append, List.append_assoc]
    exact List.prefix_append _ _
  · exact List.suffix_append _ _

/-- For an encoder that is injective and writes printable characters. -/
theorem headerValue_safe (base64 : String → String) (hinj : Function.Injective base64)
    (hprint : ∀ v, ∀ c ∈ (base64 v).toList, ' ' ≤ c ∧ c ≤ '~') :
    (∀ value, fieldText (headerValue base64 value).toList) ∧ Function.Injective (headerValue base64) := by
  refine ⟨fun value => ?_, fun v w h => ?_⟩
  · rw [headerValue]
    split
    · exact encoded_fieldText (hprint value)
    · next hplain => exact (unsafeText_eq_false.mp (by simpa using hplain)).1
  · simp only [headerValue] at h
    by_cases hv : unsafeText v = true <;> by_cases hw : unsafeText w = true
    · rw [if_pos hv, if_pos hw] at h
      have h := congrArg String.toList h
      simp only [String.toList_append, List.append_cancel_left_eq, List.append_cancel_right_eq,
        String.toList_inj] at h
      exact hinj h
    · rw [if_pos hv, if_neg hw] at h
      exact absurd h.symm (plain_ne_encoded (by simpa using hw))
    · rw [if_neg hv, if_pos hw] at h
      exact absurd h (plain_ne_encoded (by simpa using hv))
    · rwa [if_neg hv, if_neg hw] at h

/-- A plain text that looks like an encoded one is encoded itself. -/
theorem headerValue_safe_standard :
    Function.Injective (headerValue Base64.encode) ∧
      headerValue Base64.encode "us-west" = "us-west" ∧
      headerValue Base64.encode "é" = "=?base64?w6k=?=" ∧
      headerValue Base64.encode "=?base64?w6k=?=" = "=?base64?PT9iYXNlNjQ/dzZrPT89?=" :=
  ⟨(headerValue_safe Base64.encode Base64.encode_injective Base64.encode_printable).2,
    by decide +kernel, by decide +kernel, by decide +kernel⟩

/-! ## What a page marks -/

theorem admitTools_marks {tools : List Json} {name : String} {headers : List ParamHeader} :
    (name, headers) ∈ (admitTools tools).2 ↔
      headers ≠ [] ∧ ∃ tool ∈ tools, toolName tool = name ∧ toolHeaders tool = .ok headers := by
  simp only [admitTools, List.mem_filterMap]
  constructor
  · intro ⟨tool, ht, h⟩
    split at h
    · next p ps hok =>
      obtain ⟨rfl, rfl⟩ := Prod.mk.inj (Option.some.inj h)
      exact ⟨by simp, tool, ht, rfl, hok⟩
    · cases h
  · rintro ⟨hne, tool, ht, rfl, hok⟩
    refine ⟨tool, ht, ?_⟩
    cases headers with
    | nil => exact absurd rfl hne
    | cons p ps => rw [hok]

end MinMcp.L3.ParamHeaders
