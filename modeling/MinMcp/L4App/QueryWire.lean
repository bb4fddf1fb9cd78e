import MinMcp.L4App.SpecParams

/-!
# How a query parameter is written

`serialize_query` (src/exec.rs) turns one query parameter into the pairs of the query string,
by the style that `query_style_of` reads off its declaration. What a declaration stands for is
`Declaration.form`: in OpenAPI 3 the table of `style` and `explode`, in Swagger 2 the
`collectionFormat`.

* `serializeQuery_scalars`: what the executor writes for an array of scalars, by style.
* `form_of_openApi3`, `form_of_swagger2`: which form the style read off a declaration has.
* `written_iff`: the pairs are those declared, but for `explode: false` without a style.
* `unexploded_is_repeated`: such a declaration.
-/
namespace MinMcp.L4.OpenApi

open MinMcp.Core

/-! ## The code -/

/-- mirrors src/exec.rs:128-135 -/
def scalarStr : Json → Option String
  | .str s => some s
  | .bool b => some (if b then "true" else "false")
  | .num n => some n.text
  | _ => none

/-- mirrors src/exec.rs:97-123 -/
def serializeQuery (key : String) (value : Json) (style : QueryStyle) : List (String × String) :=
  match value with
  | .arr items =>
    match style, items.mapM scalarStr with
    | .deep, _ | _, none => flattenForm key value
    | .repeated, some vs => vs.map fun v => (key, v)
    | .delimited sep, some vs => [(key, sep.toString.intercalate vs)]
  | .obj _ => flattenForm key value
  | .null => []
  | scalar => (scalarStr scalar).toList.map fun s => (key, s)

/-! ## The specification -/

inductive Scalar where
  | str (s : String)
  | bool (b : Bool)
  | num (n : Core.Num)

namespace Scalar

def json : Scalar → Json
  | str s => .str s
  | bool b => .bool b
  | num n => .num n

def text : Scalar → String
  | str s => s
  | bool true => "true"
  | bool false => "false"
  | num n => n.text

end Scalar

/-- The styles of a query parameter in OpenAPI 3. -/
inductive Style where
  | form | spaceDelimited | pipeDelimited | deepObject
  deriving DecidableEq

/-- The formats of an array in Swagger 2. -/
inductive CollectionFormat where
  | csv | ssv | tsv | pipes | multi
  deriving DecidableEq

def Style.name : Style → String
  | form => "form"
  | spaceDelimited => "spaceDelimited"
  | pipeDelimited => "pipeDelimited"
  | deepObject => "deepObject"

def CollectionFormat.name : CollectionFormat → String
  | csv => "csv"
  | ssv => "ssv"
  | tsv => "tsv"
  | pipes => "pipes"
  | multi => "multi"

/-- What a declaration says of an array; what is left out has a default. -/
inductive Declaration where
  | openApi3 (style : Option Style) (explode : Option Bool)
  | swagger2 (collectionFormat : Option CollectionFormat)
  deriving DecidableEq

/-- The ways to write an array. -/
inductive Form where
  /-- The key with each of the values. -/
  | exploded
  /-- The key once, with the values joined. -/
  | joined (sep : Char)
  deriving DecidableEq

/-- The separator of a style that joins. `deepObject` is for objects: how an array is written
in it is not said. -/
def Style.separator : Style → Option Char
  | form => some ','
  | spaceDelimited => some ' '
  | pipeDelimited => some '|'
  | deepObject => none

/-- `form` is the default style, and `explode` defaults to true for it alone. -/
def Declaration.form : Declaration → Option Form
  | openApi3 style explode =>
    let style := style.getD .form
    style.separator.map fun sep =>
      if explode.getD (style = .form) then .exploded else .joined sep
  | swagger2 collectionFormat =>
    match collectionFormat.getD .csv with
    | .csv => some (.joined ',')
    | .ssv => some (.joined ' ')
    | .tsv => some (.joined '\t')
    | .pipes => some (.joined '|')
    | .multi => some .exploded

def Form.pairs (key : String) (values : List String) : Form → List (String × String)
  | exploded => values.map fun v => (key, v)
  | joined sep => [(key, sep.toString.intercalate values)]

/-- The document declares the parameter so. -/
def Declares (root p : Json) : Declaration → Prop
  | .openApi3 style explode => swagger2 root = false ∧ p.get "collectionFormat" = none ∧
      p.get "content" = none ∧ p.get "style" = style.map (fun s => .str s.name) ∧
      p.get "explode" = explode.map .bool
  | .swagger2 format => swagger2 root = true ∧ p.get "style" = none ∧
      p.get "collectionFormat" = format.map fun f => .str f.name

/-- The pairs are those the specification defines, where it defines any. -/
def AsDeclared (key : String) (d : Declaration) (values : List Scalar)
    (pairs : List (String × String)) : Prop :=
  ∀ form, d.form = some form → pairs = form.pairs key (values.map Scalar.text)

/-! ## What the executor writes -/

theorem mapM_scalarStr (values : List Scalar) :
    (values.map Scalar.json).mapM scalarStr = some (values.map Scalar.text) := by
  induction values with
  | nil => rfl
  | cons v values ih =>
    have hv : scalarStr v.json = some v.text := by
      cases v with
      | bool b => cases b <;> rfl
      | _ => rfl
    rw [List.map_cons, List.map_cons, List.mapM_cons, hv, ih]
    rfl

/-- The form of a style that has one. -/
def QueryStyle.form : QueryStyle → Option Form
  | repeated => some .exploded
  | delimited sep => some (.joined sep)
  | deep => none

theorem serializeQuery_scalars (key : String) (values : List Scalar) {style : QueryStyle} {form : Form}
    (h : style.form = some form) :
    serializeQuery key (.arr (values.map Scalar.json)) style = form.pairs key (values.map Scalar.text) := by
  cases style with
  | repeated =>
    cases h
    simp only [serializeQuery, mapM_scalarStr]
    rfl
  | delimited sep =>
    cases h
    simp only [serializeQuery, mapM_scalarStr]
    rfl
  | deep => cases h

/-- The two ways differ but for an array of one value. -/
theorem exploded_eq_joined_iff (key : String) (sep : Char) (values : List String) :
    Form.exploded.pairs key values = (Form.joined sep).pairs key values ↔ values.length = 1 := by
  constructor
  · intro h
    simpa [Form.pairs] using congrArg List.length h
  · intro h
    obtain ⟨v, rfl⟩ := List.length_eq_one_iff.mp h
    rfl

/-! ## What is read off a declaration -/

theorem form_of_swagger2 {root p : Json} {format : Option CollectionFormat}
    (h : Declares root p (.swagger2 format)) :
    (queryStyleOf (swagger2 root) p).form = (Declaration.swagger2 format).form := by
  obtain ⟨hv, hstyle, hformat⟩ := h
  unfold queryStyleOf
  rw [hv, hformat, hstyle]
  cases format with
  | none => rfl
  | some format => cases format <;> rfl

/-- With a style, or with `explode` not false. -/
theorem form_of_openApi3 {root p : Json} {style : Option Style} {explode : Option Bool}
    (h : Declares root p (.openApi3 style explode)) (hd : style ≠ none ∨ explode ≠ some false) :
    (queryStyleOf (swagger2 root) p).form = (Declaration.openApi3 style explode).form := by
  obtain ⟨hv, hformat, -, hstyle, hexplode⟩ := h
  have he : ∀ default, paramExplode p default = explode.getD default := by
    intro default
    rw [paramExplode, hexplode]
    cases explode <;> rfl
  unfold queryStyleOf
  rw [hv, hformat, hstyle]
  cases style with
  | none =>
    -- the default of the version, which is that of `form` unless `explode` says otherwise
    cases explode with
    | none => rfl
    | some b =>
      cases b with
      | false => simp at hd
      | true => rfl
  | some style =>
    cases style with
    | deepObject => rfl
    | form =>
      simp only [Option.map_some, Option.bind_some, Option.bind_none, Json.asStr, Style.name, he]
      cases explode with
      | none => rfl
      | some b => cases b <;> rfl
    | _ =>
      simp only [Option.map_some, Option.bind_some, Option.bind_none, Json.asStr, Style.name,
        delimitedOrRepeated, he]
      cases explode with
      | none => rfl
      | some b => cases b <;> rfl

/-- Without a style `explode` is not read. -/
theorem form_of_unexploded {root p : Json} (h : Declares root p (.openApi3 none (some false))) :
    (queryStyleOf (swagger2 root) p).form = some .exploded := by
  obtain ⟨hv, hformat, -, hstyle, -⟩ := h
  unfold queryStyleOf
  rw [hv, hformat, hstyle]
  rfl

theorem asDeclared_of_form {key : String} {d : Declaration} {style : QueryStyle} (values : List Scalar)
    (h : style.form = d.form) :
    AsDeclared key d values (serializeQuery key (.arr (values.map Scalar.json)) style) :=
  fun _ hform => serializeQuery_scalars key values (h.trans hform)

/-- **Arrays are written as declared**, for every declaration and every array of scalars, but for
`explode: false` without a style, where an array of one value alone is. -/
theorem written_iff {root p : Json} {d : Declaration} (h : Declares root p d) (key : String)
    (values : List Scalar) :
    AsDeclared key d values
        (serializeQuery key (.arr (values.map Scalar.json)) (queryStyleOf (swagger2 root) p)) ↔
      (d = .openApi3 none (some false) → values.length = 1) := by
  cases d with
  | swagger2 format => exact iff_of_true (asDeclared_of_form values (form_of_swagger2 h)) nofun
  | openApi3 style explode =>
    by_cases hd : style ≠ none ∨ explode ≠ some false
    · refine iff_of_true (asDeclared_of_form values (form_of_openApi3 h hd)) fun heq => ?_
      cases heq
      simp at hd
    · obtain ⟨rfl, rfl⟩ : style = none ∧ explode = some false := by simpa using hd
      have hwritten := serializeQuery_scalars key values (form_of_unexploded h)
      have hspec : (Declaration.openApi3 none (some false)).form = some (.joined ',') := rfl
      rw [hwritten, AsDeclared, hspec]
      simp only [Option.some.injEq, forall_eq', true_implies, exploded_eq_joined_iff, List.length_map]

/-- The parameter of a document, with the array `a`, `b`. -/
def unexplodedTags : Json :=
  .obj [("name", .str "tags"), ("in", .str "query"), ("explode", .bool false),
    ("schema", .obj [("type", .str "array")])]

def tagsDocument : Json :=
  .obj [("openapi", .str "3.0.0"), ("paths", .obj [("/notes", .obj [("get",
    .obj [("operationId", .str "listNotes"), ("parameters", .arr [unexplodedTags])])])])]

/-- Declared as `tags=a,b`, written as `tags=a&tags=b`. -/
theorem unexploded_is_repeated :
    Declares tagsDocument unexplodedTags (.openApi3 none (some false)) ∧
      ¬ AsDeclared "tags" (.openApi3 none (some false)) [.str "a", .str "b"]
        (serializeQuery "tags" (.arr ([.str "a", .str "b"].map Scalar.json))
          (queryStyleOf (swagger2 tagsDocument) unexplodedTags)) := by
  refine ⟨by simp [Declares, swagger2, tagsDocument, unexplodedTags, List.lookup_cons], fun h => ?_⟩
  have := h (.joined ',') rfl
  revert this
  decide

/-- With the style written out, the two values are joined. -/
theorem written_iff_form :
    let p : Json := .obj [("name", .str "tags"), ("style", .str "form"), ("explode", .bool false)]
    AsDeclared "tags" (.openApi3 (some .form) (some false)) [.str "a", .bool true]
      (serializeQuery "tags" (.arr ([Scalar.str "a", .bool true].map Scalar.json))
        (queryStyleOf (swagger2 tagsDocument) p)) :=
  (written_iff (by simp [Declares, swagger2, tagsDocument, List.lookup_cons, Style.name]) "tags" _).mpr
    (by decide)

end MinMcp.L4.OpenApi
