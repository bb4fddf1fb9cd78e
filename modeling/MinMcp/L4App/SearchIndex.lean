import MinMcp.Core.Json.Value
import MinMcp.Core.OrderedMap
import MinMcp.L4App.Suggestions
import Mathlib.Data.List.Dedup
import Mathlib.Data.List.Sort

/-!
# The search index

`Index` of src/index.rs: texts of tools are handed to a lexical engine, and its hits are
scored again by the words of the query, the length of the id and the number of uses, sorted,
and topped by the tools that the query names. The engine and the arithmetic of the scores are
parameters.

* `ranking`: all hits of a query in rank order; `search` is its beginning.
* `mem_ranking`: what is found was indexed, for an engine that finds what it was given.
* `uses_recordUse`, `uses_inheritUsage`: what a call and a re-index do to the number of uses.
-/
namespace MinMcp.L4.SearchIndex

open MinMcp.Core

/-- The tables of the character database, and `str::to_lowercase`. -/
structure Unicode extends Suggestions.Unicode where
  isUppercase : Char → Bool
  isLowercase : Char → Bool
  isWhitespace : Char → Bool
  lowercase : List Char → List Char

/-- On ASCII text. -/
def ascii : Unicode where
  toUnicode := Suggestions.ascii
  isUppercase := Char.isUpper
  isLowercase := Char.isLower
  isWhitespace := Char.isWhitespace
  lowercase text := text.map Char.toLower

/-- The arithmetic of `f64`, and the factors that are no integers. -/
structure Arith (S : Type) where
  ofNat : Nat → S
  add : S → S → S
  mul : S → S → S
  div : S → S → S
  ln : S → S
  partialCmp : S → S → Option Ordering
  verbBoost : S
  usageDamp : S
  idDamp : S

/-- mirrors src/index.rs:65-89 -/
structure Options where
  rerank : Bool
  params : Bool
  fieldWeights : Bool

/-- mirrors src/index.rs:91-95 -/
def Options.default : Options := ⟨true, false, false⟩

/-- mirrors src/index.rs:269-275 -/
structure IndexedTool where
  id : String
  description : String
  params : String

/-! ## Parameter names -/

/-- mirrors src/index.rs:208-213 -/
def pushParam (out name : String) : String :=
  if out.utf8ByteSize < 200 then (if out.isEmpty then name else out ++ " " ++ name) else out

def properties (node : Json) : List (String × Json) :=
  match node.get "properties" with
  | some (.obj props) => props
  | _ => []

/-- mirrors src/index.rs:206-226 -/
def subSchemas (node : Json) : List Json :=
  (properties node).map Prod.snd ++ ["items", "additionalProperties"].filterMap node.get ++
    ["anyOf", "oneOf", "allOf"].flatMap fun key => ((node.get key).bind Json.asArray).getD []

/-- One level of the schema after the other, the first one outermost. -/
def paramLevels : Nat → String → List Json → String
  | 0, out, _ => out
  | n + 1, out, level =>
    if 200 ≤ out.utf8ByteSize || level.isEmpty then out
    else paramLevels n
      (level.foldl (fun out node => (properties node).foldl (fun out e => pushParam out e.1) out) out)
      (level.flatMap subSchemas)

/-- mirrors src/index.rs:194-232 -/
def schemaParamText (schema : Json) : String := paramLevels 3 "" [schema]

/-! ## Words -/

section Words

variable (u : Unicode)

/-- One space behind a word. -/
def pushSpace (out : List Char) : List Char :=
  if out ≠ [] ∧ out.getLast? ≠ some ' ' then out ++ [' '] else out

/-- `prev` and `prev2` are the characters in front of `rest`.
mirrors src/index.rs:144-173 -/
def splitFrom (prev2 prev : Option Char) (out : List Char) : List Char → List Char
  | [] => out
  | c :: rest =>
    let out :=
      if u.isAlphanumeric c then
        let startsWord := prev.any fun p => u.isLowercase p || p.isDigit
        let endsAcronym := prev.any u.isUppercase && prev2.any u.isUppercase && rest.head?.any u.isLowercase
        (if u.isUppercase c && (startsWord || endsAcronym) then pushSpace out else out) ++ [c]
      else pushSpace out
    splitFrom prev (some c) out rest

def splitIdentifier (text : List Char) : List Char := splitFrom u none none [] text

/-- The maximal runs of characters that are no white space. -/
def words (text : List Char) : List (List Char) := (text.splitOnP u.isWhitespace).filter fun w => !w.isEmpty

/-- mirrors src/index.rs:179-185 -/
def rawTokens (text : String) : List (List Char) := (words u (splitIdentifier u text.toList)).map u.lowercase

/-- mirrors src/index.rs:113-115 -/
def normalizeId (text : String) : String := String.ofList (Suggestions.normalizeId u.toUnicode text)

end Words

example : rawTokens ascii "github.getHTTPResponse_v1" =
    ["github".toList, "get".toList, "http".toList, "response".toList, "v1".toList] := by decide +kernel


/-- mirrors src/index.rs:102-109 -/
def verbAffinity : List (List String × List String) :=
  [(["create", "add", "new", "make"], ["create", "post", "add", "new"]),
   (["update", "change", "edit", "set", "modify"], ["update", "patch", "put", "post", "set", "modify"]),
   (["delete", "remove", "cancel", "destroy"], ["delete", "remove", "cancel", "destroy"]),
   (["list", "get", "find", "search", "show", "retrieve"],
    ["list", "get", "find", "search", "show", "retrieve"])]

/-- The order and the repetitions do not matter: they are only asked for membership.
mirrors src/index.rs:352-366 -/
def desiredIdTokens (tokens : List (List Char)) : List (List Char) :=
  tokens.flatMap fun w => verbAffinity.flatMap fun (verbs, ids) =>
    if w ∈ verbs.map String.toList then ids.map String.toList else []

/-- mirrors src/index.rs:431-459 -/
def weightedContents (opts : Options) (t : IndexedTool) (params : String) : String :=
  let text := t.description.toList
  let summary := String.ofList ((text.takeWhile (· ≠ '\n')).take 200)
  let body := String.ofList (((text.dropWhile (· ≠ '\n')).drop 1).take 300)
  let (ids, summaries) := if opts.fieldWeights then (3, 2) else (1, 1)
  String.join (List.replicate ids (t.id ++ " ")) ++ String.join (List.replicate summaries (summary ++ " ")) ++
    body ++ (if params.isEmpty then "" else " " ++ params)

/-! ## The index -/

/-- mirrors src/index.rs:257-264 -/
structure Meta where
  idTokenCount : Nat
  idTokens : List (List Char)

/-- The texts given to the engine, in order, and what is kept beside them.
mirrors src/index.rs:277-287 -/
structure Index where
  documents : List (String × String)
  metas : List (String × Meta)
  exact : List (String × List String)
  usage : List (String × Nat)
  opts : Options

/-- A name leads to one more id. -/
def pushExact (exact : List (String × List String)) (name id : String) : List (String × List String) :=
  OrderedMap.insert name ((exact.lookup name).getD [] ++ [id]) exact

/-- What follows the first dot. -/
def afterDot (id : String) : Option String :=
  match id.toList.dropWhile (· ≠ '.') with
  | [] => none
  | _ :: rest => some (String.ofList rest)

section Build

variable (u : Unicode)

def addTool (opts : Options) (ix : Index) (t : IndexedTool) : Index :=
  let tokens := rawTokens u t.id
  let exact := pushExact ix.exact (normalizeId u t.id) t.id
  { ix with
    documents := ix.documents ++ [(t.id, weightedContents opts t (if opts.params then t.params else ""))]
    metas := OrderedMap.insert t.id ⟨tokens.length, tokens⟩ ix.metas
    exact := match afterDot t.id with
      | some name => pushExact exact (normalizeId u name) t.id
      | none => exact }

/-- mirrors src/index.rs:296-337 -/
def buildWith (tools : List IndexedTool) (opts : Options) : Index :=
  tools.foldl (addTool u opts) ⟨[], [], [], [], opts⟩

def build (tools : List IndexedTool) : Index := buildWith u tools .default

end Build

namespace Index

/-- How often a tool has been used, for the ranking. -/
def uses (ix : Index) (toolId : String) : Nat := (ix.usage.lookup toolId).getD 0

/-- mirrors src/index.rs:341-343 -/
def inheritUsage (ix source : Index) : Index := { ix with usage := source.usage }

/-- mirrors src/index.rs:345-347 -/
def recordUse (ix : Index) (toolId : String) : Index :=
  { ix with usage := OrderedMap.insert toolId (ix.uses toolId + 1) ix.usage }

end Index

/-! ## Search -/

section Search

variable {S : Type} (u : Unicode) (a : Arith S)
  (engine : List (String × String) → String → List (String × S))

/-- mirrors src/index.rs:392-414 -/
def rescore (ix : Index) (desired : List (List Char)) (terse : Bool) (hit : String × S) : String × S :=
  if ix.opts.rerank then
    let one := a.ofNat 1
    let score := match ix.metas.lookup hit.1 with
      | none => hit.2
      | some m =>
        let score := if desired.any (m.idTokens.contains ·) then a.mul hit.2 a.verbBoost else hit.2
        if terse then a.mul score (a.div one (a.add one (a.mul a.idDamp (a.ofNat m.idTokenCount)))) else score
    let prior := a.add one (a.mul a.usageDamp (a.ln (a.add one (a.ofNat (ix.uses hit.1)))))
    (hit.1, a.mul score prior)
  else hit

/-- By falling score, then by id.
mirrors src/index.rs:417 -/
def hitLe (x y : String × S) : Bool :=
  match (a.partialCmp y.2 x.2).getD .eq with
  | .lt => true
  | .eq => x.1 ≤ y.1
  | .gt => false

/-- The tools that the query names, without repetitions, and then the others.
mirrors src/index.rs:371-379 -/
def promoteExact (ix : Index) (name : String) (scored : List (String × S)) : List (String × S) :=
  match ix.exact.lookup name with
  | none => scored
  | some ids =>
    let top := (scored.head?.map Prod.snd).getD (a.ofNat 1)
    let front := (ids.insertionSort (· ≤ ·)).dedup
    front.map (fun id => (id, top)) ++ scored.filter fun hit => !ids.contains hit.1

/-- All hits in rank order.
mirrors src/index.rs:381-420 -/
def ranking (ix : Index) (query : String) : List (String × S) :=
  let tokens := rawTokens u query
  let hits := (engine ix.documents query).map (rescore a ix (desiredIdTokens tokens) (tokens.length ≤ 8))
  let scored := hits.insertionSort fun x y => hitLe a x y = true
  if ix.opts.rerank then promoteExact a ix (normalizeId u query) scored else scored

/-- mirrors src/index.rs:381-423 -/
def search (ix : Index) (query : String) (k : Nat) : List (String × S) := (ranking u a engine ix query).take k

/-! ## What is found was indexed -/

def Index.ids (ix : Index) : List String := ix.documents.map Prod.fst

/-- A name leads to indexed ids only. -/
def Index.ExactSound (ix : Index) : Prop :=
  ∀ name ids, ix.exact.lookup name = some ids → ∀ id ∈ ids, id ∈ ix.ids

theorem mem_pushExact {exact : List (String × List String)} {name name' id : String}
    {ids : List String} (h : (pushExact exact name id).lookup name' = some ids) {x : String} (hx : x ∈ ids) :
    x = id ∨ ∃ ids', exact.lookup name' = some ids' ∧ x ∈ ids' := by
  unfold pushExact at h
  by_cases hn : name' = name
  · subst hn
    rw [OrderedMap.lookup_insert_self, Option.some.injEq] at h
    subst h
    rcases List.mem_append.mp hx with hx | hx
    · right
      cases he : exact.lookup name' with
      | none => simp [he] at hx
      | some ids' => exact ⟨ids', rfl, by simpa [he] using hx⟩
    · exact Or.inl (List.mem_singleton.mp hx)
  · rw [OrderedMap.lookup_insert_of_ne hn] at h
    exact Or.inr ⟨ids, h, hx⟩

theorem ids_addTool (opts : Options) (ix : Index) (t : IndexedTool) :
    (addTool u opts ix t).ids = ix.ids ++ [t.id] := by
  simp [addTool, Index.ids]

theorem Index.ExactSound.add {ix : Index} (h : ix.ExactSound) (opts : Options) (t : IndexedTool) :
    (addTool u opts ix t).ExactSound := by
  intro name ids hl x hx
  rw [ids_addTool, List.mem_append, List.mem_singleton]
  have hone : ∀ {exact : List (String × List String)} {name'},
      (pushExact exact name' t.id).lookup name = some ids →
        (∀ ids', exact.lookup name = some ids' → x ∈ ids' → x ∈ ix.ids ∨ x = t.id) →
          x ∈ ix.ids ∨ x = t.id := by
    intro exact name' hp hrest
    rcases mem_pushExact hp hx with rfl | ⟨ids', hi, hx'⟩
    · exact Or.inr rfl
    · exact hrest ids' hi hx'
  simp only [addTool] at hl
  split at hl
  · refine hone hl fun ids' hi hx' => ?_
    rcases mem_pushExact hi hx' with rfl | ⟨ids'', hi', hx''⟩
    · exact Or.inr rfl
    · exact Or.inl (h name ids'' hi' x hx'')
  · exact hone hl fun ids' hi hx' => Or.inl (h name ids' hi x hx')

theorem foldl_addTool (opts : Options) (tools : List IndexedTool) {ix : Index} (h : ix.ExactSound) :
    (tools.foldl (addTool u opts) ix).ExactSound ∧
      (tools.foldl (addTool u opts) ix).ids = ix.ids ++ tools.map IndexedTool.id := by
  induction tools generalizing ix with
  | nil => exact ⟨h, by simp⟩
  | cons t ts ih =>
    obtain ⟨he, hi⟩ := ih (h.add u opts t)
    refine ⟨he, ?_⟩
    rw [List.foldl_cons, hi, ids_addTool]
    simp

theorem buildWith_sound (tools : List IndexedTool) (opts : Options) :
    (buildWith u tools opts).ExactSound ∧ (buildWith u tools opts).ids = tools.map IndexedTool.id := by
  have hempty : Index.ExactSound ⟨[], [], [], [], opts⟩ := fun _ _ hl => by cases hl
  have h := foldl_addTool u opts tools hempty
  exact ⟨h.1, by rw [buildWith, h.2]; rfl⟩

@[simp] theorem rescore_id (ix : Index) (desired : List (List Char)) (terse : Bool) (hit : String × S) :
    (rescore a ix desired terse hit).1 = hit.1 := by
  unfold rescore
  split <;> rfl

theorem mem_promoteExact {ix : Index} {name : String} {scored : List (String × S)} {hit : String × S}
    (h : hit ∈ promoteExact a ix name scored) :
    hit ∈ scored ∨ ∃ ids, ix.exact.lookup name = some ids ∧ hit.1 ∈ ids := by
  unfold promoteExact at h
  split at h
  · exact Or.inl h
  · next ids hids =>
    rcases List.mem_append.mp h with h | h
    · obtain ⟨id, hid, rfl⟩ := List.mem_map.mp h
      rw [List.mem_dedup, List.mem_insertionSort] at hid
      exact Or.inr ⟨ids, hids, hid⟩
    · exact Or.inl (List.mem_of_mem_filter h)

theorem mem_ranking (hengine : ∀ docs query, ∀ hit ∈ engine docs query, hit.1 ∈ docs.map Prod.fst)
    {ix : Index} (h : ix.ExactSound) {query : String} {hit : String × S}
    (hm : hit ∈ ranking u a engine ix query) : hit.1 ∈ ix.ids := by
  simp only [ranking] at hm
  generalize desiredIdTokens _ = desired at hm
  generalize decide (_ ≤ 8) = terse at hm
  have hscored : ∀ x ∈ ((engine ix.documents query).map (rescore a ix desired terse)).insertionSort
      (fun x y => hitLe a x y = true), x.1 ∈ ix.ids := by
    intro x hx
    rw [List.mem_insertionSort, List.mem_map] at hx
    obtain ⟨y, hy, rfl⟩ := hx
    rw [rescore_id]
    exact hengine _ _ y hy
  split at hm
  · rcases mem_promoteExact a hm with hm | ⟨ids, hids, hid⟩
    · exact hscored hit hm
    · exact h _ ids hids _ hid
  · exact hscored hit hm

end Search

/-! ## Uses -/

theorem uses_recordUse (ix : Index) (t t' : String) :
    (ix.recordUse t).uses t' = if t' = t then ix.uses t + 1 else ix.uses t' := by
  unfold Index.recordUse
  split
  · next h => simp only [Index.uses, h, OrderedMap.lookup_insert_self, Option.getD_some]
  · next h => simp only [Index.uses, OrderedMap.lookup_insert_of_ne h]

@[simp] theorem uses_inheritUsage (ix source : Index) (t : String) :
    (ix.inheritUsage source).uses t = source.uses t := rfl

end MinMcp.L4.SearchIndex
