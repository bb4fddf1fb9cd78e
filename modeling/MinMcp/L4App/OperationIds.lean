import MinMcp.Core.FreshName
import MinMcp.L4App.SpecParams

/-!
# The ids of the operations

`Spec::from_value` lists the operations of a document and gives each an id, by which `get`
finds it: its `operationId`, else one made of its method and path. An id that an operation
before has already gets a number behind it.

* `ids_eq_distinct`: the loop is `FreshName.distinct` on the ids, and changes nothing else.
* `get_of_nodup`: with distinct ids the index leads from each to its operation.
* `fromValue_complete`: for any document, one operation for each method object, found under
  its own id and no other. The search for a number ends.
* `fromValue_keeps`: ids that are distinct in the document stay as they are.
-/
namespace MinMcp.L4.OpenApi

open MinMcp.Core

/-! ## The code -/

/-- mirrors src/spec.rs:28-36 -/
structure SpecOperation extends Operation where
  opId : String
  summary : String
  description : String

/-- mirrors src/spec.rs:62-73 -/
structure Spec where
  title : String
  version : String
  swagger2 : Bool
  root : Json
  operations : List SpecOperation
  byId : List (String × Nat)

/-- mirrors src/spec.rs:433-440 -/
def makeOpId (op : Json) (method path : String) : String :=
  match (op.get "operationId").bind Json.asStr with
  | some id => id
  | none =>
    let trimmed := ((path.toList.dropWhile (· = '/')).reverse.dropWhile (· = '/')).reverse
    let slug := (trimmed.map fun c => if c = '/' then '_' else c).filter fun c => c ≠ '\x7b' ∧ c ≠ '\x7d'
    method ++ "_" ++ String.ofList slug

def textOf (op : Json) (key : String) : String := ((op.get key).bind Json.asStr).getD ""

/-- mirrors src/spec.rs:107-119 -/
def listOperation (op : Operation) : SpecOperation :=
  { op with
    opId := makeOpId op.raw op.method op.path
    summary := textOf op.raw "summary"
    description := textOf op.raw "description" }

/-- The loop that renames; `fuel` bounds the search for a number.
mirrors src/spec.rs:129-140 -/
def assignIds (fuel : Nat) (seen : List String) : List SpecOperation → Option (List SpecOperation)
  | [] => some []
  | op :: ops =>
    (FreshName.choose FreshName.numbered fuel seen op.opId).bind fun id =>
      (assignIds fuel (id :: seen) ops).map ({ op with opId := id } :: ·)

/-- mirrors src/spec.rs:87-143 -/
def fromValue (fuel : Nat) (root : Json) : Option Spec :=
  let info := (root.get "info").getD (.obj [])
  let title := ((info.get "title").bind Json.asStr).getD "?"
  let version := match info.get "version" with
    | some (.str s) => s
    | some v => String.ofList v.print
    | none => "?"
  (assignIds fuel [] ((operations root).map fun op => listOperation op.2)).map fun ops =>
    { title := title
      version := version
      swagger2 := swagger2 root
      root := root
      operations := ops
      byId := OrderedMap.extend [] (ops.zipIdx.map fun op => (op.1.opId, op.2)) }

/-- mirrors src/spec.rs:145-147 -/
def Spec.get (s : Spec) (opId : String) : Option SpecOperation :=
  (s.byId.lookup opId).bind fun i => s.operations[i]?

/-! ## The document -/

/-- The entries of the path items: path, key and value. -/
def pathEntries (root : Json) : List (String × String × Json) :=
  (((root.get "paths").bind Json.asObject).getD []).flatMap fun path =>
    (path.2.asObject.getD []).map fun entry => (path.1, entry.1, entry.2)

/-- Those that stand for an operation: an object under the name of a method. -/
def methodObjects (root : Json) : List (String × String × Json) :=
  (pathEntries root).filter fun e => e.2.1.toLower ∈ httpMethods ∧ e.2.2.asObject.isSome

/-- Each operation of `s` stands for one method object of the document, in their order. -/
def OnePerMethod (root : Json) (s : Spec) : Prop :=
  s.operations.map (fun op => (op.path, op.method, op.raw)) =
    (methodObjects root).map fun e => (e.1, e.2.1.toLower, e.2.2)

theorem operations_eq (root : Json) :
    (operations root).map (fun op => (op.2.path, op.2.method, op.2.raw)) =
      (methodObjects root).map fun e => (e.1, e.2.1.toLower, e.2.2) := by
  unfold operations methodObjects pathEntries
  rw [List.filter_flatMap, List.map_flatMap, List.map_flatMap]
  refine List.flatMap_congr fun path _ => ?_
  generalize path.2.asObject.getD [] = entries
  induction entries with
  | nil => rfl
  | cons entry entries ih =>
    rw [List.map_cons, List.filterMap_cons]
    by_cases h : entry.1.toLower ∈ httpMethods ∧ entry.2.asObject.isSome
    · rw [List.filter_cons_of_pos (by simpa using h)]
      simp only [if_pos h, List.map_cons, ih]
    · rw [List.filter_cons_of_neg (by simpa using h)]
      simp only [if_neg h, ih]

/-! ## The renaming loop -/

theorem ids_eq_distinct (fuel : Nat) (seen : List String) (ops : List SpecOperation) :
    (assignIds fuel seen ops).map (List.map SpecOperation.opId) =
      FreshName.distinct FreshName.numbered fuel seen (ops.map SpecOperation.opId) := by
  induction ops generalizing seen with
  | nil => rfl
  | cons op ops ih =>
    rw [assignIds, List.map_cons, FreshName.distinct]
    cases FreshName.choose FreshName.numbered fuel seen op.opId with
    | none => rfl
    | some id =>
      rw [Option.bind_some, Option.bind_some, ← ih (id :: seen), Option.map_map, Option.map_map]
      rfl

/-- Only the ids change. -/
theorem assignIds_rest {fuel : Nat} {seen : List String} {ops named : List SpecOperation}
    (h : assignIds fuel seen ops = some named) :
    named.map SpecOperation.toOperation = ops.map SpecOperation.toOperation := by
  induction ops generalizing seen named with
  | nil =>
    cases h
    rfl
  | cons op ops ih =>
    rw [assignIds, Option.bind_eq_some_iff] at h
    obtain ⟨id, -, h⟩ := h
    obtain ⟨rest, hrest, rfl⟩ := Option.map_eq_some_iff.mp h
    rw [List.map_cons, List.map_cons, ih hrest]

/-- **The search for a number ends**: a turn for each operation and one more are enough. -/
theorem assignIds_total (seen : List String) (ops : List SpecOperation) :
    ∃ named, ∀ fuel, seen.length + ops.length < fuel → assignIds fuel seen ops = some named := by
  induction ops generalizing seen with
  | nil => exact ⟨[], fun _ _ => rfl⟩
  | cons op ops ih =>
    obtain ⟨id, hid⟩ := FreshName.choose_total FreshName.numbered_injective seen op.opId
    obtain ⟨rest, hrest⟩ := ih (id :: seen)
    refine ⟨{ op with opId := id } :: rest, fun fuel hfuel => ?_⟩
    rw [List.length_cons] at hfuel
    rw [assignIds, hid fuel (by omega), Option.bind_some, hrest fuel (by rw [List.length_cons]; omega),
      Option.map_some]

theorem assignIds_nodup {fuel : Nat} {seen : List String} {ops named : List SpecOperation}
    (h : assignIds fuel seen ops = some named) : (named.map SpecOperation.opId).Nodup := by
  have hids := ids_eq_distinct fuel seen ops
  rw [h, Option.map_some] at hids
  exact (FreshName.distinct_spec hids.symm).2.1

/-! ## The index -/

theorem get_of_nodup {s : Spec}
    (hby : s.byId = OrderedMap.extend [] (s.operations.zipIdx.map fun op => (op.1.opId, op.2)))
    (hn : (s.operations.map SpecOperation.opId).Nodup) {op : SpecOperation} (hop : op ∈ s.operations) :
    s.get op.opId = some op := by
  obtain ⟨i, hi⟩ := List.mem_iff_getElem?.mp hop
  have hkeys : (OrderedMap.keys (s.operations.zipIdx.map fun op => (op.1.opId, op.2))).Nodup := by
    unfold OrderedMap.keys
    rw [List.map_map, show (Prod.fst ∘ fun op : SpecOperation × Nat => (op.1.opId, op.2)) =
      SpecOperation.opId ∘ Prod.fst from rfl, ← List.map_map, List.zipIdx_map_fst]
    exact hn
  have hmem : (op.opId, i) ∈ s.operations.zipIdx.map fun op => (op.1.opId, op.2) :=
    List.mem_map.mpr ⟨(op, i), List.mem_zipIdx_iff_getElem?.mpr hi, rfl⟩
  rw [Spec.get, hby, OrderedMap.lookup_extend, OrderedMap.lookup_reverse hkeys,
    OrderedMap.lookup_of_mem hkeys hmem]
  exact hi

/-! ## Every document -/

/-- A loaded document: its operations are named, and the rest is read off it. -/
theorem fromValue_eq_some {fuel : Nat} {root : Json} {s : Spec} (h : fromValue fuel root = some s) :
    assignIds fuel [] ((operations root).map fun op => listOperation op.2) = some s.operations ∧
      s.byId = OrderedMap.extend [] (s.operations.zipIdx.map fun op => (op.1.opId, op.2)) := by
  obtain ⟨named, hnamed, rfl⟩ := Option.map_eq_some_iff.mp h
  exact ⟨hnamed, rfl⟩

theorem onePerMethod_of_fromValue {fuel : Nat} {root : Json} {s : Spec}
    (h : fromValue fuel root = some s) : OnePerMethod root s := by
  have hrest := assignIds_rest (fromValue_eq_some h).1
  have := congrArg (List.map fun op : Operation => (op.path, op.method, op.raw)) hrest
  rw [List.map_map, List.map_map, List.map_map] at this
  exact this.trans (operations_eq root)

/-- **Every operation has an id of its own.** Any document is loaded, whatever bound is put on
the search for a number, with one operation for each method object; no two share an id, and
each is what its id leads to. -/
theorem fromValue_complete (root : Json) :
    ∃ s, (∀ fuel, (methodObjects root).length < fuel → fromValue fuel root = some s) ∧
      OnePerMethod root s ∧ (s.operations.map SpecOperation.opId).Nodup ∧
        ∀ op ∈ s.operations, s.get op.opId = some op := by
  obtain ⟨named, hnamed⟩ := assignIds_total [] ((operations root).map fun op => listOperation op.2)
  have hlen : ((operations root).map fun op => listOperation op.2).length = (methodObjects root).length := by
    have := congrArg List.length (operations_eq root)
    simpa using this
  rw [hlen, List.length_nil, Nat.zero_add] at hnamed
  have hfrom : ∀ fuel, (methodObjects root).length < fuel → (fromValue fuel root).isSome = true := by
    intro fuel hfuel
    rw [fromValue, hnamed fuel hfuel]
    rfl
  obtain ⟨s, hs⟩ := Option.isSome_iff_exists.mp (hfrom _ (Nat.lt_succ_self _))
  have hall : ∀ fuel, (methodObjects root).length < fuel → fromValue fuel root = some s := by
    intro fuel hfuel
    rw [← hs, fromValue, fromValue, hnamed fuel hfuel, hnamed _ (Nat.lt_succ_self _)]
  have hn := assignIds_nodup (fromValue_eq_some hs).1
  exact ⟨s, hall, onePerMethod_of_fromValue hs, hn, fun op hop =>
    get_of_nodup (fromValue_eq_some hs).2 hn hop⟩

/-- Ids that are distinct in the document stay as they are. -/
theorem fromValue_keeps {fuel : Nat} {root : Json} {s : Spec}
    (hn : ((operations root).map fun op => makeOpId op.2.raw op.2.method op.2.path).Nodup)
    (h : fromValue fuel root = some s) :
    s.operations.map SpecOperation.opId =
      (operations root).map fun op => makeOpId op.2.raw op.2.method op.2.path := by
  have hids := ids_eq_distinct fuel [] ((operations root).map fun op => listOperation op.2)
  rw [(fromValue_eq_some h).1, Option.map_some, List.map_map] at hids
  exact Option.some.inj (hids.trans (FreshName.distinct_of_nodup fuel hn (by simp)))

end MinMcp.L4.OpenApi
