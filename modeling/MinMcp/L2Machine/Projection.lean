import MinMcp.L2Machine.Project

/-!
# Projecting and pruning a payload

`project` (a payload narrowed to the union of some paths), `prune` and `rename` of
src/project.rs. A path segment `[]` stands for every element of an array.
-/
namespace MinMcp.L2.Project

open MinMcp.Core

/-- What lies along one path. An element of an array that does not match stands as
`null`, so that positions agree between paths.
mirrors src/project.rs:153-176 -/
def selectPath : Json → List String → Option Json
  | v, [] => some v
  | v, seg :: rest =>
    if seg = "[]" then
      v.asArray.map fun xs => .arr (xs.map fun e => (selectPath e rest).getD .null)
    else
      (v.get seg).bind fun child => (selectPath child rest).map fun sub => .obj [(seg, sub)]

mutual
/-- mirrors src/project.rs:178-208 -/
def deepMerge : Json → Json → Json
  | .obj am, .obj bm => .obj (mergeEntries am bm)
  | .arr aa, .arr ba => .arr (mergeItems aa ba)
  | .null, b => b
  | a, _ => a
termination_by structural _ b => b
def mergeEntries : List (String × Json) → List (String × Json) → List (String × Json)
  | am, [] => am
  | am, (k, v) :: bm =>
    let merged := match am.lookup k with
      | some av => deepMerge av v
      | none => v
    mergeEntries (OrderedMap.insert k merged (OrderedMap.swapRemove k am)) bm
termination_by structural _ bm => bm
def mergeItems : List Json → List Json → List Json
  | aa, [] => aa
  | [], y :: ba => y :: ba
  | x :: aa, y :: ba => deepMerge x y :: mergeItems aa ba
termination_by structural _ ba => ba
end

/-- mirrors src/project.rs:13-27 -/
def project (value : Json) (paths : List String) : Json :=
  paths.foldl (fun acc p =>
    match selectPath value (parsePath p) with
    | some sel => deepMerge acc sel
    | none => acc) .null

/-- mirrors src/project.rs:38-63 -/
def removeAt : Json → List String → Json
  | v, [] => v
  | v, [seg] =>
    if seg = "[]" then
      match v with
      | .arr _ => .arr []
      | v => v
    else
      match v with
      | .obj es => .obj (OrderedMap.swapRemove seg es)
      | v => v
  | v, seg :: rest =>
    if seg = "[]" then
      match v with
      | .arr xs => .arr (xs.map fun e => removeAt e rest)
      | v => v
    else
      match v with
      | .obj es =>
        match es.lookup seg with
        | some child => .obj (OrderedMap.insert seg (removeAt child rest) es)
        | none => .obj es
      | v => v

/-- mirrors src/project.rs:29-36 -/
def prune (value : Json) (paths : List String) : Json :=
  paths.foldl (fun v p => removeAt v (parsePath p)) value

/-- mirrors src/project.rs:71-93 -/
def renameAt (new : String) : Json → List String → Json
  | v, [] => v
  | v, seg :: rest =>
    if seg = "[]" then
      match v with
      | .arr xs => .arr (xs.map fun e => renameAt new e rest)
      | v => v
    else
      match v with
      | .obj es =>
        match es.lookup seg with
        | some val =>
          if rest = [] then .obj (OrderedMap.insert new val (OrderedMap.swapRemove seg es))
          else .obj (OrderedMap.insert seg (renameAt new val rest) es)
        | none => .obj es
      | v => v

/-- mirrors src/project.rs:65-69 -/
def rename (value : Json) (path new : String) : Json := renameAt new value (parsePath path)

end MinMcp.L2.Project
