import MinMcp.Core.Text.Segments
import MinMcp.L2Machine.Union

/-!
# The other wildcard

`parse_path` of src/project.rs accepts `*` for `[]`, by one replacement over the text of the
path: `.*.` becomes `.[].`. `bracketed` is the path with `[]` for each segment `*`, and
`parts` is its text, each `[]` set off by dots, cut at the dots.

* `wildcard_iff`: `project`, `prune` and `rename` take a path for its bracketed form **iff** no
  part `*` is first, last, or right behind another.
* `stripped_nothing`: where one is, a rule that strips a secret does nothing.
-/
namespace MinMcp.L2.Project

open MinMcp.Core MinMcp.Core.Json

variable {v : Json} {acc rest cs : List Char} {path : String}

/-- What a segment `*` is meant to be. -/
def wild : Step → Step
  | .key k => if k = "*" then .each else .key k
  | .each => .each

def bracketKey (acc : List Char) : List Char := if acc = ['*'] then ['[', ']'] else acc

/-- The text with `[]` for each segment `*`; `acc` is what has been read of a segment, which a
dot ends, and `[]`. -/
def bracketGo (acc : List Char) : List Char → List Char
  | '[' :: ']' :: cs => bracketKey acc ++ '[' :: ']' :: bracketGo [] cs
  | '.' :: cs => bracketKey acc ++ '.' :: bracketGo [] cs
  | c :: cs => bracketGo (acc ++ [c]) cs
  | [] => bracketKey acc

def bracketed (path : String) : String := String.ofList (bracketGo [] path.toList)

example : bracketed "*.rows.*.*" = "[].rows.[].[]" := by decide +kernel

/-! ## The steps of a bracketed path -/

/-- What has been read of a segment: no step ends in it, nor does one begin at its end. -/
structure Segment (acc cs : List Char) : Prop where
  dot : '.' ∉ acc
  pair : ¬ ['[', ']'] <:+: acc
  next : acc.getLast? = some '[' → cs.head? ≠ some ']'

theorem segment_nil (cs : List Char) : Segment [] cs := ⟨List.not_mem_nil, by simp, by simp⟩

theorem Segment.concat {c : Char} (h : Segment acc (c :: cs)) (hdot : c ≠ '.')
    (hpair : ∀ rest, c = '[' → cs = ']' :: rest → False) : Segment (acc ++ [c]) cs where
  dot := by simpa [eq_comm, h.dot] using hdot
  pair := by
    rw [List.infix_concat_iff]
    rintro (⟨front, hfront⟩ | hin)
    · have hend : (front ++ ['[']) ++ [']'] = acc ++ [c] := by simpa using hfront
      obtain ⟨hacc, hc⟩ := List.append_inj' hend rfl
      refine h.next (by rw [← hacc]; simp) ?_
      rw [← List.singleton_inj.mp hc]
      rfl
    · exact h.pair hin
  next := by
    intro hlast hhead
    rw [List.getLast?_concat, Option.some.injEq] at hlast
    obtain ⟨rest, hrest⟩ := List.head?_eq_some_iff.mp hhead
    exact hpair rest hlast hrest

theorem Segment.tail {c : Char} (h : Segment (c :: acc) cs) : Segment acc cs where
  dot := fun hd => h.dot (List.mem_cons_of_mem c hd)
  pair := fun hp => h.pair (List.infix_cons hp)
  next := by
    intro hlast
    refine h.next ?_
    rw [List.getLast?_cons, hlast]
    rfl

theorem scanPath_cons {c : Char} (hdot : c ≠ '.') (hpair : ∀ rest, c = '[' → cs = ']' :: rest → False)
    (b : List Char) : scanPath b (c :: cs) = scanPath (b ++ [c]) cs := by
  rw [scanPath]
  · exact hpair
  · exact hdot

/-- Text without a step's end is read as one segment. -/
theorem scanPath_append (h : Segment acc rest) (b : List Char) :
    scanPath b (acc ++ rest) = scanPath (b ++ acc) rest := by
  induction acc generalizing b with
  | nil => rw [List.nil_append, List.append_nil]
  | cons c acc ih =>
    have hdot : c ≠ '.' := fun hc => h.dot (hc ▸ List.mem_cons_self)
    have hpair : ∀ tail, c = '[' → acc ++ rest = ']' :: tail → False := by
      rintro tail rfl htail
      cases acc with
      | nil =>
        rw [List.nil_append] at htail
        exact h.next rfl (by rw [htail]; rfl)
      | cons d acc =>
        rw [List.cons_append, List.cons.injEq] at htail
        exact h.pair ⟨[], acc, by rw [htail.1]; rfl⟩
    rw [List.cons_append, scanPath_cons hdot hpair, ih h.tail, List.append_assoc, List.singleton_append]

theorem ofList_ne_star (h : acc ≠ ['*']) : String.ofList acc ≠ "*" := by
  intro hs
  have hacc := congrArg String.toList hs
  rw [String.toList_ofList] at hacc
  exact h hacc

theorem wild_keyStep (acc : List Char) :
    (keyStep acc).map wild = if acc = ['*'] then [.each] else keyStep acc := by
  by_cases hstar : acc = ['*']
  · rw [hstar]
    rfl
  · by_cases hnil : acc = []
    · simp [keyStep, hnil]
    · simp [keyStep, hnil, hstar, wild, ofList_ne_star hstar]

/-- A segment and the `[]`, dot or end behind it. -/
theorem scanPath_bracketKey (h : Segment acc rest)
    (hcut : scanPath acc rest = keyStep acc ++ scanPath [] rest) :
    scanPath [] (bracketKey acc ++ rest) = (keyStep acc).map wild ++ scanPath [] rest := by
  rw [wild_keyStep, bracketKey]
  by_cases hstar : acc = ['*']
  · rw [if_pos hstar, if_pos hstar]
    rfl
  · rw [if_neg hstar, if_neg hstar, scanPath_append h, List.nil_append, hcut]

theorem scanPath_bracketGo (h : Segment acc cs) :
    scanPath [] (bracketGo acc cs) = (scanPath acc cs).map wild := by
  fun_induction bracketGo acc cs with
  | case1 acc cs ih =>
    have hseg : Segment acc ('[' :: ']' :: bracketGo [] cs) := ⟨h.dot, h.pair, fun _ => by simp⟩
    rw [scanPath_bracketKey hseg rfl, scanPath, ih (segment_nil cs), scanPath, List.map_append]
    rfl
  | case2 acc cs ih =>
    have hseg : Segment acc ('.' :: bracketGo [] cs) := ⟨h.dot, h.pair, fun _ => by simp⟩
    rw [scanPath_bracketKey hseg rfl, scanPath, ih (segment_nil cs), scanPath, List.map_append]
    rfl
  | case3 acc c cs hpair hdot ih =>
    rw [ih (h.concat hdot hpair), scanPath_cons hdot hpair]
  | case4 acc =>
    have hseg : Segment acc [] := ⟨h.dot, h.pair, fun _ => by simp⟩
    have hcut : scanPath acc [] = keyStep acc ++ scanPath [] [] := (List.append_nil _).symm
    have hread := scanPath_bracketKey hseg hcut
    rw [List.append_nil] at hread
    rw [hread]
    exact List.append_nil _

/-- The bracketed path reads as the path with each `*` for `[]`. -/
theorem steps_bracketed (path : String) : steps (bracketed path) = (steps path).map wild := by
  rw [steps, bracketed, String.toList_ofList, scanPath_bracketGo (segment_nil _), steps]

theorem star_notMem_wild (q : List Step) : .key "*" ∉ q.map wild := by
  intro h
  obtain ⟨st, -, hst⟩ := List.mem_map.mp h
  cases st with
  | key k =>
    rw [wild] at hst
    split at hst
    · cases hst
    · next hk =>
      cases hst
      exact hk rfl
  | each => cases hst

theorem stepOf_parsePath_bracketed (path : String) :
    (parsePath (bracketed path)).map stepOf = (steps path).map wild := by
  rw [← steps_bracketed]
  refine stepOf_parsePath ?_
  rw [steps_bracketed]
  exact star_notMem_wild _

/-! ## What the replacement in the text does -/

/-- The text with each `[]` set off by dots, cut at the dots. -/
def parts (path : String) : List (List Char) :=
  (Text.replaceAll "[]".toList ".[].".toList path.toList).splitOn '.'

theorem stepsOf_parts (path : String) : stepsOf (parts path) = steps path :=
  stepsOf_dotted List.not_mem_nil (List.cons_ne_nil _ _).symm path.toList (fun h => nomatch h)

theorem dot_notMem_parts : ∀ s ∈ parts path, '.' ∉ s := fun _ hs => Text.notMem_of_mem_splitOn hs

theorem parts_ne_nil (path : String) : parts path ≠ [] := List.splitOn_ne_nil _ _

def keptParts (parts : List (List Char)) : List String :=
  (parts.filter fun s => !s.isEmpty).map String.ofList

/-- The parts of the text after the replacement. -/
theorem parsePath_eq (path : String) :
    parsePath path = keptParts (Text.replaceParts ['*'] ['[', ']'] false (parts path)) := by
  have hdotted : Text.replaceAll "[]".toList ".[].".toList path.toList = ['.'].intercalate (parts path) :=
    (List.intercalate_splitOn '.').symm
  have hrep : Text.replaceAll ".*.".toList ".[].".toList (['.'].intercalate (parts path)) =
      ['.'].intercalate (Text.replaceParts ['*'] ['[', ']'] false (parts path)) :=
    Text.replaceAll_intercalate (x := ['*']) (y := ['[', ']']) (by decide) dot_notMem_parts
      (parts_ne_nil path)
  have hdots : ∀ s ∈ Text.replaceParts ['*'] ['[', ']'] false (parts path), '.' ∉ s := by
    intro s hs
    rcases Text.mem_replaceParts hs with hs | rfl
    · exact dot_notMem_parts s hs
    · decide
  have hne : Text.replaceParts ['*'] ['[', ']'] false (parts path) ≠ [] := by
    obtain ⟨s, rest, hcons⟩ := List.exists_cons_of_ne_nil (parts_ne_nil path)
    rw [hcons]
    exact Text.replaceParts_ne_nil _ _ _ s rest
  rw [parsePath, hdotted, hrep, List.splitOn_intercalate '.' hdots hne]
  rfl

theorem wild_stepOf (s : List Char) :
    wild (stepOf (String.ofList s)) = stepOf (String.ofList (bracketKey s)) := by
  by_cases hstar : s = ['*']
  · rw [hstar]
    rfl
  · rw [bracketKey, if_neg hstar]
    by_cases heach : String.ofList s = "[]"
    · rw [heach]
      rfl
    · rw [stepOf_key heach, wild, if_neg (ofList_ne_star hstar)]

theorem wild_stepsOf (parts : List (List Char)) :
    (stepsOf parts).map wild = stepsOf (parts.map bracketKey) := by
  unfold stepsOf
  induction parts with
  | nil => rfl
  | cons s parts ih =>
    have hempty : (bracketKey s).isEmpty = s.isEmpty := by
      unfold bracketKey
      split
      · next hs => rw [hs]; rfl
      · rfl
    rw [List.map_cons, List.filter_cons, List.filter_cons, hempty]
    split
    · simp only [List.map_cons, wild_stepOf, ih]
    · exact ih

theorem stepOf_injective {a b : String} (h : stepOf a = stepOf b) : a = b := by
  unfold stepOf at h
  split at h <;> split at h
  · next ha hb => rw [ha, hb]
  · cases h
  · cases h
  · exact Step.key.inj h

theorem parsePath_bracketed (path : String) :
    parsePath (bracketed path) = keptParts ((parts path).map bracketKey) := by
  refine List.map_injective_iff.mpr (fun _ _ h => stepOf_injective h) ?_
  rw [stepOf_parsePath_bracketed, ← stepsOf_parts, wild_stepsOf]
  rfl

/-- Parts of which some should have been replaced are told apart. -/
theorem eq_of_keptParts {xs ys : List (List Char)}
    (h : List.Forall₂ (fun s t => s = t ∨ s = ['*'] ∧ t = ['[', ']']) xs ys)
    (hkept : keptParts xs = keptParts ys) : xs = ys := by
  induction h with
  | nil => rfl
  | @cons s t xs ys hst hrest ih =>
    rcases hst with rfl | ⟨rfl, rfl⟩
    · refine congrArg _ (ih ?_)
      unfold keptParts at hkept ⊢
      rw [List.filter_cons, List.filter_cons] at hkept
      split at hkept
      · exact (List.cons.inj hkept).2
      · exact hkept
    · have hhead : String.ofList ['*'] = String.ofList ['[', ']'] := (List.cons.inj hkept).1
      exact absurd hhead (by decide)

/-- A path is parsed as its bracketed form iff its `*` stand apart. -/
theorem parsePath_eq_bracketed_iff (path : String) :
    parsePath path = parsePath (bracketed path) ↔ Text.Apart ['*'] (parts path) := by
  rw [parsePath_eq, parsePath_bracketed, ← Text.replaceParts_eq_map_iff (y := ['[', ']']) (by decide)]
  constructor
  · exact eq_of_keptParts (Text.replaceParts_forall₂ _ _ _ _)
  · intro h
    rw [h]
    rfl

/-! ## Paths that are told apart -/

/-- A segment, or a `*` that should have been `[]`. -/
def Loose (a b : String) : Prop := a = b ∨ a = "*" ∧ b = "[]"

theorem loose_parsePath (path : String) :
    List.Forall₂ Loose (parsePath path) (parsePath (bracketed path)) := by
  rw [parsePath_eq, parsePath_bracketed]
  have h := Text.replaceParts_forall₂ ['*'] ['[', ']'] false (parts path)
  change List.Forall₂ _ _ ((parts path).map bracketKey) at h
  generalize Text.replaceParts ['*'] ['[', ']'] false (parts path) = xs at h ⊢
  generalize (parts path).map bracketKey = ys at h ⊢
  induction h with
  | nil => exact .nil
  | @cons s t xs ys hst _ ih =>
    unfold keptParts at ih ⊢
    rcases hst with rfl | ⟨rfl, rfl⟩
    · rw [List.filter_cons, List.filter_cons]
      split
      · exact .cons (Or.inl rfl) ih
      · exact ih
    · exact .cons (Or.inr ⟨rfl, rfl⟩) ih

/-- A value through which the segments lead, with nothing beside them. -/
def along : List String → Json
  | [] => .bool true
  | seg :: rest => if seg = "[]" then .arr [along rest] else .obj [(seg, along rest)]

theorem along_each (rest : List String) : along ("[]" :: rest) = .arr [along rest] := if_pos rfl

theorem along_key {seg : String} (h : seg ≠ "[]") (rest : List String) :
    along (seg :: rest) = .obj [(seg, along rest)] := if_neg h

theorem along_ne_null (segs : List String) : along segs ≠ .null := by
  cases segs with
  | nil => simp [along]
  | cons seg rest =>
    by_cases hs : seg = "[]"
    · rw [hs, along_each]
      simp
    · rw [along_key hs]
      simp

theorem wf_along (segs : List String) : (along segs).WF := by
  induction segs with
  | nil => simp [along, WF]
  | cons seg rest ih =>
    by_cases hs : seg = "[]"
    · rw [hs, along_each, wf_arr]
      simpa using ih
    · rw [along_key hs, wf_obj]
      simpa using ih

theorem selectPath_along_key {seg : String} (h : seg ≠ "[]") (as bs : List String) :
    selectPath (along (seg :: as)) (seg :: bs) =
      (selectPath (along as) bs).map fun sub => .obj [(seg, sub)] := by
  rw [along_key h]
  exact selectPath_obj h List.lookup_cons_self bs

theorem selectPath_along_each (as bs : List String) :
    selectPath (along ("[]" :: as)) ("[]" :: bs) = some (.arr [(selectPath (along as) bs).getD .null]) := by
  rw [along_each]
  exact selectPath_arr [along as] bs

theorem selectPath_along (segs : List String) : selectPath (along segs) segs = some (along segs) := by
  induction segs with
  | nil => rfl
  | cons seg rest ih =>
    by_cases hs : seg = "[]"
    · rw [hs, selectPath_along_each, ih, along_each]
      rfl
    · rw [selectPath_along_key hs, ih, along_key hs]
      rfl

theorem selectPath_along_ne {as bs : List String} (h : List.Forall₂ Loose as bs) (hne : as ≠ bs) :
    selectPath (along as) bs ≠ some (along as) := by
  induction h with
  | nil => exact absurd rfl hne
  | @cons a b as bs hab _ ih =>
    rcases hab with rfl | ⟨rfl, rfl⟩
    · have ih := ih fun h => hne (by rw [h])
      by_cases ha : a = "[]"
      · rw [ha, selectPath_along_each, along_each]
        intro h
        simp only [Option.some.injEq, Json.arr.injEq, List.cons.injEq, and_true] at h
        cases hsel : selectPath (along as) bs with
        | none => exact along_ne_null as (by rw [← h, hsel]; rfl)
        | some t => exact ih (by rw [hsel, ← h, hsel]; rfl)
      · rw [selectPath_along_key ha, along_key ha]
        intro h
        obtain ⟨t, ht, hobj⟩ := Option.map_eq_some_iff.mp h
        simp only [Json.obj.injEq, List.cons.injEq, Prod.mk.injEq, true_and, and_true] at hobj
        exact ih (hobj ▸ ht)
    · rw [along_key (by decide), selectPath, if_pos rfl]
      intro h
      cases h

/-! ## The wildcard -/

theorem project_singleton (v : Json) (path : String) :
    project v [path] = (selectPath v (parsePath path)).getD .null := by
  rw [← List.nil_append [path], project_concat]
  cases selectPath v (parsePath path) with
  | none => rfl
  | some s => exact deepMerge_null s

theorem project_along (path : String) (h : parsePath path ≠ parsePath (bracketed path)) :
    project (along (parsePath path)) [path] ≠ project (along (parsePath path)) [bracketed path] := by
  rw [project_singleton, project_singleton, selectPath_along]
  intro heq
  cases hsel : selectPath (along (parsePath path)) (parsePath (bracketed path)) with
  | none =>
    rw [hsel] at heq
    exact along_ne_null _ heq
  | some s =>
    rw [hsel] at heq
    have heq : along (parsePath path) = s := heq
    exact selectPath_along_ne (loose_parsePath path) h (by rw [hsel, ← heq])

/-- `project`, `prune` and `rename` take each `*` of the path for `[]`, and a removal by it
leaves nothing where it leads. -/
structure AsBracketed (path : String) : Prop where
  projects : ∀ v : Json, v.WF → ∀ before after : List String,
    project v (before ++ path :: after) = project v (before ++ bracketed path :: after)
  prunes : ∀ v : Json, v.WF → ∀ before after : List String,
    prune v (before ++ path :: after) = prune v (before ++ bracketed path :: after)
  renames : ∀ v : Json, v.WF → ∀ new : String, rename v path new = rename v (bracketed path) new
  removes : .key "*" ∈ steps path → ∀ v : Json, v.WF → ∀ before after : List String,
    (prune v (before ++ path :: after)).valuesAt ((steps path).map wild) = []

/-- **The other wildcard.** -/
theorem wildcard_iff (path : String) : AsBracketed path ↔ Text.Apart ['*'] (parts path) := by
  rw [← parsePath_eq_bracketed_iff]
  constructor
  · intro h
    by_contra hne
    exact project_along path hne (h.projects _ (wf_along _) [] [])
  · intro h
    refine ⟨fun v _ before after => ?_, fun v _ before after => ?_, fun v _ new => ?_, ?_⟩
    · simp only [project, List.foldl_append, List.foldl_cons, h]
    · simp only [prune, List.foldl_append, List.foldl_cons, h]
    · rw [rename, rename, h]
    · intro hstar v hv before after
      rw [← stepOf_parsePath_bracketed, ← h]
      refine valuesAt_prune_parsed hv (by simp) fun hnil => ?_
      have hread := stepOf_parsePath_bracketed path
      rw [← h, hnil, List.map_nil, eq_comm, List.map_eq_nil_iff] at hread
      rw [hread] at hstar
      cases hstar

def leaking : Json := .arr [.obj [("id", .str "1"), ("secret", .str "sk")]]

/-- A wildcard in front, at the end, and behind another. -/
theorem stripped_nothing :
    ¬ AsBracketed "*.secret" ∧
      prune leaking ["*.secret"] = leaking ∧
      prune leaking ["[].secret"] = .arr [.obj [("id", .str "1")]] ∧
      prune (.obj [("rows", leaking)]) ["rows.*"] = .obj [("rows", leaking)] ∧
      prune (.obj [("rows", .arr [leaking])]) ["rows.*.*.secret"] = .obj [("rows", .arr [leaking])] := by
  refine ⟨fun h => ?_, by decide +kernel, by decide +kernel, by decide +kernel, by decide +kernel⟩
  have hw : leaking.WF := by simp [leaking, WF, WFList, WFEntries]
  have hp := h.prunes leaking hw [] []
  revert hp
  decide +kernel

end MinMcp.L2.Project
