import MinMcp.Core.Json.Subschema
import MinMcp.L4App.Workflow

/-!
# A schema for a small display

What `get_tool_details` leaves out of a schema that is too long (src/surface/minify.rs): the prose,
the values of an enum, and the properties below a depth. `minify_schema` and `minify_schema_hard`
walk the same schemas and differ in what they strip of each.

* `subschema_walk`: every schema is still there, with what is stripped of it.
* `subschema_prune`: what a cut takes away, and that nothing else is changed.
* `pruneBelowDepth_composes`: a deeper cut before does not show.
-/
namespace MinMcp.L4.Minify

open MinMcp.Core MinMcp.Core.Subschema
open MinMcp.L4.Workflows (takeBytes)

/-- mirrors src/surface/minify.rs:8-13 -/
def truncateInPlace (s : String) (max : Nat) : String :=
  if max < s.utf8ByteSize then String.ofList (takeBytes max s.toList) ++ "…" else s

def minifyEnumCap : Nat := 24

def minifyDescChars : Nat := 120

/-- The keywords of a node's child schemas.
mirrors src/surface/minify.rs:25-46 -/
def memberKeywords : List String := ["properties", "patternProperties", "definitions", "$defs"]

def singleKeywords : List String := ["items", "additionalProperties", "not"]

def listKeywords : List String := ["anyOf", "oneOf", "allOf", "prefixItems"]

section Walk

variable (strip : List (String × Json) → List (String × Json))

mutual
/-- A schema node without what `strip` takes away, and its child schemas. The child schemas stand
under other keywords than those it takes away, so that they can come first. What is no object is
no node. -/
def walk : Json → Json
  | .obj es => .obj (strip (forEachChildSchema es))
  | .null => .null
  | .bool b => .bool b
  | .num n => .num n
  | .str s => .str s
  | .arr xs => .arr xs
termination_by structural v => v
def forEachChildSchema : List (String × Json) → List (String × Json)
  | [] => []
  | (k, v) :: es =>
    (k, if k ∈ memberKeywords then walkMembers v
      else if k ∈ singleKeywords then walk v
      else if k ∈ listKeywords then walkElements v
      else v) :: forEachChildSchema es
termination_by structural es => es
def walkMembers : Json → Json
  | .obj cs => .obj (walkValues cs)
  | .null => .null
  | .bool b => .bool b
  | .num n => .num n
  | .str s => .str s
  | .arr xs => .arr xs
termination_by structural v => v
def walkElements : Json → Json
  | .arr xs => .arr (walkList xs)
  | .null => .null
  | .bool b => .bool b
  | .num n => .num n
  | .str s => .str s
  | .obj es => .obj es
termination_by structural v => v
def walkValues : List (String × Json) → List (String × Json)
  | [] => []
  | (name, c) :: cs => (name, walk c) :: walkValues cs
termination_by structural cs => cs
def walkList : List Json → List Json
  | [] => []
  | c :: cs => walk c :: walkList cs
termination_by structural cs => cs
end

end Walk

def enumMarker (n : Nat) : String := s!"+{n} more values (see the API's own docs)"

/-- mirrors src/surface/minify.rs:60-62 -/
def capDescription (es : List (String × Json)) : List (String × Json) :=
  match es.lookup "description" with
  | some (.str d) => OrderedMap.insert "description" (.str (truncateInPlace d minifyDescChars)) es
  | _ => es

/-- A capped enum, with its marker.
mirrors src/surface/minify.rs:63-74 -/
def capEnum (es : List (String × Json)) : List (String × Json) :=
  match es.lookup "enum" with
  | some (.arr vals) =>
    if minifyEnumCap < vals.length then
      OrderedMap.insert "enum_truncated" (.str (enumMarker (vals.length - minifyEnumCap)))
        (OrderedMap.insert "enum" (.arr (vals.take minifyEnumCap)) es)
    else es
  | _ => es

/-- mirrors src/surface/minify.rs:58-74 -/
def stripProse (es : List (String × Json)) : List (String × Json) :=
  capEnum (capDescription (OrderedMap.swapRemove "examples" (OrderedMap.swapRemove "example" es)))

/-- mirrors src/surface/minify.rs:56-76 -/
def minifySchema (schema : Json) : Json := walk stripProse schema

/-- mirrors src/surface/minify.rs:85-91 -/
def stripHard (es : List (String × Json)) : List (String × Json) :=
  let es := OrderedMap.swapRemove "description" es
  let es := OrderedMap.swapRemove "title" es
  let es := OrderedMap.swapRemove "format" es
  let es := OrderedMap.swapRemove "enum_truncated" es
  match es.lookup "enum" with
  | some _ => OrderedMap.insert "enum_truncated" (.str "elided") (OrderedMap.swapRemove "enum" es)
  | none => es

/-- mirrors src/surface/minify.rs:83-93 -/
def minifySchemaHard (schema : Json) : Json := walk stripHard schema

def branchKeywords : List String := ["anyOf", "oneOf", "allOf"]

/-- The properties of a node with no depth left, counted and taken out.
mirrors src/surface/minify.rs:101-105 -/
def cutProperties (depth : Nat) (es : List (String × Json)) : List (String × Json) :=
  match es.lookup "properties" with
  | some (.obj ps) =>
    if depth = 0 then
      OrderedMap.insert "nested_fields_elided" (.num (Num.ofNat ps.length))
        (OrderedMap.swapRemove "properties" es)
    else es
  | _ => es

mutual
/-- A node's child schemas first: what is cut has none of them.
mirrors src/surface/minify.rs:99-122 -/
def pruneBelowDepth : Json → Nat → Json
  | .obj es, depth => .obj (cutProperties depth (pruneEntries es depth))
  | .null, _ => .null
  | .bool b, _ => .bool b
  | .num n, _ => .num n
  | .str s, _ => .str s
  | .arr xs, _ => .arr xs
termination_by structural v => v
def pruneEntries : List (String × Json) → Nat → List (String × Json)
  | [], _ => []
  | (k, v) :: es, depth =>
    (k, if k = "properties" then
        match depth with
        | 0 => v
        | depth + 1 => pruneMembers v depth
      else if k = "items" then pruneBelowDepth v depth
      else if k ∈ branchKeywords then pruneElements v depth
      else v) :: pruneEntries es depth
termination_by structural es => es
def pruneMembers : Json → Nat → Json
  | .obj cs, depth => .obj (pruneValues cs depth)
  | .null, _ => .null
  | .bool b, _ => .bool b
  | .num n, _ => .num n
  | .str s, _ => .str s
  | .arr xs, _ => .arr xs
termination_by structural v => v
def pruneElements : Json → Nat → Json
  | .arr xs, depth => .arr (pruneList xs depth)
  | .null, _ => .null
  | .bool b, _ => .bool b
  | .num n, _ => .num n
  | .str s, _ => .str s
  | .obj es, _ => .obj es
termination_by structural v => v
def pruneValues : List (String × Json) → Nat → List (String × Json)
  | [], _ => []
  | (name, c) :: cs, depth => (name, pruneBelowDepth c depth) :: pruneValues cs depth
termination_by structural cs => cs
def pruneList : List Json → Nat → List Json
  | [], _ => []
  | c :: cs, depth => pruneBelowDepth c depth :: pruneList cs depth
termination_by structural cs => cs
end

/-! ## What is stripped -/

/-- What the two stages strip, or leave as a marker. -/
def proseKeywords : List String :=
  ["example", "examples", "description", "enum", "enum_truncated", "title", "format"]

/-- The other keywords are as they were. -/
def Spared (es es' : List (String × Json)) : Prop :=
  (Json.obj es).WF → (Json.obj es').WF ∧ ∀ k, k ∉ proseKeywords → es'.lookup k = es.lookup k

section Spare

variable {es fs gs : List (String × Json)} {k : String}

theorem spared_refl (es : List (String × Json)) : Spared es es := fun hv => ⟨hv, fun _ _ => rfl⟩

theorem Spared.trans (h : Spared es fs) (h' : Spared fs gs) : Spared es gs := by
  intro hv
  obtain ⟨hf, hl⟩ := h hv
  obtain ⟨hg, hl'⟩ := h' hf
  exact ⟨hg, fun k hk => (hl' k hk).trans (hl k hk)⟩

theorem spared_swapRemove (hk : k ∈ proseKeywords) (es : List (String × Json)) :
    Spared es (OrderedMap.swapRemove k es) := fun hv => ⟨OrderedMap.wf_swapRemove k hv, fun j hj =>
  OrderedMap.lookup_swapRemove_of_ne (show j ≠ k from fun he => hj (he ▸ hk)) (Json.wf_obj.mp hv).1⟩

theorem spared_insert (hk : k ∈ proseKeywords) {v : Json} (hw : (Json.obj es).WF → v.WF) :
    Spared es (OrderedMap.insert k v es) := fun hv => ⟨OrderedMap.wf_insert (hw hv) hv, fun j hj =>
  OrderedMap.lookup_insert_of_ne (show j ≠ k from fun he => hj (he ▸ hk)) v es⟩

theorem spared_capDescription (es : List (String × Json)) : Spared es (capDescription es) := by
  unfold capDescription
  split
  · exact spared_insert (k := "description") (by decide) fun _ => by simp [Json.WF]
  · exact spared_refl es

theorem spared_capEnum (es : List (String × Json)) : Spared es (capEnum es) := by
  unfold capEnum
  split
  · next vals hvals =>
    split
    · have hcapped : Spared es (OrderedMap.insert "enum" (.arr (vals.take minifyEnumCap)) es) :=
        spared_insert (by decide) fun hv => Json.wf_arr.mpr fun w hw =>
          Json.wf_arr.mp (Json.wf_field hv hvals) w (List.mem_of_mem_take hw)
      exact hcapped.trans (spared_insert (k := "enum_truncated") (by decide) fun _ => by simp [Json.WF])
    · exact spared_refl es
  · exact spared_refl es

theorem spared_stripProse (es : List (String × Json)) : Spared es (stripProse es) := by
  have hexamples := (spared_swapRemove (k := "example") (by decide) es).trans
    (spared_swapRemove (k := "examples") (by decide) _)
  exact hexamples.trans ((spared_capDescription _).trans (spared_capEnum _))

theorem spared_stripHard (es : List (String × Json)) : Spared es (stripHard es) := by
  unfold stripHard
  refine (((spared_swapRemove (k := "description") (by decide) es).trans
    (spared_swapRemove (k := "title") (by decide) _)).trans
    (spared_swapRemove (k := "format") (by decide) _)).trans
    ((spared_swapRemove (k := "enum_truncated") (by decide) _).trans ?_)
  dsimp only
  split
  · exact (spared_swapRemove (k := "enum") (by decide) _).trans
      (spared_insert (k := "enum_truncated") (by decide) fun _ => by simp [Json.WF])
  · exact spared_refl _

end Spare

/-! ## The walk -/

section WalkLemmas

variable {strip : List (String × Json) → List (String × Json)}

/-- What the walk makes of the value of a keyword. -/
def walkKeyword (strip : List (String × Json) → List (String × Json)) (k : String) (v : Json) : Json :=
  if k ∈ memberKeywords then walkMembers strip v
  else if k ∈ singleKeywords then walk strip v
  else if k ∈ listKeywords then walkElements strip v
  else v

theorem forEachChildSchema_eq (es : List (String × Json)) :
    forEachChildSchema strip es = OrderedMap.mapValues (walkKeyword strip) es := by
  induction es with
  | nil => rfl
  | cons e es ih =>
    rw [forEachChildSchema, ih]
    rfl

theorem walkValues_eq (cs : List (String × Json)) :
    walkValues strip cs = OrderedMap.mapValues (fun _ => walk strip) cs := by
  induction cs with
  | nil => rfl
  | cons c cs ih =>
    rw [walkValues, ih]
    rfl

theorem walkList_eq (cs : List Json) : walkList strip cs = cs.map (walk strip) := by
  induction cs with
  | nil => rfl
  | cons c cs ih => rw [walkList, ih, List.map_cons]

theorem wf_mapValues {f : String → Json → Json} {es : List (String × Json)} (h : (Json.obj es).WF)
    (hf : ∀ e ∈ es, (f e.1 e.2).WF) : (Json.obj (OrderedMap.mapValues f es)).WF := by
  refine Json.wf_obj.mpr ⟨?_, fun e he => ?_⟩
  · rw [OrderedMap.keys_mapValues]
    exact (Json.wf_obj.mp h).1
  · obtain ⟨e', he', rfl⟩ := List.mem_map.mp he
    exact hf e' he'

theorem locate_member {es : List (String × Json)} (h : (Json.obj es).WF) {e : String × Json} (he : e ∈ es) :
    (Json.obj es).locate [.key e.1] = some e.2 := by
  have hl := OrderedMap.lookup_of_mem (Json.wf_obj.mp h).1 he
  show (es.lookup e.1).bind some = some e.2
  rw [hl]
  rfl

theorem locate_element {xs : List Json} {x : Json} (h : x ∈ xs) : ∃ i, (Json.arr xs).locate [.index i] = some x := by
  obtain ⟨i, hi⟩ := List.mem_iff_getElem?.mp h
  refine ⟨i, ?_⟩
  show (xs[i]?).bind some = some x
  rw [hi]
  rfl

theorem wf_walkKeyword {w : Json} (hw : w.WF)
    (ih : ∀ ps c, w.locate ps = some c → c.WF → (walk strip c).WF) (k : String) : (walkKeyword strip k w).WF := by
  unfold walkKeyword
  split
  · cases w with
    | obj cs =>
      rw [walkMembers, walkValues_eq]
      exact wf_mapValues hw fun c hc => ih [.key c.1] c.2 (locate_member hw hc) ((Json.wf_obj.mp hw).2 c hc)
    | _ => exact hw
  · split
    · exact ih [] w rfl hw
    · split
      · cases w with
        | arr xs =>
          rw [walkElements, walkList_eq]
          refine Json.wf_arr.mpr fun y hy => ?_
          obtain ⟨x, hx, rfl⟩ := List.mem_map.mp hy
          obtain ⟨i, hi⟩ := locate_element hx
          exact ih [.index i] x hi (Json.wf_arr.mp hw x hx)
        | _ => exact hw
      · exact hw

/-- The walk keeps keys unique. -/
theorem wf_walk (hs : ∀ es, Spared es (strip es)) {v : Json} (hv : v.WF) : (walk strip v).WF := by
  induction v using Json.below_ind with
  | step v ih =>
    cases v with
    | obj es =>
      rw [walk, forEachChildSchema_eq]
      refine (hs _ (wf_mapValues hv fun e he => ?_)).1
      have hloc := locate_member hv he
      refine wf_walkKeyword ((Json.wf_obj.mp hv).2 e he) (fun ps c hc => ih (.key e.1) ps c ?_) e.1
      exact (Json.locate_append hloc ps).trans hc
    | _ => exact hv

/-- A keyword that is not stripped. -/
theorem get_walk (hs : ∀ es, Spared es (strip es)) {v : Json} (hv : v.WF) {k : String} (hk : k ∉ proseKeywords) :
    (walk strip v).get k = (v.get k).map (walkKeyword strip k) := by
  cases v with
  | obj es =>
    have hchildren : (Json.obj (OrderedMap.mapValues (walkKeyword strip) es)).WF := wf_mapValues hv fun e he =>
      wf_walkKeyword ((Json.wf_obj.mp hv).2 e he) (fun _ _ _ hc => wf_walk hs hc) e.1
    rw [walk, forEachChildSchema_eq, Json.get_obj, Json.get_obj, (hs _ hchildren).2 k hk, OrderedMap.lookup_mapValues]
  | _ => rfl

/-- The walk goes through the step. -/
def walked : Step → Bool
  | .member kw _ => kw ≠ .dependentSchemas
  | .single kw => kw = .items || kw = .additionalProperties || kw = .not
  | .element kw _ => kw ≠ .items

theorem locate_keys (v : Json) (k name : String) :
    v.locate [.key k, .key name] = (v.get k).bind fun ms => ms.get name := by
  cases v <;> try rfl
  next es =>
    show ((es.lookup k).bind fun c => (c.child (.key name)).bind some) = _
    rw [Json.get_obj]
    refine congrArg (Option.bind _) (funext fun c => ?_)
    cases c <;> simp [Json.child, Json.get, Json.asObject]

theorem locate_index (v : Json) (k : String) (i : Nat) :
    v.locate [.key k, .index i] = (v.get k).bind fun xs => xs.asArray.bind fun ys => ys[i]? := by
  cases v <;> try rfl
  next es =>
    show ((es.lookup k).bind fun c => (c.child (.index i)).bind some) = _
    rw [Json.get_obj]
    refine congrArg (Option.bind _) (funext fun c => ?_)
    cases c <;> simp [Json.child, Json.asArray]

theorem locate_key (v : Json) (k : String) : v.locate [.key k] = v.get k := by
  cases v <;> try rfl
  next es =>
    show (es.lookup k).bind some = es.lookup k
    cases es.lookup k <;> rfl

theorem get_walkMembers (m : Json) (name : String) :
    (walkMembers strip m).get name = (m.get name).map (walk strip) := by
  cases m with
  | obj cs => rw [walkMembers, walkValues_eq, Json.get_obj, OrderedMap.lookup_mapValues, Json.get_obj]
  | _ => rfl

theorem getElem_walkElements (a : Json) (i : Nat) :
    ((walkElements strip a).asArray.bind fun ys => ys[i]?) =
      (a.asArray.bind fun ys => ys[i]?).map (walk strip) := by
  cases a with
  | arr xs =>
    rw [walkElements, walkList_eq]
    exact List.getElem?_map ..
  | _ => rfl

/-- What stands one step below a walked node. -/
theorem locate_walk (hs : ∀ es, Spared es (strip es)) {v : Json} (hv : v.WF) (s : Step) :
    (walk strip v).locate s.places = (v.locate s.places).map fun c => if walked s then walk strip c else c := by
  cases s with
  | member kw name =>
    rw [Step.places, locate_keys, locate_keys, get_walk hs hv (by cases kw <;> decide)]
    cases v.get kw.text with
    | none => rfl
    | some m =>
      cases kw with
      | dependentSchemas => exact (Option.map_id' (x := m.get name)).symm
      | _ => exact get_walkMembers m name
  | single kw =>
    rw [Step.places, locate_key, locate_key, get_walk hs hv (by cases kw <;> decide)]
    cases kw <;> rfl
  | element kw i =>
    rw [Step.places, locate_index, locate_index, get_walk hs hv (by cases kw <;> decide)]
    cases v.get kw.text with
    | none => rfl
    | some a =>
      cases kw with
      | items =>
        -- a list under `items` is no node, and is left as it is
        have hlist : (walkKeyword strip ListKeyword.items.text a).asArray.bind (fun ys => ys[i]?) =
            a.asArray.bind fun ys => ys[i]? := by
          cases a <;> rfl
        exact hlist.trans (Option.map_id' ..).symm
      | _ => exact getElem_walkElements a i

/-- **Every schema is still there.** -/
theorem subschema_walk (hs : ∀ es, Spared es (strip es)) {v : Json} (hv : v.WF) (p : List Step) :
    subschema (walk strip v) p = (subschema v p).map fun c => if p.all walked then walk strip c else c := by
  induction p generalizing v with
  | nil => rfl
  | cons s p ih =>
    rw [subschema_cons, subschema_cons, locate_walk hs hv, List.all_cons]
    cases hc : v.locate s.places with
    | none => rfl
    | some c =>
      rw [Option.map_some, Option.bind_some, Option.bind_some]
      cases walked s with
      | true => exact ih (Json.wf_locate hv hc)
      | false =>
        rw [Bool.false_and]
        exact (Option.map_id' ..).symm

end WalkLemmas

/-! ## The cut -/

section Prune

variable {v : Json} {d : Nat}

/-- What the cut makes of the value of a keyword. -/
def pruneKeyword (d : Nat) (k : String) (v : Json) : Json :=
  if k = "properties" then
    match d with
    | 0 => v
    | d + 1 => pruneMembers v d
  else if k = "items" then pruneBelowDepth v d
  else if k ∈ branchKeywords then pruneElements v d
  else v

theorem pruneEntries_eq (es : List (String × Json)) (d : Nat) :
    pruneEntries es d = OrderedMap.mapValues (pruneKeyword d) es := by
  induction es with
  | nil => rfl
  | cons e es ih =>
    rw [pruneEntries.eq_def]
    exact congrArg _ ih

theorem pruneValues_eq (cs : List (String × Json)) (d : Nat) :
    pruneValues cs d = OrderedMap.mapValues (fun _ c => pruneBelowDepth c d) cs := by
  induction cs with
  | nil => rfl
  | cons c cs ih =>
    rw [pruneValues, ih]
    rfl

theorem pruneList_eq (cs : List Json) (d : Nat) : pruneList cs d = cs.map fun c => pruneBelowDepth c d := by
  induction cs with
  | nil => rfl
  | cons c cs ih => rw [pruneList, ih, List.map_cons]

theorem cutProperties_succ (d : Nat) (es : List (String × Json)) : cutProperties (d + 1) es = es := by
  unfold cutProperties
  split
  · exact if_neg (Nat.succ_ne_zero d)
  · rfl

theorem lookup_cutProperties {es : List (String × Json)} (hn : (OrderedMap.keys es).Nodup) {k : String}
    (hp : k ≠ "properties") (hk : k ≠ "nested_fields_elided") (d : Nat) :
    (cutProperties d es).lookup k = es.lookup k := by
  unfold cutProperties
  split
  · split
    · rw [OrderedMap.lookup_insert_of_ne hk, OrderedMap.lookup_swapRemove_of_ne hp hn]
    · rfl
  · rfl

theorem nodup_pruned {es : List (String × Json)} (hn : (OrderedMap.keys es).Nodup) (d : Nat) :
    (OrderedMap.keys (OrderedMap.mapValues (pruneKeyword d) es)).Nodup := by
  rwa [OrderedMap.keys_mapValues]

/-- The keywords beside the cut. -/
theorem get_prune (hv : v.WF) {k : String} (hp : k ≠ "properties") (hk : k ≠ "nested_fields_elided") (d : Nat) :
    (pruneBelowDepth v d).get k = (v.get k).map (pruneKeyword d k) := by
  cases v with
  | obj es =>
    rw [pruneBelowDepth, pruneEntries_eq, Json.get_obj,
      lookup_cutProperties (nodup_pruned (Json.wf_obj.mp hv).1 d) hp hk, OrderedMap.lookup_mapValues, Json.get_obj]
  | _ => rfl

theorem properties_prune_succ (v : Json) (d : Nat) :
    (pruneBelowDepth v (d + 1)).get "properties" = (v.get "properties").map fun m => pruneMembers m d := by
  cases v with
  | obj es =>
    rw [pruneBelowDepth, cutProperties_succ, pruneEntries_eq, Json.get_obj, OrderedMap.lookup_mapValues, Json.get_obj]
    rfl
  | _ => rfl

/-- No depth left: the properties are gone, and counted. -/
theorem get_cut (hv : v.WF) {ps : List (String × Json)} (h : v.get "properties" = some (.obj ps)) :
    (pruneBelowDepth v 0).get "properties" = none ∧
      (pruneBelowDepth v 0).get "nested_fields_elided" = some (.num (Num.ofNat ps.length)) := by
  cases v with
  | obj es =>
    have hl : (OrderedMap.mapValues (pruneKeyword 0) es).lookup "properties" = some (.obj ps) := by
      rw [OrderedMap.lookup_mapValues, ← Json.get_obj, h]
      rfl
    have hn := nodup_pruned (Json.wf_obj.mp hv).1 0
    rw [pruneBelowDepth, pruneEntries_eq, cutProperties, hl, Json.get_obj, Json.get_obj]
    refine ⟨?_, OrderedMap.lookup_insert_self ..⟩
    exact (OrderedMap.lookup_insert_of_ne (by decide) ..).trans (OrderedMap.lookup_swapRemove_self hn)
  | _ => cases h

theorem get_cut_of_not_object (h : ∀ ps, v.get "properties" ≠ some (.obj ps)) :
    (pruneBelowDepth v 0).get "properties" = v.get "properties" := by
  cases v with
  | obj es =>
    have hl : (OrderedMap.mapValues (pruneKeyword 0) es).lookup "properties" = es.lookup "properties" := by
      rw [OrderedMap.lookup_mapValues]
      cases es.lookup "properties" <;> rfl
    rw [pruneBelowDepth, pruneEntries_eq, cutProperties, Json.get_obj]
    split
    · next ps hps => exact absurd (hl.symm.trans hps) (h ps)
    · rw [hl, Json.get_obj]
  | _ => rfl

theorem get_pruneMembers (m : Json) (name : String) (d : Nat) :
    (pruneMembers m d).get name = (m.get name).map fun c => pruneBelowDepth c d := by
  cases m with
  | obj cs => rw [pruneMembers, pruneValues_eq, Json.get_obj, OrderedMap.lookup_mapValues, Json.get_obj]
  | _ => rfl

theorem getElem_pruneElements (a : Json) (d i : Nat) :
    ((pruneElements a d).asArray.bind fun ys => ys[i]?) =
      (a.asArray.bind fun ys => ys[i]?).map fun c => pruneBelowDepth c d := by
  cases a with
  | arr xs =>
    rw [pruneElements, pruneList_eq]
    exact List.getElem?_map ..
  | _ => rfl

/-- The depth left behind a step: nothing when the step leads through what is cut, no depth when no
cut goes there. -/
def depthBehind (d : Nat) : Step → Option (Option Nat)
  | .member .properties _ =>
    match d with
    | 0 => none
    | d + 1 => some (some d)
  | .single .items | .element .anyOf _ | .element .oneOf _ | .element .allOf _ => some (some d)
  | _ => some none

/-- What stands one step below a pruned node. -/
theorem locate_prune (hv : v.WF) (d : Nat) (s : Step) : (pruneBelowDepth v d).locate s.places =
    match depthBehind d s with
    | none => none
    | some none => v.locate s.places
    | some (some d') => (v.locate s.places).map fun c => pruneBelowDepth c d' := by
  cases s with
  | member kw name =>
    rw [Step.places, locate_keys, locate_keys]
    cases kw with
    | properties =>
      cases d with
      | zero =>
        show ((pruneBelowDepth v 0).get "properties").bind (fun ms => ms.get name) = none
        by_cases h : ∃ ps, v.get "properties" = some (.obj ps)
        · obtain ⟨ps, hps⟩ := h
          rw [(get_cut hv hps).1]
          rfl
        · have hno : ∀ ps, v.get "properties" ≠ some (.obj ps) := fun ps hps => h ⟨ps, hps⟩
          rw [get_cut_of_not_object hno]
          cases hm : v.get "properties" with
          | none => rfl
          | some m =>
            cases m with
            | obj ps => exact absurd hm (hno ps)
            | _ => rfl
      | succ d =>
        show ((pruneBelowDepth v (d + 1)).get "properties").bind (fun ms => ms.get name) = _
        rw [properties_prune_succ]
        cases hm : v.get "properties" with
        | none => simp [depthBehind, MapKeyword.text, hm]
        | some m =>
          rw [Option.map_some, Option.bind_some, get_pruneMembers]
          simp [depthBehind, MapKeyword.text, hm]
    | _ =>
      rw [get_prune hv (by decide) (by decide)]
      cases v.get _ <;> rfl
  | single kw =>
    rw [Step.places, locate_key, locate_key, get_prune hv (by cases kw <;> decide) (by cases kw <;> decide)]
    cases v.get kw.text <;> cases kw <;> rfl
  | element kw i =>
    rw [Step.places, locate_index, locate_index, get_prune hv (by cases kw <;> decide) (by cases kw <;> decide)]
    cases v.get kw.text with
    | none => cases kw <;> rfl
    | some a =>
      cases kw with
      | items => cases a <;> rfl
      | prefixItems => rfl
      | _ => exact getElem_pruneElements a d i

/-- What the cut makes of the schema a path leads to; nothing when the path leads through what is
cut. -/
def pruneAt : Nat → List Step → Option (Json → Json)
  | d, [] => some fun c => pruneBelowDepth c d
  | d, s :: p =>
    match depthBehind d s with
    | none => none
    | some none => some id
    | some (some d') => pruneAt d' p

/-- **What the cut leaves.** -/
theorem subschema_prune (hv : v.WF) (d : Nat) (p : List Step) :
    subschema (pruneBelowDepth v d) p = (pruneAt d p).bind fun f => (subschema v p).map f := by
  induction p generalizing v d with
  | nil => rfl
  | cons s p ih =>
    rw [subschema_cons, subschema_cons, locate_prune hv, pruneAt]
    match depthBehind d s with
    | none => rfl
    | some none =>
      rw [Option.bind_some, Option.map_id]
      rfl
    | some (some d') =>
      cases hc : v.locate s.places with
      | none =>
        simp only [Option.map_none, Option.bind_none]
        cases pruneAt d' p <;> rfl
      | some c => exact ih (Json.wf_locate hv hc) d'

theorem depthBehind_none {s : Step} (h : depthBehind d s = none) : d = 0 ∧ ∃ name, s = .property name := by
  cases s with
  | member kw name =>
    cases kw with
    | properties =>
      cases d with
      | zero => exact ⟨rfl, name, rfl⟩
      | succ d => cases h
    | _ => cases h
  | single kw => cases kw <;> cases h
  | element kw i => cases kw <;> cases h

/-- A name takes one of the depth. -/
theorem hops_behind {s : Step} {d' : Nat} (h : depthBehind d s = some (some d')) (p : List Step) :
    hops (s :: p) + d' = hops p + d := by
  cases s with
  | member kw name =>
    cases kw with
    | properties =>
      cases d with
      | zero => cases h
      | succ d =>
        obtain rfl : d = d' := by simpa [depthBehind] using h
        rw [hops_cons_property]
        omega
    | _ => cases h
  | single kw =>
    cases kw with
    | items =>
      obtain rfl : d = d' := by simpa [depthBehind] using h
      rfl
    | _ => cases h
  | element kw i =>
    cases kw with
    | anyOf | oneOf | allOf =>
      obtain rfl : d = d' := by simpa [depthBehind] using h
      rfl
    | _ => cases h

/-- A path that is cut goes through a property of a node with no depth left. -/
theorem pruneAt_none {p : List Step} (h : pruneAt d p = none) : ∃ q name, q ++ [.property name] <+: p ∧
    hops q = d ∧ pruneAt d q = some fun c => pruneBelowDepth c 0 := by
  induction p generalizing d with
  | nil => cases h
  | cons s p ih =>
    rw [pruneAt] at h
    rcases hd : depthBehind d s with _ | _ | d'
    · obtain ⟨rfl, name, rfl⟩ := depthBehind_none hd
      exact ⟨[], name, ⟨p, rfl⟩, rfl, rfl⟩
    · rw [hd] at h
      cases h
    · rw [hd] at h
      obtain ⟨q, name, hq, hhops, hat⟩ := ih h
      have := hops_behind hd q
      exact ⟨s :: q, name, List.cons_prefix_cons.mpr ⟨rfl, hq⟩, by omega, by rw [pruneAt, hd]; exact hat⟩

/-! ## One cut behind another -/

/-- A cut after a deeper one is the cut alone. -/
def CutTwice (v : Json) : Prop :=
  ∀ d d', d' ≤ d → v.WF → pruneBelowDepth (pruneBelowDepth v d) d' = pruneBelowDepth v d'

section Twice

variable {w : Json} {d' : Nat} (hd : d' ≤ d) (hw : w.WF) (ih : ∀ ps c, w.locate ps = some c → CutTwice c)
include hd hw ih

theorem pruneMembers_twice : pruneMembers (pruneMembers w d) d' = pruneMembers w d' := by
  cases w with
  | obj cs =>
    simp only [pruneMembers, pruneValues_eq, OrderedMap.mapValues_mapValues]
    refine congrArg Json.obj (OrderedMap.mapValues_congr fun c hc => ?_)
    exact ih [.key c.1] c.2 (locate_member hw hc) d d' hd ((Json.wf_obj.mp hw).2 c hc)
  | _ => rfl

theorem pruneElements_twice : pruneElements (pruneElements w d) d' = pruneElements w d' := by
  cases w with
  | arr xs =>
    simp only [pruneElements, pruneList_eq, List.map_map]
    refine congrArg Json.arr (List.map_congr_left fun x hx => ?_)
    obtain ⟨i, hi⟩ := locate_element hx
    exact ih [.index i] x hi d d' hd (Json.wf_arr.mp hw x hx)
  | _ => rfl

/-- The values of a keyword; what is cut is not asked of. -/
theorem pruneKeyword_twice {k : String} (hk : k ≠ "properties" ∨ d' ≠ 0 ∨ ∀ ps, w ≠ .obj ps) :
    pruneKeyword d' k (pruneKeyword d k w) = pruneKeyword d' k w := by
  unfold pruneKeyword
  split
  · next hp =>
    have hcut := hk.resolve_left fun h => h hp
    match d, d' with
    | 0, 0 => rfl
    | d + 1, 0 =>
      have hno := hcut.resolve_left fun h => h rfl
      cases w with
      | obj ps => exact absurd rfl (hno ps)
      | _ => rfl
    | d + 1, d' + 1 => exact pruneMembers_twice (Nat.le_of_succ_le_succ hd) hw ih
  · split
    · exact ih [] w rfl d d' hd hw
    · split
      · exact pruneElements_twice hd hw ih
      · rfl

end Twice

theorem cutProperties_of_not_object {es : List (String × Json)}
    (h : ∀ ps, es.lookup "properties" ≠ some (.obj ps)) (d : Nat) : cutProperties d es = es := by
  unfold cutProperties
  split
  · next ps hps => exact absurd hps (h ps)
  · rfl

/-- The properties of a node are counted the same before and behind a deeper cut. -/
theorem cutProperties_object {es : List (String × Json)} {ps : List (String × Json)}
    (h : es.lookup "properties" = some (.obj ps)) : cutProperties 0 es =
      OrderedMap.insert "nested_fields_elided" (.num (Num.ofNat ps.length)) (OrderedMap.swapRemove "properties" es) := by
  unfold cutProperties
  rw [h]
  exact if_pos rfl

theorem lookup_pruned {es ps : List (String × Json)} (h : es.lookup "properties" = some (.obj ps)) (d : Nat) :
    ∃ qs, (OrderedMap.mapValues (pruneKeyword d) es).lookup "properties" = some (.obj qs) ∧
      qs.length = ps.length := by
  rw [OrderedMap.lookup_mapValues, h]
  cases d with
  | zero => exact ⟨ps, rfl, rfl⟩
  | succ d =>
    refine ⟨pruneValues ps d, rfl, ?_⟩
    rw [pruneValues_eq]
    exact List.length_map ..

theorem cutTwice_obj {es : List (String × Json)} (ih : ∀ e ∈ es, ∀ ps c, e.2.locate ps = some c → CutTwice c) :
    CutTwice (.obj es) := by
  intro d d' hd hv
  obtain ⟨hn, hwf⟩ := Json.wf_obj.mp hv
  simp only [pruneBelowDepth, pruneEntries_eq]
  refine congrArg Json.obj ?_
  by_cases hcut : d' = 0 ∧ ∃ ps, es.lookup "properties" = some (.obj ps)
  · obtain ⟨rfl, ps, hps⟩ := hcut
    obtain ⟨qs, hqs, hcount⟩ := lookup_pruned hps 0
    -- what stands beside `properties` is cut twice
    have hbeside : OrderedMap.mapValues (pruneKeyword 0)
        (OrderedMap.swapRemove "properties" (OrderedMap.mapValues (pruneKeyword d) es)) =
        OrderedMap.swapRemove "properties" (OrderedMap.mapValues (pruneKeyword 0) es) := by
      rw [OrderedMap.swapRemove_mapValues, OrderedMap.swapRemove_mapValues, OrderedMap.mapValues_mapValues]
      refine OrderedMap.mapValues_congr fun e he => ?_
      have hmem : e ∈ es := List.mem_of_mem_eraseP ((OrderedMap.swapRemove_perm _ es).subset he)
      refine pruneKeyword_twice hd (hwf e hmem) (ih e hmem) (Or.inl fun hk => ?_)
      have hgone : (OrderedMap.swapRemove "properties" es).lookup "properties" = none :=
        OrderedMap.lookup_swapRemove_self hn
      rw [OrderedMap.lookup_eq_none] at hgone
      have hkey : e.1 ∈ OrderedMap.keys (OrderedMap.swapRemove "properties" es) := List.mem_map_of_mem he
      exact hgone (hk ▸ hkey)
    rw [cutProperties_object hqs]
    cases d with
    | zero =>
      rw [cutProperties_object hqs, OrderedMap.mapValues_insert, hbeside]
      refine cutProperties_of_not_object (fun qs' h => ?_) 0
      rw [OrderedMap.lookup_insert_of_ne (by decide),
        OrderedMap.lookup_swapRemove_self (nodup_pruned hn 0)] at h
      cases h
    | succ d =>
      obtain ⟨rs, hrs, hcount'⟩ := lookup_pruned hps (d + 1)
      have hlookup : (OrderedMap.mapValues (pruneKeyword 0) (OrderedMap.mapValues (pruneKeyword (d + 1)) es)).lookup
          "properties" = some (.obj rs) := by
        rw [OrderedMap.lookup_mapValues, hrs]
        rfl
      rw [cutProperties_succ, cutProperties_object hlookup, OrderedMap.swapRemove_mapValues, hbeside, hcount, hcount']
  · -- nothing is cut here the second time, and nothing the first time either
    have hfirst : cutProperties d (OrderedMap.mapValues (pruneKeyword d) es) =
        OrderedMap.mapValues (pruneKeyword d) es := by
      cases d with
      | succ d => exact cutProperties_succ d _
      | zero =>
        refine cutProperties_of_not_object (fun ps hps => hcut ⟨Nat.le_zero.mp hd, ps, ?_⟩) 0
        rw [OrderedMap.lookup_mapValues] at hps
        obtain ⟨w, hw, hps⟩ := Option.map_eq_some_iff.mp hps
        rw [hw, ← hps]
        rfl
    rw [hfirst, OrderedMap.mapValues_mapValues]
    refine congrArg _ (OrderedMap.mapValues_congr fun e he => ?_)
    refine pruneKeyword_twice hd (hwf e he) (ih e he) ?_
    by_cases hk : e.1 = "properties"
    · refine Or.inr ?_
      by_cases hd : d' = 0
      · refine Or.inr fun ps hps => hcut ⟨hd, ps, ?_⟩
        rw [← hk, ← hps]
        exact OrderedMap.lookup_of_mem hn he
      · exact Or.inl hd
    · exact Or.inl hk

theorem cutTwice (v : Json) : CutTwice v := by
  induction v using Json.below_ind with
  | step v ih =>
    cases v with
    | obj es =>
      intro d d' hd hv
      refine cutTwice_obj (fun e he ps c hc => ?_) d d' hd hv
      exact ih (.key e.1) ps c ((Json.locate_append (locate_member hv he) ps).trans hc)
    | _ => exact fun _ _ _ _ => rfl

theorem wf_cutProperties {es : List (String × Json)} (h : (Json.obj es).WF) (d : Nat) :
    (Json.obj (cutProperties d es)).WF := by
  unfold cutProperties
  split
  · split
    · exact OrderedMap.wf_insert (by simp [Json.WF]) (OrderedMap.wf_swapRemove _ h)
    · exact h
  · exact h

theorem wf_pruneKeyword {w : Json} (hw : w.WF)
    (ih : ∀ ps c, w.locate ps = some c → ∀ d, c.WF → (pruneBelowDepth c d).WF) (d : Nat) (k : String) :
    (pruneKeyword d k w).WF := by
  unfold pruneKeyword
  split
  · split
    · exact hw
    · next d =>
      cases w with
      | obj cs =>
        rw [pruneMembers, pruneValues_eq]
        exact wf_mapValues hw fun c hc => ih [.key c.1] c.2 (locate_member hw hc) d ((Json.wf_obj.mp hw).2 c hc)
      | _ => exact hw
  · split
    · exact ih [] w rfl d hw
    · split
      · cases w with
        | arr xs =>
          rw [pruneElements, pruneList_eq]
          refine Json.wf_arr.mpr fun y hy => ?_
          obtain ⟨x, hx, rfl⟩ := List.mem_map.mp hy
          obtain ⟨i, hi⟩ := locate_element hx
          exact ih [.index i] x hi d (Json.wf_arr.mp hw x hx)
        | _ => exact hw
      · exact hw

/-- The cut keeps keys unique. -/
theorem wf_prune (hv : v.WF) (d : Nat) : (pruneBelowDepth v d).WF := by
  induction v using Json.below_ind generalizing d with
  | step v ih =>
    cases v with
    | obj es =>
      rw [pruneBelowDepth, pruneEntries_eq]
      refine wf_cutProperties (wf_mapValues hv fun e he => ?_) d
      have hloc := locate_member hv he
      refine wf_pruneKeyword ((Json.wf_obj.mp hv).2 e he) (fun ps c hc d hwf => ?_) d e.1
      exact ih (.key e.1) ps c ((Json.locate_append hloc ps).trans hc) hwf d
    | _ => exact hv

/-- One working copy, cut at one depth after the other. -/
theorem prune_stages (hv : v.WF) {ds : List Nat} (hd : ∀ e ∈ ds, d ≤ e) :
    pruneBelowDepth (ds.foldl pruneBelowDepth v) d = pruneBelowDepth v d := by
  induction ds generalizing v with
  | nil => rfl
  | cons e ds ih =>
    obtain ⟨he, hds⟩ := List.forall_mem_cons.mp hd
    rw [List.foldl_cons, ih (wf_prune hv e) hds, cutTwice v e d he hv]

/-- **Depth pruning composes.** A cut shows nothing of a deeper one before it, and so the stages can
cut one working copy. -/
theorem pruneBelowDepth_composes (hv : v.WF) :
    (∀ d d', d' ≤ d → pruneBelowDepth (pruneBelowDepth v d) d' = pruneBelowDepth v d') ∧
      ∀ (ds : List Nat) (d : Nat), (∀ e ∈ ds, d ≤ e) →
        pruneBelowDepth (ds.foldl pruneBelowDepth v) d = pruneBelowDepth v d :=
  ⟨fun d d' hd => cutTwice v d d' hd hv, fun _ _ hd => prune_stages hv hd⟩

/-- A list of orders, each with an address. -/
def orders : Json :=
  .obj [("type", .str "object"), ("properties", .obj [("orders", .obj [("type", .str "array"),
    ("items", .obj [("properties", .obj [("address", .obj [("properties", .obj [("city", .obj [])])])])])])])]

theorem pruneBelowDepth_composes_orders :
    pruneBelowDepth (pruneBelowDepth (pruneBelowDepth orders 5) 2) 1 = pruneBelowDepth orders 1 ∧
      pruneBelowDepth (pruneBelowDepth orders 2) 1 = pruneBelowDepth orders 1 := by
  have horders : orders.WF := by
    simp [orders, Json.WF, Json.WFEntries, OrderedMap.keys]
  exact ⟨(pruneBelowDepth_composes horders).2 [5, 2] 1 (by decide), (pruneBelowDepth_composes horders).1 2 1 (by decide)⟩

end Prune

end MinMcp.L4.Minify
