import MinMcp.Core.Json.Locations
import MinMcp.L2Machine.Projection

/-!
# What pruning and projecting leave

A path of src/project.rs addresses locations of a payload: `data[].id` is the field
`data`, every element of that array, its field `id`. `steps` reads the text of a path
as it is documented there, and agrees with `parse_path` on every text in which no
key is `*`, the other spelling of `[]` (`stepOf_parsePath`).

* `valuesAt_prune`: after `prune` nothing stands where a path of the list leads.
* `narrower_prune`, `narrower_project`: neither adds anything to the payload.
-/
namespace MinMcp.L2.Project

open MinMcp.Core MinMcp.Core.Json

/-! ## The text of a path -/

def keyStep (acc : List Char) : List Step := if acc = [] then [] else [.key (String.ofList acc)]

/-- `acc` is what has been read of a key. A dot ends it, and so does `[]`, which is a
step of its own. -/
def scanPath (acc : List Char) : List Char → List Step
  | '[' :: ']' :: cs => keyStep acc ++ .each :: scanPath [] cs
  | '.' :: cs => keyStep acc ++ scanPath [] cs
  | c :: cs => scanPath (acc ++ [c]) cs
  | [] => keyStep acc

/-- The locations a path addresses: dotted keys, and `[]` for every element. -/
def steps (path : String) : List Step := scanPath [] path.toList

/-- What a segment of a parsed path stands for. -/
def stepOf (seg : String) : Step := if seg = "[]" then .each else .key seg

theorem stepOf_key {seg : String} (h : seg ≠ "[]") : stepOf seg = .key seg := if_neg h

/-- The steps of the parts of a dotted text. -/
def stepsOf (parts : List (List Char)) : List Step :=
  ((parts.filter fun s => !s.isEmpty).map String.ofList).map stepOf

theorem stepsOf_cons {acc : List Char} (h : acc ≠ "[]".toList) (parts : List (List Char)) :
    stepsOf (acc :: parts) = keyStep acc ++ stepsOf parts := by
  unfold stepsOf keyStep
  by_cases ha : acc = []
  · simp [ha]
  · have hkey : String.ofList acc ≠ "[]" := fun he => h (by rw [← he, String.toList_ofList])
    simp [ha, stepOf_key hkey]

theorem stepsOf_each (parts : List (List Char)) :
    stepsOf (['[', ']'] :: parts) = .each :: stepsOf parts := rfl

/-- By the scan of the text: the key being read has no dot, and is not the `[]` that
the scan would have taken as a step. -/
theorem stepsOf_dotted {acc : List Char} (hdot : '.' ∉ acc) (hne : acc ≠ ['[', ']']) (cs : List Char)
    (hnext : acc = ['['] → cs.head? ≠ some ']') :
    stepsOf ((acc ++ Text.replaceAll "[]".toList ".[].".toList cs).splitOn '.') = scanPath acc cs := by
  fun_induction scanPath acc cs with
  | case1 acc cs ih =>
    have hrep : Text.replaceAll "[]".toList ".[].".toList ('[' :: ']' :: cs) =
        '.' :: (['[', ']'] ++ '.' :: Text.replaceAll "[]".toList ".[].".toList cs) :=
      Text.replaceAll_append_match (by simp) _ cs
    rw [hrep, List.splitOn_append_cons_self_of_not_mem hdot,
      List.splitOn_append_cons_self_of_not_mem (by decide), stepsOf_cons hne, stepsOf_each]
    rw [List.nil_append] at ih
    rw [ih (by simp) (by simp) (by simp)]
  | case2 acc cs ih =>
    have hmiss : ¬ "[]".toList <+: '.' :: cs := by simp
    rw [Text.replaceAll_cons_of_mismatch hmiss, List.splitOn_append_cons_self_of_not_mem hdot,
      stepsOf_cons hne]
    rw [List.nil_append] at ih
    rw [ih (by simp) (by simp) (by simp)]
  | case3 acc c cs hpair hc ih =>
    have hmiss : ¬ "[]".toList <+: c :: cs := by
      intro hp
      obtain ⟨rest, hr⟩ := hp
      have hr : '[' :: ']' :: rest = c :: cs := hr
      rw [List.cons.injEq] at hr
      exact hpair rest hr.1.symm hr.2.symm
    rw [Text.replaceAll_cons_of_mismatch hmiss, List.append_cons]
    refine ih ?_ (fun he => ?_) (fun he hh => ?_)
    · simpa [hdot, eq_comm] using hc
    · obtain ⟨ha, hb⟩ := List.append_inj' (show acc ++ [c] = ['['] ++ [']'] from he) rfl
      rw [List.singleton_inj] at hb
      exact hnext ha (by rw [hb]; rfl)
    · obtain ⟨-, hb⟩ := List.append_inj' (show acc ++ [c] = [] ++ ['['] from he) rfl
      obtain ⟨rest, hrest⟩ := List.head?_eq_some_iff.mp hh
      exact hpair rest (List.singleton_inj.mp hb) hrest
  | case4 acc =>
    rw [Text.replaceAll_nil, List.append_nil, List.splitOn_eq_singleton hdot, stepsOf_cons hne]
    simp [stepsOf]

theorem exists_of_occ {pat cs : List Char} (h : Text.occ pat cs ≠ 0) : pat <:+: cs := by
  induction cs with
  | nil => exact absurd rfl h
  | cons c cs ih =>
    by_cases hp : pat <+: c :: cs
    · exact hp.isInfix
    · rw [Text.occ_cons_of_mismatch hp] at h
      exact List.infix_cons (ih h)

/-- Reading a path as it is documented is parsing it, unless one of its keys is the
other wildcard. -/
theorem stepOf_parsePath {path : String} (h : .key "*" ∉ steps path) :
    (parsePath path).map stepOf = steps path := by
  have hdotted : stepsOf ((Text.replaceAll "[]".toList ".[].".toList path.toList).splitOn '.') =
      scanPath [] path.toList :=
    stepsOf_dotted (List.not_mem_nil) (List.cons_ne_nil _ _).symm path.toList (fun h => nomatch h)
  have hkeep : Text.replaceAll ".*.".toList ".[].".toList
      (Text.replaceAll "[]".toList ".[].".toList path.toList) =
      Text.replaceAll "[]".toList ".[].".toList path.toList := by
    refine Text.replaceAll_eq_self ?_
    by_contra hocc
    obtain ⟨xs, ys, hxy⟩ := exists_of_occ hocc
    refine h ?_
    rw [steps, ← hdotted, ← hxy]
    have hsplit : (xs ++ ".*.".toList ++ ys).splitOn '.' = xs.splitOn '.' ++ ['*'] :: ys.splitOn '.' := by
      rw [List.append_assoc]
      show (xs ++ '.' :: (['*'] ++ '.' :: ys)).splitOn '.' = _
      rw [List.splitOn_append_cons_self, List.splitOn_append_cons_self_of_not_mem (by decide)]
    rw [hsplit]
    simp [stepsOf, stepOf]
  rw [steps, ← hdotted, parsePath, hkeep]
  rfl

example : steps "data[].meta.pii" = [.key "data", .each, .key "meta", .key "pii"] := by decide +kernel

/-! ## Removing one path -/

theorem removeAt_each (v : Json) (rest : List String) :
    removeAt v ("[]" :: rest) =
      match v with
      | .arr xs => .arr (if rest = [] then [] else xs.map fun e => removeAt e rest)
      | v => v := by
  cases rest <;> cases v <;> rfl

theorem removeAt_key {seg : String} (h : seg ≠ "[]") (v : Json) (rest : List String) :
    removeAt v (seg :: rest) =
      match v with
      | .obj es =>
        if rest = [] then .obj (OrderedMap.swapRemove seg es)
        else match es.lookup seg with
          | some child => .obj (OrderedMap.insert seg (removeAt child rest) es)
          | none => .obj es
      | v => v := by
  cases rest with
  | nil => cases v <;> simp [removeAt, h]
  | cons _ _ =>
    cases v with
    | obj es => cases hl : es.lookup seg <;> simp [removeAt, h, hl]
    | _ => simp only [removeAt, if_neg h]

/-- What a removal does at each kind of value: the last `[]` empties an array, the last
key takes a field, the others lead on; where a step leads nowhere nothing happens. -/
theorem removeAt_induct {P : Json → List String → Json → Prop} (here : ∀ v, P v [] v)
    (clear : ∀ xs, P (.arr xs) ["[]"] (.arr []))
    (elems : ∀ xs rest, rest ≠ [] → (∀ e ∈ xs, P e rest (removeAt e rest)) →
      P (.arr xs) ("[]" :: rest) (.arr (xs.map fun e => removeAt e rest)))
    (field : ∀ es seg, seg ≠ "[]" → P (.obj es) [seg] (.obj (OrderedMap.swapRemove seg es)))
    (child : ∀ es seg rest c, seg ≠ "[]" → rest ≠ [] → es.lookup seg = some c → P c rest (removeAt c rest) →
      P (.obj es) (seg :: rest) (.obj (OrderedMap.insert seg (removeAt c rest) es)))
    (keep : ∀ v seg rest, (∀ p, v.valuesAt (stepOf seg :: p) = []) → P v (seg :: rest) v)
    (v : Json) (segs : List String) : P v segs (removeAt v segs) := by
  induction segs generalizing v with
  | nil => cases v <;> exact here _
  | cons seg rest ih =>
    by_cases hs : seg = "[]"
    · subst hs
      rw [removeAt_each]
      cases v with
      | arr xs =>
        by_cases hr : rest = []
        · subst hr; exact clear xs
        · simp only [if_neg hr]
          exact elems xs rest hr fun e _ => ih e
      | _ => exact keep _ _ rest fun _ => rfl
    · rw [removeAt_key hs]
      cases v with
      | obj es =>
        by_cases hr : rest = []
        · subst hr; exact field es seg hs
        · cases hl : es.lookup seg with
          | some c =>
            simp only [if_neg hr, hl]
            exact child es seg rest c hs hr hl (ih c)
          | none =>
            simp only [if_neg hr, hl]
            exact keep _ seg rest fun p => by rw [stepOf_key hs, valuesAt, get_obj, hl]
      | _ => exact keep _ seg rest fun p => by rw [stepOf_key hs]; rfl

theorem wf_map {xs : List Json} {f : Json → Json} (hf : ∀ e ∈ xs, (f e).WF) :
    (Json.arr (xs.map f)).WF := by
  rw [wf_arr]
  simpa using hf

theorem wf_removeAt {v : Json} (h : v.WF) (segs : List String) : (removeAt v segs).WF := by
  induction v, segs using removeAt_induct with
  | here v => exact h
  | clear xs => exact JsonReader.wf_arr_nil
  | elems xs rest _ ih => exact wf_map fun e he => ih e he (wf_arr.mp h _ he)
  | field es seg _ => exact OrderedMap.wf_swapRemove _ h
  | child es seg rest c _ _ hl ih => exact OrderedMap.wf_insert (ih (wf_field h hl)) h
  | keep v seg rest _ => exact h

theorem narrower_swapRemove {es : List (String × Json)} (h : (Json.obj es).WF) (k : String) :
    (Json.obj (OrderedMap.swapRemove k es)).Narrower (.obj es) := by
  refine narrower_obj fun k' w hw => ⟨w, ?_, narrower_refl w⟩
  by_cases hk : k' = k
  · rw [hk, OrderedMap.lookup_swapRemove_self (wf_obj.mp h).1] at hw
    cases hw
  · rwa [OrderedMap.lookup_swapRemove_of_ne hk (wf_obj.mp h).1] at hw

theorem narrower_insert {es : List (String × Json)} {k : String} {v w : Json} (hk : es.lookup k = some v)
    (hw : w.Narrower v) : (Json.obj (OrderedMap.insert k w es)).Narrower (.obj es) := by
  refine narrower_obj fun k' x hx => ?_
  by_cases he : k' = k
  · rw [he, OrderedMap.lookup_insert_self, Option.some.injEq] at hx
    exact ⟨v, he ▸ hk, hx ▸ hw⟩
  · rw [OrderedMap.lookup_insert_of_ne he] at hx
    exact ⟨x, hx, narrower_refl x⟩

theorem narrower_map {xs : List Json} {f : Json → Json} (hf : ∀ e ∈ xs, (f e).Narrower e) :
    (Json.arr (xs.map f)).Narrower (.arr xs) := by
  refine narrower_arr fun w hw => ?_
  obtain ⟨e, he, rfl⟩ := List.mem_map.mp hw
  exact ⟨e, he, hf e he⟩

theorem narrower_removeAt {v : Json} (h : v.WF) (segs : List String) : (removeAt v segs).Narrower v := by
  induction v, segs using removeAt_induct with
  | here v => exact narrower_refl v
  | clear xs => exact narrower_arr fun w hw => nomatch hw
  | elems xs rest _ ih => exact narrower_map fun e he => ih e he (wf_arr.mp h _ he)
  | field es seg _ => exact narrower_swapRemove h seg
  | child es seg rest c _ _ hl ih => exact narrower_insert hl (ih (wf_field h hl))
  | keep v seg rest _ => exact narrower_refl v

/-- Where the path leads nothing is left. -/
theorem valuesAt_removeAt {v : Json} (h : v.WF) {segs : List String} (hne : segs ≠ []) :
    (removeAt v segs).valuesAt (segs.map stepOf) = [] := by
  induction v, segs using removeAt_induct with
  | here v => exact absurd rfl hne
  | clear xs => rfl
  | elems xs rest hr ih =>
    refine List.flatMap_eq_nil_iff.mpr fun e he => ?_
    obtain ⟨e, hm, rfl⟩ := List.mem_map.mp he
    exact ih e hm (wf_arr.mp h _ hm) hr
  | field es seg hs =>
    rw [List.map_cons, stepOf_key hs, valuesAt, get_obj, OrderedMap.lookup_swapRemove_self (wf_obj.mp h).1]
  | child es seg rest c hs hr hl ih =>
    rw [List.map_cons, stepOf_key hs, valuesAt, get_obj, OrderedMap.lookup_insert_self]
    exact ih (wf_field h hl) hr
  | keep v seg rest hnone => exact hnone _

/-! ## Removing a list of paths -/

theorem wf_prune {v : Json} (h : v.WF) (paths : List String) : (prune v paths).WF := by
  unfold prune
  induction paths generalizing v with
  | nil => exact h
  | cons p ps ih => exact ih (wf_removeAt h _)

theorem narrower_prune {v : Json} (h : v.WF) (paths : List String) : (prune v paths).Narrower v := by
  unfold prune
  induction paths generalizing v with
  | nil => exact narrower_refl v
  | cons p ps ih => exact narrower_trans (ih (wf_removeAt h _)) (narrower_removeAt h _)

theorem valuesAt_prune_parsed {v : Json} (h : v.WF) {paths : List String} {p : String} (hp : p ∈ paths)
    (hne : parsePath p ≠ []) : (prune v paths).valuesAt ((parsePath p).map stepOf) = [] := by
  induction paths generalizing v with
  | nil => cases hp
  | cons q qs ih =>
    have hq : (removeAt v (parsePath q)).WF := wf_removeAt h _
    rcases List.mem_cons.mp hp with rfl | hp
    · exact valuesAt_of_narrower (narrower_prune hq qs) (valuesAt_removeAt h hne)
    · exact ih hq hp

/-- **Removal.** After `prune` nothing stands at a location that a path of the list
addresses. -/
theorem valuesAt_prune {v : Json} (h : v.WF) {paths : List String} {p : String} (hp : p ∈ paths)
    (hne : steps p ≠ []) (hstar : .key "*" ∉ steps p) : (prune v paths).valuesAt (steps p) = [] := by
  rw [← stepOf_parsePath hstar]
  refine valuesAt_prune_parsed h hp fun he => hne ?_
  rw [← stepOf_parsePath hstar, he, List.map_nil]

/-! ## Projecting -/

/-- What is selected along a path: the whole value at its end, an array as long as the one
it goes through, an object with the one key it takes. -/
theorem selectPath_induct {P : Json → List String → Json → Prop} (here : ∀ v, P v [] v)
    (each : ∀ xs rest, (∀ x ∈ xs, ∀ t, selectPath x rest = some t → P x rest t) →
      P (.arr xs) ("[]" :: rest) (.arr (xs.map fun e => (selectPath e rest).getD .null)))
    (key : ∀ es seg rest c sub, seg ≠ "[]" → es.lookup seg = some c → selectPath c rest = some sub →
      P c rest sub → P (.obj es) (seg :: rest) (.obj [(seg, sub)]))
    {v s : Json} {segs : List String} (h : selectPath v segs = some s) : P v segs s := by
  induction segs generalizing v s with
  | nil =>
    rw [selectPath, Option.some.injEq] at h
    exact h ▸ here v
  | cons seg rest ih =>
    rw [selectPath] at h
    split at h
    · next hs =>
      obtain ⟨xs, hxs, rfl⟩ := Option.map_eq_some_iff.mp h
      cases v with
      | arr ys =>
        cases hxs
        exact hs ▸ each _ rest fun x _ t ht => ih ht
      | _ => cases hxs
    · next hs =>
      obtain ⟨c, hc, hsel⟩ := Option.bind_eq_some_iff.mp h
      obtain ⟨sub, hsub, rfl⟩ := Option.map_eq_some_iff.mp hsel
      cases v with
      | obj es => exact key es seg rest c sub hs (by rw [← hc, get_obj]) hsub (ih hsub)
      | _ => cases hc

theorem wf_selectPath {v s : Json} (h : v.WF) {segs : List String} (hs : selectPath v segs = some s) :
    s.WF := by
  refine selectPath_induct (P := fun v _ s => v.WF → s.WF) ?here ?each ?key hs h
  case here => exact fun v h => h
  case each =>
    intro xs rest ih h
    refine wf_map fun e he => ?_
    cases hsel : selectPath e rest with
    | none => trivial
    | some t => exact ih e he t hsel (wf_arr.mp h e he)
  case key =>
    intro es seg rest c sub _ hc _ ih h
    refine wf_obj.mpr ⟨by simp, fun e he => ?_⟩
    rw [List.mem_singleton.mp he]
    exact ih (wf_field h hc)

theorem narrower_selectPath {v s : Json} {segs : List String} (hs : selectPath v segs = some s) :
    s.Narrower v := by
  refine selectPath_induct (P := fun v _ s => s.Narrower v) ?here ?each ?key hs
  case here => exact narrower_refl
  case each =>
    intro xs rest ih
    refine narrower_map fun e he => ?_
    cases hsel : selectPath e rest with
    | none => exact narrower_null e
    | some t => exact ih e he t hsel
  case key =>
    intro es seg rest c sub _ hc _ ih
    refine narrower_obj fun k w hw => ?_
    by_cases hk : k = seg
    · rw [hk, List.lookup_cons_self, Option.some.injEq] at hw
      exact ⟨c, hk ▸ hc, hw ▸ ih⟩
    · rw [OrderedMap.lookup_cons_of_ne hk] at hw
      cases hw

/-- Objects are merged by key and arrays by position, the second value's parts into those of
the first; `null` gives way, and every other value stays. -/
theorem deepMerge_induct {P : Json → Json → Json → Prop}
    (obj : ∀ am bm, (∀ e ∈ bm, ∀ a, P a e.2 (deepMerge a e.2)) →
      P (.obj am) (.obj bm) (.obj (mergeEntries am bm)))
    (arr : ∀ aa ba, (∀ w ∈ ba, ∀ a, P a w (deepMerge a w)) →
      P (.arr aa) (.arr ba) (.arr (mergeItems aa ba)))
    (left : ∀ a b, P a b a) (right : ∀ a b, P a b b) (a b : Json) : P a b (deepMerge a b) := by
  induction b using Json.ind generalizing a with
  | obj bm ih =>
    cases a with
    | obj am => exact obj am bm ih
    | null => exact right _ _
    | _ => exact left _ _
  | arr ba ih =>
    cases a with
    | arr aa => exact arr aa ba ih
    | null => exact right _ _
    | _ => exact left _ _
  | _ =>
    cases a with
    | null => exact right _ _
    | _ => exact left _ _

/-- Arrays are merged position by position. -/
theorem getElem?_mergeItems (aa ba : List Json) (i : Nat) :
    (mergeItems aa ba)[i]? = Option.merge deepMerge aa[i]? ba[i]? := by
  induction ba generalizing aa i with
  | nil => cases aa <;> simp [mergeItems]
  | cons y ba ih =>
    cases aa with
    | nil => simp [mergeItems]
    | cons x aa =>
      cases i with
      | zero => rfl
      | succ i => exact ih aa i

theorem mem_mergeItems {aa ba : List Json} {z : Json} (hz : z ∈ mergeItems aa ba) :
    z ∈ aa ∨ z ∈ ba ∨ ∃ x ∈ aa, ∃ y ∈ ba, z = deepMerge x y := by
  obtain ⟨i, hi⟩ := List.getElem?_of_mem hz
  rw [getElem?_mergeItems, Option.merge_eq_some_iff] at hi
  rcases hi with ⟨h, -⟩ | ⟨-, h⟩ | ⟨x, y, hx, hy, h⟩
  · exact Or.inl (List.mem_of_getElem? h)
  · exact Or.inr (Or.inl (List.mem_of_getElem? h))
  · exact Or.inr (Or.inr ⟨x, List.mem_of_getElem? hx, y, List.mem_of_getElem? hy, h.symm⟩)

/-- One key of the second object merged into the first. -/
def mergeEntry (am : List (String × Json)) (k : String) (v : Json) : List (String × Json) :=
  OrderedMap.insert k
    (match am.lookup k with
      | some av => deepMerge av v
      | none => v)
    (OrderedMap.swapRemove k am)

theorem mergeEntries_cons (am : List (String × Json)) (k : String) (v : Json) (bm : List (String × Json)) :
    mergeEntries am ((k, v) :: bm) = mergeEntries (mergeEntry am k v) bm := rfl

theorem nodup_mergeEntry {am : List (String × Json)} (hn : (OrderedMap.keys am).Nodup) (k : String)
    (v : Json) : (OrderedMap.keys (mergeEntry am k v)).Nodup :=
  OrderedMap.nodup_insert _ _ (OrderedMap.nodup_swapRemove k hn)

theorem nodup_mergeEntries {am : List (String × Json)} (hn : (OrderedMap.keys am).Nodup)
    (bm : List (String × Json)) : (OrderedMap.keys (mergeEntries am bm)).Nodup := by
  induction bm generalizing am with
  | nil => exact hn
  | cons e bm ih =>
    rw [mergeEntries_cons]
    exact ih (nodup_mergeEntry hn e.1 e.2)

/-- Objects are merged key by key. -/
theorem lookup_mergeEntries {am bm : List (String × Json)} (ha : (OrderedMap.keys am).Nodup)
    (hb : (OrderedMap.keys bm).Nodup) (k : String) :
    (mergeEntries am bm).lookup k = Option.merge deepMerge (am.lookup k) (bm.lookup k) := by
  induction bm generalizing am with
  | nil => rw [List.lookup_nil, Option.merge_none_right]; rfl
  | cons e bm ih =>
    obtain ⟨k', v⟩ := e
    rw [OrderedMap.keys_cons, List.nodup_cons] at hb
    rw [mergeEntries_cons, ih (nodup_mergeEntry ha k' v) hb.2, mergeEntry]
    by_cases hk : k = k'
    · subst hk
      rw [OrderedMap.lookup_eq_none.mpr hb.1, Option.merge_none_right, OrderedMap.lookup_insert_self,
        List.lookup_cons_self]
      cases am.lookup k <;> rfl
    · rw [OrderedMap.lookup_insert_of_ne hk, OrderedMap.lookup_swapRemove_of_ne hk ha,
        OrderedMap.lookup_cons_of_ne hk]

theorem wf_deepMerge {a b : Json} (ha : a.WF) (hb : b.WF) : (deepMerge a b).WF := by
  induction a, b using deepMerge_induct with
  | obj am bm ih =>
    have hn := nodup_mergeEntries (wf_obj.mp ha).1 bm
    refine wf_obj.mpr ⟨hn, fun e he => ?_⟩
    have hl := OrderedMap.lookup_of_mem hn he
    rw [lookup_mergeEntries (wf_obj.mp ha).1 (wf_obj.mp hb).1, Option.merge_eq_some_iff] at hl
    rcases hl with ⟨h, -⟩ | ⟨-, h⟩ | ⟨x, y, hx, hy, h⟩
    · exact wf_field ha h
    · exact wf_field hb h
    · rw [← h]
      exact ih _ (OrderedMap.mem_of_lookup hy) x (wf_field ha hx) (wf_field hb hy)
  | arr aa ba ih =>
    refine wf_arr.mpr fun z hz => ?_
    rcases mem_mergeItems hz with h | h | ⟨x, hx, y, hy, rfl⟩
    · exact wf_arr.mp ha _ h
    · exact wf_arr.mp hb _ h
    · exact ih y hy x (wf_arr.mp ha _ hx) (wf_arr.mp hb _ hy)
  | left a b => exact ha
  | right a b => exact hb

theorem joins_deepMerge {a b : Json} (ha : a.WF) (hb : b.WF) : Joins a b (deepMerge a b) := by
  induction a, b using deepMerge_induct with
  | obj am bm ih =>
    refine joins_obj fun k c hc => ?_
    rw [lookup_mergeEntries (wf_obj.mp ha).1 (wf_obj.mp hb).1, Option.merge_eq_some_iff] at hc
    rcases hc with ⟨h, -⟩ | ⟨-, h⟩ | ⟨u, w, hu, hw, rfl⟩
    · exact Or.inl h
    · exact Or.inr (Or.inl h)
    · have hj := ih _ (OrderedMap.mem_of_lookup hw) u (wf_field ha hu) (wf_field hb hw)
      exact Or.inr (Or.inr ⟨u, w, hu, hw, hj⟩)
  | arr aa ba ih =>
    refine joins_arr fun z hz => ?_
    rcases mem_mergeItems hz with h | h | ⟨u, hu, w, hw, rfl⟩
    · exact Or.inl h
    · exact Or.inr (Or.inl h)
    · exact Or.inr (Or.inr ⟨u, hu, w, hw, ih w hw u (wf_arr.mp ha _ hu) (wf_arr.mp hb _ hw)⟩)
  | left a b => exact joins_left a b
  | right a b => exact joins_right a b

/-- The projection so far, and the next path merged into it. -/
theorem project_step {v acc : Json} (hv : v.WF) (ha : acc.WF ∧ acc.Narrower v) (paths : List String) :
    let out := paths.foldl (fun acc p =>
      match selectPath v (parsePath p) with
      | some sel => deepMerge acc sel
      | none => acc) acc
    out.WF ∧ out.Narrower v := by
  induction paths generalizing acc with
  | nil => exact ha
  | cons p ps ih =>
    rw [List.foldl_cons]
    cases hs : selectPath v (parsePath p) with
    | none => exact ih ha
    | some sel =>
      have hsel := wf_selectPath hv hs
      exact ih ⟨wf_deepMerge ha.1 hsel,
        narrower_of_joins (joins_deepMerge ha.1 hsel) ha.2 (narrower_selectPath hs)⟩

theorem wf_null : Json.null.WF := by simp [WF]

theorem wf_project {v : Json} (h : v.WF) (paths : List String) : (project v paths).WF :=
  (project_step h ⟨wf_null, narrower_null v⟩ paths).1

theorem narrower_project {v : Json} (h : v.WF) (paths : List String) : (project v paths).Narrower v :=
  (project_step h ⟨wf_null, narrower_null v⟩ paths).2

end MinMcp.L2.Project
