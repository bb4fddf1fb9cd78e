import MinMcp.Core.Json.Pointer
import MinMcp.Core.Text.Segments
import MinMcp.L4App.SpecDeepen

/-!
# References into the document

A reference `#/...` is a pointer in a fragment: `Pointer.target` decodes it and walks through
objects and arrays. The walk of `Spec::expand` (src/spec.rs:192-198) takes the text between the
slashes as it is, and gets from one object to the next by it.

* `expand_at_reference`: an expansion goes on at the value `followed` leads to, or leaves the
  reference in place.
* `follow_of_fields`, `follow_of_elements`: by the same parts the two walks agree, as long as
  there is no array on the way.
* `followed_iff`: when a reference is followed to what it designates.
* `parse_of_plain`: without escapes a reference is read as it is written.
* `escaped_path_is_lost`, `list_element_is_lost`, `escaped_key_misleads`: references to a path,
  to an element of a list, and one that is followed to another value.
-/
namespace MinMcp.L4.OpenApi

open MinMcp.Core

/-- `expand` goes on at `target`, with one level less, or leaves the reference as it is. -/
def GoesTo (root : Json) (r : String) (target : Option Json) : Prop :=
  ∀ (left : Nat) (seen : List String) (es : List (String × Json)) (pass : Expansion),
    refOf (.obj es) = some r → r ∉ seen →
      expand root (left + 1) seen (.obj es) pass =
        pass.spend.bind fun pass =>
          match target with
          | some v => expand root left (seen ++ [r]) v pass
          | none => some (.obj es, pass)

theorem expand_at_reference (root : Json) (r : String) : GoesTo root r (followed root r) := by
  intro left seen es pass h hr
  rw [expand, expandWith, show (es.lookup "$ref").bind Json.asStr = some r from h]
  unfold followed
  cases hl : localRef r with
  | none => simp only [hr, if_false, hl, Option.bind_none]
  | some path =>
    cases hf : follow root path with
    | none => simp only [hr, if_false, hl, hf, Option.bind_some]
    | some target => simp only [hr, if_false, hl, hf, Option.bind_some]

/-- A reference is followed to what it designates, where it designates anything. -/
def FollowedRight (root : Json) (r : String) : Prop :=
  ∀ v, Pointer.target root r = some v → followed root r = some v

/-! ## The two walks -/

/-- The way of a pointer leads into an array. -/
def entersArray : Json → List String → Bool
  | _, [] => false
  | .arr _, _ :: _ => true
  | v, part :: path => (Pointer.child v part).any fun w => entersArray w path

theorem follow_of_fields {root : Json} {path : List String} (h : entersArray root path = false) :
    follow root path = path.foldlM Pointer.child root := by
  induction path generalizing root with
  | nil => rfl
  | cons part path ih =>
    rw [follow_cons, List.foldlM_cons]
    cases root with
    | arr xs => cases h
    | obj es =>
      show (es.lookup part).bind _ = (es.lookup part).bind _
      cases hp : es.lookup part with
      | none => rfl
      | some w =>
        have hw : entersArray w path = false := by simpa [entersArray, Pointer.child, hp] using h
        exact ih hw
    | _ => rfl

theorem follow_of_elements {root : Json} {path : List String} (h : entersArray root path = true) :
    follow root path = none := by
  induction path generalizing root with
  | nil => simp [entersArray] at h
  | cons part path ih =>
    rw [follow_cons]
    cases root with
    | obj es =>
      cases hp : es.lookup part with
      | none => simp [entersArray, Pointer.child, hp] at h
      | some w =>
        have hw : entersArray w path = true := by simpa [entersArray, Pointer.child, hp] using h
        rw [Json.get_obj, hp, Option.bind_some, ih hw]
    | _ => rfl

theorem followedRight_iff (root : Json) {r : String} {path : List String} (hr : localRef r = some path) :
    FollowedRight root r ↔
      Pointer.target root r = none ∨
        (Pointer.parse r = some path ∧ entersArray root path = false) ∨
          (Pointer.parse r ≠ some path ∧ Pointer.target root r = follow root path) := by
  have hfollowed : followed root r = follow root path := by rw [followed, hr, Option.bind_some]
  unfold FollowedRight
  rw [hfollowed]
  constructor
  · intro h
    cases ht : Pointer.target root r with
    | none => exact Or.inl rfl
    | some v =>
      have hv := h v ht
      by_cases hplain : Pointer.parse r = some path
      · refine Or.inr (Or.inl ⟨hplain, ?_⟩)
        by_contra harr
        rw [follow_of_elements (by simpa using harr)] at hv
        cases hv
      · exact Or.inr (Or.inr ⟨hplain, hv.symm⟩)
  · rintro (h | ⟨hplain, harr⟩ | ⟨-, h⟩) v hv
    · rw [h] at hv
      cases hv
    · rw [follow_of_fields harr, ← hv, Pointer.target, hplain, Option.bind_some]
    · rw [← h, hv]

/-- **When references are followed right.** An expansion goes on at `followed`, and that is what
the reference designates when it designates nothing; or it reads the same with its escapes
decoded, and its way meets no array; or it reads otherwise, and by the keys as they are written
an equal value is found. -/
theorem reference_followed_iff (root : Json) {r : String} {path : List String} (hr : localRef r = some path) :
    GoesTo root r (followed root r) ∧
      (FollowedRight root r ↔
        Pointer.target root r = none ∨
          (Pointer.parse r = some path ∧ entersArray root path = false) ∨
            (Pointer.parse r ≠ some path ∧ Pointer.target root r = follow root path)) :=
  ⟨expand_at_reference root r, followedRight_iff root hr⟩

/-! ## References without escapes -/

theorem fragmentBytes_of_plain {cs : List Char} (h : '%' ∉ cs) :
    Pointer.fragmentBytes cs = cs.flatMap String.utf8EncodeChar := by
  induction cs with
  | nil => rfl
  | cons c cs ih =>
    rw [List.mem_cons, not_or] at h
    rw [Pointer.fragmentBytes, ih h.2, List.flatMap_cons]
    · intro a b cs' hc
      exact absurd hc.symm h.1

theorem unescape_of_plain {cs : List Char} (h : '~' ∉ cs) : Pointer.unescape cs = cs := by
  induction cs with
  | nil => rfl
  | cons c cs ih =>
    rw [List.mem_cons, not_or] at h
    rw [Pointer.unescape, ih h.2]
    · intro cs' hc
      exact absurd hc.symm h.1
    · intro cs' hc
      exact absurd hc.symm h.1

/-- A reference without escapes is read as it is written. -/
theorem parse_of_plain {r : String} {path : List String} (hr : localRef r = some path)
    (hp : '%' ∉ r.toList) (ht : '~' ∉ r.toList) : Pointer.parse r = some path := by
  unfold localRef at hr
  split at hr
  · next cs hcs =>
    rw [hcs] at hp ht
    obtain rfl := Option.some.inj hr
    have hbytes : (⟨(Pointer.fragmentBytes ('/' :: cs)).toArray⟩ : ByteArray) =
        (String.ofList ('/' :: cs)).toByteArray := by
      rw [fragmentBytes_of_plain fun h => hp (List.mem_cons_of_mem _ h), String.toByteArray_ofList,
        List.utf8Encode, ByteArray.ext_iff, List.data_toByteArray]
    have hparts : Pointer.parts (String.ofList ('/' :: cs)) = some ((cs.splitOn '/').map String.ofList) := by
      rw [Pointer.parts, String.toList_ofList]
      refine congrArg some (List.map_congr_left fun part hpart => ?_)
      rw [unescape_of_plain]
      intro h
      exact ht (List.mem_cons_of_mem _ (List.mem_cons_of_mem _ (Text.subset_of_mem_splitOn hpart h)))
    rw [Pointer.parse, hcs]
    simp only [hbytes]
    rw [String.fromUTF8?, dif_pos (String.ofList ('/' :: cs)).isValidUTF8, Option.bind_some]
    exact hparts
  · cases hr

/-- Without escapes, and with no array on its way, a reference is followed right. -/
theorem followed_of_plain {root : Json} {r : String} {path : List String} (hr : localRef r = some path)
    (hp : '%' ∉ r.toList) (ht : '~' ∉ r.toList) (harr : entersArray root path = false) :
    followed root r = Pointer.target root r := by
  rw [followed, hr, Option.bind_some, follow_of_fields harr, Pointer.target, parse_of_plain hr hp ht,
    Option.bind_some]

/-! ## Three references -/

def userSchema : Json := .obj [("type", .str "string")]

/-- A path, a list of schemas, and a key that has the look of an escape. -/
def usersDocument : Json :=
  .obj [("paths", .obj [("/users", userSchema)]), ("all", .arr [userSchema]),
    ("a b", userSchema), ("a%20b", .null)]

/-- A reference to a path of the document is left as a dangling one. -/
theorem escaped_path_is_lost : localRef "#/paths/~1users" = some ["paths", "~1users"] ∧
    Pointer.target usersDocument "#/paths/~1users" = some userSchema ∧
      GoesTo usersDocument "#/paths/~1users" none ∧ ¬ FollowedRight usersDocument "#/paths/~1users" := by
  have hnone : followed usersDocument "#/paths/~1users" = none := by decide +kernel
  have htarget : Pointer.target usersDocument "#/paths/~1users" = some userSchema := by decide +kernel
  refine ⟨by decide, htarget, hnone ▸ expand_at_reference usersDocument "#/paths/~1users", fun h => ?_⟩
  have := h userSchema htarget
  rw [hnone] at this
  cases this

/-- So is a reference to an element of a list. -/
theorem list_element_is_lost : Pointer.target usersDocument "#/all/0" = some userSchema ∧
    GoesTo usersDocument "#/all/0" none := by
  have hnone : followed usersDocument "#/all/0" = none := by decide +kernel
  exact ⟨by decide +kernel, hnone ▸ expand_at_reference usersDocument "#/all/0"⟩

/-- This one is followed to the value under the key as it is written. -/
theorem escaped_key_misleads : Pointer.target usersDocument "#/a%20b" = some userSchema ∧
    GoesTo usersDocument "#/a%20b" (some .null) := by
  have hnull : followed usersDocument "#/a%20b" = some .null := by decide +kernel
  exact ⟨by decide +kernel, hnull ▸ expand_at_reference usersDocument "#/a%20b"⟩

/-- A reference to a key without escapes is followed right. -/
theorem reference_followed_iff_plain : FollowedRight usersDocument "#/all" :=
  (@reference_followed_iff usersDocument "#/all" ["all"] (by decide)).2.mpr
    (Or.inr (Or.inl ⟨parse_of_plain (by decide) (by decide) (by decide), by decide⟩))

end MinMcp.L4.OpenApi
