import MinMcp.Core.Json.Read

/-!
# What is read has unique keys

The reader builds every object by insertion, so each value it hands on is well
formed: `wf_step` is the invariant of one character, `wf_read` that of a document.
-/
namespace MinMcp.Core

namespace OrderedMap

variable {α : Type}

theorem wf_insert {k : String} {v : Json} {es : List (String × Json)} (hv : v.WF)
    (h : (Json.obj es).WF) : (Json.obj (insert k v es)).WF := by
  rw [Json.wf_obj] at h ⊢
  refine ⟨nodup_insert k v h.1, fun e he => ?_⟩
  rcases mem_insert he with rfl | he
  · exact hv
  · exact h.2 e he

theorem wf_swapRemove {es : List (String × Json)} (k : String) (h : (Json.obj es).WF) :
    (Json.obj (swapRemove k es)).WF := by
  rw [Json.wf_obj] at h ⊢
  refine ⟨nodup_swapRemove k h.1, fun e he => ?_⟩
  exact h.2 e (List.mem_of_mem_eraseP ((swapRemove_perm k es).subset he))

end OrderedMap

namespace JsonReader

open Json

def Frame.WF : Frame → Prop
  | .arr xs => (Json.arr xs).WF
  | .obj es _ => (Json.obj es).WF

def StrFor.WF : StrFor → Prop
  | .value => True
  | .key es => (Json.obj es).WF

def Mode.WF : Mode → Prop
  | .arrNext xs => (Json.arr xs).WF
  | .objKey es | .colon es _ | .objNext es => (Json.obj es).WF
  | .str f _ | .esc f _ | .hex f _ _ _ _ | .low f _ _ | .lowU f _ _ => f.WF
  | .word _ v | .done v => v.WF
  | .value | .arrFirst | .objFirst | .num _ _ => True

structure Reader.WF (r : Reader) : Prop where
  stack : ∀ f ∈ r.stack, f.WF
  mode : r.mode.WF

theorem wf_arr_append {xs : List Json} {v : Json} (h : (Json.arr xs).WF) (hv : v.WF) :
    (Json.arr (xs ++ [v])).WF := by
  rw [wf_arr] at h ⊢
  simpa [or_imp, forall_and] using ⟨h, hv⟩

theorem wf_arr_nil : (Json.arr []).WF := by simp [Json.WF, WFList]

theorem wf_obj_nil : (Json.obj []).WF := by simp [Json.WF, WFEntries]

theorem wf_complete {v : Json} {st : List Frame} (hv : v.WF) (hs : ∀ f ∈ st, f.WF) :
    (complete v st).WF := by
  cases st with
  | nil => exact ⟨hs, hv⟩
  | cons f st =>
    have hf := hs f List.mem_cons_self
    have hst : ∀ g ∈ st, g.WF := fun g hg => hs g (List.mem_cons_of_mem _ hg)
    cases f with
    | arr xs => exact ⟨hst, wf_arr_append hf hv⟩
    | obj es k => exact ⟨hst, OrderedMap.wf_insert hv hf⟩

theorem wf_startValue {st : List Frame} {c : Char} {r : Reader} (hs : ∀ f ∈ st, f.WF)
    (h : startValue st c = some r) : r.WF := by
  unfold startValue at h
  repeat' split at h
  all_goals first
    | (obtain ⟨s, -, rfl⟩ := Option.map_eq_some_iff.mp h; exact ⟨hs, trivial⟩)
    | (cases h; exact ⟨hs, by simp [Mode.WF, StrFor.WF, Json.WF]⟩)
    | cases h

theorem wf_next {r r' : Reader} {c : Char} (hr : r.WF) (h : next r c = some r') : r'.WF := by
  obtain ⟨st, m⟩ := r
  have ⟨hs, hm⟩ := hr
  unfold next at h
  split at h
  · cases h; exact hr
  · cases m with
    | arrNext xs =>
      simp only at h
      split at h
      · cases h; exact ⟨List.forall_mem_cons.mpr ⟨hm, hs⟩, trivial⟩
      · split at h
        · cases h; exact wf_complete hm hs
        · cases h
    | objNext es =>
      simp only at h
      split at h
      · cases h; exact ⟨hs, hm⟩
      · split at h
        · cases h; exact wf_complete hm hs
        · cases h
    | _ => cases h

theorem wf_endString {st : List Frame} {acc : List Char} {f : StrFor} (hs : ∀ f ∈ st, f.WF)
    (hf : f.WF) : (endString st acc f).WF := by
  cases f with
  | value => exact wf_complete (by simp [Json.WF]) hs
  | key es => exact ⟨hs, hf⟩

theorem wf_endHex {f : StrFor} {acc : List Char} {high : Option Nat} {val : Nat} {m : Mode}
    (hf : f.WF) (h : endHex f acc high val = some m) : m.WF := by
  unfold endHex at h
  repeat' split at h
  all_goals first
    | (cases h; exact hf)
    | cases h

theorem wf_closeNum {st : List Frame} {text : List Char} {s : NumState} {r : Reader}
    (hs : ∀ f ∈ st, f.WF) (h : closeNum st text s = some r) : r.WF := by
  unfold closeNum at h
  split at h
  · obtain ⟨n, -, rfl⟩ := Option.map_eq_some_iff.mp h
    exact wf_complete (by simp [Json.WF]) hs
  · cases h

/-- One character keeps every value read so far well formed. -/
theorem wf_step {r r' : Reader} {c : Char} (hr : r.WF) (h : step r c = some r') : r'.WF := by
  obtain ⟨st, m⟩ := r
  have ⟨hs, hm⟩ := hr
  cases m with
  | value =>
    simp only [step] at h
    split at h
    · cases h; exact ⟨hs, hm⟩
    · exact wf_startValue hs h
  | arrFirst =>
    simp only [step] at h
    split at h
    · cases h; exact ⟨hs, hm⟩
    · split at h
      · cases h; exact wf_complete wf_arr_nil hs
      · have hs' : ∀ f ∈ Frame.arr [] :: st, f.WF := List.forall_mem_cons.mpr ⟨wf_arr_nil, hs⟩
        exact wf_startValue hs' h
  | arrNext xs => exact wf_next hr h
  | objFirst =>
    simp only [step] at h
    split at h
    · cases h; exact ⟨hs, hm⟩
    · split at h
      · cases h; exact wf_complete wf_obj_nil hs
      · split at h
        · cases h; exact ⟨hs, wf_obj_nil⟩
        · cases h
  | objKey es =>
    simp only [step] at h
    split at h
    · cases h; exact ⟨hs, hm⟩
    · split at h
      · cases h; exact ⟨hs, hm⟩
      · cases h
  | colon es k =>
    simp only [step] at h
    split at h
    · cases h; exact ⟨hs, hm⟩
    · split at h
      · cases h; exact ⟨List.forall_mem_cons.mpr ⟨hm, hs⟩, trivial⟩
      · cases h
  | objNext es => exact wf_next hr h
  | str f acc =>
    simp only [step] at h
    split at h
    · cases h; exact wf_endString hs hm
    · split at h
      · cases h; exact ⟨hs, hm⟩
      · split at h
        · cases h
        · cases h; exact ⟨hs, hm⟩
  | esc f acc =>
    simp only [step] at h
    split at h
    · cases h; exact ⟨hs, hm⟩
    · obtain ⟨d, -, rfl⟩ := Option.map_eq_some_iff.mp h
      exact ⟨hs, hm⟩
  | hex f acc high n val =>
    obtain ⟨d, -, h⟩ := Option.bind_eq_some_iff.mp (show _ = some r' from h)
    split at h
    · cases h; exact ⟨hs, hm⟩
    · obtain ⟨m, hend, rfl⟩ := Option.map_eq_some_iff.mp h
      exact ⟨hs, wf_endHex hm hend⟩
  | low f acc high =>
    simp only [step] at h
    split at h
    · cases h; exact ⟨hs, hm⟩
    · cases h
  | lowU f acc high =>
    simp only [step] at h
    split at h
    · cases h; exact ⟨hs, hm⟩
    · cases h
  | word rest v =>
    rcases rest with _ | ⟨d, _ | ⟨e, rest⟩⟩
    · cases h
    · simp only [step] at h
      split at h
      · cases h; exact wf_complete hm hs
      · cases h
    · simp only [step] at h
      split at h
      · cases h; exact ⟨hs, hm⟩
      · cases h
  | num text s =>
    simp only [step] at h
    split at h
    · cases h; exact ⟨hs, trivial⟩
    · obtain ⟨r, hc, hn⟩ := Option.bind_eq_some_iff.mp h
      exact wf_next (wf_closeNum hs hc) hn
  | done v => exact wf_next hr h

theorem wf_run {r r' : Reader} {cs : List Char} (hr : r.WF) (h : run r cs = some r') : r'.WF := by
  induction cs generalizing r with
  | nil => cases h; exact hr
  | cons c cs ih =>
    obtain ⟨s, hs, h⟩ := Option.bind_eq_some_iff.mp (show (step r c).bind _ = some r' from h)
    exact ih (wf_step hr hs) h

theorem wf_result {r : Reader} {v : Json} (hr : r.WF) (h : result r = some v) : v.WF := by
  obtain ⟨st, m⟩ := r
  cases m with
  | done w => cases h; exact hr.mode
  | _ => cases h

/-- A document that is read is well formed. -/
theorem wf_read {cs : List Char} {v : Json} (h : read cs = some v) : v.WF := by
  obtain ⟨r, hrun, hfin⟩ := Option.bind_eq_some_iff.mp h
  have hinit : init.WF := ⟨by simp [init], trivial⟩
  have hr : r.WF := wf_run hinit hrun
  unfold finish at hfin
  split at hfin
  · obtain ⟨r', hc, hres⟩ := Option.bind_eq_some_iff.mp hfin
    exact wf_result (wf_closeNum hr.stack hc) hres
  · exact wf_result hr hfin

end JsonReader

end MinMcp.Core
