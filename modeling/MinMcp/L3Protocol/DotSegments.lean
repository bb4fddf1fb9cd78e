import MinMcp.L3Protocol.ExecutePath
import Mathlib.Data.List.Dedup

/-!
# Path parameters after URL parsing

The path `Executor::execute` builds goes through the HTTP client's URL parser
(`MinMcp.Core.Url.parsePath`), which treats `%2E` as a dot. The encoder of
src/exec.rs:56-74 writes `.` as `%2E` and `..` as `%2E%2E`, so the parser still
drops the segment, or the one before it.

An operation path is a `PathTemplate`: `/`-separated segments of literals and
placeholders, with no brace outside a placeholder; the field `ok` says so. The
base URL contributes literal segments in front (`base`).

Results:
* `requestPath_params`: with a value for every placeholder the code requests the
  joined segments, each filled on its own.
* `segments_kept_iff`: the parsed path is the base and the filled segments
  **iff** the literals are characters the parser copies and no filled segment is
  a dot segment; for a segment that is one placeholder this means that its value
  is neither `.` nor `..` (`dotValue_iff`).
* `dotdot_value_escapes`: `..` reaches the collection above.
-/
namespace MinMcp.L3.DotSegments

open MinMcp.Core MinMcp.Core.Text MinMcp.Core.Url MinMcp.L1.PathSegment MinMcp.L3.ExecutePath

/-- A literal is no brace and no slash; a placeholder's name holds no brace. -/
def PieceOk : Piece → Prop
  | .lit c => c ≠ '/' ∧ c ≠ '{' ∧ c ≠ '}'
  | .hole name => BraceFree name

instance : DecidablePred PieceOk
  | .lit c => inferInstanceAs (Decidable (c ≠ '/' ∧ c ≠ '{' ∧ c ≠ '}'))
  | .hole name => inferInstanceAs (Decidable (BraceFree name))

structure PathTemplate where
  segments : List (List Piece)
  ne : segments ≠ []
  ok : ∀ seg ∈ segments, ∀ p ∈ seg, PieceOk p

def PathTemplate.flat (t : PathTemplate) : List Piece := t.segments.flatMap (Piece.lit '/' :: ·)

/-- The path as the OpenAPI document has it. -/
def PathTemplate.text (t : PathTemplate) : List Char := render t.flat

def holeName? : Piece → Option (List Char)
  | .lit _ => none
  | .hole name => some name

/-- The names of the placeholders, each once. -/
def PathTemplate.names (t : PathTemplate) : List (List Char) := (t.flat.filterMap holeName?).dedup

/-- The `path_params` of a call with a string for every placeholder. -/
def params (t : PathTemplate) (vals : List Char → String) : Json :=
  .obj (t.names.map fun name => (String.ofList name, .str (vals name)))

def fillPiece (vals : List Char → String) : Piece → List Char
  | .lit c => [c]
  | .hole name => encodePathSegment (vals name)

/-- A segment with the encodings of its values in place. -/
def fillSegment (vals : List Char → String) (seg : List Piece) : List Char :=
  seg.flatMap (fillPiece vals)

/-- The client requests the base path and the filled segments, one for one. -/
def SegmentsKept (opId : String) (base : List (List Char)) (t : PathTemplate)
    (vals : List Char → String) : Prop :=
  ∃ p, requestPath ⟨opId, t.text⟩ (params t vals) = .ok p ∧
    parsePath (join base ++ p) = base ++ t.segments.map (fillSegment vals)

/-- The values make a dot segment of this one. -/
def DotValue (vals : List Char → String) : List Piece → Prop
  | [.hole name] => vals name = "." ∨ vals name = ".."
  | seg => isDotSegment (fillSegment vals seg) = true

theorem dotValue_iff (vals : List Char → String) (seg : List Piece) :
    DotValue vals seg ↔ isDotSegment (fillSegment vals seg) = true := by
  unfold DotValue
  split
  · next name =>
    have hs : fillSegment vals [.hole name] = encodePathSegment (vals name) := by
      simp [fillSegment, fillPiece]
    rw [hs, isDotSegment_encode]
  · rfl

/-! ## What the code requests -/

theorem flat_ok {t : PathTemplate} {p : Piece} (h : p ∈ t.flat) : p = .lit '/' ∨ PieceOk p := by
  obtain ⟨seg, hs, hp⟩ := List.mem_flatMap.mp h
  exact (List.mem_cons.mp hp).imp_right fun hp => t.ok seg hs p hp

theorem openLit_notMem_flat (t : PathTemplate) : Piece.lit '{' ∉ t.flat := fun h => by
  rcases flat_ok h with h | h
  · cases h
  · exact h.2.1 rfl

theorem namesOk_flat (t : PathTemplate) : NamesOk t.flat := fun name h => by
  rcases flat_ok h with h | h
  · cases h
  · exact h

theorem pieces_text (t : PathTemplate) : pieces t.text = t.flat :=
  pieces_render (openLit_notMem_flat t) (namesOk_flat t)

theorem mem_names {t : PathTemplate} {name : List Char} : name ∈ t.names ↔ Piece.hole name ∈ t.flat := by
  rw [PathTemplate.names, List.mem_dedup, List.mem_filterMap]
  constructor
  · intro ⟨p, hp, hn⟩
    cases p with
    | lit c => cases hn
    | hole n => cases hn; exact hp
  · exact fun h => ⟨_, h, rfl⟩

theorem segmentFor_params {t : PathTemplate} {vals : List Char → String} {name : List Char}
    (h : Piece.hole name ∈ t.flat) :
    segmentFor (entries (params t vals)) name = some (encodePathSegment (vals name)) := by
  have hl : ∀ ns : List (List Char), name ∈ ns →
      (ns.map fun n => (String.ofList n, Json.str (vals n))).lookup (String.ofList name) =
        some (.str (vals name)) := fun ns hm => by
    induction ns with
    | nil => cases hm
    | cons n ns ih =>
      by_cases hn : name = n
      · subst hn; simp
      · have hne : String.ofList name ≠ String.ofList n := fun he => hn (String.ofList_inj.mp he)
        rw [List.map_cons, OrderedMap.lookup_cons_of_ne hne]
        exact ih ((List.mem_cons.mp hm).resolve_left hn)
  rw [segmentFor, params, entries, Json.asObject, Option.getD_some, hl _ (mem_names.mpr h)]
  rfl

theorem render_fill_flat {f : List Char → Option (List Char)} {vals : List Char → String}
    (ps : List Piece) (h : ∀ name, Piece.hole name ∈ ps → f name = some (encodePathSegment (vals name))) :
    render (fill f ps) = ps.flatMap (fillPiece vals) := by
  induction ps with
  | nil => rfl
  | cons p ps ih =>
    have ih := ih fun name hn => h name (List.mem_cons_of_mem _ hn)
    cases p with
    | lit c => rw [fill_lit, render_lit, ih]; rfl
    | hole n =>
      rw [fill_hole_some (h n List.mem_cons_self), render_append, render_map_lit, ih]; rfl

/-- The request path is the filled segments, joined. -/
theorem requestPath_params (opId : String) (t : PathTemplate) (vals : List Char → String) :
    requestPath ⟨opId, t.text⟩ (params t vals) = .ok (join (t.segments.map (fillSegment vals))) := by
  have hfree : ∀ e ∈ entries (params t vals), BraceFree e.1.toList := fun e he => by
    obtain ⟨name, hn, rfl⟩ := List.mem_map.mp he
    simpa using namesOk_flat t name (mem_names.mp hn)
  have hl : Piece.lit '{' ∉ pieces t.text := pieces_text t ▸ openLit_notMem_flat t
  have hseg : ∀ name, Piece.hole name ∈ t.flat →
      segmentFor (entries (params t vals)) name = some (encodePathSegment (vals name)) :=
    fun _ h => segmentFor_params h
  rw [requestPath_filled (noForeignMatch_of_braceFree hfree hl) hl
    fun name hn => by rw [hseg name (pieces_text t ▸ hn)]; simp]
  rw [filled, pieces_text, render_fill_flat t.flat hseg]
  simp only [PathTemplate.flat, join, List.flatMap_assoc, List.flatMap_map]
  rfl

/-! ## What the client makes of it -/

theorem fillSegment_stable {vals : List Char → String} {seg : List Piece} :
    (∀ c ∈ fillSegment vals seg, isStable c = true) ↔ ∀ c, Piece.lit c ∈ seg → isStable c = true := by
  constructor
  · exact fun h c hc => h c (List.mem_flatMap.mpr ⟨_, hc, List.mem_singleton.mpr rfl⟩)
  · intro h c hc
    obtain ⟨p, hp, hc⟩ := List.mem_flatMap.mp hc
    cases p with
    | lit d => rw [List.mem_singleton.mp hc]; exact h d hp
    | hole n => exact segmentChar_stable (encode_chars hc)

/-- **Dot segments.** The parsed path has exactly the base's and the template's
segments, each filled, iff the base is clean, every literal character of the
template is one the parser copies, and no segment is turned into a dot segment by
its values. -/
theorem segments_kept_iff (opId : String) (base : List (List Char)) (t : PathTemplate)
    (vals : List Char → String) :
    SegmentsKept opId base t vals ↔
      (∀ seg ∈ base, Clean seg) ∧
      (∀ seg ∈ t.segments, ∀ c, Piece.lit c ∈ seg → isStable c = true) ∧
      ∀ seg ∈ t.segments, ¬ DotValue vals seg := by
  have hkept : SegmentsKept opId base t vals ↔
      parsePath (join (base ++ t.segments.map (fillSegment vals))) =
        base ++ t.segments.map (fillSegment vals) := by
    have hj : join (base ++ t.segments.map (fillSegment vals)) =
        join base ++ join (t.segments.map (fillSegment vals)) := List.flatMap_append
    simp only [SegmentsKept, requestPath_params, Except.ok.injEq, exists_eq_left', hj]
  have hne : base ++ t.segments.map (fillSegment vals) ≠ [] := by simp [t.ne]
  rw [hkept, parsePath_join_iff, and_iff_right hne]
  simp only [List.mem_append, List.mem_map, or_imp, forall_and, forall_exists_index, and_imp,
    forall_apply_eq_imp_iff₂, Clean, fillSegment_stable, dotValue_iff, Bool.not_eq_true]
  exact and_and_and_comm

/-- `/users/{id}/keys`, one placeholder between two literals. -/
def keysTemplate : PathTemplate where
  segments := ["users".toList.map .lit, [.hole "id".toList], "keys".toList.map .lit]
  ne := by simp
  ok := by decide

/-- `..` as the value of `{id}` removes the segment in front of it: the client
requests `/keys`. -/
theorem dotdot_value_escapes : ¬ SegmentsKept "list-keys" [] keysTemplate fun _ => ".." := by
  intro ⟨p, hp, hparse⟩
  rw [requestPath_params, Except.ok.injEq] at hp
  subst hp
  revert hparse
  decide +kernel

end MinMcp.L3.DotSegments
