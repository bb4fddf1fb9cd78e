import MinMcp.Core.Text.Template
import MinMcp.Core.Text.Debug
import MinMcp.L1Encoding.PathSegment

/-!
# The request path of a spec operation

`Executor::execute` (src/exec.rs:217-236) fills the `{name}` placeholders of an
operation's path from the `path_params` object of the call. It goes through the
entries of the object in order and replaces the text `{key}` in what the path is
by then, so the result depends on what the keys and the values before them look
like. The specification is the simultaneous substitution into the pieces of the
template (`MinMcp.Core.Text.fill`).

Results:
* `PathExact`: after every number of entries the path is the template with
  exactly the placeholders of the entries seen so far filled; a path that is sent
  has every placeholder filled with one non-empty segment without `/`; an entry
  that names no placeholder changes nothing.
* `path_exact_iff`: the code has this property **iff** the text `{key}` occurs at
  its turn only as the placeholders of that name (`NoForeignMatch`), and no value
  of a completely filled template is empty (`NoEmptyValue`).
* `hostile_key_not_exact`: a key that spans two placeholders reaches another
  endpoint.
-/
namespace MinMcp.L3.ExecutePath

open MinMcp.Core MinMcp.Core.Text MinMcp.L1.PathSegment

/-- The fields of an operation the path computation reads.
mirrors src/spec.rs:29-40 -/
structure Operation where
  opId : String
  path : List Char

abbrev Params := List (String × Json)

/-- The segment an entry's value is encoded to. -/
def segmentOf (v : Json) : List Char := encodePathSegment (paramText v)

/-- One round of the loop over `path_params`.
mirrors src/exec.rs:223-226 -/
def substStep (path : List Char) (e : String × Json) : List Char :=
  replaceAll (placeholder e.1.toList) (segmentOf e.2) path

/-- mirrors src/exec.rs:221-227 -/
def substitute (path : List Char) (pp : Params) : List Char := pp.foldl substStep path

/-- `path_params` is used only when it is an object.
mirrors src/exec.rs:222 -/
def entries (pathParams : Json) : Params := pathParams.asObject.getD []

/-- The text after the first `{` up to the next `}` or the end.
mirrors src/exec.rs:228-229 -/
def missingName (path : List Char) : List Char :=
  (path.dropWhile (· != '{')).tail.takeWhile (· != '}')

/-- mirrors src/exec.rs:230 -/
def missingError (op : Operation) (path : List Char) : Json :=
  .obj [("error", .str (String.ofList ("missing path parameter ".toList ++
    debugStr (missingName path) ++ " for ".toList ++ op.opId.toList)))]

/-- The path of the request, or the error envelope; nothing is sent with the
envelope.
mirrors src/exec.rs:221-231 -/
def requestPath (op : Operation) (pathParams : Json) : Except Json (List Char) :=
  let path := substitute op.path (entries pathParams)
  if '{' ∈ path then .error (missingError op path) else .ok path

/-- `base_url.trim_end_matches('/')`.
mirrors src/exec.rs:195 -/
def trimEndSlashes (url : List Char) : List Char := (url.reverse.dropWhile (· == '/')).reverse

/-- The URL `execute` requests.
mirrors src/exec.rs:195,233 -/
def requestUrl (baseUrl : List Char) (op : Operation) (pathParams : Json) :
    Except Json (List Char) :=
  (requestPath op pathParams).map (trimEndSlashes baseUrl ++ ·)

/-! ## Specification -/

/-- The segment for a placeholder: the encoding of the entry with its name. -/
def segmentFor (pp : Params) (name : List Char) : Option (List Char) :=
  (pp.lookup (String.ofList name)).map segmentOf

/-- The template with every placeholder that has an entry replaced by that
entry's segment, all at once. -/
def filled (path : List Char) (pp : Params) : List Piece := fill (segmentFor pp) (pieces path)

/-- Simultaneous and exact substitution. -/
structure PathExact (op : Operation) (pathParams : Json) : Prop where
  stage : ∀ n, substitute op.path ((entries pathParams).take n) =
    render (filled op.path ((entries pathParams).take n))
  sent : ∀ p, requestPath op pathParams = .ok p → p = render (filled op.path (entries pathParams)) ∧
    ∀ name, Piece.hole name ∈ pieces op.path →
      ∃ seg, segmentFor (entries pathParams) name = some seg ∧ seg ≠ [] ∧ '/' ∉ seg
  foreign : ∀ n k v, (entries pathParams)[n]? = some (k, v) → Piece.hole k.toList ∉ pieces op.path →
    substStep (substitute op.path ((entries pathParams).take n)) (k, v) =
      substitute op.path ((entries pathParams).take n)

/-- When its turn comes, every occurrence of the text `{key}` is a placeholder of
that name. -/
def NoForeignMatch (op : Operation) (pathParams : Json) : Prop :=
  ∀ n k v, (entries pathParams)[n]? = some (k, v) →
    occ (placeholder k.toList) (render (filled op.path ((entries pathParams).take n))) =
      (filled op.path ((entries pathParams).take n)).count (.hole k.toList)

/-- A template that is only literals and named placeholders, all of them with an
entry, has no placeholder whose value is the empty string. -/
def NoEmptyValue (op : Operation) (pathParams : Json) : Prop :=
  Piece.lit '{' ∉ pieces op.path →
  (∀ name, Piece.hole name ∈ pieces op.path →
    ∃ v, (entries pathParams).lookup (String.ofList name) = some v) →
  ∀ name, Piece.hole name ∈ pieces op.path →
    (entries pathParams).lookup (String.ofList name) ≠ some (.str "")

theorem brace_notMem_segment (v : Json) : '{' ∉ segmentOf v := notMem_encode (by decide) _

theorem slash_notMem_segment (v : Json) : '/' ∉ segmentOf v := notMem_encode (by decide) _

theorem segmentOf_eq_nil {v : Json} : segmentOf v = [] ↔ v = .str "" := by
  rw [segmentOf, encode_eq_nil, paramText_eq_empty]

/-! ## The loop, entry by entry -/

theorem substitute_append (path : List Char) (pp : Params) (e : String × Json) :
    substitute path (pp ++ [e]) = substStep (substitute path pp) e := by
  rw [substitute, List.foldl_append]; rfl

theorem segmentFor_append (pp : Params) (k : String) (v : Json) (name : List Char) :
    segmentFor (pp ++ [(k, v)]) name =
      (segmentFor pp name).or (if name = k.toList then some (segmentOf v) else none) := by
  have hk : String.ofList name = k ↔ name = k.toList := by
    rw [← String.toList_inj, String.toList_ofList]
  rw [segmentFor, segmentFor, List.lookup_append]
  by_cases h : name = k.toList
  · rw [if_pos h, hk.mpr h]; cases pp.lookup k <;> simp
  · rw [if_neg h, OrderedMap.lookup_cons_of_ne (fun he => h (hk.mp he))]
    cases pp.lookup (String.ofList name) <;> simp

theorem filled_append (path : List Char) (pp : Params) (k : String) (v : Json) :
    filled path (pp ++ [(k, v)]) = fillOne k.toList (segmentOf v) (filled path pp) := by
  rw [filled, filled, fillOne_fill]
  exact congrArg (fill · _) (funext fun name => segmentFor_append pp k v name)

theorem namesOk_filled (path : List Char) (pp : Params) : NamesOk (filled path pp) :=
  namesOk_fill (namesOk_pieces path) _

theorem substStep_filled_iff (path : List Char) (pp : Params) (k : String) (v : Json) :
    substStep (render (filled path pp)) (k, v) = render (filled path (pp ++ [(k, v)])) ↔
      occ (placeholder k.toList) (render (filled path pp)) = (filled path pp).count (.hole k.toList) := by
  rw [filled_append]
  exact replaceAll_render_iff k.toList (brace_notMem_segment v) (namesOk_filled path pp)

theorem filled_nil (path : List Char) : filled path [] = pieces path := by
  have hf : ∀ ps, fill (segmentFor []) ps = ps := fun ps => by
    induction ps with
    | nil => rfl
    | cons p ps ih =>
      cases p with
      | lit c => rw [fill_lit, ih]
      | hole n => rw [fill_hole_none rfl, ih]
  exact hf _

/-- The loop is the simultaneous substitution after every number of entries, iff
no round meets a foreign match. -/
theorem stage_iff (op : Operation) (pathParams : Json) :
    (∀ n, substitute op.path ((entries pathParams).take n) =
      render (filled op.path ((entries pathParams).take n))) ↔ NoForeignMatch op pathParams := by
  have hsucc : ∀ n k v, (entries pathParams)[n]? = some (k, v) →
      (entries pathParams).take (n + 1) = (entries pathParams).take n ++ [(k, v)] := fun n k v h => by
    rw [List.take_add_one, h]; rfl
  constructor
  · intro h n k v hn
    rw [← substStep_filled_iff, ← h n, ← substitute_append, ← hsucc n k v hn]
    exact h (n + 1)
  · intro h n
    induction n with
    | zero => rw [List.take_zero, filled_nil, render_pieces]; rfl
    | succ n ih =>
      cases hn : (entries pathParams)[n]? with
      | none =>
        have : (entries pathParams).take (n + 1) = (entries pathParams).take n := by
          rw [List.take_add_one, hn]; simp
        rw [this]; exact ih
      | some e =>
        obtain ⟨k, v⟩ := e
        rw [hsucc n k v hn, substitute_append, ih, substStep_filled_iff]
        exact h n k v hn

theorem requestPath_ok {op : Operation} {pathParams : Json} {p : List Char} :
    requestPath op pathParams = .ok p ↔
      '{' ∉ substitute op.path (entries pathParams) ∧ p = substitute op.path (entries pathParams) := by
  by_cases h : '{' ∈ substitute op.path (entries pathParams)
  · simp [requestPath, h]
  · simp [requestPath, h, eq_comm]

theorem openLit_mem_filled {path : List Char} {pp : Params} :
    Piece.lit '{' ∈ filled path pp ↔ Piece.lit '{' ∈ pieces path := by
  have hlit : ∀ ps, Piece.lit '{' ∈ fill (segmentFor pp) ps ↔ Piece.lit '{' ∈ ps := fun ps => by
    induction ps with
    | nil => rfl
    | cons p ps ih =>
      cases p with
      | lit c => rw [fill_lit, List.mem_cons, List.mem_cons, ih]
      | hole n =>
        rw [List.mem_cons]
        cases hn : segmentFor pp n with
        | none => rw [fill_hole_none hn, List.mem_cons, ih]
        | some e =>
          have he : Piece.lit '{' ∉ e.map Piece.lit := by
            rw [segmentFor, Option.map_eq_some_iff] at hn
            obtain ⟨v, -, rfl⟩ := hn
            simpa using brace_notMem_segment v
          rw [fill_hole_some hn, List.mem_append, ih]
          simp [he]
  exact hlit _

/-- What is left of the template after the substitution. -/
theorem openBrace_mem_filled {path : List Char} {pp : Params} :
    '{' ∈ render (filled path pp) ↔
      Piece.lit '{' ∈ pieces path ∨ ∃ name, Piece.hole name ∈ pieces path ∧ segmentFor pp name = none := by
  have hhole : ∀ name, Piece.hole name ∈ filled path pp ↔
      Piece.hole name ∈ pieces path ∧ segmentFor pp name = none := fun name =>
    ⟨hole_mem_fill, fun h => hole_mem_fill_of_none h.1 h.2⟩
  rw [openBrace_mem_render]
  exact or_congr openLit_mem_filled (exists_congr hhole)

/-- Keys without braces match only placeholders, when the template has no brace
of its own. -/
theorem noForeignMatch_of_braceFree {op : Operation} {pathParams : Json}
    (hk : ∀ e ∈ entries pathParams, BraceFree e.1.toList) (hl : Piece.lit '{' ∉ pieces op.path) :
    NoForeignMatch op pathParams := fun _ k v hn =>
  occ_eq_count (hk (k, v) (List.mem_of_getElem? hn))
    (fun h => hl (openLit_mem_filled.mp h)) (namesOk_filled _ _)

/-- A path with every placeholder filled and no brace of its own is requested as
the simultaneous substitution. -/
theorem requestPath_filled {op : Operation} {pathParams : Json}
    (hf : NoForeignMatch op pathParams) (hl : Piece.lit '{' ∉ pieces op.path)
    (hall : ∀ name, Piece.hole name ∈ pieces op.path →
      segmentFor (entries pathParams) name ≠ none) :
    requestPath op pathParams = .ok (render (filled op.path (entries pathParams))) := by
  have hsub := (stage_iff op pathParams).mpr hf (entries pathParams).length
  rw [List.take_length] at hsub
  refine requestPath_ok.mpr ⟨?_, hsub.symm⟩
  rw [hsub, openBrace_mem_filled, not_or, not_exists]
  exact ⟨hl, fun name hn => hall name hn.1 hn.2⟩

/-- **Exactness.** The path the code requests is the template with every
placeholder replaced by its own non-empty segment, and no other entry can change
it, iff no entry's `{key}` ever matches anything but its placeholders and no
placeholder's value is empty. -/
theorem path_exact_iff (op : Operation) (pathParams : Json) :
    PathExact op pathParams ↔ NoForeignMatch op pathParams ∧ NoEmptyValue op pathParams := by
  have hfull : (entries pathParams).take (entries pathParams).length = entries pathParams :=
    List.take_length
  constructor
  · intro h
    have hst := (stage_iff op pathParams).mp h.stage
    refine ⟨hst, fun hlit hall name hname hv => ?_⟩
    have hsub := h.stage (entries pathParams).length
    rw [hfull] at hsub
    have hno : '{' ∉ substitute op.path (entries pathParams) := by
      rw [hsub, openBrace_mem_filled, not_or, not_exists]
      refine ⟨hlit, fun name' hn => ?_⟩
      obtain ⟨v, hv'⟩ := hall name' hn.1
      have := hn.2
      rw [segmentFor, hv'] at this
      cases this
    obtain ⟨seg, hseg, hne, -⟩ := (h.sent _ (requestPath_ok.mpr ⟨hno, rfl⟩)).2 name hname
    rw [segmentFor, hv, Option.map_some, Option.some.injEq] at hseg
    exact hne (hseg ▸ segmentOf_eq_nil.mpr rfl)
  · intro ⟨hst, hempty⟩
    have hstage := (stage_iff op pathParams).mpr hst
    refine ⟨hstage, fun p hp => ?_, fun n k v hn hk => ?_⟩
    · obtain ⟨hno, rfl⟩ := requestPath_ok.mp hp
      have hsub := hstage (entries pathParams).length
      rw [hfull] at hsub
      refine ⟨hsub, fun name hname => ?_⟩
      rw [hsub, openBrace_mem_filled, not_or, not_exists] at hno
      have hall : ∀ name, Piece.hole name ∈ pieces op.path →
          ∃ v, (entries pathParams).lookup (String.ofList name) = some v := fun name' hn => by
        have := hno.2 name'
        rw [not_and, segmentFor, Option.map_eq_none_iff] at this
        exact Option.ne_none_iff_exists'.mp (this hn)
      obtain ⟨v, hv⟩ := hall name hname
      refine ⟨segmentOf v, by rw [segmentFor, hv]; rfl, fun hnil => ?_, slash_notMem_segment v⟩
      exact hempty hno.1 hall name hname (by rw [hv, segmentOf_eq_nil.mp hnil])
    · have hmem : Piece.hole k.toList ∉ filled op.path ((entries pathParams).take n) :=
        fun hm => hk (hole_mem_fill hm).1
      have hocc := hst n k v hn
      rw [List.count_eq_zero.mpr hmem] at hocc
      rw [hstage n]
      exact replaceAll_eq_self hocc

/-- The agent names a key that spans two placeholders: the request goes to
`/users/x` instead of being refused for a missing parameter. -/
theorem hostile_key_not_exact :
    ¬ PathExact ⟨"get-post", "/users/{id}/posts/{post}".toList⟩
      (.obj [("id\x7d/posts/\x7bpost", .str "x")]) := by
  intro h
  have hp : requestPath ⟨"get-post", "/users/{id}/posts/{post}".toList⟩
      (.obj [("id\x7d/posts/\x7bpost", .str "x")]) = .ok "/users/x".toList := by decide +kernel
  have := (h.sent _ hp).1
  revert this
  decide +kernel

end MinMcp.L3.ExecutePath
