import MinMcp.Core.Json.RoundTrip
import MinMcp.Core.Text.EventStream
import MinMcp.L3Protocol.JsonRpc

/-!
# The answer in an event stream

The HTTP transport's search for the answer to a request in a stream of server-sent
events (src/http_upstream.rs). The stdio reader takes a message that carries a `method`
for a request from the server, whatever its id (src/upstream.rs:434-436); `frame_match`
does not look at `method`.

* `messages`: the JSON documents of the stream's events.
* `sseResponse_eq`: the line by line search finds the first message with our id, else
  the first with a result or an error.
* `sseResponse_answers_iff`: it finds an answer exactly when that message has no
  `method` and, in the second case, no id.
* `ping_taken_for_the_answer`: a server's `ping` that has our id.
-/
namespace MinMcp.L3.Sse

open MinMcp.Core MinMcp.Core.Text MinMcp.L3.JsonRpc

def hasOutcome (v : Json) : Bool := (v.get "result").isSome || (v.get "error").isSome

/-- The frame when it is the one wanted, and the fallback after it.
mirrors src/http_upstream.rs:404-413 -/
def frameMatch (data : List Char) (want : Int64) (fallback : Option Json) : Option Json × Option Json :=
  match JsonReader.read data with
  | none => (none, fallback)
  | some v =>
    if responseId v = some want then (some v, fallback)
    else (none, if fallback.isNone && hasOutcome v then some v else fallback)

/-- The loop over the lines, with the data of the frame under way and the fallback.
mirrors src/http_upstream.rs:374-396 -/
def sseLoop (want : Int64) (data : List Char) (fallback : Option Json) :
    List (List Char) → Except String Json
  | [] =>
    -- a last frame that no blank line ends
    if data ≠ [] then
      match frameMatch data want fallback with
      | (some v, _) => .ok v
      | (none, fallback) => fallback.elim (.error "no JSON-RPC response found in SSE stream") .ok
    else fallback.elim (.error "no JSON-RPC response found in SSE stream") .ok
  | line :: lines =>
    match payload line with
    | some rest => sseLoop want (pushData data rest) fallback lines
    | none =>
      if isBlankLine line ∧ data ≠ [] then
        match frameMatch data want fallback with
        | (some v, _) => .ok v
        | (none, fallback) => sseLoop want [] fallback lines
      else sseLoop want data fallback lines

def sseResponse (body : List Char) (id : Int64) : Except String Json := sseLoop id [] none (lines body)

/-- The messages of a stream: its events' data, where they are JSON. -/
def messages (body : List Char) : List Json := (events body).filterMap JsonReader.read

/-- A message without an id, or with the id `null` of an answer whose request could not be
told. -/
def NoId (v : Json) : Prop := v.get "id" = none ∨ v.get "id" = some .null

/-- `v` may be taken for the answer to `id` among `ms`: a response to it or, where there is
none, a response without an id. -/
def Answers (ms : List Json) (id : Int64) (v : Json) : Prop :=
  v ∈ ms ∧ IsResponse v ∧
    (responseId v = some id ∨ (∀ m ∈ ms, IsResponse m → responseId m ≠ some id) ∧ NoId v)

/-! ## The search -/

/-- What the search finds among the messages. -/
def pick (want : Int64) (fallback : Option Json) (ms : List Json) : Option Json :=
  (ms.find? fun m => responseId m = some want).or (fallback.or (ms.find? hasOutcome))

theorem pick_nil (want : Int64) (fb : Option Json) : pick want fb [] = fb := by
  simp [pick]

/-- One message of the search. -/
theorem pick_cons (want : Int64) (fb : Option Json) (m : Json) (ms : List Json) :
    pick want fb (m :: ms) =
      if responseId m = some want then some m
      else pick want (if fb.isNone && hasOutcome m then some m else fb) ms := by
  unfold pick
  by_cases hid : responseId m = some want
  · simp [hid]
  · rw [if_neg hid, List.find?_cons_of_neg (by simpa using hid)]
    congr 1
    cases fb with
    | some f => rfl
    | none => cases h : hasOutcome m <;> simp [h]

theorem sseLoop_eq (want : Int64) (data : List Char) (fb : Option Json) (ls : List (List Char)) :
    sseLoop want data fb ls =
      (pick want fb ((scan data ls).filterMap JsonReader.read)).elim
        (.error "no JSON-RPC response found in SSE stream") .ok := by
  induction ls generalizing data fb with
  | nil =>
    unfold sseLoop scan
    by_cases hd : data = []
    · rw [if_neg (not_not_intro hd), if_pos hd, List.filterMap_nil, pick_nil]
    · rw [if_pos hd, if_neg hd]
      unfold frameMatch
      cases hr : JsonReader.read data with
      | none => rw [List.filterMap_cons_none hr, List.filterMap_nil, pick_nil]
      | some v =>
        rw [List.filterMap_cons_some hr, List.filterMap_nil, pick_cons, pick_nil]
        by_cases hid : responseId v = some want
        · simp only [if_pos hid, Option.elim_some]
        · simp only [if_neg hid]
  | cons l ls ih =>
    unfold sseLoop scan
    cases payload l with
    | some rest => exact ih _ _
    | none =>
      simp only
      split
      · -- the frame ends
        unfold frameMatch
        cases hr : JsonReader.read data with
        | none =>
          rw [List.filterMap_cons_none hr]
          exact ih _ _
        | some v =>
          rw [List.filterMap_cons_some hr, pick_cons]
          by_cases hid : responseId v = some want
          · simp only [if_pos hid, Option.elim_some]
          · simp only [if_neg hid]
            exact ih _ _
      · exact ih _ _

/-- The search, message by message. -/
theorem sseResponse_eq (body : List Char) (want : Int64) :
    sseResponse body want =
      (((messages body).find? fun m => responseId m = some want).or ((messages body).find? hasOutcome)).elim
        (.error "no JSON-RPC response found in SSE stream") .ok := by
  have hblank : ∀ k cs, JsonReader.read (List.replicate k '\n' ++ cs) = JsonReader.read cs := by
    intro k cs
    apply JsonReader.read_blank_append
    intro c hc
    rw [(List.mem_replicate.mp hc).2]
    decide
  rw [sseResponse, sseLoop_eq, scan_eq_events JsonReader.read hblank rfl]
  rfl

theorem sseResponse_ok_iff {body : List Char} {want : Int64} {v : Json} :
    sseResponse body want = .ok v ↔
      ((messages body).find? (fun m => responseId m = some want) = some v ∨
        (∀ m ∈ messages body, responseId m ≠ some want) ∧ (messages body).find? hasOutcome = some v) := by
  rw [sseResponse_eq]
  cases hf : (messages body).find? fun m => responseId m = some want with
  | some m =>
    have hm := List.find?_some hf
    have hmem := List.mem_of_find?_eq_some hf
    simp only [Option.some_or, Option.elim_some, Except.ok.injEq, Option.some.injEq]
    constructor
    · exact Or.inl
    · rintro (h | ⟨hno, -⟩)
      · exact h
      · exact absurd (by simpa using hm) (hno m hmem)
  | none =>
    have hno : ∀ m ∈ messages body, responseId m ≠ some want := by simpa using hf
    rw [Option.none_or]
    cases (messages body).find? hasOutcome with
    | none => simp
    | some w =>
      simp only [Option.elim_some, Except.ok.injEq, Option.some.injEq, reduceCtorEq, false_or]
      exact ⟨fun h => ⟨hno, h⟩, And.right⟩

/-- **Response matching.** What the search returns answers the request exactly when the
first message with our id has no `method` and, where no message has it, the first with a
result or an error has neither `method` nor id. -/
theorem sseResponse_answers_iff (body : List Char) (want : Int64) :
    (∀ v, sseResponse body want = .ok v → Answers (messages body) want v) ↔
      (∀ m, (messages body).find? (fun m => responseId m = some want) = some m → IsResponse m) ∧
        ((∀ m ∈ messages body, responseId m ≠ some want) →
          ∀ m, (messages body).find? hasOutcome = some m → IsResponse m ∧ NoId m) := by
  constructor
  · intro h
    refine ⟨fun m hm => (h m (sseResponse_ok_iff.mpr (Or.inl hm))).2.1, fun hno m hm => ?_⟩
    obtain ⟨hmem, hres, hid | ⟨-, hid⟩⟩ := h m (sseResponse_ok_iff.mpr (Or.inr ⟨hno, hm⟩))
    · exact absurd hid (hno m hmem)
    · exact ⟨hres, hid⟩
  · intro ⟨hfirst, hfall⟩ v hv
    rcases sseResponse_ok_iff.mp hv with hm | ⟨hno, hm⟩
    · have hid := List.find?_some hm
      exact ⟨List.mem_of_find?_eq_some hm, hfirst v hm, Or.inl (by simpa using hid)⟩
    · obtain ⟨hres, hid⟩ := hfall hno v hm
      exact ⟨List.mem_of_find?_eq_some hm, hres, Or.inr ⟨fun m hmem _ => hno m hmem, hid⟩⟩

def pingStream : List Char :=
  ("data: \x7b\"id\":7,\"method\":\"ping\"\x7d\n\n" ++ "data: \x7b\"id\":7,\"result\":1\x7d\n\n").toList

/-- The server asks `ping` under an id of its own, 7, before it answers our request 7: the
`ping` is returned. -/
theorem ping_taken_for_the_answer :
    ∃ v, sseResponse pingStream 7 = .ok v ∧ v.get "method" = some (.str "ping") ∧
      ¬ Answers (messages pingStream) 7 v := by
  refine ⟨.obj [("id", .num (Num.ofNat 7)), ("method", .str "ping")], ?_, rfl, ?_⟩
  · apply sseResponse_ok_iff.mpr
    left
    decide +kernel
  · rintro ⟨-, hres, -⟩
    cases hres

end MinMcp.L3.Sse
