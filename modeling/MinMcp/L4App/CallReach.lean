import MinMcp.Core.Text.Debug
import MinMcp.L4App.Results

/-!
# How far a call came

Every call that dispatch makes ends in a tool result and a `Reach`: refused
locally, sent without an answer, or answered (`backend.rs:32-53`). A spec upstream
derives both from the envelope its executor builds; an MCP upstream that returns a
result answered, and its errors count as no answer.

`Call` says what really happened to the call: what was sent, and what came back.
`Sent` and `ErrorAnswered` are read off it, independently of the code's verdict.

* `callResult_error`: an error result that is not `noAnswer` was either not sent
  or answered with an error, unless its reply was lost.
* `callResult_lost`: a lost reply, a body that breaks off after a status below
  400, is reported as an error the upstream answered with.
-/
namespace MinMcp.L4.CallReach

open MinMcp.Core MinMcp.Core.Text MinMcp.L4.Results

/-- mirrors src/backend.rs:34-42 -/
inductive Reach where
  | notSent | noAnswer | answered
  deriving DecidableEq, Repr

/-- mirrors src/backend.rs:46-52 -/
def Reach.outcome : Reach → String
  | .notSent => "not_run"
  | .noAnswer => "unknown"
  | .answered => "failed"

/-- mirrors src/upstream.rs:61-62 -/
def timeoutGuidance : String :=
  "The operation may or may not have completed upstream — for writes, check state before retrying."

/-- How one run of the spec executor ends.
mirrors src/exec.rs:227-231, 298-320 -/
inductive SpecReply where
  | missingParam (name opId : String)
  | timeout (secs : Nat)
  | transport (cause : String)
  /-- The status line arrived, the body could not be read. -/
  | unreadable (cause : String) (status : UInt16)
  | answered (status : UInt16) (body : Json) (truncated : Bool)
  deriving DecidableEq

def statusValue (status : UInt16) : Json := .num (Num.ofNat status.toNat)

/-- mirrors src/exec.rs:230, 304-308, 311, 316, 319 -/
def SpecReply.envelope : SpecReply → Json
  | .missingParam name opId => .obj [("error", .str
      (String.ofList ("missing path parameter ".toList ++ debugStr name.toList ++ " for ".toList ++
        opId.toList)))]
  | .timeout secs => .obj [("error", .str s!"TIMEOUT after {secs}s: {timeoutGuidance}")]
  | .transport cause => .obj [("error", .str s!"transport error: {cause}")]
  | .unreadable cause status =>
    .obj [("error", .str s!"upstream response unreadable: {cause}"), ("status", statusValue status)]
  | .answered status body truncated =>
    .obj [("status", statusValue status), ("body", body), ("truncated", .bool truncated)]

/-- The result and the reach of a spec call, as they are read off the envelope.
mirrors src/backend.rs:272-284 -/
def specResult (out : Json) : Json × Reach :=
  let isError := (out.get "error").isSome || ((out.get "status").bind Json.asU64).any (400 ≤ ·)
  let reach := if (out.get "status").isSome then Reach.answered else Reach.noAnswer
  (textResult out.render isError, reach)

/-- What became of a call that dispatch handed to its backend. -/
inductive Reply where
  | unknownOperation (opId : String)
  /-- The operation's method is none: the executor errs before it sends. -/
  | badMethod (cause : String)
  | spec (r : SpecReply)
  | mcpResult (result : Json) (wf : result.WF)
  /-- The MCP upstream answered with a JSON-RPC error or an HTTP error status. -/
  | mcpError (cause : String)
  | mcpTimeout
  | mcpTransport (cause : String)

/-- The two kinds of `Err` dispatch tells apart. -/
inductive CallError where
  | timeoutElapsed
  | other (cause : String)

/-- mirrors src/backend.rs:85-104, 259-285 -/
def callToolReach : Reply → Except CallError (Json × Reach)
  | .unknownOperation opId =>
    .ok (textResult (String.ofList ("unknown operation ".toList ++ debugStr opId.toList)) true, .notSent)
  | .badMethod cause => .error (.other cause)
  | .spec r => .ok (specResult r.envelope)
  | .mcpResult result _ => .ok (result, .answered)
  | .mcpError cause => .error (.other cause)
  | .mcpTimeout => .error .timeoutElapsed
  | .mcpTransport cause => .error (.other cause)

/-- What dispatch does to a result once it has it: compaction, the merge of pages,
response transforms, hints. None of it touches the error flag. -/
structure Shaping where
  run : Json → Json
  keeps : ∀ r, r.WF → isErrorResult (run r) = isErrorResult r

theorem isErrorResult_transformResult {r : Json} (h : r.WF) (fromSpec : Bool) (f : Json → Json) :
    isErrorResult (transformResult r fromSpec f) = isErrorResult r := by
  cases r with
  | obj es =>
    have hs := lookup_transformStructured (Json.wf_obj.mp h).1 f (k := "isError") (by decide)
    unfold transformResult isErrorResult
    simp only []
    split
    · rw [Json.get_obj, Json.get_obj, OrderedMap.lookup_insert_of_ne (by decide), hs]
    · rw [Json.get_obj, Json.get_obj, hs]
  | _ => rfl

/-- A payload transformation is one. -/
def Shaping.transform (fromSpec : Bool) (f : Json → Json) : Shaping where
  run r := transformResult r fromSpec f
  keeps _ h := isErrorResult_transformResult h fromSpec f

/-! ## Dispatch -/

/-- One call, as dispatch disposed of it. Only clean results are cached. -/
inductive Call where
  | refused (text : String)
  | cached (result : Json) (wf : result.WF) (clean : isErrorResult result = false)
  | sent (reply : Reply)

/-- The texts of the two `Err` arms.
mirrors src/surface/dispatch.rs:203-233 -/
def errorText (toolId : String) (timeoutS : Nat) : CallError → String
  | .timeoutElapsed =>
    s!"TIMEOUT: {toolId} did not respond within {timeoutS}s. {timeoutGuidance}"
  | .other cause =>
    s!"UPSTREAM_ERROR: {toolId} — the upstream did not return a tool result: {cause}. {timeoutGuidance} " ++
    "If this repeats, the upstream may be down — use a different tool or report it."

/-- The result before it is shaped, and the reach.
mirrors src/surface/dispatch.rs:10-12, 165-235 -/
def callResult (toolId : String) (timeoutS : Nat) : Call → Json × Reach
  | .refused text => (textResult text true, .notSent)
  | .cached result _ _ => (result, .answered)
  | .sent reply =>
    match callToolReach reply with
    | .ok (r, reach) => (r, reach)
    | .error e => (textResult (errorText toolId timeoutS e) true, .noAnswer)

/-- A refusal leaves before the shaping; its own error arm is never taken.
mirrors src/surface/dispatch.rs:22-349 -/
def dispatchReach (toolId : String) (timeoutS : Nat) (call : Call) (shape : Shaping) :
    Except String (Json × Reach) :=
  match call with
  | .refused text => .ok (textResult text true, .notSent)
  | call =>
    let (r, reach) := callResult toolId timeoutS call
    .ok (shape.run r, reach)

/-! ## What really happened -/

/-- A request left for the upstream. -/
def Call.Sent : Call → Prop
  | .refused _ | .cached _ _ _ => False
  | .sent (.unknownOperation _) | .sent (.badMethod _) | .sent (.spec (.missingParam _ _)) => False
  | .sent _ => True

/-- The upstream answered, and the answer is an error. -/
def Call.ErrorAnswered : Call → Prop
  | .sent (.spec (.unreadable _ status)) => 400 ≤ status
  | .sent (.spec (.answered status _ _)) => 400 ≤ status
  | .sent (.mcpResult r _) => isErrorResult r = true
  | .sent (.mcpError _) => True
  | _ => False

/-- The status said the call went through, and the body broke off. -/
def Call.Lost : Call → Prop
  | .sent (.spec (.unreadable _ status)) => status < 400
  | _ => False

@[simp] theorem isErrorResult_textResult (text : String) (b : Bool) :
    isErrorResult (textResult text b) = b := by cases b <;> rfl

theorem wf_textResult (text : String) (b : Bool) : (textResult text b).WF := by
  simp [textResult, Json.WF, Json.WFEntries, Json.WFList]

theorem asU64_statusValue (status : UInt16) : (statusValue status).asU64 = some status.toUInt64 := by
  have h := Json.asU64_ofNat status.toUInt64
  rwa [UInt16.toNat_toUInt64] at h

theorem wf_callResult (toolId : String) (timeoutS : Nat) (call : Call) :
    (callResult toolId timeoutS call).1.WF := by
  cases call with
  | refused text => exact wf_textResult _ _
  | cached r wf _ => exact wf
  | sent reply =>
    cases reply with
    | mcpResult r wf => exact wf
    | _ => exact wf_textResult _ _

/-- Shaping changes neither the flag nor the reach. -/
theorem dispatchReach_eq (toolId : String) (timeoutS : Nat) (call : Call) (shape : Shaping) :
    ∃ r, dispatchReach toolId timeoutS call shape = .ok (r, (callResult toolId timeoutS call).2) ∧
      isErrorResult r = isErrorResult (callResult toolId timeoutS call).1 := by
  cases call with
  | refused text => exact ⟨_, rfl, rfl⟩
  | cached r wf clean =>
    exact ⟨_, rfl, shape.keeps _ (wf_callResult toolId timeoutS (.cached r wf clean))⟩
  | sent reply => exact ⟨_, rfl, shape.keeps _ (wf_callResult toolId timeoutS (.sent reply))⟩

/-- An error that is not `noAnswer` was not sent or was answered with an error, or its
reply was lost. -/
theorem callResult_error (toolId : String) (timeoutS : Nat) (call : Call)
    (he : isErrorResult (callResult toolId timeoutS call).1 = true)
    (hr : (callResult toolId timeoutS call).2 ≠ .noAnswer) (hs : call.Sent) :
    call.ErrorAnswered ∨ call.Lost := by
  cases call with
  | refused text => exact hs.elim
  | cached r wf clean => exact hs.elim
  | sent reply =>
    cases reply with
    | unknownOperation opId => exact hs.elim
    | badMethod cause => exact hs.elim
    | mcpResult r wf => exact Or.inl he
    | mcpError cause => exact Or.inl trivial
    | mcpTimeout => exact absurd rfl hr
    | mcpTransport cause => exact absurd rfl hr
    | spec r =>
      cases r with
      | missingParam name opId => exact hs.elim
      | timeout secs => exact absurd rfl hr
      | transport cause => exact absurd rfl hr
      | unreadable cause status =>
        rcases Nat.lt_or_ge status.toNat 400 with h | h
        · exact Or.inr h
        · exact Or.inl h
      | answered status body truncated =>
        left
        simp only [callResult, callToolReach, specResult, isErrorResult_textResult] at he
        have h : (400 : UInt64) ≤ status.toUInt64 := by
          simpa [SpecReply.envelope, List.lookup_cons, asU64_statusValue] using he
        rw [UInt64.le_iff_toNat_le, UInt16.toNat_toUInt64] at h
        exact UInt16.le_iff_toNat_le.mpr h

/-- A lost reply is reported as an error the upstream answered with. -/
theorem callResult_lost (toolId : String) (timeoutS : Nat) {call : Call} (h : call.Lost) :
    isErrorResult (callResult toolId timeoutS call).1 = true ∧
      (callResult toolId timeoutS call).2 = .answered ∧ call.Sent ∧ ¬ call.ErrorAnswered := by
  cases call with
  | sent reply =>
    cases reply with
    | spec r =>
      cases r with
      | unreadable cause status =>
        refine ⟨?_, rfl, trivial, ?_⟩
        · simp only [callResult, callToolReach, specResult, isErrorResult_textResult]
          rfl
        · intro ha
          exact absurd h (UInt16.not_lt.mpr ha)
      | _ => exact h.elim
    | _ => exact h.elim
  | _ => exact h.elim

end MinMcp.L4.CallReach
