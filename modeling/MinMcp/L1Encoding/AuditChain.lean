import MinMcp.Core.Json.ReadWF
import MinMcp.Core.Json.RoundTrip
import MinMcp.Core.Text.Lines

/-!
# The audit chain

One line of the audit log is a JSON object with its sequence number and a MAC
over the previous MAC, the number and the object without `mac`
(`audit_chain.rs`). `sign` is the keyed hash of the chain's key, in hexadecimal;
nothing is assumed of it.

* `stamp`, `resumeFrom`: the writer. `checkLine`, `verify`: the reader.
* `checkLine_stamp`: a stamped line is accepted where the chain stood, and the
  reader then stands where the chain does.
* `verify_ok_iff`: a text is accepted exactly when its records can be checked
  one after the other (`check`).
* `resumeFrom_of_check`: a resumed chain stands where checking the text ends.
* `check_writeln`, `check_appended`: the lines of events appended in stamp order
  keep a text accepted.

`next_seq` wraps at 2^64, as in a release build, for writer and reader alike.
-/
namespace MinMcp.L1.AuditChain

open MinMcp.Core
open MinMcp.Core.Text (lines records isBlankLine)

/-- The number of the next line and the MAC of the previous one.
mirrors src/audit_chain.rs:33-39 -/
structure Chain where
  nextSeq : UInt64
  prevMac : String
  deriving DecidableEq

/-- mirrors src/audit_chain.rs:41-43, :46-52 -/
def genesis : Chain := ⟨1, "genesis"⟩

/-- `obj.insert(key, v)` on an object, nothing on any other value. -/
def insertField (k : String) (v : Json) : Json → Json
  | .obj es => .obj (OrderedMap.insert k v es)
  | w => w

/-- `obj.remove(key)`: the last entry takes the place of the removed one. -/
def removeField (k : String) : Json → Json
  | .obj es => .obj (OrderedMap.swapRemove k es)
  | w => w

@[simp] theorem removeField_obj (k : String) (es : List (String × Json)) :
    removeField k (.obj es) = .obj (OrderedMap.swapRemove k es) := rfl

def seqValue (seq : UInt64) : Json := .num (Num.ofNat seq.toNat)

variable (sign : String → String)

/-- mirrors src/audit_chain.rs:98-109 -/
def macFor (prev : String) (seq : UInt64) (line : Json) : String :=
  sign (prev ++ "\x1f" ++ Nat.repr seq.toNat ++ "\x1f" ++ (removeField "mac" line).render)

/-- mirrors src/audit_chain.rs:78-89 -/
def stamp (c : Chain) (line : Json) : Json × Chain :=
  let line := insertField "seq" (seqValue c.nextSeq) line
  let mac := macFor sign c.prevMac c.nextSeq line
  (insertField "mac" (.str mac) line, ⟨c.nextSeq + 1, mac⟩)

/-- `writeln!(f, "{line}")`. -/
def writeln (line : Json) : List Char := line.print ++ ['\n']

/-! ## Resuming -/

inductive Refused where
  | lastNotJson (path : String)
  | unsigned (path : String)
  deriving DecidableEq

def Refused.message : Refused → String
  | .lastNotJson path => s!"the last line of {path} is not JSON; refusing to chain onto it"
  | .unsigned path =>
    s!"{path} already has audit lines without `seq`/`mac`. Chaining onto an unsigned " ++
    "log would imply the earlier lines were protected too — rotate the file first."

def seqOf (v : Json) : Option UInt64 := (v.get "seq").bind Json.asU64

def macOf (v : Json) : Option String := (v.get "mac").bind Json.asStr

theorem obj_of_seqOf {v : Json} {seq : UInt64} (h : seqOf v = some seq) : ∃ es, v = .obj es := by
  cases v with
  | obj es => exact ⟨es, rfl⟩
  | _ => cases h

/-- `text` is what `read_to_string` gave: nothing for a missing file and for one
that is not UTF-8.
mirrors src/audit_chain.rs:58-75 -/
def resumeFrom (c : Chain) (path : String) (text : Option (List Char)) : Except Refused Chain :=
  match text with
  | none => .ok c
  | some text =>
    match (records text).getLast? with
    | none => .ok c
    | some last =>
      match JsonReader.read last with
      | none => .error (.lastNotJson path)
      | some v =>
        match seqOf v, macOf v with
        | some seq, some mac => .ok ⟨seq + 1, mac⟩
        | _, _ => .error (.unsigned path)

/-! ## Verifying -/

inductive Failure where
  /-- The reader's own account of the error follows in the text. -/
  | notJson
  | unsigned
  | sequenceJumped (expected found : UInt64)
  | macMismatch
  deriving DecidableEq

def Failure.message (parseError : String) : Failure → String
  | .notJson => s!"not JSON: {parseError}"
  | .unsigned => "no `seq`/`mac` — the line is unsigned"
  | .sequenceJumped e f => s!"sequence jumped: expected {e}, found {f}"
  | .macMismatch => "MAC does not match — this line was altered, or the one before it was"

/-- One line against the state of the chain in front of it: the body of the loop.
mirrors src/audit_chain.rs:179-203 -/
def checkLine (c : Chain) (raw : List Char) : Except Failure Chain :=
  match JsonReader.read raw with
  | none => .error .notJson
  | some v =>
    match seqOf v, macOf v with
    | some seq, some mac =>
      if seq ≠ c.nextSeq then .error (.sequenceJumped c.nextSeq seq)
      else if macFor sign c.prevMac seq v ≠ mac then .error .macMismatch
      else .ok ⟨seq + 1, mac⟩
    | _, _ => .error .unsigned

structure Verdict where
  lines : Nat
  /-- Numbers of the lines that failed, counted from 1. -/
  failures : List (Nat × Failure)
  deriving DecidableEq

def Verdict.ok (v : Verdict) : Bool := v.failures.isEmpty

/-- The loop after `n` lines; it ends at the first failure. -/
def verifyFrom (c : Chain) (n : Nat) : List (List Char) → Verdict
  | [] => ⟨n, []⟩
  | raw :: rest =>
    match checkLine sign c raw with
    | .error f => ⟨n + 1, [(n + 1, f)]⟩
    | .ok c' => verifyFrom c' (n + 1) rest

/-- mirrors src/audit_chain.rs:167-206 -/
def verify (text : List Char) : Verdict := verifyFrom sign genesis 0 (records text)

/-- The lines can be checked in turn from `c` on, and the chain then stands at the
result. -/
def check (c : Chain) : List (List Char) → Option Chain
  | [] => some c
  | raw :: rest => (checkLine sign c raw).toOption.bind fun c' => check c' rest

theorem check_append (c : Chain) (xs ys : List (List Char)) :
    check sign c (xs ++ ys) = (check sign c xs).bind fun c' => check sign c' ys := by
  induction xs generalizing c with
  | nil => rfl
  | cons raw xs ih =>
    rw [List.cons_append, check, check]
    cases (checkLine sign c raw).toOption with
    | none => rfl
    | some c' => exact ih c'

theorem verifyFrom_ok_iff (c : Chain) (n : Nat) (raws : List (List Char)) :
    (verifyFrom sign c n raws).ok = true ↔ (check sign c raws).isSome = true := by
  induction raws generalizing c n with
  | nil => simp [verifyFrom, check, Verdict.ok]
  | cons raw rest ih =>
    unfold verifyFrom check
    cases checkLine sign c raw with
    | error f => simp [Verdict.ok, Except.toOption]
    | ok c' => exact ih c' (n + 1)

/-- Accepted: every record checks. -/
theorem verify_ok_iff (text : List Char) :
    (verify sign text).ok = true ↔ ∃ c, check sign genesis (records text) = some c := by
  rw [verify, verifyFrom_ok_iff, Option.isSome_iff_exists]

/-- What an accepted line says of itself, and where it leaves the chain. -/
theorem checkLine_inv {c c' : Chain} {raw : List Char} (h : checkLine sign c raw = .ok c') :
    ∃ v, JsonReader.read raw = some v ∧ seqOf v = some c.nextSeq ∧
      macOf v = some (macFor sign c.prevMac c.nextSeq v) ∧
      c' = ⟨c.nextSeq + 1, macFor sign c.prevMac c.nextSeq v⟩ := by
  unfold checkLine at h
  split at h
  · cases h
  · next v hv =>
    split at h
    · next seq mac hs hm =>
      split at h
      · cases h
      · next hq =>
        rw [Decidable.not_not] at hq
        subst hq
        split at h
        · cases h
        · next hk =>
          rw [Decidable.not_not] at hk
          rw [Except.ok.injEq] at h
          exact ⟨v, hv, hs, hk ▸ hm, by rw [← h, hk]⟩
    · cases h

theorem checkLine_ok {c c' : Chain} {raw : List Char} (h : checkLine sign c raw = .ok c') :
    ∃ v, JsonReader.read raw = some v ∧ seqOf v = some c.nextSeq ∧ macOf v = some c'.prevMac ∧
      c'.nextSeq = c.nextSeq + 1 := by
  obtain ⟨v, hv, hs, hm, rfl⟩ := checkLine_inv sign h
  exact ⟨v, hv, hs, hm, rfl⟩

theorem checkLine_toOption {c c' : Chain} {raw : List Char}
    (h : (checkLine sign c raw).toOption = some c') : checkLine sign c raw = .ok c' := by
  cases hl : checkLine sign c raw with
  | error f => rw [hl] at h; cases h
  | ok c₁ => rw [hl] at h; exact congrArg _ (Option.some.inj h)

/-- An accepted text is resumed where checking it left the chain. -/
theorem resumeFrom_of_check {text : List Char} {c : Chain} (path : String)
    (h : check sign genesis (records text) = some c) :
    resumeFrom genesis path (some text) = .ok c := by
  unfold resumeFrom
  rcases List.eq_nil_or_concat (records text) with hr | ⟨init, last, hr⟩
  · rw [hr, check, Option.some.injEq] at h
    have hl : (records text).getLast? = none := by rw [hr]; rfl
    simp only [hl, h]
  · rw [hr, List.concat_eq_append, check_append, Option.bind_eq_some_iff] at h
    obtain ⟨c₀, -, h⟩ := h
    rw [check, Option.bind_eq_some_iff] at h
    obtain ⟨c₁, hc, h⟩ := h
    obtain rfl : c₁ = c := by simpa [check] using h
    obtain ⟨v, hv, hs, hm, hn⟩ := checkLine_ok sign (checkLine_toOption sign hc)
    have hl : (records text).getLast? = some last := by rw [hr]; simp
    simp only [hl, hv, hs, hm, ← hn]

/-! ## A stamped line checks -/

/-- The fields of an event, as every caller passes them: an object the reader can
take back. -/
structure Event where
  fields : List (String × Json)
  wf : (Json.obj fields).WF
  depth : (Json.obj fields).depth ≤ JsonReader.depthLimit

/-- The fields of a stamped event. -/
def stampedFields (c : Chain) (e : Event) : List (String × Json) :=
  OrderedMap.insert "mac" (.str (stamp sign c (.obj e.fields)).2.prevMac)
    (OrderedMap.insert "seq" (seqValue c.nextSeq) e.fields)

theorem stamp_obj (c : Chain) (e : Event) :
    (stamp sign c (.obj e.fields)).1 = .obj (stampedFields sign c e) := rfl

theorem depth_insert {k : String} {v : Json} {es : List (String × Json)} {n : Nat}
    (h : (Json.obj es).depth ≤ n) (hv : v.depth < n) :
    (Json.obj (OrderedMap.insert k v es)).depth ≤ n := by
  obtain ⟨m, rfl⟩ : ∃ m, n = m + 1 := ⟨n - 1, by rw [Json.depth] at h; omega⟩
  rw [Json.depth, Nat.add_le_add_iff_right, Json.depthEntries_le] at h ⊢
  intro e he
  rcases OrderedMap.mem_insert he with rfl | he
  · show v.depth ≤ m
    omega
  · exact h e he

theorem read_stamp (c : Chain) (e : Event) :
    JsonReader.read (stamp sign c (.obj e.fields)).1.print = some (.obj (stampedFields sign c e)) := by
  have hl : 0 < JsonReader.depthLimit := by decide
  rw [stamp_obj]
  apply JsonReader.read_print
  · exact OrderedMap.wf_insert trivial (OrderedMap.wf_insert trivial e.wf)
  · exact depth_insert (depth_insert e.depth hl) hl

theorem seqOf_stamped (c : Chain) (e : Event) :
    seqOf (.obj (stampedFields sign c e)) = some c.nextSeq := by
  unfold seqOf stampedFields
  rw [Json.get_obj, OrderedMap.lookup_insert_of_ne (by decide), OrderedMap.lookup_insert_self]
  exact Json.asU64_ofNat c.nextSeq

theorem macOf_stamped (c : Chain) (e : Event) :
    macOf (.obj (stampedFields sign c e)) = some (stamp sign c (.obj e.fields)).2.prevMac := by
  unfold macOf stampedFields
  rw [Json.get_obj, OrderedMap.lookup_insert_self]
  rfl

/-- The MAC covers the line without `mac`, so writing it in changes nothing. -/
theorem macFor_stamped (c : Chain) (e : Event) :
    macFor sign c.prevMac c.nextSeq (.obj (stampedFields sign c e)) =
      (stamp sign c (.obj e.fields)).2.prevMac := by
  unfold macFor stampedFields
  rw [removeField_obj, OrderedMap.swapRemove_insert]
  rfl

/-- **Step.** A line stamped by the chain checks where the chain stood, also behind
blanks, and leaves the reader where the chain now stands. -/
theorem checkLine_stamp (c : Chain) (e : Event) (ws : List Char)
    (hws : ∀ d ∈ ws, JsonReader.isBlank d = true) :
    checkLine sign c (ws ++ (stamp sign c (.obj e.fields)).1.print) =
      .ok (stamp sign c (.obj e.fields)).2 := by
  unfold checkLine
  rw [JsonReader.read_blank_append _ _ hws, read_stamp]
  simp only [seqOf_stamped, macOf_stamped, macFor_stamped, ne_eq, not_true_eq_false, if_false]
  rfl

/-! ## Its line in the file -/

/-- An object's line is glued to the open last line of the text in front of it, and
is a record of its own when there is none. -/
theorem records_writeln (text : List Char) (es : List (String × Json)) :
    records (text ++ writeln (.obj es)) =
      records (Text.body text) ++ [Text.tail text ++ (Json.obj es).print] := by
  have hl : (Text.tail text ++ (Json.obj es).print).getLast? = some '}' := by
    rw [List.getLast?_append, Json.print_obj_getLast?]; rfl
  have hc : Text.chompCr (Text.tail text ++ (Json.obj es).print) =
      Text.tail text ++ (Json.obj es).print := Text.chompCr_of_last (by rw [hl]; decide)
  have hb : isBlankLine (Text.tail text ++ (Json.obj es).print) = false := by
    rw [Text.isBlankLine_append]
    show (_ && (Json.obj es).print.all Text.isWhitespace) = false
    rw [Json.print, List.all_cons]
    simp [Text.isWhitespace]
  have h := Text.records_glue text (Json.newline_notMem_print (.obj es)) (by rw [hc]; exact hb)
  rwa [hc] at h

theorem isWhitespace_of_isBlank {c : Char} (h : JsonReader.isBlank c = true) :
    Text.isWhitespace c = true := by
  simp only [JsonReader.isBlank, Bool.or_eq_true, decide_eq_true_eq] at h
  obtain ((rfl | rfl) | rfl) | rfl := h <;> decide

/-- What is appended starts a line of its own, up to blanks the reader skips. -/
def BlankTail (text : List Char) : Prop := ∀ c ∈ Text.tail text, JsonReader.isBlank c = true

instance (text : List Char) : Decidable (BlankTail text) :=
  inferInstanceAs (Decidable (∀ c ∈ Text.tail text, JsonReader.isBlank c = true))

theorem blankTail_of_endsAtLine {text : List Char} (h : Text.EndsAtLine text) : BlankTail text := by
  intro c hc
  rw [Text.tail_eq_nil h] at hc
  cases hc

theorem blankTail_writeln (text : List Char) (line : Json) : BlankTail (text ++ writeln line) :=
  blankTail_of_endsAtLine (Text.endsAtLine_line text line.print)

theorem records_body {text : List Char} (h : BlankTail text) :
    records (Text.body text) = records text := by
  have hb : isBlankLine (Text.tail text) = true :=
    List.all_eq_true.mpr fun c hc => isWhitespace_of_isBlank (h c hc)
  rw [Text.records_eq text, hb, if_pos rfl, List.append_nil]

/-- **Append.** A text whose records check stays so when the line the chain stamps
next is appended. -/
theorem check_writeln {text : List Char} {c : Chain} (h : check sign genesis (records text) = some c)
    (hb : BlankTail text) (e : Event) :
    check sign genesis (records (text ++ writeln (stamp sign c (.obj e.fields)).1)) =
      some (stamp sign c (.obj e.fields)).2 := by
  have hs := checkLine_stamp sign c e (Text.tail text) hb
  rw [stamp_obj] at hs ⊢
  rw [records_writeln, records_body hb, check_append, h, Option.bind_some, check, hs]
  rfl

/-- The lines of successive events, as one process stamps and appends them. -/
def appended (c : Chain) : List Event → List Char
  | [] => []
  | e :: es => writeln (stamp sign c (.obj e.fields)).1 ++ appended (stamp sign c (.obj e.fields)).2 es

/-- **Run.** Any sequence of events stamped and appended in turn keeps the records
checkable. -/
theorem check_appended {text : List Char} {c : Chain} (h : check sign genesis (records text) = some c)
    (hb : BlankTail text) (es : List Event) :
    ∃ c', check sign genesis (records (text ++ appended sign c es)) = some c' := by
  induction es generalizing text c with
  | nil => exact ⟨c, by rw [appended, List.append_nil, h]⟩
  | cons e es ih =>
    obtain ⟨c', hc⟩ := ih (check_writeln sign h hb e) (blankTail_writeln text _)
    exact ⟨c', by rw [appended, ← List.append_assoc, hc]⟩

/-! ## Two lines under the key `audit-key` -/

def exampleFields (tsMs : Nat) (tool : String) : List (String × Json) :=
  [("ts_ms", .num (Num.ofNat tsMs)), ("event", .str "call"), ("caller", .str "alice"),
    ("tool_id", .str tool)]

def firstMac : String := "c638c05cf81d86cb9b0637cb304468eafd260cf47054ed9b5ae0b29ba18730ac"

def secondMac : String := "a553317a8c86dfac58f6261b6a2f647bd2d86197dac97bbde4b715f6ef3853c5"

/-- The keyed hash where the two lines need it. -/
def exampleSign (payload : String) : String :=
  if payload = "genesis\x1f1\x1f" ++
      (Json.obj (exampleFields 1000 "t0" ++ [("seq", seqValue 1)])).render then firstMac
  else if payload = firstMac ++ "\x1f2\x1f" ++
      (Json.obj (exampleFields 1001 "t1" ++ [("seq", seqValue 2)])).render then secondMac
  else ""

end MinMcp.L1.AuditChain
