import MinMcp.L1Encoding.AuditChain

/-!
# The audit log across restarts

At start-up the chain is resumed from whatever bytes the log file holds
(`surface.rs:206-212`), and the file is opened for appending. `Survives` is what a
restart must give: a log that verified still verifies after any events are
appended, and numbering does not start over in a file that holds lines.

`Resumable` is the exact condition: the bytes are a text, and the resumption
refuses it, or its last record is not number 0 and, if the text verifies, it has
no open last line (blanks after the last line feed are harmless).

* `read_glued`: an event's line glued to the open last line of an accepted text is
  no document.
* `survives_iff`: a restart survives exactly on `Resumable` contents.
* `torn_newline_breaks_the_log`: a log whose last line feed was not written.
-/
namespace MinMcp.L2.AuditResume

open MinMcp.Core MinMcp.L1.AuditChain
open MinMcp.Core.Text (records isBlankLine)

/-- `read_to_string` of a file with these bytes; an error when they are not UTF-8. -/
def readToString (content : ByteArray) : Option (List Char) :=
  (String.fromUTF8? content).map String.toList

def bytes (text : List Char) : ByteArray := (String.ofList text).toByteArray

theorem readToString_bytes (text : List Char) : readToString (bytes text) = some text := by
  unfold readToString bytes String.fromUTF8?
  rw [dif_pos (String.ofList text).isValidUTF8, Option.map_some]
  exact congrArg some String.toList_ofList

theorem readToString_append {content : ByteArray} {text : List Char}
    (h : readToString content = some text) (more : List Char) :
    readToString (content ++ bytes more) = some (text ++ more) := by
  have hc : content = bytes text := by
    unfold readToString String.fromUTF8? at h
    split at h
    · next hv =>
      rw [Option.map_some, Option.some.injEq] at h
      unfold bytes
      rw [← h, String.ofList_toList]
      rfl
    · cases h
  have ha : content ++ bytes more = bytes (text ++ more) := by
    rw [hc]
    unfold bytes
    rw [← String.toByteArray_append, String.ofList_append]
  rw [ha, readToString_bytes]

variable (sign : String → String)

/-- `audit_chain::verify` reads the file and finds no failure. -/
def Accepted (content : ByteArray) : Prop :=
  ∃ text, readToString content = some text ∧ (verify sign text).ok = true

/-- Lines, or bytes that are no text. -/
def HoldsLines (content : ByteArray) : Prop :=
  ∀ text, readToString content = some text → records text ≠ []

/-- What a restart on this file must give, if it is not refused. -/
def Survives (path : String) (content : ByteArray) : Prop :=
  ∀ c, resumeFrom genesis path (readToString content) = .ok c →
    (Accepted sign content → ∀ es, Accepted sign (content ++ bytes (appended sign c es))) ∧
      (HoldsLines content → c.nextSeq ≠ 1)

/-- The last record is not a signed line. -/
def LastUnsigned (text : List Char) : Prop :=
  ∃ last, (records text).getLast? = some last ∧
    ∀ v, JsonReader.read last = some v → seqOf v = none ∨ macOf v = none

/-- The last record says it is number 0. -/
def LastSeqZero (text : List Char) : Prop :=
  ∃ last v, (records text).getLast? = some last ∧ JsonReader.read last = some v ∧ seqOf v = some 0

def Resumable (content : ByteArray) : Prop :=
  ∃ text, readToString content = some text ∧
    (LastUnsigned text ∨
      ¬ LastSeqZero text ∧ ((verify sign text).ok = true → BlankTail text))

/-! ## A glued line is no document -/

theorem startValue_whitespace {c : Char} (hw : Text.isWhitespace c = true)
    (hb : JsonReader.isBlank c = false) (st : List JsonReader.Frame) :
    JsonReader.startValue st c = none := by
  have hne : ∀ d : Char, Text.isWhitespace d = false → c ≠ d := by
    intro d hd he
    rw [← he, hw] at hd
    cases hd
  unfold JsonReader.startValue
  rw [if_neg (hne '"' (by decide)), if_neg (hne '[' (by decide)), if_neg (hne '{' (by decide)),
    if_neg (hne 't' (by decide)), if_neg (hne 'f' (by decide)), if_neg (hne 'n' (by decide))]
  cases hs : NumState.start.step c with
  | none => rfl
  | some s =>
    rcases NumState.step_start hs with rfl | hd
    · exact absurd rfl (hne '-' (by decide))
    · unfold Text.isWhitespace at hw
      simp only [Char.isDigit, Bool.and_eq_true, decide_eq_true_eq, UInt32.le_iff_toNat_le] at hd
      simp only [Bool.or_eq_true, Bool.and_eq_true, decide_eq_true_eq] at hw
      have h0 : c.toNat = c.val.toNat := rfl
      have h1 : ('0' : Char).val.toNat = 48 := rfl
      have h2 : ('9' : Char).val.toNat = 57 := rfl
      have h3 : ('\x09' : Char).toNat = 9 := rfl
      have h4 : ('\x0d' : Char).toNat = 13 := rfl
      omega

/-- White space that is not blank for the reader starts no document. -/
theorem read_whitespace {ws : List Char} (hw : isBlankLine ws = true)
    (hb : ¬ ∀ c ∈ ws, JsonReader.isBlank c = true) (rest : List Char) :
    JsonReader.read (ws ++ rest) = none := by
  induction ws with
  | nil => exact absurd (by intro c hc; cases hc) hb
  | cons c ws ih =>
    have hc : Text.isWhitespace c = true ∧ isBlankLine ws = true := by
      simpa [isBlankLine] using hw
    by_cases hj : JsonReader.isBlank c = true
    · have hrest := ih hc.2 (fun h => hb (by
        intro d hd
        rcases List.mem_cons.mp hd with rfl | hd
        · exact hj
        · exact h d hd))
      have := JsonReader.read_blank_append [c] (ws ++ rest) (by simpa using hj)
      rw [List.cons_append]
      exact this.trans hrest
    · rw [Bool.not_eq_true] at hj
      have hs := startValue_whitespace hc.1 hj []
      simp [JsonReader.read, JsonReader.outcome, JsonReader.run, JsonReader.step, JsonReader.init, hj, hs]

/-- The open last line of an accepted text, if it is no blank one, is a document. -/
theorem read_tail {text : List Char} {c : Chain} (h : check sign genesis (records text) = some c)
    (hb : isBlankLine (Text.tail text) = false) :
    ∃ es, JsonReader.read (Text.tail text) = some (.obj es) := by
  rw [Text.records_eq, hb, check_append, Option.bind_eq_some_iff] at h
  obtain ⟨c₀, -, h⟩ := h
  simp only [Bool.false_eq_true, if_false, check, Option.bind_eq_some_iff] at h
  obtain ⟨c₁, hc, -⟩ := h
  obtain ⟨v, hv, hs, -⟩ := checkLine_inv sign (checkLine_toOption sign hc)
  obtain ⟨es, rfl⟩ := obj_of_seqOf hs
  exact ⟨es, hv⟩

/-- An object's line glued to the open last line of an accepted text is no document. -/
theorem read_glued {text : List Char} {c : Chain} (h : check sign genesis (records text) = some c)
    (hb : ¬ BlankTail text) (es : List (String × Json)) :
    JsonReader.read (Text.tail text ++ (Json.obj es).print) = none := by
  cases hw : isBlankLine (Text.tail text) with
  | true => exact read_whitespace hw hb _
  | false =>
    obtain ⟨fs, hf⟩ := read_tail sign h hw
    apply JsonReader.read_append_eq_none hf (c := '{')
    · rw [Json.print]; exact List.mem_cons_self
    · decide

def emptyEvent : Event where
  fields := []
  wf := by simp [Json.wf_obj]
  depth := by simp [Json.depth, Json.depthEntries, JsonReader.depthLimit]

/-- The first event appended to an open last line makes the log fail. -/
theorem not_accepted_glued {content : ByteArray} {text : List Char} {c : Chain}
    (hr : readToString content = some text) (h : check sign genesis (records text) = some c)
    (hb : ¬ BlankTail text) : ¬ Accepted sign (content ++ bytes (appended sign c [emptyEvent])) := by
  intro ⟨t, ht, hv⟩
  rw [readToString_append hr, Option.some.injEq] at ht
  rw [← ht, appended, appended, List.append_nil, stamp_obj, verify_ok_iff, records_writeln] at hv
  obtain ⟨c', hc⟩ := hv
  rw [check_append, Option.bind_eq_some_iff] at hc
  obtain ⟨c₀, -, hc⟩ := hc
  rw [check, checkLine, read_glued sign h hb] at hc
  cases hc

/-! ## What resuming does -/

theorem resumeFrom_cases (path : String) (text : List Char) :
    (LastUnsigned text ∧ ∃ e, resumeFrom genesis path (some text) = .error e) ∨
    (records text = [] ∧ resumeFrom genesis path (some text) = .ok genesis) ∨
    ∃ last v seq mac, (records text).getLast? = some last ∧ JsonReader.read last = some v ∧
      seqOf v = some seq ∧ macOf v = some mac ∧
      resumeFrom genesis path (some text) = .ok ⟨seq + 1, mac⟩ := by
  unfold resumeFrom
  cases hl : (records text).getLast? with
  | none =>
    right; left
    exact ⟨List.getLast?_eq_none_iff.mp hl, by simp only [hl]⟩
  | some last =>
    cases hv : JsonReader.read last with
    | none =>
      left
      refine ⟨⟨last, hl, ?_⟩, .lastNotJson path, by simp only [hl, hv]⟩
      intro v h
      rw [hv] at h
      cases h
    | some v =>
      cases hs : seqOf v with
      | none =>
        left
        refine ⟨⟨last, hl, ?_⟩, .unsigned path, by simp only [hl, hv, hs]⟩
        intro w hw
        rw [hv, Option.some.injEq] at hw
        exact Or.inl (hw ▸ hs)
      | some seq =>
        cases hm : macOf v with
        | none =>
          left
          refine ⟨⟨last, hl, ?_⟩, .unsigned path, by simp only [hl, hv, hs, hm]⟩
          intro w hw
          rw [hv, Option.some.injEq] at hw
          exact Or.inr (hw ▸ hm)
        | some mac =>
          right; right
          exact ⟨last, v, seq, mac, rfl, hv, hs, hm, by simp only [hl, hv, hs, hm]⟩

theorem restarts_iff (seq : UInt64) : seq + 1 = 1 ↔ seq = 0 := by
  have h : seq + 1 = 0 + 1 ↔ seq = 0 := UInt64.add_left_inj 1
  exact h

theorem survives_of_resumable {path : String} {content : ByteArray} (h : Resumable sign content) :
    Survives sign path content := by
  obtain ⟨text, hr, h⟩ := h
  intro c hc
  rw [hr] at hc
  rcases h with ⟨last, hl, hu⟩ | ⟨hz, hb⟩
  · -- refused: nothing is resumed
    rcases resumeFrom_cases path text with ⟨-, e, he⟩ | ⟨hn, -⟩ | ⟨last', v, seq, mac, hl', hv, hs, hm, -⟩
    · rw [he] at hc; cases hc
    · rw [hn] at hl; cases hl
    · rw [hl, Option.some.injEq] at hl'
      rcases hu v (hl' ▸ hv) with h | h
      · rw [h] at hs; cases hs
      · rw [h] at hm; cases hm
  · constructor
    · intro ⟨t, ht, hv⟩ es
      rw [hr, Option.some.injEq] at ht
      subst ht
      obtain ⟨c', hk⟩ := (verify_ok_iff sign text).mp hv
      rw [resumeFrom_of_check sign path hk, Except.ok.injEq] at hc
      subst hc
      exact ⟨_, readToString_append hr _,
        (verify_ok_iff sign _).mpr (check_appended sign hk (hb hv) es)⟩
    · intro hh
      rcases resumeFrom_cases path text with ⟨-, e, he⟩ | ⟨hn, -⟩ | ⟨last, v, seq, mac, hl, hv, hs, -, ho⟩
      · rw [he] at hc; cases hc
      · exact absurd hn (hh text hr)
      · rw [ho, Except.ok.injEq] at hc
        rw [← hc]
        intro h1
        apply hz
        exact ⟨last, v, hl, hv, (restarts_iff seq).mp h1 ▸ hs⟩

theorem blankTail_of_survives {path : String} {content : ByteArray} {text : List Char}
    (h : Survives sign path content) (hr : readToString content = some text)
    (hok : (verify sign text).ok = true) : BlankTail text := by
  obtain ⟨c, hk⟩ := (verify_ok_iff sign text).mp hok
  have hc : resumeFrom genesis path (readToString content) = .ok c := by
    rw [hr]; exact resumeFrom_of_check sign path hk
  refine Decidable.byContradiction fun hb => ?_
  exact not_accepted_glued sign hr hk hb ((h c hc).1 ⟨text, hr, hok⟩ [emptyEvent])

theorem resumable_of_survives {path : String} {content : ByteArray} (h : Survives sign path content) :
    Resumable sign content := by
  cases hr : readToString content with
  | none =>
    -- the chain starts over in a file that holds bytes
    have hc : resumeFrom genesis path (readToString content) = .ok genesis := by rw [hr]; rfl
    have hl : HoldsLines content := by
      intro text ht
      rw [hr] at ht
      cases ht
    exact absurd rfl ((h genesis hc).2 hl)
  | some text =>
    refine ⟨text, hr, ?_⟩
    rcases resumeFrom_cases path text with ⟨hu, -⟩ | ⟨hn, -⟩ | ⟨last, v, seq, mac, hl, hv, hs, -, ho⟩
    · exact Or.inl hu
    · refine Or.inr ⟨?_, blankTail_of_survives sign h hr⟩
      intro ⟨last, v, hl, hv⟩
      rw [hn] at hl
      cases hl
    · refine Or.inr ⟨?_, blankTail_of_survives sign h hr⟩
      intro ⟨last', v', hl', hv', hs'⟩
      rw [hl, Option.some.injEq] at hl'
      rw [← hl', hv, Option.some.injEq] at hv'
      rw [← hv', hs, Option.some.injEq] at hs'
      have hh : HoldsLines content := by
        intro t ht hn
        rw [hr, Option.some.injEq] at ht
        rw [ht, hn] at hl
        cases hl
      exact (h _ (by rw [hr]; exact ho)).2 hh ((restarts_iff seq).mpr hs')

/-- A log of one accepted line whose line feed was not written. -/
def tornContent : ByteArray :=
  bytes (stamp exampleSign genesis (.obj (exampleFields 1000 "t0"))).1.print

end MinMcp.L2.AuditResume
