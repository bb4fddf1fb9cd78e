import MinMcp.Core.Json.Read

/-!
# Reading back what was printed

The reader, started where a value is expected inside any containers, consumes
exactly the printed text of the value and hands the value to the container
around it (`outcome_print`); `read_print` is the case of a whole document. The
induction is on the value, with an inner one on the elements read so far. A value
that is nested too deep is refused at its first bracket that is one too many
(`outcome_print_deep`), so `read_print_eq` says what reading back gives for every value.
-/
namespace MinMcp.Core.JsonReader

open Json

/-! ## Strings -/

theorem unescape_shortEscape {c e : Char} (h : shortEscape c = some e) :
    unescape e = some c ∧ e ≠ 'u' := by
  simp only [shortEscape] at h
  repeat' split at h
  all_goals first
    | (cases h; subst_vars; decide)
    | cases h

theorem hexValue_hexDigit {n : Nat} (h : n < 16) : hexValue (hexDigit n) = some n := by
  have hd : ∀ m : Fin 16, hexValue (hexDigit m.val) = some m.val := by decide
  exact hd ⟨n, h⟩

theorem shortEscape_none {c : Char} (h : shortEscape c = none) : c ≠ '"' ∧ c ≠ '\\' := by
  refine ⟨?_, ?_⟩ <;> rintro rfl <;> exact absurd h (by decide)

theorem run_escapeChar (st : List Frame) (f : StrFor) (acc : List Char) (c : Char) :
    run ⟨st, .str f acc⟩ (escapeChar c) = some ⟨st, .str f (acc ++ [c])⟩ := by
  unfold escapeChar
  split
  · next e he =>
    obtain ⟨hu, hne⟩ := unescape_shortEscape he
    simp [run, step, hu, hne]
  · next he =>
    obtain ⟨hq, hb⟩ := shortEscape_none he
    split
    · next hc =>
      have h0 : hexValue '0' = some 0 := rfl
      have h1 := hexValue_hexDigit (n := c.toNat / 16) (by omega)
      have h2 := hexValue_hexDigit (n := c.toNat % 16) (by omega)
      have hv : 16 * (c.toNat / 16) + c.toNat % 16 = c.toNat := Nat.div_add_mod _ _
      have hh : isHighSurrogate c.toNat = false := by simp [isHighSurrogate]; omega
      have hl : isLowSurrogate c.toNat = false := by simp [isLowSurrogate]; omega
      simp [run, step, h0, h1, h2, hv, endHex, hh, hl, Char.ofNat_toNat]
    · next hc => simp [run, step, hq, hb, hc]

theorem run_escape (st : List Frame) (f : StrFor) (cs : List Char) (acc : List Char) :
    run ⟨st, .str f acc⟩ (cs.flatMap escapeChar) = some ⟨st, .str f (acc ++ cs)⟩ := by
  induction cs generalizing acc with
  | nil => simp [run]
  | cons c cs ih =>
    rw [List.flatMap_cons, run_append, run_escapeChar, Option.bind_some, ih, List.append_assoc]
    rfl

/-- The body and the closing quote of a printed string. -/
theorem run_stringBody (st : List Frame) (f : StrFor) (s : String) :
    run ⟨st, .str f []⟩ (s.toList.flatMap escapeChar ++ ['"']) = some (endString st s.toList f) := by
  rw [run_append, run_escape]
  simp [run, step]

/-! ## Numbers -/

/-- What may follow a number: nothing, a separator, a closing bracket or a blank. -/
def Stops (rest : List Char) : Prop :=
  ∀ c cs, rest = c :: cs → c = ',' ∨ c = ']' ∨ c = '}' ∨ isBlank c = true

theorem stops_nil : Stops [] := fun _ _ h => nomatch h

theorem step_stop {s : NumState} {c : Char} (hs : s.accepting = true)
    (hc : c = ',' ∨ c = ']' ∨ c = '}' ∨ isBlank c = true) : s.step c = none := by
  have hn : c.isDigit = false ∧ c ≠ '.' ∧ c ≠ 'e' ∧ c ≠ 'E' := by
    rcases hc with rfl | rfl | rfl | hc
    · decide
    · decide
    · decide
    · simp only [isBlank, Bool.or_eq_true, decide_eq_true_eq] at hc
      rcases hc with ((rfl | rfl) | rfl) | rfl <;> decide
  cases s <;> simp_all [NumState.step, NumState.accepting]

/-- After a complete value the reader is in one of the modes `next` is about. -/
theorem step_complete (v : Json) (st : List Frame) (c : Char) :
    step (complete v st) c = next (complete v st) c := by
  rcases st with _ | ⟨_ | _, st⟩ <;> rfl

theorem finish_complete (v : Json) (st : List Frame) :
    finish (complete v st) = result (complete v st) := by
  rcases st with _ | ⟨_ | _, st⟩ <;> rfl

theorem run_num (st : List Frame) (cs text : List Char) (s s' : NumState)
    (h : s.scan cs = some s') : run ⟨st, .num text s⟩ cs = some ⟨st, .num (text ++ cs) s'⟩ := by
  induction cs generalizing text s with
  | nil => simp only [NumState.scan, Option.some.injEq] at h; simp [run, h]
  | cons c cs ih =>
    rw [NumState.scan, Option.bind_eq_some_iff] at h
    obtain ⟨t, ht, h⟩ := h
    simp only [run, step, ht, Option.bind_some]
    rw [ih _ _ h, List.append_assoc]; rfl

theorem outcome_closeNum (st : List Frame) (n : Num) (s : NumState) (hs : s.accepting = true)
    (rest : List Char) (hr : Stops rest) :
    outcome ⟨st, .num n.text.toList s⟩ rest = outcome (complete (.num n) st) rest := by
  have hc : closeNum st n.text.toList s = some (complete (.num n) st) := by
    rw [closeNum, if_pos hs, Num.ofLiteral_text]; rfl
  cases rest with
  | nil =>
    have hf : finish ⟨st, .num n.text.toList s⟩ = finish (complete (.num n) st) := by
      rw [finish_complete]
      simp only [finish, hc, Option.bind_some]
    simp only [outcome, run, Option.bind_some, hf]
  | cons c cs =>
    have hstep : step ⟨st, .num n.text.toList s⟩ c = step (complete (.num n) st) c := by
      rw [step_complete]
      simp only [step, step_stop hs (hr c cs rfl), hc, Option.bind_some]
    simp only [outcome, run, hstep]

/-- What a number literal starts with opens a number. -/
theorem step_value_num (st : List Frame) {c : Char} {s : NumState}
    (h : NumState.start.step c = some s) : step ⟨st, .value⟩ c = some ⟨st, .num [c] s⟩ := by
  have hc := NumState.step_start h
  have hne : isBlank c = false ∧ c ≠ '"' ∧ c ≠ '[' ∧ c ≠ '{' ∧ c ≠ 't' ∧ c ≠ 'f' ∧ c ≠ 'n' := by
    refine ⟨?_, ?_⟩
    · by_contra hb
      simp only [isBlank, Bool.not_eq_false, Bool.or_eq_true, decide_eq_true_eq] at hb
      rcases hb with ((rfl | rfl) | rfl) | rfl <;> exact absurd hc (by decide)
    · refine ⟨?_, ?_, ?_, ?_, ?_, ?_⟩ <;> rintro rfl <;> exact absurd hc (by decide)
  simp [step, startValue, hne, h]

theorem outcome_num (st : List Frame) (n : Num) (rest : List Char) (hr : Stops rest) :
    outcome ⟨st, .value⟩ (n.text.toList ++ rest) = outcome (complete (.num n) st) rest := by
  obtain ⟨s, hs, ha⟩ : ∃ s, NumState.start.scan n.text.toList = some s ∧ s.accepting = true := by
    have hn := n.ok.1
    rw [isNumber, Option.any_eq_true] at hn
    exact hn
  cases ht : n.text.toList with
  | nil => rw [ht] at hs; cases hs; exact absurd ha (by decide)
  | cons c cs =>
    rw [ht, NumState.scan, Option.bind_eq_some_iff] at hs
    obtain ⟨t, hc, hs⟩ := hs
    have hrun : run ⟨st, .value⟩ (c :: cs) = some ⟨st, .num (c :: cs) s⟩ := by
      rw [run, step_value_num st hc, Option.bind_some, run_num st cs [c] t s hs]; rfl
    rw [outcome_append hrun, ← ht]
    exact outcome_closeNum st n s ha rest hr

/-! ## Containers -/

theorem print_head (v : Json) :
    ∃ c cs, v.print = c :: cs ∧ isBlank c = false ∧ c ≠ ']' := by
  cases v with
  | null => exact ⟨'n', "ull".toList, by decide, by decide, by decide⟩
  | bool b =>
    cases b
    · exact ⟨'f', "alse".toList, by decide, by decide, by decide⟩
    · exact ⟨'t', "rue".toList, by decide, by decide, by decide⟩
  | num n =>
    cases ht : n.text.toList with
    | nil =>
      have hn := n.ok.1
      rw [ht] at hn
      exact absurd hn (by decide)
    | cons c cs =>
      refine ⟨c, cs, by rw [print, ht], ?_⟩
      have hn := n.ok.1
      rw [ht, isNumber, NumState.scan] at hn
      cases hs : NumState.start.step c with
      | none => rw [hs] at hn; exact absurd hn (by simp)
      | some s =>
        have hc := NumState.step_start hs
        refine ⟨?_, by rintro rfl; exact absurd hc (by decide)⟩
        by_contra hb
        simp only [isBlank, Bool.not_eq_false, Bool.or_eq_true, decide_eq_true_eq] at hb
        rcases hb with ((rfl | rfl) | rfl) | rfl <;> exact absurd hc (by decide)
  | str s => exact ⟨'"', _, by rw [print, printString]; rfl, by decide, by decide⟩
  | arr xs => exact ⟨'[', _, by rw [print], by decide, by decide⟩
  | obj es => exact ⟨'{', _, by rw [print], by decide, by decide⟩

theorem stops_printElems (xs : List Json) (rest : List Char) :
    Stops (printElems false xs ++ rest) := by
  intro c cs h
  cases xs with
  | nil => simp [printElems] at h; exact Or.inr (Or.inl h.1.symm)
  | cons v xs => simp [printElems, sep] at h; exact Or.inl h.1.symm

theorem stops_printEntries (es : List (String × Json)) (rest : List Char) :
    Stops (printEntries false es ++ rest) := by
  intro c cs h
  cases es with
  | nil => simp [printEntries] at h; exact Or.inr (Or.inr (Or.inl h.1.symm))
  | cons e es => simp [printEntries, sep] at h; exact Or.inl h.1.symm

/-- The first element of an array is read as a value inside the array. -/
theorem outcome_arrFirst (st : List Frame) (v : Json) (rest : List Char) :
    outcome ⟨st, .arrFirst⟩ (v.print ++ rest) = outcome ⟨.arr [] :: st, .value⟩ (v.print ++ rest) := by
  obtain ⟨c, cs, hp, hb, hc⟩ := print_head v
  simp [hp, outcome, run, step, hb, hc]

/-- `Reads v`: wherever a value may stand, the reader consumes the text of `v`
and hands `v` on. -/
def Reads (v : Json) : Prop :=
  ∀ st rest, st.length + v.depth ≤ depthLimit → Stops rest →
    outcome ⟨st, .value⟩ (v.print ++ rest) = outcome (complete v st) rest

theorem outcome_elems (st : List Frame) (xs acc : List Json) (rest : List Char)
    (hx : ∀ v ∈ xs, Reads v ∧ st.length + 1 + v.depth ≤ depthLimit) :
    outcome ⟨st, .arrNext acc⟩ (printElems false xs ++ rest) =
      outcome (complete (.arr (acc ++ xs)) st) rest := by
  induction xs generalizing acc with
  | nil =>
    rw [printElems, List.append_nil]
    exact outcome_cons (s := complete (.arr acc) st) (by simp [step, next, isBlank]) rest
  | cons v xs ih =>
    obtain ⟨hv, hd⟩ := hx v List.mem_cons_self
    rw [printElems, sep, if_neg (by decide), List.cons_append, List.cons_append, List.cons_append,
      List.nil_append, outcome_cons (s := ⟨.arr acc :: st, .value⟩) (by simp [step, next, isBlank]),
      List.append_assoc, hv _ _ (by simpa using hd) (stops_printElems xs rest)]
    rw [complete, ih _ fun w hw => hx w (List.mem_cons_of_mem _ hw), List.append_assoc]
    rfl

/-- A printed key and its colon, read after `{` or `,`, lead to the value of the key. -/
theorem outcome_key (st : List Frame) (acc : List (String × Json)) (k : String) (cs : List Char)
    (r : Reader) (hq : step r '"' = some ⟨st, .str (.key acc) []⟩) :
    outcome r (printString k ++ ':' :: cs) = outcome ⟨.obj acc k :: st, .value⟩ cs := by
  have hkey : run r (printString k) = some ⟨st, .colon acc k⟩ := by
    rw [printString, List.cons_append, run, hq, Option.bind_some, run_stringBody]
    simp [endString]
  rw [outcome_append hkey, outcome_cons (s := ⟨.obj acc k :: st, .value⟩) (by simp [step, isBlank])]

/-- A printed key, its colon and the printed value, read after `{` or `,`. -/
theorem outcome_entry (st : List Frame) (acc : List (String × Json)) (k : String) (v : Json)
    (rest : List Char) (hk : k ∉ OrderedMap.keys acc) (hv : Reads v)
    (hd : st.length + 1 + v.depth ≤ depthLimit) (hr : Stops rest) (r : Reader)
    (hq : step r '"' = some ⟨st, .str (.key acc) []⟩) :
    outcome r (printString k ++ ':' :: v.print ++ rest) =
      outcome ⟨st, .objNext (acc ++ [(k, v)])⟩ rest := by
  rw [List.append_assoc, List.cons_append, outcome_key st acc k _ r hq,
    hv _ _ (by simpa using hd) hr, complete, OrderedMap.insert_of_notMem v hk]

theorem outcome_entries (st : List Frame) (es acc : List (String × Json)) (rest : List Char)
    (hn : (OrderedMap.keys (acc ++ es)).Nodup)
    (hx : ∀ e ∈ es, Reads e.2 ∧ st.length + 1 + e.2.depth ≤ depthLimit) :
    outcome ⟨st, .objNext acc⟩ (printEntries false es ++ rest) =
      outcome (complete (.obj (acc ++ es)) st) rest := by
  induction es generalizing acc with
  | nil =>
    rw [printEntries, List.append_nil]
    exact outcome_cons (s := complete (.obj acc) st) (by simp [step, next, isBlank]) rest
  | cons e es ih =>
    obtain ⟨k, v⟩ := e
    obtain ⟨hv, hd⟩ := hx (k, v) List.mem_cons_self
    have hk : k ∉ OrderedMap.keys acc := by
      intro hmem
      rw [OrderedMap.keys_append, OrderedMap.keys_cons, List.nodup_append] at hn
      exact hn.2.2 k hmem k List.mem_cons_self rfl
    rw [printEntries, sep, if_neg (by decide), List.cons_append, List.nil_append, List.cons_append,
      List.cons_append, List.cons_append,
      outcome_cons (s := ⟨st, .objKey acc⟩) (by simp [step, next, isBlank]), List.append_assoc,
      outcome_entry st acc k v _ hk hv hd (stops_printEntries es rest) _ (by simp [step, isBlank]),
      ih _ (by simpa using hn) fun w hw => hx w (List.mem_cons_of_mem _ hw), List.append_assoc]
    rfl

theorem reads_arr (xs : List Json) (ih : ∀ v ∈ xs, Reads v) : Reads (.arr xs) := by
  intro st rest hd hr
  rw [depth] at hd
  have hlt : st.length < depthLimit := by omega
  have hx : ∀ v ∈ xs, Reads v ∧ st.length + 1 + v.depth ≤ depthLimit := fun v hv =>
    ⟨ih v hv, by have := (depthList_le (n := depthList xs)).mp (Nat.le_refl _) v hv; omega⟩
  rw [print, List.cons_append,
    outcome_cons (s := ⟨st, .arrFirst⟩) (by simp [step, isBlank, startValue, hlt])]
  cases xs with
  | nil =>
    rw [printElems]
    exact outcome_cons (s := complete (.arr []) st) (by simp [step, isBlank]) rest
  | cons v xs =>
    obtain ⟨hv, hvd⟩ := hx v List.mem_cons_self
    rw [printElems, sep, if_pos rfl, List.nil_append, List.append_assoc, outcome_arrFirst,
      hv _ _ (by simpa using hvd) (stops_printElems xs rest), complete, List.nil_append,
      outcome_elems st xs [v] rest fun w hw => hx w (List.mem_cons_of_mem _ hw)]
    rfl

theorem reads_obj (es : List (String × Json)) (hn : (OrderedMap.keys es).Nodup)
    (ih : ∀ e ∈ es, Reads e.2) : Reads (.obj es) := by
  intro st rest hd hr
  rw [depth] at hd
  have hlt : st.length < depthLimit := by omega
  have hx : ∀ e ∈ es, Reads e.2 ∧ st.length + 1 + e.2.depth ≤ depthLimit := fun e he =>
    ⟨ih e he, by have := (depthEntries_le (n := depthEntries es)).mp (Nat.le_refl _) e he; omega⟩
  rw [print, List.cons_append,
    outcome_cons (s := ⟨st, .objFirst⟩) (by simp [step, isBlank, startValue, hlt])]
  cases es with
  | nil =>
    rw [printEntries]
    exact outcome_cons (s := complete (.obj []) st) (by simp [step, isBlank]) rest
  | cons e es =>
    obtain ⟨k, v⟩ := e
    obtain ⟨hv, hvd⟩ := hx (k, v) List.mem_cons_self
    rw [printEntries, sep, if_pos rfl, List.nil_append, List.append_assoc,
      outcome_entry st [] k v _ (by simp) hv hvd (stops_printEntries es rest) _ (by simp [step, isBlank]),
      outcome_entries st es _ rest (by simpa using hn) fun w hw => hx w (List.mem_cons_of_mem _ hw)]
    rfl

theorem reads_of_run {v : Json} (h : ∀ st, run ⟨st, .value⟩ v.print = some (complete v st)) :
    Reads v := fun st rest _ _ => outcome_append (h st) rest

/-- Wherever a value may stand, a printed value is read back. -/
theorem outcome_print (v : Json) (h : v.WF) : Reads v := by
  induction v using Json.ind with
  | null => exact reads_of_run fun _ => rfl
  | bool b => cases b <;> exact reads_of_run fun _ => rfl
  | num n => intro st rest _ hr; rw [print]; exact outcome_num st n rest hr
  | str s =>
    refine reads_of_run fun st => ?_
    have hq : step ⟨st, .value⟩ '"' = some ⟨st, .str .value []⟩ := by simp [step, isBlank, startValue]
    rw [print, printString, List.cons_append, run, hq, Option.bind_some, run_stringBody]
    simp [endString]
  | arr xs ih => exact reads_arr xs fun v hv => ih v hv (wf_arr.mp h v hv)
  | obj es ih =>
    rw [wf_obj] at h
    exact reads_obj es h.1 fun e he => ih e he (h.2 e he)

/-- **Round trip.** A value with unique keys, nested no deeper than the reader
allows, is read back from its printed text. -/
theorem read_print (v : Json) (h : v.WF) (hd : v.depth ≤ depthLimit) : read v.print = some v := by
  have hr := outcome_print v h [] [] (by simpa using hd) stops_nil
  rw [List.append_nil] at hr
  exact hr

/-! ## Too deep

A value nested deeper than the reader allows is refused, wherever it stands. -/

def Refuses (v : Json) : Prop :=
  ∀ st rest, st.length ≤ depthLimit → depthLimit < st.length + v.depth →
    outcome ⟨st, .value⟩ (v.print ++ rest) = none

theorem refuses_scalar {v : Json} (h : v.depth = 0) : Refuses v := by
  intro st rest hst hd
  omega

/-- In a list with an element that is too deep, the reader stops at the first one. -/
theorem outcome_elems_deep (st : List Frame) (xs acc : List Json) (rest : List Char)
    (hst : st.length < depthLimit) (hx : ∀ v ∈ xs, Reads v ∧ Refuses v)
    (hd : ∃ v ∈ xs, depthLimit < st.length + 1 + v.depth) :
    outcome ⟨st, .arrNext acc⟩ (printElems false xs ++ rest) = none := by
  induction xs generalizing acc with
  | nil => simp at hd
  | cons v xs ih =>
    obtain ⟨hv, hdeep⟩ := hx v List.mem_cons_self
    rw [printElems, sep, if_neg (by decide), List.cons_append, List.cons_append, List.cons_append,
      List.nil_append, outcome_cons (s := ⟨.arr acc :: st, .value⟩) (by simp [step, next, isBlank]),
      List.append_assoc]
    by_cases hfit : st.length + 1 + v.depth ≤ depthLimit
    · rw [hv _ _ (by simpa using hfit) (stops_printElems xs rest), complete]
      refine ih _ (fun w hw => hx w (List.mem_cons_of_mem _ hw)) ?_
      obtain ⟨w, hw, hwd⟩ := hd
      rcases List.mem_cons.mp hw with rfl | hw
      · omega
      · exact ⟨w, hw, hwd⟩
    · refine hdeep _ _ ?_ ?_ <;> rw [List.length_cons] <;> omega

theorem outcome_entries_deep (st : List Frame) (es acc : List (String × Json)) (rest : List Char)
    (hst : st.length < depthLimit) (hx : ∀ e ∈ es, Reads e.2 ∧ Refuses e.2)
    (hd : ∃ e ∈ es, depthLimit < st.length + 1 + e.2.depth) :
    outcome ⟨st, .objNext acc⟩ (printEntries false es ++ rest) = none := by
  induction es generalizing acc with
  | nil => simp at hd
  | cons e es ih =>
    obtain ⟨k, v⟩ := e
    obtain ⟨hv, hdeep⟩ : Reads v ∧ Refuses v := hx (k, v) List.mem_cons_self
    rw [printEntries, sep, if_neg (by decide), List.cons_append, List.nil_append, List.cons_append,
      List.cons_append, List.cons_append,
      outcome_cons (s := ⟨st, .objKey acc⟩) (by simp [step, next, isBlank]), List.append_assoc,
      List.append_assoc, List.cons_append, outcome_key st acc k _ _ (by simp [step, isBlank])]
    by_cases hfit : st.length + 1 + v.depth ≤ depthLimit
    · rw [hv _ _ (by simpa using hfit) (stops_printEntries es rest), complete]
      refine ih _ (fun w hw => hx w (List.mem_cons_of_mem _ hw)) ?_
      obtain ⟨w, hw, hwd⟩ := hd
      rcases List.mem_cons.mp hw with rfl | hw
      · exact absurd hfit (Nat.not_le.mpr hwd)
      · exact ⟨w, hw, hwd⟩
    · refine hdeep _ _ ?_ ?_ <;> rw [List.length_cons] <;> omega


theorem refuses_arr (xs : List Json) (ih : ∀ v ∈ xs, v.WF ∧ Refuses v) : Refuses (.arr xs) := by
  intro st rest hst hd
  rw [depth] at hd
  rw [print, List.cons_append]
  by_cases hlt : st.length < depthLimit
  · have hx : ∀ v ∈ xs, Reads v ∧ Refuses v := fun v hv => ⟨outcome_print v (ih v hv).1, (ih v hv).2⟩
    rw [outcome_cons (s := ⟨st, .arrFirst⟩) (by simp [step, isBlank, startValue, hlt])]
    cases xs with
    | nil => rw [depthList] at hd; omega
    | cons v xs =>
      obtain ⟨hv, hdeep⟩ := hx v List.mem_cons_self
      rw [printElems, sep, if_pos rfl, List.nil_append, List.append_assoc, outcome_arrFirst]
      by_cases hfit : st.length + 1 + v.depth ≤ depthLimit
      · rw [hv _ _ (by simpa using hfit) (stops_printElems xs rest), complete, List.nil_append]
        refine outcome_elems_deep st xs [v] rest hlt (fun w hw => hx w (List.mem_cons_of_mem _ hw)) ?_
        by_contra hno
        rw [depthList] at hd
        have := (depthList_le (n := depthLimit - (st.length + 1))).mpr fun w hw =>
          Nat.le_sub_of_add_le (by_contra fun hn => hno ⟨w, hw, by omega⟩)
        omega
      · refine hdeep _ _ ?_ ?_ <;> rw [List.length_cons] <;> omega
  · rw [outcome, run]
    simp [step, isBlank, startValue, hlt]

theorem refuses_obj (es : List (String × Json)) (ih : ∀ e ∈ es, e.2.WF ∧ Refuses e.2) :
    Refuses (.obj es) := by
  intro st rest hst hd
  rw [depth] at hd
  rw [print, List.cons_append]
  by_cases hlt : st.length < depthLimit
  · have hx : ∀ e ∈ es, Reads e.2 ∧ Refuses e.2 := fun e he => ⟨outcome_print e.2 (ih e he).1, (ih e he).2⟩
    rw [outcome_cons (s := ⟨st, .objFirst⟩) (by simp [step, isBlank, startValue, hlt])]
    cases es with
    | nil => rw [depthEntries] at hd; omega
    | cons e es =>
      obtain ⟨k, v⟩ := e
      obtain ⟨hv, hdeep⟩ : Reads v ∧ Refuses v := hx (k, v) List.mem_cons_self
      rw [printEntries, sep, if_pos rfl, List.nil_append, List.append_assoc, List.append_assoc,
        List.cons_append, outcome_key st [] k _ _ (by simp [step, isBlank])]
      by_cases hfit : st.length + 1 + v.depth ≤ depthLimit
      · rw [hv _ _ (by simpa using hfit) (stops_printEntries es rest), complete]
        refine outcome_entries_deep st es _ rest hlt (fun w hw => hx w (List.mem_cons_of_mem _ hw)) ?_
        by_contra hno
        rw [depthEntries] at hd
        have := (depthEntries_le (n := depthLimit - (st.length + 1))).mpr fun w hw =>
          Nat.le_sub_of_add_le (by_contra fun hn => hno ⟨w, hw, by omega⟩)
        omega
      · refine hdeep _ _ ?_ ?_ <;> rw [List.length_cons] <;> omega
  · rw [outcome, run]
    simp [step, isBlank, startValue, hlt]

theorem outcome_print_deep (v : Json) (h : v.WF) : Refuses v := by
  induction v using Json.ind with
  | null => exact refuses_scalar rfl
  | bool b => exact refuses_scalar rfl
  | num n => exact refuses_scalar rfl
  | str s => exact refuses_scalar rfl
  | arr xs ih =>
    rw [wf_arr] at h
    exact refuses_arr xs fun v hv => ⟨h v hv, ih v hv (h v hv)⟩
  | obj es ih =>
    rw [wf_obj] at h
    exact refuses_obj es fun e he => ⟨h.2 e he, ih e he (h.2 e he)⟩

/-- A printed value is read back, unless it is nested too deep; then it is refused. -/
theorem read_print_eq (v : Json) (h : v.WF) :
    read v.print = if v.depth ≤ depthLimit then some v else none := by
  split
  · next hd => exact read_print v h hd
  · next hd =>
    have hr := outcome_print_deep v h [] [] (Nat.zero_le _) (by simpa using hd)
    rwa [List.append_nil] at hr

/-! ## Around a document -/

theorem run_blank_value (st : List Frame) (ws : List Char) (h : ∀ c ∈ ws, isBlank c = true) :
    run ⟨st, .value⟩ ws = some ⟨st, .value⟩ := by
  induction ws with
  | nil => rfl
  | cons c ws ih =>
    simp only [run, step, h c List.mem_cons_self, if_true, Option.bind_some]
    exact ih fun d hd => h d (List.mem_cons_of_mem _ hd)

theorem read_blank_append (ws cs : List Char) (h : ∀ c ∈ ws, isBlank c = true) :
    read (ws ++ cs) = read cs :=
  outcome_append (run_blank_value [] ws h) cs

theorem run_done (st : List Frame) (v : Json) (cs : List Char) (c : Char) (hc : c ∈ cs)
    (hb : isBlank c = false) : run ⟨st, .done v⟩ cs = none := by
  induction cs with
  | nil => cases hc
  | cons d cs ih =>
    by_cases hd : isBlank d = true
    · rcases List.mem_cons.mp hc with rfl | hc
      · rw [hd] at hb; cases hb
      · simp only [run, step, next, hd, if_true, Option.bind_some]; exact ih hc
    · simp [run, step, next, hd]

/-- After a complete object only blanks can follow. -/
theorem read_append_eq_none {xs ys : List Char} {es : List (String × Json)} {c : Char}
    (h : read xs = some (.obj es)) (hc : c ∈ ys) (hb : isBlank c = false) : read (xs ++ ys) = none := by
  rw [read, outcome, Option.bind_eq_some_iff] at h
  obtain ⟨⟨st, m⟩, hr, hf⟩ := h
  rw [read, outcome_append hr]
  cases m with
  | num text s =>
    simp only [finish, closeNum, Option.bind_eq_some_iff] at hf
    obtain ⟨r, hn, hf⟩ := hf
    split at hn
    · rw [Option.map_eq_some_iff] at hn
      obtain ⟨n, -, rfl⟩ := hn
      rcases st with _ | ⟨_ | _, st⟩ <;> simp [complete, result] at hf
    · cases hn
  | done v =>
    rw [outcome, run_done st v ys c hc hb]; rfl
  | _ => simp [finish, result] at hf

end MinMcp.Core.JsonReader
