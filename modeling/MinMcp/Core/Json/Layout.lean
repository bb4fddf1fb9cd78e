import MinMcp.Core.Json.Tokens
import MinMcp.Core.Json.RoundTrip

/-!
# Blanks between tokens

What the reader makes of a text does not depend on the blanks between its tokens, as long as no
word stands next to another: a word that is still open when something else comes is closed first,
which is all that a blank does (`step_closed`, `step_blank`).

* `read_joined`: the tokens of a text without blanks between them are read as the text.
-/
namespace MinMcp.Core.JsonText

open MinMcp.Core.JsonReader

/-- Between two tokens, with no word open. -/
def Settled : Mode → Prop
  | .value | .arrFirst | .arrNext _ | .objFirst | .objKey _ | .colon _ _ | .objNext _ | .done _ => True
  | _ => False

/-- In no string; a word may be open. -/
def Between : Mode → Prop
  | .num _ _ => True
  | .word rest _ => ∀ c ∈ rest, isWordChar c = true
  | m => Settled m

/-- The reader with an open word at its end. -/
def closed (r : Reader) : Option Reader :=
  match r.mode with
  | .num text s => closeNum r.stack text s
  | .word _ _ => none
  | _ => some r

variable {r r' : Reader} {c : Char}

theorem between_of_settled {m : Mode} (h : Settled m) : Between m := by
  cases m <;> first | exact h | exact h.elim

theorem closed_of_settled (h : Settled r.mode) : closed r = some r := by
  obtain ⟨st, m⟩ := r
  cases m <;> first | rfl | exact h.elim

theorem settled_complete (v : Json) (st : List Frame) : Settled (complete v st).mode := by
  rcases st with _ | ⟨_ | _, st⟩ <;> trivial

theorem closeNum_eq {st : List Frame} {text : List Char} {s : NumState} (h : closeNum st text s = some r') :
    ∃ v, r' = complete v st := by
  unfold closeNum at h
  split at h
  · obtain ⟨n, -, rfl⟩ := Option.map_eq_some_iff.mp h
    exact ⟨.num n, rfl⟩
  · cases h

theorem settled_of_closed (hb : Between r.mode) (h : closed r = some r') : Settled r'.mode := by
  obtain ⟨st, m⟩ := r
  cases m with
  | num text s =>
    obtain ⟨v, rfl⟩ := closeNum_eq h
    exact settled_complete v st
  | word rest v => cases h
  | _ => exact Option.some.inj h ▸ hb

theorem numStep_none (hc : isWordChar c = false) (s : NumState) : s.step c = none := by
  have hd : c.isDigit = false ∧ c ≠ '-' ∧ c ≠ '+' ∧ c ≠ '.' ∧ c ≠ 'e' ∧ c ≠ 'E' ∧ c ≠ '0' := by
    refine ⟨?_, ?_, ?_, ?_, ?_, ?_, ?_⟩
    · simp only [isWordChar, Char.isAlphanum, Bool.or_eq_false_iff] at hc
      exact hc.1.1.1.2
    all_goals rintro rfl; exact absurd hc (by decide)
  cases s <;> simp [NumState.step, NumState.isDigit19, hd]

/-- What is no part of a word closes an open one. -/
theorem step_closed (hb : Between r.mode) (hc : isWordChar c = false) :
    step r c = (closed r).bind fun r' => step r' c := by
  obtain ⟨st, m⟩ := r
  cases m with
  | num text s =>
    have hstep : step ⟨st, .num text s⟩ c = (closeNum st text s).bind fun r' => next r' c := by
      simp only [step, numStep_none hc]
    have hclosed : closed ⟨st, .num text s⟩ = closeNum st text s := rfl
    rw [hstep, hclosed]
    cases hn : closeNum st text s with
    | none => rfl
    | some r' =>
      obtain ⟨v, rfl⟩ := closeNum_eq hn
      exact (step_complete v st c).symm
  | word rest v =>
    cases rest with
    | nil => rfl
    | cons d ds =>
      have hd : c ≠ d := by
        rintro rfl
        simp [hb c (by simp)] at hc
      cases ds <;> simp [step, closed, hd]
  | _ => rfl

theorem finish_closed (hb : Between r.mode) : finish r = (closed r).bind finish := by
  obtain ⟨st, m⟩ := r
  cases m with
  | num text s =>
    simp only [finish, closed]
    cases hn : closeNum st text s with
    | none => rfl
    | some r' =>
      obtain ⟨v, rfl⟩ := closeNum_eq hn
      exact (finish_complete v st).symm
  | _ => rfl

theorem outcome_closed (hb : Between r.mode) {cs : List Char} (h : WordEnds cs) :
    outcome r cs = (closed r).bind fun r' => outcome r' cs := by
  cases cs with
  | nil => exact finish_closed hb
  | cons c cs =>
    rw [outcome, run, step_closed hb (h c cs rfl)]
    cases closed r with
    | none => rfl
    | some r' => rfl

/-! ## One token -/

theorem step_blank (h : Settled r.mode) (hc : isBlank c = true) : step r c = some r := by
  obtain ⟨st, m⟩ := r
  cases m <;> first | exact h.elim | simp [step, next, hc]

theorem next_word (h : isWordChar c = true) : next r c = none := by
  have hb : isBlank c = false := by
    cases hb : isBlank c with
    | false => rfl
    | true => simp [(kind_of_blank hb).2.1] at h
  have hc : c ≠ ',' ∧ c ≠ ']' ∧ c ≠ '}' := by
    refine ⟨?_, ?_, ?_⟩ <;> rintro rfl <;> exact absurd h (by decide)
  obtain ⟨st, m⟩ := r
  cases m <;> simp [next, hb, hc]

/-- Punctuation opens a container, or goes on in one, or ends one. -/
theorem settled_startValue {st : List Frame} (hc : isPunct c = true) (hs : startValue st c = some r') :
    Settled r'.mode := by
  simp only [isPunct, List.contains_eq_mem, decide_eq_true_eq, List.mem_cons, List.not_mem_nil, or_false] at hc
  unfold startValue at hs
  obtain rfl | rfl | rfl | rfl | rfl | rfl := hc <;>
    simp [NumState.step, NumState.isDigit19] at hs <;> obtain ⟨-, rfl⟩ := hs <;> trivial

theorem settled_next (h : Settled r.mode) (hs : next r c = some r') : Settled r'.mode := by
  unfold next at hs
  split at hs
  · exact Option.some.inj hs ▸ h
  · split at hs
    · split at hs
      · obtain rfl := Option.some.inj hs
        trivial
      · split at hs
        · obtain rfl := Option.some.inj hs
          exact settled_complete _ _
        · cases hs
    · split at hs
      · obtain rfl := Option.some.inj hs
        trivial
      · split at hs
        · obtain rfl := Option.some.inj hs
          exact settled_complete _ _
        · cases hs
    · cases hs

theorem step_punct (h : Settled r.mode) (hc : isPunct c = true) (hs : step r c = some r') : Settled r'.mode := by
  have hq := (kind_of_punct hc).2
  have hb : isBlank c = false := by
    cases hb : isBlank c with
    | false => rfl
    | true => simp [(kind_of_blank hb).1] at hc
  obtain ⟨st, m⟩ := r
  cases m with
  | value =>
    simp only [step, hb, Bool.false_eq_true, if_false] at hs
    exact settled_startValue hc hs
  | arrFirst =>
    simp only [step, hb, Bool.false_eq_true, if_false] at hs
    split at hs
    · exact Option.some.inj hs ▸ settled_complete _ _
    · exact settled_startValue hc hs
  | objFirst =>
    simp only [step, hb, Bool.false_eq_true, if_false, hq] at hs
    split at hs
    · exact Option.some.inj hs ▸ settled_complete _ _
    · cases hs
  | objKey es => simp [step, hb, hq] at hs
  | colon es k =>
    simp only [step, hb, Bool.false_eq_true, if_false] at hs
    split at hs
    · obtain rfl := Option.some.inj hs
      trivial
    · cases hs
  | arrNext xs => exact settled_next h hs
  | objNext es => exact settled_next h hs
  | done v => exact settled_next h hs
  | _ => exact h.elim

/-- The first character of a word. -/
theorem between_startValue {st : List Frame} (hc : isWordChar c = true) (hs : startValue st c = some r') :
    Between r'.mode := by
  have hne : c ≠ '"' ∧ c ≠ '[' ∧ c ≠ '{' := by
    refine ⟨?_, ?_, ?_⟩ <;> rintro rfl <;> exact absurd hc (by decide)
  simp only [startValue, hne, if_false] at hs
  split at hs
  · obtain rfl := Option.some.inj hs
    exact List.all_eq_true.mp (by decide : "rue".toList.all isWordChar = true)
  · split at hs
    · obtain rfl := Option.some.inj hs
      exact List.all_eq_true.mp (by decide : "alse".toList.all isWordChar = true)
    · split at hs
      · obtain rfl := Option.some.inj hs
        exact List.all_eq_true.mp (by decide : "ull".toList.all isWordChar = true)
      · obtain ⟨s, -, rfl⟩ := Option.map_eq_some_iff.mp hs
        trivial

theorem step_word (hb : Between r.mode) (hc : isWordChar c = true) (hs : step r c = some r') :
    Between r'.mode := by
  have hq := ne_quote_of_wordChar hc
  have hne : c ≠ ']' ∧ c ≠ '}' ∧ c ≠ ':' := by
    refine ⟨?_, ?_, ?_⟩ <;> rintro rfl <;> exact absurd hc (by decide)
  have hbl : isBlank c = false := by
    cases hbl : isBlank c with
    | false => rfl
    | true => simp [(kind_of_blank hbl).2.1] at hc
  obtain ⟨st, m⟩ := r
  cases m with
  | value =>
    simp only [step, hbl, Bool.false_eq_true, if_false] at hs
    exact between_startValue hc hs
  | arrFirst =>
    simp only [step, hbl, Bool.false_eq_true, if_false, hne] at hs
    exact between_startValue hc hs
  | num text s =>
    simp only [step] at hs
    split at hs
    · obtain rfl := Option.some.inj hs
      trivial
    · obtain ⟨r₁, -, hn⟩ := Option.bind_eq_some_iff.mp hs
      rw [next_word hc] at hn
      cases hn
  | word rest v =>
    cases rest with
    | nil => cases hs
    | cons d ds =>
      cases ds with
      | nil =>
        simp only [step] at hs
        split at hs
        · exact Option.some.inj hs ▸ between_of_settled (settled_complete _ _)
        · cases hs
      | cons e es =>
        simp only [step] at hs
        split at hs
        · obtain rfl := Option.some.inj hs
          exact fun x hx => hb x (by simp_all)
        · cases hs
  | objFirst => simp [step, hbl, hq, hne] at hs
  | objKey es => simp [step, hbl, hq] at hs
  | colon es k => simp [step, hbl, hne] at hs
  | arrNext xs => rw [step, next_word hc] at hs; cases hs
  | objNext es => rw [step, next_word hc] at hs; cases hs
  | done v => rw [step, next_word hc] at hs; cases hs
  | _ => exact hb.elim

/-! ## Strings -/

/-- In a string where its text goes on, or where the second half of a surrogate pair must come. -/
def InString (m : Mode) : Prop := (∃ f acc, m = .str f acc) ∨ ∃ f acc high, m = .low f acc high

theorem step_quote (h : Settled r.mode) (hs : step r '"' = some r') : InString r'.mode := by
  have hb : isBlank '"' = false := by decide
  obtain ⟨st, m⟩ := r
  cases m <;> simp [step, hb, next, startValue] at hs <;> first | exact h.elim | (subst hs; exact .inl ⟨_, _, rfl⟩)

theorem inString_endHex {f : StrFor} {acc : List Char} {high : Option Nat} {val : Nat} {m : Mode}
    (h : endHex f acc high val = some m) : InString m := by
  unfold endHex at h
  split at h
  · split at h
    · exact .inr ⟨_, _, _, (Option.some.inj h).symm⟩
    · split at h
      · cases h
      · exact .inl ⟨_, _, (Option.some.inj h).symm⟩
  · split at h
    · exact .inl ⟨_, _, (Option.some.inj h).symm⟩
    · cases h

/-- The four digits of an escape. -/
theorem run_hex (st : List Frame) (f : StrFor) (acc : List Char) (high : Option Nat) {a b c d : Char}
    (rest : List Char) (ha : (hexValue a).isSome = true) (hb : (hexValue b).isSome = true)
    (hc : (hexValue c).isSome = true) (hd : (hexValue d).isSome = true) :
    ∃ val, run ⟨st, .hex f acc high 0 0⟩ (a :: b :: c :: d :: rest) =
      (endHex f acc high val).bind fun m => run ⟨st, m⟩ rest := by
  obtain ⟨w, hw⟩ := Option.isSome_iff_exists.mp ha
  obtain ⟨x, hx⟩ := Option.isSome_iff_exists.mp hb
  obtain ⟨y, hy⟩ := Option.isSome_iff_exists.mp hc
  obtain ⟨z, hz⟩ := Option.isSome_iff_exists.mp hd
  refine ⟨16 * (16 * (16 * (16 * 0 + w) + x) + y) + z, ?_⟩
  simp only [run, step, hw, hx, hy, hz, Option.bind_some, Nat.reduceLT, if_true, Nat.zero_add, Nat.reduceAdd]
  simp only [if_false]
  cases endHex f acc high _ <;> rfl

theorem settled_endString (st : List Frame) (acc : List Char) (f : StrFor) :
    Settled (endString st acc f).mode := by
  cases f with
  | value => exact settled_complete _ _
  | key es => trivial

/-- The reader leaves a string where its grammar ends it. -/
theorem settled_of_body {body : List Char} (h : StringBody body) {st : List Frame} {m : Mode} (hm : InString m)
    (hr : run ⟨st, m⟩ (body ++ ['"']) = some r') : Settled r'.mode := by
  induction h generalizing m with
  | nil =>
    obtain ⟨f, acc, rfl⟩ | ⟨f, acc, high, rfl⟩ := hm
    · obtain rfl : endString st acc f = r' := by simpa [run, step] using hr
      exact settled_endString st acc f
    · simp [run, step] at hr
  | @plain c body hq hb hlow _ ih =>
    obtain ⟨f, acc, rfl⟩ | ⟨f, acc, high, rfl⟩ := hm
    · have hstep : step ⟨st, .str f acc⟩ c = some ⟨st, .str f (acc ++ [c])⟩ := by
        simp only [step, hq, hb, if_false, if_neg (Nat.not_lt.mpr hlow)]
      rw [List.cons_append, run, hstep] at hr
      exact ih (.inl ⟨_, _, rfl⟩) hr
    · simp [run, step, hb] at hr
  | @escape e body he _ ih =>
    have hu : e ≠ 'u' := by
      rintro rfl
      exact absurd he (by decide)
    obtain ⟨d, hd⟩ := Option.isSome_iff_exists.mp he
    obtain ⟨f, acc, rfl⟩ | ⟨f, acc, high, rfl⟩ := hm
    · have hesc : run ⟨st, .str f acc⟩ ['\\', e] = some ⟨st, .str f (acc ++ [d])⟩ := by
        simp [run, step, hu, hd]
      rw [show '\\' :: e :: body ++ ['"'] = ['\\', e] ++ (body ++ ['"']) from rfl, run_append, hesc] at hr
      exact ih (.inl ⟨_, _, rfl⟩) hr
    · simp [run, step, hu] at hr
  | @unicode a b c d body ha hb hc hd _ ih =>
    obtain ⟨f, acc, rfl⟩ | ⟨f, acc, high, rfl⟩ := hm
    · obtain ⟨val, hval⟩ := run_hex st f acc none (body ++ ['"']) ha hb hc hd
      have hr : run ⟨st, .hex f acc none 0 0⟩ (a :: b :: c :: d :: (body ++ ['"'])) = some r' := by
        simpa [run, step] using hr
      rw [hval] at hr
      obtain ⟨m, hm, hr⟩ := Option.bind_eq_some_iff.mp hr
      exact ih (inString_endHex hm) hr
    · obtain ⟨val, hval⟩ := run_hex st f acc (some high) (body ++ ['"']) ha hb hc hd
      have hr : run ⟨st, .hex f acc (some high) 0 0⟩ (a :: b :: c :: d :: (body ++ ['"'])) = some r' := by
        simpa [run, step] using hr
      rw [hval] at hr
      obtain ⟨m, hm, hr⟩ := Option.bind_eq_some_iff.mp hr
      exact ih (inString_endHex hm) hr

/-! ## A whole text -/

theorem step_of_closed (hb : Between r.mode) (hc : isWordChar c = false) (hs : step r c = some r') :
    ∃ r₁, Settled r₁.mode ∧ step r₁ c = some r' := by
  rw [step_closed hb hc] at hs
  obtain ⟨r₁, hr, hs⟩ := Option.bind_eq_some_iff.mp hs
  exact ⟨r₁, settled_of_closed hb hr, hs⟩

theorem run_word {w : List Char} (hw : ∀ c ∈ w, isWordChar c = true) (hb : Between r.mode)
    (hr : run r w = some r') : Between r'.mode := by
  induction w generalizing r with
  | nil => exact Option.some.inj hr ▸ hb
  | cons c w ih =>
    obtain ⟨r₁, hs, hr⟩ := Option.bind_eq_some_iff.mp hr
    exact ih (fun d hd => hw d (by simp [hd])) (step_word hb (hw c (by simp)) hs) hr

theorem run_string {body : List Char} (h : StringBody body) (hb : Between r.mode)
    (hr : run r (Token.string body).text = some r') : Settled r'.mode := by
  obtain ⟨⟨st, m⟩, hs, hr⟩ := Option.bind_eq_some_iff.mp hr
  obtain ⟨r₂, hset, hs⟩ := step_of_closed hb (by decide) hs
  exact settled_of_body h (step_quote hset hs) hr

theorem outcome_congr (xs : List Char) {cs ds : List Char} (h : ∀ r', run r xs = some r' → outcome r' cs = outcome r' ds) :
    outcome r (xs ++ cs) = outcome r (xs ++ ds) := by
  simp only [outcome, run_append]
  cases hr : run r xs with
  | none => rfl
  | some r' => exact h r' hr

/-- By the tokens; behind a word the reader has one open, behind any other token none. -/
theorem outcome_joined {text : List Char} {ts : List Token} (h : Reads text ts) (ha : Apart ts)
    (hb : Between r.mode) (hw : Settled r.mode ∨ ∀ t ∈ ts.head?, t.isWord = false) :
    outcome r text = outcome r (joined ts) := by
  induction h generalizing r with
  | nil => rfl
  | @blank c cs ts hc hcs ih =>
    have hblank : outcome r (c :: cs) = (closed r).bind fun r' => outcome r' (joined ts) := by
      rw [outcome, run, step_closed hb (kind_of_blank hc).2.1]
      cases hr : closed r with
      | none => rfl
      | some r' =>
        have hset := settled_of_closed hb hr
        rw [Option.bind_some, step_blank hset hc]
        exact ih ha (between_of_settled hset) (.inl hset)
    rw [hblank]
    obtain hset | hhead := hw
    · rw [closed_of_settled hset]
      rfl
    · exact (outcome_closed hb (hcs.wordEnds_joined hhead)).symm
  | @punct c cs ts hc _ ih =>
    refine outcome_congr [c] fun r' hr => ?_
    obtain ⟨r₁, hs, hr⟩ := Option.bind_eq_some_iff.mp hr
    obtain rfl := Option.some.inj hr
    obtain ⟨r₂, hset, hs⟩ := step_of_closed hb (kind_of_punct hc).1 hs
    have hset := step_punct hset hc hs
    exact ih ha.tail (between_of_settled hset) (.inl hset)
  | @word w cs ts hne hword hend _ ih =>
    refine outcome_congr w fun r' hr => ?_
    refine ih ha.tail (run_word hword hb hr) (.inr fun t ht => ?_)
    simpa [Token.isWord] using (List.isChain_cons.mp ha).1 t ht
  | @string body cs ts hbody _ ih =>
    rw [show '"' :: (body ++ '"' :: cs) = (Token.string body).text ++ cs by simp [Token.text]]
    refine outcome_congr _ fun r' hr => ?_
    have hset := run_string hbody hb hr
    exact ih ha.tail (between_of_settled hset) (.inl hset)

theorem read_joined {text : List Char} {ts : List Token} (h : Reads text ts) (ha : Apart ts) :
    read (joined ts) = read text :=
  (outcome_joined h ha (r := init) trivial (.inl trivial)).symm

end MinMcp.Core.JsonText
