import MinMcp.Core.Json.Print
import MinMcp.Core.Url.Path

/-!
# Path segment encoding

`encode_path_segment` (src/exec.rs:56-74): an agent-supplied value as one URL
path segment. Bytes of the UTF-8 form that are RFC 3986 unreserved are kept, any
other byte is `%XX`; the pure dot segments get an encoding of their own.

* `encode_chars`: only unreserved characters and `%` occur, so no `/`, no brace.
* `encode_eq_nil`: only the empty value has an empty encoding.
-/
namespace MinMcp.L1.PathSegment

open MinMcp.Core MinMcp.Core.Url

/-- RFC 3986 unreserved, the bytes `encode_path_segment` keeps. -/
def isUnreserved (c : Char) : Bool :=
  c.isAlphanum || c = '-' || c = '.' || c = '_' || c = '~'

def encodeByte (b : UInt8) : List Char :=
  if isUnreserved (Char.ofNat b.toNat) then [Char.ofNat b.toNat]
  else percentByte b

/-- The bytes of a string, `s.bytes()`. -/
def utf8 (s : String) : List UInt8 := s.toList.flatMap String.utf8EncodeChar

/-- mirrors src/exec.rs:56-74 -/
def encodePathSegment (s : String) : List Char :=
  if s = "." then "%2E".toList
  else if s = ".." then "%2E%2E".toList
  else (utf8 s).flatMap encodeByte

/-- A path parameter as text: a string as it is, any other value as its JSON.
mirrors src/exec.rs:224 -/
def paramText (v : Json) : String := v.asStr.getD v.render

/-- What an encoded segment consists of. -/
def isSegmentChar (c : Char) : Bool := isUnreserved c || c = '%'

theorem hexUpper_unreserved {n : Nat} (h : n < 16) : isUnreserved (hexUpper n) = true := by
  have hd : ∀ m : Fin 16, isUnreserved (hexUpper m.val) = true := by decide +kernel
  exact hd ⟨n, h⟩

theorem encodeByte_chars {b : UInt8} {c : Char} (h : c ∈ encodeByte b) : isSegmentChar c = true := by
  have hb := b.toNat_lt
  unfold encodeByte at h
  split at h
  · next hu => rw [List.mem_singleton] at h; simp [isSegmentChar, h, hu]
  · simp only [percentByte, List.mem_cons, List.not_mem_nil, or_false] at h
    rcases h with rfl | rfl | rfl
    · rfl
    · simp [isSegmentChar, hexUpper_unreserved (n := b.toNat / 16) (by omega)]
    · simp [isSegmentChar, hexUpper_unreserved (n := b.toNat % 16) (by omega)]

theorem encode_chars {s : String} {c : Char} (h : c ∈ encodePathSegment s) :
    isSegmentChar c = true := by
  unfold encodePathSegment at h
  split at h
  · exact List.all_eq_true.mp (by decide : "%2E".toList.all isSegmentChar = true) c h
  · split at h
    · exact List.all_eq_true.mp (by decide : "%2E%2E".toList.all isSegmentChar = true) c h
    · obtain ⟨b, -, hb⟩ := List.mem_flatMap.mp h
      exact encodeByte_chars hb

theorem notMem_encode {c : Char} (h : isSegmentChar c = false) (s : String) :
    c ∉ encodePathSegment s := fun hm => by
  rw [encode_chars hm] at h; cases h

theorem encodeByte_ne_nil (b : UInt8) : encodeByte b ≠ [] := by
  unfold encodeByte; split <;> simp [percentByte]

theorem utf8_eq_nil {s : String} : utf8 s = [] ↔ s = "" := by
  rw [← String.toList_eq_nil_iff, utf8, List.flatMap_eq_nil_iff]
  refine ⟨fun h => ?_, fun h => by simp [h]⟩
  cases hs : s.toList with
  | nil => rfl
  | cons c cs =>
    have := h c (hs ▸ List.mem_cons_self)
    exact absurd this (by simp)

theorem encode_eq_nil {s : String} : encodePathSegment s = [] ↔ s = "" := by
  unfold encodePathSegment
  split
  · next h => subst h; decide
  · split
    · next h => subst h; decide
    · rw [← utf8_eq_nil, List.flatMap_eq_nil_iff]
      refine ⟨fun h => ?_, fun h => by simp [h]⟩
      cases hu : utf8 s with
      | nil => rfl
      | cons b bs => exact absurd (h b (hu ▸ List.mem_cons_self)) (encodeByte_ne_nil b)

/-- Only the empty string is an empty parameter: every other value prints as something. -/
theorem paramText_eq_empty {v : Json} : paramText v = "" ↔ v = .str "" := by
  cases v with
  | str s => simp [paramText, Json.asStr]
  | null | bool b | num n | arr xs | obj es =>
    simp only [paramText, Json.asStr, Option.getD_none, reduceCtorEq, iff_false]
    intro h
    have := congrArg String.toList h
    rw [Json.render_toList] at this
    exact Json.print_ne_nil _ this

/-! ## Dot segments -/

theorem utf8_inj {s t : String} (h : utf8 s = utf8 t) : s = t := by
  have h' : s.toList.utf8Encode = t.toList.utf8Encode := by
    rw [List.utf8Encode, List.utf8Encode]; exact congrArg List.toByteArray h
  rwa [String.utf8Encode_toList, String.utf8Encode_toList, String.toByteArray_inj] at h'

/-- One character, a dot only for the dot, or an escape that is not the dot's. -/
def encodes (b : UInt8) : List Char → Bool
  | [c] => c != '%' && (c != '.' || b == 46)
  | [p, x, y] => p == '%' && !(x == '2' && y == 'e')
  | _ => false

/-- A byte is encoded to one character, which is a dot only for the dot, or to
`%XX`, which is never `%2E`: the dot is unreserved. -/
theorem lower_encodeByte (b : UInt8) :
    (∃ c, lower (encodeByte b) = [c] ∧ c ≠ '%' ∧ (c = '.' → b = 46)) ∨
    (∃ x y, lower (encodeByte b) = ['%', x, y] ∧ ¬ (x = '2' ∧ y = 'e')) := by
  have hd : ∀ n : Fin 256, encodes (UInt8.ofNat n.val) (lower (encodeByte (UInt8.ofNat n.val))) = true := by
    decide +kernel
  have hb := hd ⟨b.toNat, b.toNat_lt⟩
  rw [UInt8.ofNat_toNat] at hb
  unfold encodes at hb
  split at hb
  · next c h => exact Or.inl ⟨c, h, by simpa [Decidable.imp_iff_not_or] using hb⟩
  · next p x y h =>
    simp only [Bool.and_eq_true, beq_iff_eq, Bool.not_eq_true', Bool.and_eq_false_iff,
      beq_eq_false_iff_ne] at hb
    exact Or.inr ⟨x, y, by rw [h, hb.1], fun hxy => hb.2.elim (absurd hxy.1) (absurd hxy.2)⟩
  · cases hb

theorem lower_append (xs ys : List Char) : lower (xs ++ ys) = lower xs ++ lower ys :=
  List.map_append

/-- The encoded bytes of a value start with a dot only when the value does. -/
theorem dot_bytes {bs : List UInt8} {rest : List Char}
    (h : lower (bs.flatMap encodeByte) = '.' :: rest) :
    ∃ bs', bs = 46 :: bs' ∧ lower (bs'.flatMap encodeByte) = rest := by
  cases bs with
  | nil => cases h
  | cons b bs =>
    rw [List.flatMap_cons, lower_append] at h
    rcases lower_encodeByte b with ⟨c, hc, -, hdot⟩ | ⟨x, y, hc, -⟩
    · rw [hc, List.cons_append, List.nil_append, List.cons.injEq] at h
      exact ⟨bs, by rw [hdot h.1], h.2⟩
    · rw [hc, List.cons_append, List.cons.injEq] at h
      exact absurd h.1 (by decide)

theorem percent_bytes {bs : List UInt8} {rest : List Char} :
    lower (bs.flatMap encodeByte) ≠ '%' :: '2' :: 'e' :: rest := by
  intro h
  cases bs with
  | nil => cases h
  | cons b bs =>
    rw [List.flatMap_cons, lower_append] at h
    rcases lower_encodeByte b with ⟨c, hc, hp, -⟩ | ⟨x, y, hc, hxy⟩
    · rw [hc, List.cons_append, List.cons.injEq] at h
      exact hp h.1
    · rw [hc] at h
      simp only [List.cons_append, List.cons.injEq] at h
      exact hxy ⟨h.2.1, h.2.2.1⟩

theorem nil_bytes {bs : List UInt8} (h : lower (bs.flatMap encodeByte) = []) : bs = [] := by
  cases bs with
  | nil => rfl
  | cons b bs =>
    rw [lower, List.map_eq_nil_iff, List.flatMap_cons, List.append_eq_nil_iff] at h
    exact absurd h.1 (encodeByte_ne_nil b)

/-- **The encoder hides no dot segment.** An encoded value is a dot segment for
the URL parser iff the value is `.` or `..`. -/
theorem isDotSegment_encode (s : String) :
    isDotSegment (encodePathSegment s) = true ↔ s = "." ∨ s = ".." := by
  constructor
  · intro h
    by_contra hne
    rw [not_or] at hne
    rw [encodePathSegment, if_neg hne.1, if_neg hne.2] at h
    have hdot1 : utf8 s ≠ [46] := fun he => hne.1 (utf8_inj (he.trans (by decide)))
    have hdot2 : utf8 s ≠ [46, 46] := fun he => hne.2 (utf8_inj (he.trans (by decide)))
    simp only [isDotSegment, isSingleDot, isDoubleDot, Bool.or_eq_true, decide_eq_true_eq] at h
    rcases h with (h | h) | ((h | h) | h) | h
    · obtain ⟨bs, hbs, h⟩ := dot_bytes h
      exact hdot1 (by rw [hbs, nil_bytes h])
    · exact percent_bytes h
    · obtain ⟨bs, hbs, h⟩ := dot_bytes h
      obtain ⟨bs', hbs', h⟩ := dot_bytes h
      exact hdot2 (by rw [hbs, hbs', nil_bytes h])
    · obtain ⟨bs, hbs, h⟩ := dot_bytes h
      exact percent_bytes h
    · exact percent_bytes h
    · exact percent_bytes h
  · rintro (rfl | rfl) <;> decide

theorem toNat_lt_of_isAlphanum {c : Char} (h : c.isAlphanum = true) : c.toNat < 128 := by
  delta Char.isAlphanum Char.isAlpha Char.isUpper Char.isLower Char.isDigit at h
  simp only [Bool.or_eq_true, Bool.and_eq_true, decide_eq_true_eq, ge_iff_le, UInt32.le_iff_toNat_le] at h
  have h90 : 'Z'.val.toNat = 90 := rfl
  have h122 : 'z'.val.toNat = 122 := rfl
  have h57 : '9'.val.toNat = 57 := rfl
  rw [Char.toNat]
  omega

theorem segmentChar_stable {c : Char} (h : isSegmentChar c = true) : isStable c = true := by
  have hlt : c.toNat < 128 := by
    simp only [isSegmentChar, isUnreserved, Bool.or_eq_true, decide_eq_true_eq] at h
    rcases h with ((((h | rfl) | rfl) | rfl) | rfl) | rfl
    · exact toNat_lt_of_isAlphanum h
    all_goals decide
  have hd : ∀ n : Fin 128, isSegmentChar (Char.ofNat n.val) = true →
      isStable (Char.ofNat n.val) = true := by decide +kernel
  have := hd ⟨c.toNat, hlt⟩
  rw [Char.ofNat_toNat] at this
  exact this h

end MinMcp.L1.PathSegment
