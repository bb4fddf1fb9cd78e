import MinMcp.Core.Json.Read
import Mathlib.Data.List.Chain

/-!
# The tokens of a JSON text

A JSON text by its grammar: blanks and tokens one after the other (`Reads`), and the tokens a value
(`IsValue`). A token is a sign of punctuation, a word (a number or a literal name) or a string, with
its text as it stands.

* `Reads.unique`: a text has one sequence of tokens.
* `IsValue.apart`: in a value no word stands next to another.
* `Reads.joined`: so the tokens can stand without blanks between them.
-/
namespace MinMcp.Core.JsonText

open MinMcp.Core.JsonReader

inductive Token where
  | punct (c : Char)
  | word (cs : List Char)
  | string (body : List Char)
  deriving DecidableEq

def Token.text : Token → List Char
  | .punct c => [c]
  | .word cs => cs
  | .string body => '"' :: (body ++ ['"'])

def joined (ts : List Token) : List Char := ts.flatMap Token.text

@[simp] theorem joined_cons (t : Token) (ts : List Token) : joined (t :: ts) = t.text ++ joined ts := rfl

def isPunct (c : Char) : Bool := ['{', '}', '[', ']', ':', ','].contains c

/-- The characters of numbers and literal names. -/
def isWordChar (c : Char) : Bool := c.isAlphanum || c = '+' || c = '-' || c = '.'

/-- What stands between the quotes of a string. -/
inductive StringBody : List Char → Prop
  | nil : StringBody []
  | plain {c body} : c ≠ '"' → c ≠ '\\' → 0x20 ≤ c.toNat → StringBody body → StringBody (c :: body)
  | escape {e body} : (unescape e).isSome → StringBody body → StringBody ('\\' :: e :: body)
  | unicode {a b c d body} : (hexValue a).isSome → (hexValue b).isSome → (hexValue c).isSome →
      (hexValue d).isSome → StringBody body → StringBody ('\\' :: 'u' :: a :: b :: c :: d :: body)

/-- No word goes on here. -/
def WordEnds (cs : List Char) : Prop := ∀ c rest, cs = c :: rest → isWordChar c = false

/-- The text is these tokens, with blanks anywhere between them. -/
inductive Reads : List Char → List Token → Prop
  | nil : Reads [] []
  | blank {c cs ts} : isBlank c = true → Reads cs ts → Reads (c :: cs) ts
  | punct {c cs ts} : isPunct c = true → Reads cs ts → Reads (c :: cs) (.punct c :: ts)
  | word {w cs ts} : w ≠ [] → (∀ c ∈ w, isWordChar c = true) → WordEnds cs → Reads cs ts →
      Reads (w ++ cs) (.word w :: ts)
  | string {body cs ts} : StringBody body → Reads cs ts →
      Reads ('"' :: (body ++ '"' :: cs)) (.string body :: ts)

def literals : List (List Char) := ["true".toList, "false".toList, "null".toList]

mutual
inductive IsValue : List Token → Prop
  | number {w} : isNumber w = true → IsValue [.word w]
  | literal {w} : w ∈ literals → IsValue [.word w]
  | string (body : List Char) : IsValue [.string body]
  | emptyArr : IsValue [.punct '[', .punct ']']
  | arr {ts} : IsElements ts → IsValue (.punct '[' :: (ts ++ [.punct ']']))
  | emptyObj : IsValue [.punct '{', .punct '}']
  | obj {ts} : IsMembers ts → IsValue (.punct '{' :: (ts ++ [.punct '}']))
inductive IsElements : List Token → Prop
  | one {v} : IsValue v → IsElements v
  | more {v ts} : IsValue v → IsElements ts → IsElements (v ++ .punct ',' :: ts)
inductive IsMembers : List Token → Prop
  | one {v} (key : List Char) : IsValue v → IsMembers (.string key :: .punct ':' :: v)
  | more {v ts} (key : List Char) : IsValue v → IsMembers ts →
      IsMembers (.string key :: .punct ':' :: (v ++ .punct ',' :: ts))
end

/-! ## One sequence of tokens -/

theorem kind_of_blank {c : Char} (h : isBlank c = true) : isPunct c = false ∧ isWordChar c = false ∧ c ≠ '"' := by
  simp only [isBlank, Bool.or_eq_true, decide_eq_true_eq] at h
  rcases h with ((rfl | rfl) | rfl) | rfl <;> decide

theorem kind_of_punct {c : Char} (h : isPunct c = true) : isWordChar c = false ∧ c ≠ '"' := by
  simp only [isPunct, List.contains_eq_mem, decide_eq_true_eq, List.mem_cons, List.not_mem_nil, or_false] at h
  rcases h with rfl | rfl | rfl | rfl | rfl | rfl <;> decide

theorem ne_quote_of_wordChar {c : Char} (h : isWordChar c = true) : c ≠ '"' := by
  rintro rfl
  exact absurd h (by decide)

/-- How a text goes on, by its first character. -/
theorem Reads.inv {text : List Char} {ts : List Token} (h : Reads text ts) {c : Char} {cs : List Char}
    (ht : text = c :: cs) :
    (isBlank c = true ∧ Reads cs ts) ∨
    (isPunct c = true ∧ ∃ us, ts = .punct c :: us ∧ Reads cs us) ∨
    (isWordChar c = true ∧ ∃ w rest us, (∀ d ∈ w, isWordChar d = true) ∧ WordEnds rest ∧
      c :: cs = w ++ rest ∧ ts = .word w :: us ∧ Reads rest us) ∨
    (c = '"' ∧ ∃ body rest us, StringBody body ∧ cs = body ++ '"' :: rest ∧ ts = .string body :: us ∧
      Reads rest us) := by
  cases h with
  | nil => cases ht
  | blank hb hr =>
    obtain ⟨rfl, rfl⟩ := List.cons.inj ht
    exact .inl ⟨hb, hr⟩
  | punct hp hr =>
    obtain ⟨rfl, rfl⟩ := List.cons.inj ht
    exact .inr (.inl ⟨hp, _, rfl, hr⟩)
  | @word w rest us hne hw hend hr =>
    obtain ⟨d, w', rfl⟩ := List.exists_cons_of_ne_nil hne
    obtain ⟨rfl, -⟩ := List.cons.inj ht
    exact .inr (.inr (.inl ⟨hw d (by simp), d :: w', rest, us, hw, hend, ht.symm, rfl, hr⟩))
  | @string body rest us hb hr =>
    obtain ⟨rfl, rfl⟩ := List.cons.inj ht
    exact .inr (.inr (.inr ⟨rfl, body, rest, us, hb, rfl, rfl, hr⟩))

theorem word_inj {w w' cs cs' : List Char} (hw : ∀ c ∈ w, isWordChar c = true)
    (hw' : ∀ c ∈ w', isWordChar c = true) (hcs : WordEnds cs) (hcs' : WordEnds cs')
    (h : w ++ cs = w' ++ cs') : w = w' ∧ cs = cs' := by
  induction w generalizing w' with
  | nil =>
    cases w' with
    | nil => exact ⟨rfl, h⟩
    | cons c w' => simp [hcs c (w' ++ cs') h] at hw'
  | cons c w ih =>
    cases w' with
    | nil => simp [hcs' c (w ++ cs) h.symm] at hw
    | cons c' w' =>
      obtain ⟨hc, hrest⟩ := List.cons.inj h
      obtain ⟨hww, hcc⟩ := ih (fun d hd => hw d (by simp [hd])) (fun d hd => hw' d (by simp [hd])) hrest
      exact ⟨by rw [hc, hww], hcc⟩

/-- The text in front of the closing quote and the text behind it. -/
def closing (escaped : Bool) : List Char → Option (List Char × List Char)
  | [] => none
  | c :: cs =>
    if escaped = false ∧ c = '"' then some ([], cs)
    else (closing (!escaped && c = '\\') cs).map fun cut => (c :: cut.1, cut.2)

theorem hexValue_plain {c : Char} (h : (hexValue c).isSome = true) : c ≠ '"' ∧ c ≠ '\\' := by
  refine ⟨?_, ?_⟩ <;> rintro rfl <;> exact absurd h (by decide)

theorem closing_body {body : List Char} (h : StringBody body) (cs : List Char) :
    closing false (body ++ '"' :: cs) = some (body, cs) := by
  induction h with
  | nil => rfl
  | plain hq hb _ _ ih => simp [closing, hq, hb, ih]
  | escape _ _ ih => simp [closing, ih]
  | unicode ha hb hc hd _ ih =>
    have ha := hexValue_plain ha
    have hb := hexValue_plain hb
    have hc := hexValue_plain hc
    have hd := hexValue_plain hd
    simp [closing, ih, ha, hb, hc, hd]

theorem body_inj {body body' cs cs' : List Char} (h : StringBody body) (h' : StringBody body')
    (he : body ++ '"' :: cs = body' ++ '"' :: cs') : body = body' ∧ cs = cs' := by
  have hc := closing_body h cs
  rw [he, closing_body h' cs'] at hc
  exact ⟨(Prod.mk.inj (Option.some.inj hc)).1.symm, (Prod.mk.inj (Option.some.inj hc)).2.symm⟩

theorem Reads.nil_inv {text : List Char} {ts : List Token} (h : Reads text ts) (ht : text = []) : ts = [] := by
  cases h with
  | nil => rfl
  | word hne _ _ _ => exact absurd (List.append_eq_nil_iff.mp ht).1 hne
  | _ => cases ht

/-- By the first token; what it is shows in its first character. -/
theorem Reads.unique {text : List Char} {ts ts' : List Token} (h : Reads text ts) (h' : Reads text ts') :
    ts = ts' := by
  induction h generalizing ts' with
  | nil => exact (h'.nil_inv rfl).symm
  | blank hc _ ih =>
    have hk := kind_of_blank hc
    obtain ⟨-, hr⟩ | ⟨hp, -⟩ | ⟨hw, -⟩ | ⟨hq, -⟩ := h'.inv rfl
    · exact ih hr
    · simp [hk.1] at hp
    · simp [hk.2.1] at hw
    · exact absurd hq hk.2.2
  | punct hc _ ih =>
    have hk := kind_of_punct hc
    obtain ⟨hb, -⟩ | ⟨-, us, rfl, hr⟩ | ⟨hw, -⟩ | ⟨hq, -⟩ := h'.inv rfl
    · simp [(kind_of_blank hb).1] at hc
    · rw [ih hr]
    · simp [hk.1] at hw
    · exact absurd hq hk.2
  | @word w cs ts hne hw hend _ ih =>
    obtain ⟨c, w, rfl⟩ := List.exists_cons_of_ne_nil hne
    have hc := hw c (by simp)
    obtain ⟨hb, -⟩ | ⟨hp, -⟩ | ⟨-, w', rest, us, hw', hend', he, rfl, hr⟩ | ⟨hq, -⟩ := h'.inv rfl
    · simp [(kind_of_blank hb).2.1] at hc
    · simp [(kind_of_punct hp).1] at hc
    · obtain ⟨rfl, rfl⟩ := word_inj hw hw' hend hend' he
      rw [ih hr]
    · exact absurd hq (ne_quote_of_wordChar hc)
  | string hbody _ ih =>
    obtain ⟨hb, -⟩ | ⟨hp, -⟩ | ⟨hw, -⟩ | ⟨-, body', rest, us, hbody', he, rfl, hr⟩ := h'.inv rfl
    · exact absurd hb (by decide)
    · exact absurd hp (by decide)
    · exact absurd hw (by decide)
    · obtain ⟨rfl, rfl⟩ := body_inj hbody hbody' he
      rw [ih hr]

/-! ## Words stand apart -/

def Token.isWord : Token → Bool
  | .word _ => true
  | _ => false

def Apart (ts : List Token) : Prop := ts.IsChain fun a b => a.isWord = false ∨ b.isWord = false

/-- Something that is no word between the two. -/
theorem apart_append {xs ys : List Token} {t : Token} (ht : t.isWord = false) (hx : Apart xs)
    (hy : Apart ys) : Apart (xs ++ t :: ys) := by
  refine List.isChain_append.mpr ⟨hx, ?_, ?_⟩
  · refine List.isChain_cons.mpr ⟨fun b _ => .inl ht, hy⟩
  · intro a _ b hb
    obtain rfl := Option.some.inj hb
    exact .inr ht

theorem apart_cons {ts : List Token} {t : Token} (ht : t.isWord = false) (h : Apart ts) : Apart (t :: ts) :=
  apart_append ht List.isChain_nil h

mutual
theorem IsValue.apart : ∀ {ts : List Token}, IsValue ts → Apart ts
  | _, .number _ => .singleton _
  | _, .literal _ => .singleton _
  | _, .string _ => .singleton _
  | _, .emptyArr => apart_cons rfl (.singleton _)
  | _, .arr h => apart_cons rfl (apart_append rfl h.apart .nil)
  | _, .emptyObj => apart_cons rfl (.singleton _)
  | _, .obj h => apart_cons rfl (apart_append rfl h.apart .nil)
theorem IsElements.apart : ∀ {ts : List Token}, IsElements ts → Apart ts
  | _, .one h => h.apart
  | _, .more h hs => apart_append rfl h.apart hs.apart
theorem IsMembers.apart : ∀ {ts : List Token}, IsMembers ts → Apart ts
  | _, .one _ h => apart_cons rfl (apart_cons rfl h.apart)
  | _, .more _ h hs => apart_cons rfl (apart_cons rfl (apart_append rfl h.apart hs.apart))
end

/-! ## Tokens without blanks -/

/-- The tokens of a text, where no word is next. -/
theorem Reads.wordEnds_joined {cs : List Char} {ts : List Token} (h : Reads cs ts)
    (hw : ∀ t ∈ ts.head?, t.isWord = false) : WordEnds (joined ts) := by
  induction h with
  | nil => intro c rest hc; cases hc
  | blank _ _ ih => exact ih hw
  | punct hc _ _ =>
    intro d rest hd
    obtain rfl := (List.cons.inj hd).1
    exact (kind_of_punct hc).1
  | word _ _ _ _ _ => exact absurd (hw _ rfl) (by simp [Token.isWord])
  | string _ _ _ =>
    intro d rest hd
    obtain rfl := (List.cons.inj hd).1
    decide

theorem Reads.joined {cs : List Char} {ts : List Token} (h : Reads cs ts) (ha : Apart ts) :
    Reads (joined ts) ts := by
  induction h with
  | nil => exact .nil
  | blank _ _ ih => exact ih ha
  | punct hc _ ih => exact .punct hc (ih ha.tail)
  | word hne hw _ hcs ih =>
    refine .word hne hw (hcs.wordEnds_joined fun t ht => ?_) (ih ha.tail)
    simpa [Token.isWord] using (List.isChain_cons.mp ha).1 t ht
  | string hb _ ih =>
    have := Reads.string hb (ih ha.tail)
    simpa [Token.text] using this

end MinMcp.Core.JsonText
