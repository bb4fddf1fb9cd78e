import MinMcp.Core.Json.Layout

/-!
# Compaction of JSON texts

`strip_json_whitespace` (src/backend.rs) takes the whitespace outside strings out of a text that is
known to be JSON. It keeps two flags, for being in a string and behind a backslash there, and copies
every other character.

* `strip_eq_joined`: what is left of a JSON text are its tokens, as they stand.
* `strip_lossless`: so it has the same tokens, is read as the same value, and is stripped already.
* `read_compactText`: a block of a result is read as before.
-/
namespace MinMcp.L4.Compaction

open MinMcp.Core MinMcp.Core.JsonText MinMcp.Core.JsonReader

/-- `char::is_ascii_whitespace` -/
def isAsciiWhitespace (c : Char) : Bool := c = ' ' || c = '\t' || c = '\n' || c = '\x0c' || c = '\r'

/-- mirrors src/backend.rs:326-343 -/
def stripFrom (inString escaped : Bool) : List Char → List Char
  | [] => []
  | c :: cs =>
    if inString then
      c :: (if escaped then stripFrom true false cs
        else if c = '\\' then stripFrom true true cs
        else if c = '"' then stripFrom false false cs
        else stripFrom true false cs)
    else if c = '"' then c :: stripFrom true escaped cs
    else if !isAsciiWhitespace c then c :: stripFrom false escaped cs
    else stripFrom false escaped cs

/-- mirrors src/backend.rs:322-345 -/
def stripJsonWhitespace (text : List Char) : List Char := stripFrom false false text

/-- The text of a block, where `isJson` says that it is JSON; only a text that gets shorter is
replaced.
mirrors src/backend.rs:307-317 -/
def compactText (isJson : String → Bool) (text : String) : String :=
  let compact := String.ofList (stripJsonWhitespace text.toList)
  if isJson text && compact.utf8ByteSize < text.utf8ByteSize then compact else text

/-- mirrors src/backend.rs:300-320 -/
def compactJsonTexts (isJson : String → Bool) (result : Json) : Json :=
  match result.asObject, (result.get "content").bind Json.asArray with
  | some es, some blocks =>
    .obj (OrderedMap.insert "content" (.arr (blocks.map fun block =>
      match block.asObject, (block.get "text").bind Json.asStr with
      | some fs, some text => .obj (OrderedMap.insert "text" (.str (compactText isJson text)) fs)
      | _, _ => block)) es)
  | _, _ => result

/-- A JSON text and its tokens. -/
structure IsJson (text : List Char) (ts : List Token) : Prop where
  reads : Reads text ts
  value : IsValue ts

/-! ## The scanner and the grammar -/

theorem stripFrom_plain {c : Char} (hq : c ≠ '"') (hb : c ≠ '\\') (cs : List Char) :
    stripFrom true false (c :: cs) = c :: stripFrom true false cs := by
  simp [stripFrom, hq, hb]

/-- The flags are in step with the grammar of strings. -/
theorem stripFrom_body {body : List Char} (h : StringBody body) (cs : List Char) :
    stripFrom true false (body ++ '"' :: cs) = body ++ '"' :: stripFrom false false cs := by
  induction h with
  | nil => rfl
  | plain hq hb _ _ ih => rw [List.cons_append, stripFrom_plain hq hb, ih]; rfl
  | escape _ _ ih =>
    have hescape : ∀ e tail, stripFrom true false ('\\' :: e :: tail) = '\\' :: e :: stripFrom true false tail :=
      fun _ _ => rfl
    rw [List.cons_append, List.cons_append, hescape, ih]
    rfl
  | @unicode a b c d body ha hb hc hd _ ih =>
    have ha := hexValue_plain ha
    have hb := hexValue_plain hb
    have hc := hexValue_plain hc
    have hd := hexValue_plain hd
    have hescape : ∀ tail, stripFrom true false ('\\' :: 'u' :: tail) = '\\' :: 'u' :: stripFrom true false tail :=
      fun _ => rfl
    simp only [List.cons_append, hescape, stripFrom_plain ha.1 ha.2, stripFrom_plain hb.1 hb.2,
      stripFrom_plain hc.1 hc.2, stripFrom_plain hd.1 hd.2, ih]

theorem whitespace_of_blank {c : Char} (h : isBlank c = true) : isAsciiWhitespace c = true := by
  simp only [isBlank, Bool.or_eq_true, decide_eq_true_eq] at h
  rcases h with ((rfl | rfl) | rfl) | rfl <;> decide

theorem not_whitespace_of_punct {c : Char} (h : isPunct c = true) : isAsciiWhitespace c = false := by
  simp only [isPunct, List.contains_eq_mem, decide_eq_true_eq, List.mem_cons, List.not_mem_nil, or_false] at h
  rcases h with rfl | rfl | rfl | rfl | rfl | rfl <;> decide

theorem not_whitespace_of_wordChar {c : Char} (h : isWordChar c = true) : isAsciiWhitespace c = false := by
  rw [Bool.eq_false_iff]
  intro hw
  simp only [isAsciiWhitespace, Bool.or_eq_true, decide_eq_true_eq] at hw
  rcases hw with (((rfl | rfl) | rfl) | rfl) | rfl <;> exact absurd h (by decide)

/-- A character that is copied between two strings. -/
theorem strip_cons {c : Char} (hq : c ≠ '"') (hw : isAsciiWhitespace c = false) (cs : List Char) :
    stripJsonWhitespace (c :: cs) = c :: stripJsonWhitespace cs := by
  simp [stripJsonWhitespace, stripFrom, hq, hw]

theorem strip_word {w : List Char} (h : ∀ c ∈ w, isWordChar c = true) (cs : List Char) :
    stripJsonWhitespace (w ++ cs) = w ++ stripJsonWhitespace cs := by
  induction w with
  | nil => rfl
  | cons c w ih =>
    have hc := h c (by simp)
    rw [List.cons_append, strip_cons (ne_quote_of_wordChar hc) (not_whitespace_of_wordChar hc),
      ih fun d hd => h d (by simp [hd])]
    rfl

theorem strip_eq_joined {text : List Char} {ts : List Token} (h : Reads text ts) :
    stripJsonWhitespace text = joined ts := by
  induction h with
  | nil => rfl
  | blank hc _ ih =>
    have hw := whitespace_of_blank hc
    simp only [stripJsonWhitespace, stripFrom, Bool.false_eq_true, if_false, (kind_of_blank hc).2.2, hw,
      Bool.not_true]
    exact ih
  | punct hc _ ih =>
    rw [strip_cons (kind_of_punct hc).2 (not_whitespace_of_punct hc), ih]
    rfl
  | word _ hw _ _ ih => rw [strip_word hw, ih]; rfl
  | @string body cs ts hb _ ih =>
    show '"' :: stripFrom true false (body ++ '"' :: cs) = _
    rw [stripFrom_body hb, ← stripJsonWhitespace, ih]
    simp [Token.text]

/-- The characters of a token that is no string. -/
theorem no_whitespace {text : List Char} {ts : List Token} (h : Reads text ts) {t : Token} (ht : t ∈ ts)
    (hs : ∀ body, t ≠ .string body) : ∀ c ∈ t.text, isAsciiWhitespace c = false := by
  induction h with
  | nil => cases ht
  | blank _ _ ih => exact ih ht
  | punct hc _ ih =>
    obtain rfl | ht := List.mem_cons.mp ht
    · intro c hm
      obtain rfl := List.mem_singleton.mp hm
      exact not_whitespace_of_punct hc
    · exact ih ht
  | word _ hw _ _ ih =>
    obtain rfl | ht := List.mem_cons.mp ht
    · exact fun c hm => not_whitespace_of_wordChar (hw c hm)
    · exact ih ht
  | string _ _ ih =>
    obtain rfl | ht := List.mem_cons.mp ht
    · exact absurd rfl (hs _)
    · exact ih ht

/-- For every JSON text and its tokens: what comes out are these tokens one behind the other, and
outside strings no whitespace; it is a JSON text with these tokens and no others, it is read as the
text is read, and stripping it again changes nothing. -/
theorem strip_lossless (text : List Char) (ts : List Token) (h : IsJson text ts) :
    stripJsonWhitespace text = ts.flatMap Token.text ∧
    (∀ t ∈ ts, (∀ body, t ≠ .string body) → ∀ c ∈ t.text, isAsciiWhitespace c = false) ∧
    IsJson (stripJsonWhitespace text) ts ∧ (∀ us, Reads (stripJsonWhitespace text) us → us = ts) ∧
    read (stripJsonWhitespace text) = read text ∧
    stripJsonWhitespace (stripJsonWhitespace text) = stripJsonWhitespace text := by
  have hstrip := strip_eq_joined h.reads
  have hjoined := h.reads.joined h.value.apart
  rw [hstrip]
  exact ⟨rfl, fun t ht hs => no_whitespace h.reads ht hs, ⟨hjoined, h.value⟩, fun us hus => hus.unique hjoined,
    read_joined h.reads h.value.apart, strip_eq_joined hjoined⟩

/-- The text of a block is read as before, if what is taken for JSON is JSON. -/
theorem read_compactText {isJson : String → Bool}
    (hj : ∀ text, isJson text = true → ∃ ts, IsJson text.toList ts) (text : String) :
    read (compactText isJson text).toList = read text.toList := by
  unfold compactText
  simp only
  split
  · next h =>
    obtain ⟨ts, hts⟩ := hj text (Bool.and_eq_true_iff.mp h).1
    rw [String.toList_ofList]
    rw [strip_eq_joined hts.reads, read_joined hts.reads hts.value.apart]
  · rfl

/-- A list of a number and a string that holds a backslash, a quote and blanks. -/
def spaced : List Char := ['[', ' ', '1', ' ', ',', '"', '\\', '\\', '\\', '"', ' ', 'b', '"', ' ', ']']

def spacedTokens : List Token :=
  [.punct '[', .word ['1'], .punct ',', .string ['\\', '\\', '\\', '"', ' ', 'b'], .punct ']']

theorem isJson_spaced : IsJson spaced spacedTokens where
  reads := by
    have hbody : StringBody ['\\', '\\', '\\', '"', ' ', 'b'] :=
      .escape rfl (.escape rfl (.plain (by decide) (by decide) (by decide)
        (.plain (by decide) (by decide) (by decide) .nil)))
    have htail : Reads [',', '"', '\\', '\\', '\\', '"', ' ', 'b', '"', ' ', ']'] (spacedTokens.drop 2) :=
      .punct rfl (.string hbody (.blank rfl (.punct rfl .nil)))
    have hword : Reads (['1'] ++ [' ', ',', '"', '\\', '\\', '\\', '"', ' ', 'b', '"', ' ', ']'])
        (spacedTokens.drop 1) := by
      refine .word (by simp) (List.forall_mem_singleton.mpr rfl) (fun c rest h => ?_) (.blank rfl htail)
      obtain rfl := (List.cons.inj h).1
      decide
    exact .punct rfl (.blank rfl hword)
  value := .arr (.more (.number rfl) (.one (.string _)))

/-- The blank in the string stays. -/
theorem strip_lossless_spaced :
    stripJsonWhitespace spaced = ['[', '1', ',', '"', '\\', '\\', '\\', '"', ' ', 'b', '"', ']'] ∧
      read (stripJsonWhitespace spaced) = read spaced ∧
      stripJsonWhitespace (stripJsonWhitespace spaced) = stripJsonWhitespace spaced :=
  ⟨by decide, (strip_lossless spaced spacedTokens isJson_spaced).2.2.2.2⟩

end MinMcp.L4.Compaction
