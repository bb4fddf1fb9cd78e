import MinMcp.Core.Json.Value
import Mathlib.Data.List.Basic

/-!
# The path of a special URL

The path state of the WHATWG URL parser for a special, non-file scheme, run on
what follows the host: `/` and `\` end a segment, `?` and `#` end the path,
characters of the path percent-encode set are encoded, single-dot segments are
dropped and double-dot segments remove the segment before them. `%2e` in either
case counts as a dot.

* `parsePath_segments`: whatever the text, every parsed segment is clean.
* `parsePath_join_iff`: a joined list of segments is parsed back to that list
  **iff** it is not empty and every segment is clean.
-/
namespace MinMcp.Core.Url

/-- The path percent-encode set. -/
def inPathSet (c : Char) : Bool :=
  c.toNat < 0x20 || 0x7E < c.toNat || c = ' ' || c = '"' || c = '#' || c = '<' || c = '>' ||
  c = '?' || c = '^' || c = '`' || c = '{' || c = '}'

def isSlash (c : Char) : Bool := c = '/' || c = '\\'

/-- The parser copies the character into the segment. -/
def isStable (c : Char) : Bool := !inPathSet c && !isSlash c

def hexUpper (n : Nat) : Char := (Nat.digitChar n).toUpper

def percentByte (b : UInt8) : List Char := ['%', hexUpper (b.toNat / 16), hexUpper (b.toNat % 16)]

/-- UTF-8 percent-encode one code point. -/
def percentEncode (c : Char) : List Char :=
  if inPathSet c then (String.utf8EncodeChar c).flatMap percentByte else [c]

def lower (cs : List Char) : List Char := cs.map Char.toLower

def isSingleDot (seg : List Char) : Bool :=
  lower seg = ".".toList || lower seg = "%2e".toList

def isDoubleDot (seg : List Char) : Bool :=
  lower seg = "..".toList || lower seg = ".%2e".toList || lower seg = "%2e.".toList ||
  lower seg = "%2e%2e".toList

def isDotSegment (seg : List Char) : Bool := isSingleDot seg || isDoubleDot seg

/-- A segment ends; `slash` says whether a slash ended it. -/
def closeSegment (slash : Bool) (path : List (List Char)) (buf : List Char) : List (List Char) :=
  if isDoubleDot buf then if slash then path.dropLast else path.dropLast ++ [[]]
  else if isSingleDot buf then if slash then path else path ++ [[]]
  else path ++ [buf]

/-- The path state. -/
def pathGo (path : List (List Char)) (buf : List Char) : List Char → List (List Char)
  | [] => closeSegment false path buf
  | c :: cs =>
    if isSlash c then pathGo (closeSegment true path buf) [] cs
    else if c = '?' ∨ c = '#' then closeSegment false path buf
    else pathGo path (buf ++ percentEncode c) cs

/-- What the parser removes before it starts: trailing controls and spaces, and
every tab and line break. -/
def preprocess (cs : List Char) : List Char :=
  (cs.reverse.dropWhile fun c => c.toNat ≤ 0x20).reverse.filter fun c =>
    c ≠ '\t' ∧ c ≠ '\n' ∧ c ≠ '\r'

/-- The path start state, then the path state. -/
def parsePath (cs : List Char) : List (List Char) :=
  match preprocess cs with
  | c :: cs' => if isSlash c then pathGo [] [] cs' else pathGo [] [] (c :: cs')
  | [] => pathGo [] [] []

/-- `/` in front of every segment. -/
def join (segs : List (List Char)) : List Char := segs.flatMap ('/' :: ·)

/-- A segment the parser keeps as it is. -/
def Clean (seg : List Char) : Prop := (∀ c ∈ seg, isStable c = true) ∧ isDotSegment seg = false

theorem clean_nil : Clean [] := ⟨by simp, by decide⟩

/-! ## Parsed segments are clean -/

theorem hexUpper_stable {n : Nat} (h : n < 16) : isStable (hexUpper n) = true := by
  have hd : ∀ m : Fin 16, isStable (hexUpper m.val) = true := by decide +kernel
  exact hd ⟨n, h⟩

theorem percentEncode_stable {c d : Char} (hc : isSlash c = false) (h : d ∈ percentEncode c) :
    isStable d = true := by
  unfold percentEncode at h
  split at h
  · obtain ⟨b, -, hb⟩ := List.mem_flatMap.mp h
    have hlt := b.toNat_lt
    simp only [percentByte, List.mem_cons, List.not_mem_nil, or_false] at hb
    rcases hb with rfl | rfl | rfl
    · decide
    · exact hexUpper_stable (by omega)
    · exact hexUpper_stable (by omega)
  · next hs => rw [List.mem_singleton] at h; simp [isStable, h, hs, hc]

theorem closeSegment_clean (slash : Bool) {path : List (List Char)} {buf : List Char}
    (hp : ∀ seg ∈ path, Clean seg) (hb : ∀ c ∈ buf, isStable c = true) :
    ∀ seg ∈ closeSegment slash path buf, Clean seg := by
  have hdrop : ∀ seg ∈ path.dropLast, Clean seg := fun seg h => hp seg (List.dropLast_subset path h)
  have hsnoc : ∀ {xs : List (List Char)} {x}, (∀ seg ∈ xs, Clean seg) → Clean x →
      ∀ seg ∈ xs ++ [x], Clean seg := fun hxs hx seg h => by
    rcases List.mem_append.mp h with h | h
    · exact hxs seg h
    · exact List.mem_singleton.mp h ▸ hx
  unfold closeSegment
  split
  · split
    · exact hdrop
    · exact hsnoc hdrop clean_nil
  · next hd =>
    split
    · split
      · exact hp
      · exact hsnoc hp clean_nil
    · next hs => exact hsnoc hp ⟨hb, by simp [isDotSegment, hd, hs]⟩

theorem closeSegment_false_ne_nil (path : List (List Char)) (buf : List Char) :
    closeSegment false path buf ≠ [] := by
  unfold closeSegment
  split
  · simp
  · split <;> simp

theorem pathGo_clean (cs : List Char) (path : List (List Char)) (buf : List Char)
    (hp : ∀ seg ∈ path, Clean seg) (hb : ∀ c ∈ buf, isStable c = true) :
    ∀ seg ∈ pathGo path buf cs, Clean seg := by
  induction cs generalizing path buf with
  | nil => exact closeSegment_clean false hp hb
  | cons c cs ih =>
    unfold pathGo
    split
    · exact ih _ _ (closeSegment_clean true hp hb) (by simp)
    · next hc =>
      split
      · exact closeSegment_clean false hp hb
      · refine ih _ _ hp fun d hd => ?_
        rcases List.mem_append.mp hd with hd | hd
        · exact hb d hd
        · exact percentEncode_stable (by simpa using hc) hd

theorem pathGo_ne_nil (cs : List Char) (path : List (List Char)) (buf : List Char) :
    pathGo path buf cs ≠ [] := by
  induction cs generalizing path buf with
  | nil => exact closeSegment_false_ne_nil path buf
  | cons c cs ih =>
    unfold pathGo
    split
    · exact ih _ _
    · split
      · exact closeSegment_false_ne_nil path buf
      · exact ih _ _

theorem parsePath_eq (cs : List Char) : ∃ cs', parsePath cs = pathGo [] [] cs' := by
  unfold parsePath
  split
  · split
    · exact ⟨_, rfl⟩
    · exact ⟨_, rfl⟩
  · exact ⟨_, rfl⟩

/-- Every parsed segment is clean, whatever the text was. -/
theorem parsePath_segments (cs : List Char) : ∀ seg ∈ parsePath cs, Clean seg := by
  obtain ⟨cs', h⟩ := parsePath_eq cs
  rw [h]
  exact pathGo_clean cs' [] [] (by simp) (by simp)

theorem parsePath_ne_nil (cs : List Char) : parsePath cs ≠ [] := by
  obtain ⟨cs', h⟩ := parsePath_eq cs
  rw [h]
  exact pathGo_ne_nil cs' [] []

/-! ## Clean segments are parsed back -/

theorem stable_step {c : Char} (h : isStable c = true) :
    isSlash c = false ∧ ¬ (c = '?' ∨ c = '#') ∧ percentEncode c = [c] := by
  simp only [isStable, Bool.and_eq_true, Bool.not_eq_true'] at h
  refine ⟨h.2, ?_, by simp [percentEncode, h.1]⟩
  rintro (rfl | rfl) <;> exact absurd h.1 (by decide)

theorem pathGo_stable (path : List (List Char)) (buf seg cs : List Char)
    (h : ∀ c ∈ seg, isStable c = true) : pathGo path buf (seg ++ cs) = pathGo path (buf ++ seg) cs := by
  induction seg generalizing buf with
  | nil => simp
  | cons c seg ih =>
    obtain ⟨h1, h2, h3⟩ := stable_step (h c List.mem_cons_self)
    rw [List.cons_append, pathGo, if_neg (by simp [h1]), if_neg h2, h3,
      ih _ fun d hd => h d (List.mem_cons_of_mem _ hd), List.append_assoc]
    rfl

theorem closeSegment_of_clean (slash : Bool) (path : List (List Char)) {seg : List Char}
    (h : Clean seg) : closeSegment slash path seg = path ++ [seg] := by
  have hd := h.2
  simp only [isDotSegment, Bool.or_eq_false_iff] at hd
  rw [closeSegment, if_neg (by simp [hd.2]), if_neg (by simp [hd.1])]

theorem pathGo_join (path : List (List Char)) (seg : List Char) (segs : List (List Char))
    (h : ∀ s ∈ seg :: segs, Clean s) :
    pathGo path [] (seg ++ join segs) = path ++ seg :: segs := by
  induction segs generalizing path seg with
  | nil =>
    have hs := h seg List.mem_cons_self
    rw [join, List.flatMap_nil, List.append_nil, ← List.append_nil seg,
      pathGo_stable path [] seg [] hs.1, List.nil_append, pathGo, closeSegment_of_clean false path hs,
      List.append_nil]
  | cons s segs ih =>
    have hs := h seg List.mem_cons_self
    have hj : join (s :: segs) = '/' :: (s ++ join segs) := rfl
    rw [hj, pathGo_stable path [] seg _ hs.1, List.nil_append, pathGo, if_pos (by decide),
      closeSegment_of_clean true path hs, ih _ _ fun t ht => h t (List.mem_cons_of_mem _ ht)]
    simp

theorem preprocess_of_stable {cs : List Char} (h : ∀ c ∈ cs, isStable c = true ∨ c = '/') :
    preprocess cs = cs := by
  have hbig : ∀ c ∈ cs, 0x20 < c.toNat := fun c hc => by
    rcases h c hc with h | rfl
    · by_contra hle
      simp only [isStable, inPathSet, Bool.and_eq_true, Bool.not_eq_true', Bool.or_eq_false_iff,
        decide_eq_false_iff_not] at h
      have h32 : c.toNat = 32 := by omega
      have hc : c = ' ' := by
        rw [← Char.ofNat_toNat c, h32]
      exact h.1.1.1.1.1.1.1.1.1.1.2 hc
    · decide
  have hdrop : cs.reverse.dropWhile (fun c => decide (c.toNat ≤ 0x20)) = cs.reverse := by
    cases hr : cs.reverse with
    | nil => rfl
    | cons d ds =>
      have hd : d ∈ cs := List.mem_reverse.mp (hr ▸ List.mem_cons_self)
      have := hbig d hd
      rw [List.dropWhile_cons_of_neg (by simp; omega)]
  rw [preprocess, hdrop, List.reverse_reverse, List.filter_eq_self]
  intro c hc
  have := hbig c hc
  simp only [decide_eq_true_eq]
  refine ⟨?_, ?_, ?_⟩ <;> rintro rfl <;> exact absurd this (by decide)

/-- **Normalisation keeps exactly the clean paths.** -/
theorem parsePath_join_iff (segs : List (List Char)) :
    parsePath (join segs) = segs ↔ segs ≠ [] ∧ ∀ seg ∈ segs, Clean seg := by
  constructor
  · intro h
    refine ⟨fun hn => parsePath_ne_nil _ (h.trans hn), fun seg hs => ?_⟩
    exact parsePath_segments (join segs) seg (h.symm ▸ hs)
  · intro ⟨hne, hc⟩
    cases segs with
    | nil => exact absurd rfl hne
    | cons s segs =>
      have hst : ∀ c ∈ join (s :: segs), isStable c = true ∨ c = '/' := fun c hm => by
        obtain ⟨seg, hseg, hm⟩ := List.mem_flatMap.mp hm
        rcases List.mem_cons.mp hm with hm | hm
        · exact Or.inr hm
        · exact Or.inl ((hc seg hseg).1 c hm)
      have hj : join (s :: segs) = '/' :: (s ++ join segs) := rfl
      rw [parsePath, preprocess_of_stable hst, hj]
      simp only [isSlash, decide_true, Bool.true_or, if_true]
      exact pathGo_join [] s segs hc

end MinMcp.Core.Url
