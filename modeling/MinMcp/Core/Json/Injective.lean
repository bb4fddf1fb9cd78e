import MinMcp.Core.Json.RoundTrip

/-!
# Printed values are told apart

Two values with one text are the same value, with the same order of keys and however
deep they are: a printed value is a prefix code as long as what follows it cannot
belong to a number.

* `escape_append_inj`: a string ends where its closing quote stands.
* `print_append_inj`: a value ends where what follows stops it.
* `print_injective`.
-/
namespace MinMcp.Core.Json

open MinMcp.Core.JsonReader (Stops stops_nil stops_printElems stops_printEntries unescape unescape_shortEscape
  shortEscape_none hexValue hexValue_hexDigit print_head isBlank)

/-! ## Strings -/

theorem hexDigit_inj {m n : Nat} (hm : m < 16) (hn : n < 16) (h : hexDigit m = hexDigit n) : m = n := by
  have hv := hexValue_hexDigit hm
  rw [h, hexValue_hexDigit hn] at hv
  exact (Option.some.inj hv).symm

/-- The first character of an escape, and whether it is one. -/
theorem escapeChar_cases (c : Char) :
    (∃ e, shortEscape c = some e ∧ escapeChar c = ['\\', e]) ∨
      (shortEscape c = none ∧ c.toNat < 0x20 ∧
        escapeChar c = ['\\', 'u', '0', '0', hexDigit (c.toNat / 16), hexDigit (c.toNat % 16)]) ∨
      (shortEscape c = none ∧ escapeChar c = [c]) := by
  unfold escapeChar
  cases h : shortEscape c with
  | some e => exact Or.inl ⟨e, rfl, rfl⟩
  | none =>
    by_cases hc : c.toNat < 0x20
    · exact Or.inr (Or.inl ⟨rfl, hc, if_pos hc⟩)
    · exact Or.inr (Or.inr ⟨rfl, if_neg hc⟩)

theorem escapeChar_append_inj {c d : Char} {xs ys : List Char}
    (h : escapeChar c ++ xs = escapeChar d ++ ys) : c = d ∧ xs = ys := by
  rcases escapeChar_cases c with ⟨e, hc, hce⟩ | ⟨hc, hlt, hce⟩ | ⟨hc, hce⟩ <;>
    rcases escapeChar_cases d with ⟨f, hd, hdf⟩ | ⟨hd, hlt', hdf⟩ | ⟨hd, hdf⟩ <;>
      rw [hce, hdf] at h <;> simp only [List.cons_append, List.nil_append, List.cons.injEq, true_and] at h
  · -- one short escape is of one character
    obtain ⟨rfl, hxs⟩ := h
    have hu := (unescape_shortEscape hc).1
    rw [(unescape_shortEscape hd).1] at hu
    exact ⟨(Option.some.inj hu).symm, hxs⟩
  · exact absurd h.1 (unescape_shortEscape hc).2
  · exact absurd h.1.symm (shortEscape_none hd).2
  · exact absurd h.1.symm (unescape_shortEscape hd).2
  · obtain ⟨h1, h2, hxs⟩ := h
    have hq := hexDigit_inj (by omega) (by omega) h1
    have hr := hexDigit_inj (by omega) (by omega) h2
    have hn : c.toNat = d.toNat := by omega
    exact ⟨Char.toNat_inj.mp hn, hxs⟩
  · exact absurd h.1.symm (shortEscape_none hd).2
  · exact absurd h.1 (shortEscape_none hc).2
  · exact absurd h.1 (shortEscape_none hc).2
  · exact h

theorem quote_ne_escape {c : Char} {xs ys : List Char} : '"' :: xs ≠ escapeChar c ++ ys := by
  intro h
  rcases escapeChar_cases c with ⟨e, -, he⟩ | ⟨-, -, he⟩ | ⟨hc, he⟩
  · rw [he] at h
    exact absurd (List.cons.inj h).1 (by decide)
  · rw [he] at h
    exact absurd (List.cons.inj h).1 (by decide)
  · rw [he] at h
    exact (shortEscape_none hc).1 (List.cons.inj h).1.symm

theorem escape_append_inj {cs ds xs ys : List Char}
    (h : cs.flatMap escapeChar ++ '"' :: xs = ds.flatMap escapeChar ++ '"' :: ys) : cs = ds ∧ xs = ys := by
  induction cs generalizing ds with
  | nil =>
    cases ds with
    | nil => exact ⟨rfl, (List.cons.inj h).2⟩
    | cons d ds =>
      rw [List.flatMap_nil, List.nil_append, List.flatMap_cons, List.append_assoc] at h
      exact absurd h quote_ne_escape
  | cons c cs ih =>
    cases ds with
    | nil =>
      rw [List.flatMap_nil, List.nil_append, List.flatMap_cons, List.append_assoc] at h
      exact absurd h.symm quote_ne_escape
    | cons d ds =>
      rw [List.flatMap_cons, List.flatMap_cons, List.append_assoc, List.append_assoc] at h
      obtain ⟨rfl, htail⟩ := escapeChar_append_inj h
      obtain ⟨rfl, hxs⟩ := ih htail
      exact ⟨rfl, hxs⟩

theorem printString_append_inj {s t : String} {xs ys : List Char}
    (h : printString s ++ xs = printString t ++ ys) : s = t ∧ xs = ys := by
  unfold printString at h
  rw [List.cons_append, List.cons_append, List.append_assoc, List.append_assoc] at h
  obtain ⟨hst, hxs⟩ := escape_append_inj (List.cons.inj h).2
  exact ⟨String.toList_inj.mp hst, hxs⟩

/-! ## Numbers -/

theorem num_ext {m n : Num} (h : m.text = n.text) : m = n := by
  obtain ⟨t, ht⟩ := m
  obtain ⟨u, hu⟩ := n
  subst h
  rfl

/-- The characters a number may hold. -/
def numChar (c : Char) : Bool := c.isDigit || c = '-' || c = '+' || c = '.' || c = 'e' || c = 'E'

theorem numChar_of_step {s t : NumState} {c : Char} (h : s.step c = some t) : numChar c = true := by
  by_contra hn
  simp only [numChar, Bool.or_eq_true, decide_eq_true_eq, not_or, Bool.not_eq_true] at hn
  obtain ⟨⟨⟨⟨⟨hd, hm⟩, hp⟩, hdot⟩, he⟩, hE⟩ := hn
  have h0 : c ≠ '0' := by
    rintro rfl
    exact absurd hd (by decide)
  cases s <;> simp [NumState.step, NumState.isDigit19, hd, hm, hp, hdot, he, hE, h0] at h

theorem numChar_of_scan {s t : NumState} {cs : List Char} (h : s.scan cs = some t) :
    ∀ c ∈ cs, numChar c = true := by
  induction cs generalizing s with
  | nil => simp
  | cons c cs ih =>
    rw [NumState.scan, Option.bind_eq_some_iff] at h
    obtain ⟨u, hc, h⟩ := h
    exact List.forall_mem_cons.mpr ⟨numChar_of_step hc, ih h⟩

theorem numChar_text (n : Num) : ∀ c ∈ n.text.toList, numChar c = true := by
  have hn := n.ok.1
  rw [isNumber, Option.any_eq_true] at hn
  obtain ⟨s, hs, -⟩ := hn
  exact numChar_of_scan hs

/-- What stops a number is no part of one. -/
theorem takeWhile_num (n : Num) {rest : List Char} (hr : Stops rest) :
    (n.text.toList ++ rest).takeWhile numChar = n.text.toList := by
  rw [List.takeWhile_append_of_pos (numChar_text n)]
  cases rest with
  | nil => simp
  | cons c cs =>
    have hc : numChar c = false := by
      rcases hr c cs rfl with rfl | rfl | rfl | hb
      · decide
      · decide
      · decide
      · simp only [isBlank, Bool.or_eq_true, decide_eq_true_eq] at hb
        rcases hb with ((rfl | rfl) | rfl) | rfl <;> decide
    rw [List.takeWhile_cons, hc]
    simp

theorem num_append_inj {m n : Num} {xs ys : List Char} (hx : Stops xs) (hy : Stops ys)
    (h : m.text.toList ++ xs = n.text.toList ++ ys) : m = n ∧ xs = ys := by
  have ht : m.text.toList = n.text.toList := by rw [← takeWhile_num m hx, h, takeWhile_num n hy]
  rw [ht] at h
  exact ⟨num_ext (String.toList_inj.mp ht), List.append_cancel_left h⟩

theorem num_head (n : Num) : ∃ c cs, n.text.toList = c :: cs ∧ numChar c = true := by
  cases h : n.text.toList with
  | nil =>
    have hn := n.ok.1
    rw [h] at hn
    exact absurd hn (by decide)
  | cons c cs => exact ⟨c, cs, rfl, numChar_text n c (h ▸ List.mem_cons_self)⟩

/-! ## Values -/

/-- What a value starts with tells which kind it is of. -/
inductive Kind where
  | null | bool (b : Bool) | num | str | arr | obj
  deriving DecidableEq

def kind : Json → Kind
  | .null => .null
  | .bool b => .bool b
  | .num _ => .num
  | .str _ => .str
  | .arr _ => .arr
  | .obj _ => .obj

def kindOfHead (c : Char) : Kind :=
  if c = 'n' then .null else if c = 't' then .bool true else if c = 'f' then .bool false
  else if c = '"' then .str else if c = '[' then .arr else if c = '\x7b' then .obj else .num

theorem kindOfHead_num {c : Char} (h : numChar c = true) : kindOfHead c = .num := by
  have hne : ∀ d : Char, numChar d = false → c ≠ d := by
    rintro d hd rfl
    rw [hd] at h
    cases h
  simp [kindOfHead, hne 'n' (by decide), hne 't' (by decide), hne 'f' (by decide), hne '"' (by decide),
    hne '[' (by decide), hne '\x7b' (by decide)]

theorem print_kind (v : Json) : ∃ c cs, v.print = c :: cs ∧ kindOfHead c = v.kind := by
  cases v with
  | null => exact ⟨'n', "ull".toList, by decide, by decide⟩
  | bool b =>
    cases b
    · exact ⟨'f', "alse".toList, by decide, by decide⟩
    · exact ⟨'t', "rue".toList, by decide, by decide⟩
  | num n =>
    obtain ⟨c, cs, hc, hn⟩ := num_head n
    exact ⟨c, cs, by rw [print, hc], kindOfHead_num hn⟩
  | str s => exact ⟨'"', _, by rw [print, printString]; rfl, rfl⟩
  | arr xs => exact ⟨'[', _, by rw [print], rfl⟩
  | obj es => exact ⟨'\x7b', _, by rw [print], rfl⟩

theorem kind_of_append {v w : Json} {xs ys : List Char} (h : v.print ++ xs = w.print ++ ys) :
    v.kind = w.kind := by
  obtain ⟨c, cs, hv, hc⟩ := print_kind v
  obtain ⟨d, ds, hw, hd⟩ := print_kind w
  rw [hv, hw] at h
  rw [← hc, ← hd, (List.cons.inj h).1]

/-- `Ends v`: wherever the text of `v` stands in front of something that stops it, no
other value can have been printed there. -/
def Ends (v : Json) : Prop :=
  ∀ w xs ys, Stops xs → Stops ys → v.print ++ xs = w.print ++ ys → v = w ∧ xs = ys

theorem printElems_append_inj {vs : List Json} (ih : ∀ v ∈ vs, Ends v) :
    ∀ {ws : List Json} {first : Bool} {xs ys : List Char},
      printElems first vs ++ xs = printElems first ws ++ ys → vs = ws ∧ xs = ys := by
  have hclose : ∀ {first : Bool} {v : Json} {cs ds : List Char}, ']' :: cs ≠ sep first ++ v.print ++ ds := by
    intro first v cs ds h
    obtain ⟨c, tail, hp, -, hc⟩ := print_head v
    rw [hp] at h
    cases first
    · exact absurd (List.cons.inj h).1 (by decide)
    · exact hc (List.cons.inj h).1.symm
  induction vs with
  | nil =>
    intro ws first xs ys h
    cases ws with
    | nil => exact ⟨rfl, (List.cons.inj h).2⟩
    | cons w ws =>
      rw [printElems, printElems, List.append_assoc _ (printElems false ws)] at h
      exact absurd h hclose
  | cons v vs ihs =>
    intro ws first xs ys h
    cases ws with
    | nil =>
      rw [printElems, printElems, List.append_assoc _ (printElems false vs)] at h
      exact absurd h.symm hclose
    | cons w ws =>
      rw [printElems, printElems, List.append_assoc, List.append_assoc, List.append_assoc,
        List.append_assoc] at h
      obtain ⟨rfl, htail⟩ := ih v List.mem_cons_self w _ _ (stops_printElems vs xs) (stops_printElems ws ys)
        (List.append_cancel_left h)
      obtain ⟨rfl, hxs⟩ := ihs (fun u hu => ih u (List.mem_cons_of_mem _ hu)) htail
      exact ⟨rfl, hxs⟩

theorem printEntries_append_inj {es : List (String × Json)} (ih : ∀ e ∈ es, Ends e.2) :
    ∀ {fs : List (String × Json)} {first : Bool} {xs ys : List Char},
      printEntries first es ++ xs = printEntries first fs ++ ys → es = fs ∧ xs = ys := by
  have hclose : ∀ {first : Bool} {k : String} {cs ds : List Char},
      '\x7d' :: cs ≠ sep first ++ (printString k ++ ds) := by
    intro first k cs ds h
    cases first <;> exact absurd (List.cons.inj h).1 (by decide)
  induction es with
  | nil =>
    intro fs first xs ys h
    cases fs with
    | nil => exact ⟨rfl, (List.cons.inj h).2⟩
    | cons f fs =>
      obtain ⟨k, w⟩ := f
      simp only [printEntries, List.append_assoc] at h
      exact absurd h hclose
  | cons e es ihs =>
    intro fs first xs ys h
    obtain ⟨k, v⟩ := e
    cases fs with
    | nil =>
      simp only [printEntries, List.append_assoc] at h
      exact absurd h.symm hclose
    | cons f fs =>
      obtain ⟨k', w⟩ := f
      simp only [printEntries, List.append_assoc, List.cons_append] at h
      obtain ⟨rfl, hcolon⟩ := printString_append_inj (List.append_cancel_left h)
      obtain ⟨rfl, htail⟩ := ih (k, v) List.mem_cons_self w _ _ (stops_printEntries es xs)
        (stops_printEntries fs ys) (List.cons.inj hcolon).2
      obtain ⟨rfl, hxs⟩ := ihs (fun e he => ih e (List.mem_cons_of_mem _ he)) htail
      exact ⟨rfl, hxs⟩

/-- **Prefix code.** -/
theorem print_append_inj (v : Json) : Ends v := by
  induction v using Json.ind with
  | null =>
    intro w xs ys _ _ h
    have hk := kind_of_append h
    cases w <;> cases hk
    exact ⟨rfl, List.append_cancel_left h⟩
  | bool b =>
    intro w xs ys _ _ h
    have hk := kind_of_append h
    cases w <;> cases hk
    exact ⟨rfl, List.append_cancel_left h⟩
  | num n =>
    intro w xs ys hx hy h
    have hk := kind_of_append h
    cases w <;> cases hk
    obtain ⟨rfl, hxs⟩ := num_append_inj hx hy h
    exact ⟨rfl, hxs⟩
  | str s =>
    intro w xs ys _ _ h
    have hk := kind_of_append h
    cases w <;> cases hk
    obtain ⟨rfl, hxs⟩ := printString_append_inj h
    exact ⟨rfl, hxs⟩
  | arr vs ih =>
    intro w xs ys _ _ h
    have hk := kind_of_append h
    cases w <;> cases hk
    obtain ⟨rfl, hxs⟩ := printElems_append_inj ih (List.cons.inj h).2
    exact ⟨rfl, hxs⟩
  | obj es ih =>
    intro w xs ys _ _ h
    have hk := kind_of_append h
    cases w <;> cases hk
    obtain ⟨rfl, hxs⟩ := printEntries_append_inj ih (List.cons.inj h).2
    exact ⟨rfl, hxs⟩

theorem print_injective {v w : Json} (h : v.print = w.print) : v = w :=
  (print_append_inj v w [] [] stops_nil stops_nil (by rw [h])).1

end MinMcp.Core.Json
