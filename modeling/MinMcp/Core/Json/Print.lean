import MinMcp.Core.Json.Value
import Mathlib.Data.List.Basic

/-!
# Compact printing

`Json.print` is the compact serialisation: no blanks, entries in the map's
order, numbers as the text of their literal, strings with the two mandatory
escapes, the five short control escapes and `\u00xx` for the other controls.

* `print_ne_nil`: no value prints as nothing; `print_obj_getLast?`: an object
  ends with its brace.
* `control_notMem_print`: a printed value holds no control character;
  `newline_notMem_print`: so it is one line.
-/
namespace MinMcp.Core

namespace Json

/-- Lower-case hexadecimal digit. -/
def hexDigit (n : Nat) : Char := Nat.digitChar n

/-- The letter of a two-character escape. -/
def shortEscape (c : Char) : Option Char :=
  if c = '"' then some '"'
  else if c = '\\' then some '\\'
  else if c = '\x08' then some 'b'
  else if c = '\x0c' then some 'f'
  else if c = '\n' then some 'n'
  else if c = '\r' then some 'r'
  else if c = '\t' then some 't'
  else none

def escapeChar (c : Char) : List Char :=
  match shortEscape c with
  | some e => ['\\', e]
  | none =>
    if c.toNat < 0x20 then
      ['\\', 'u', '0', '0', hexDigit (c.toNat / 16), hexDigit (c.toNat % 16)]
    else [c]

def printString (s : String) : List Char := '"' :: s.toList.flatMap escapeChar ++ ['"']

/-- The separator in front of an element that is not the first. -/
def sep (first : Bool) : List Char := if first then [] else [',']

mutual
def print : Json → List Char
  | .null => "null".toList
  | .bool true => "true".toList
  | .bool false => "false".toList
  | .num n => n.text.toList
  | .str s => printString s
  | .arr xs => '[' :: printElems true xs
  | .obj es => '{' :: printEntries true es
termination_by structural v => v
/-- The elements and the closing bracket. -/
def printElems (first : Bool) : List Json → List Char
  | [] => [']']
  | v :: xs => sep first ++ print v ++ printElems false xs
termination_by structural xs => xs
/-- The entries and the closing brace. -/
def printEntries (first : Bool) : List (String × Json) → List Char
  | [] => ['}']
  | (k, v) :: es => sep first ++ printString k ++ ':' :: print v ++ printEntries false es
termination_by structural es => es
end

/-- `value.to_string()`. -/
def render (v : Json) : String := String.ofList v.print

@[simp] theorem render_toList (v : Json) : v.render.toList = v.print := String.toList_ofList

theorem print_ne_nil (v : Json) : v.print ≠ [] := by
  cases v with
  | null => decide
  | bool b => cases b <;> decide
  | num n =>
    intro h
    have hn := n.ok.1
    rw [print] at h
    rw [h] at hn
    exact absurd hn (by decide)
  | str s => simp [print, printString]
  | arr xs => simp [print]
  | obj es => simp [print]

theorem printEntries_getLast? (first : Bool) (es : List (String × Json)) :
    (printEntries first es).getLast? = some '}' := by
  induction es generalizing first with
  | nil => rfl
  | cons e es ih =>
    rw [printEntries, List.getLast?_append, ih false]
    rfl

theorem print_obj_getLast? (es : List (String × Json)) : (Json.obj es).print.getLast? = some '}' := by
  rw [print, List.getLast?_cons, printEntries_getLast?]
  rfl

/-! ## A printed value holds no control character -/

section Control

variable {d : Char}

theorem shortEscape_ne_control (hd : d.toNat < 0x20) {c e : Char} (h : shortEscape c = some e) : e ≠ d := by
  rintro rfl
  simp only [shortEscape] at h
  repeat' split at h
  all_goals first
    | (cases h; exact absurd hd (by decide))
    | cases h

theorem hexDigit_ne_control (hd : d.toNat < 0x20) {n : Nat} (h : n < 16) : d ≠ hexDigit n := by
  have hall : ∀ m : Fin 16, 0x20 ≤ (hexDigit m.val).toNat := by decide
  rintro rfl
  have := hall ⟨n, h⟩
  dsimp only at this
  omega

theorem ne_of_control (hd : d.toNat < 0x20) {c : Char} (hc : 0x20 ≤ c.toNat) : d ≠ c := by
  rintro rfl
  omega

theorem control_notMem_escapeChar (hd : d.toNat < 0x20) (c : Char) : d ∉ escapeChar c := by
  have hb : d ≠ '\\' := ne_of_control hd (by decide)
  unfold escapeChar
  split
  · next e he => simp [hb, (shortEscape_ne_control hd he).symm]
  · next he =>
    split
    · have h1 := hexDigit_ne_control hd (n := c.toNat / 16) (by omega)
      have h2 := hexDigit_ne_control hd (n := c.toNat % 16) (by omega)
      have hu : d ≠ 'u' := ne_of_control hd (by decide)
      have h0 : d ≠ '0' := ne_of_control hd (by decide)
      simp [h1, h2, hb, hu, h0]
    · next hc =>
      rw [List.mem_singleton]
      rintro rfl
      exact hc hd

theorem control_notMem_printString (hd : d.toNat < 0x20) (s : String) : d ∉ printString s := by
  simp only [printString, List.mem_cons, List.mem_append, List.mem_flatMap, List.not_mem_nil, or_false,
    not_or, not_exists, not_and]
  exact ⟨⟨ne_of_control hd (by decide), fun c _ => control_notMem_escapeChar hd c⟩,
    ne_of_control hd (by decide)⟩

/-- A number is scanned over characters of its own. -/
theorem step_control (hd : d.toNat < 0x20) (s : NumState) : s.step d = none := by
  have hdigit : d.isDigit = false := by
    rw [Bool.eq_false_iff]
    intro h
    simp only [Char.isDigit, Bool.and_eq_true, decide_eq_true_eq] at h
    have := UInt32.le_iff_toNat_le.mp h.1
    have he : d.val.toNat = d.toNat := rfl
    simp at this
    omega
  have hne : ∀ c : Char, 0x20 ≤ c.toNat → d ≠ c := fun c => ne_of_control hd
  have h0 := hne '0' (by decide)
  have hm := hne '-' (by decide)
  have hp := hne '+' (by decide)
  have hdot := hne '.' (by decide)
  have he := hne 'e' (by decide)
  have hE := hne 'E' (by decide)
  cases s <;> simp [NumState.step, NumState.isDigit19, hdigit, h0, hm, hp, hdot, he, hE]

theorem control_notMem_num (hd : d.toNat < 0x20) (n : Num) : d ∉ n.text.toList := by
  intro h
  have hn := n.ok.1
  obtain ⟨xs, ys, he⟩ := List.append_of_mem h
  rw [he, isNumber, NumState.scan_append] at hn
  cases hs : NumState.start.scan xs with
  | none => rw [hs] at hn; exact absurd hn (by simp)
  | some s =>
    rw [hs, Option.bind_some, NumState.scan, step_control hd] at hn
    cases hn

theorem control_notMem_sep (hd : d.toNat < 0x20) (first : Bool) : d ∉ sep first := by
  cases first
  · simp [sep, ne_of_control hd (c := ',') (by decide)]
  · simp [sep]

theorem control_notMem_print (hd : d.toNat < 0x20) (v : Json) : d ∉ v.print := by
  have hne : ∀ c : Char, 0x20 ≤ c.toNat → d ≠ c := fun c => ne_of_control hd
  have hword : ∀ cs : List Char, cs.all (fun c => 0x20 ≤ c.toNat) = true → d ∉ cs := by
    intro cs hcs hmem
    have := of_decide_eq_true (List.all_eq_true.mp hcs d hmem)
    omega
  induction v using Json.ind with
  | null => exact hword _ (by decide)
  | bool b => cases b <;> exact hword _ (by decide)
  | num n => rw [print]; exact control_notMem_num hd n
  | str s => rw [print]; exact control_notMem_printString hd s
  | arr xs ih =>
    have hl : ∀ first, d ∉ printElems first xs := by
      induction xs with
      | nil =>
        intro first
        rw [printElems, List.mem_singleton]
        exact hne ']' (by decide)
      | cons v xs ihx =>
        intro first
        rw [printElems, List.mem_append, List.mem_append, not_or, not_or]
        exact ⟨⟨control_notMem_sep hd first, ih v List.mem_cons_self⟩,
          ihx (fun w hw => ih w (List.mem_cons_of_mem _ hw)) false⟩
    rw [print, List.mem_cons, not_or]
    exact ⟨hne '[' (by decide), hl true⟩
  | obj es ih =>
    have hl : ∀ first, d ∉ printEntries first es := by
      induction es with
      | nil =>
        intro first
        rw [printEntries, List.mem_singleton]
        exact hne '\x7d' (by decide)
      | cons e es ihx =>
        intro first
        obtain ⟨k, v⟩ := e
        simp only [printEntries, List.mem_append, List.mem_cons, not_or]
        exact ⟨⟨⟨control_notMem_sep hd first, control_notMem_printString hd k⟩, hne ':' (by decide),
          ih (k, v) List.mem_cons_self⟩, ihx (fun w hw => ih w (List.mem_cons_of_mem _ hw)) false⟩
    rw [print, List.mem_cons, not_or]
    exact ⟨hne '\x7b' (by decide), hl true⟩

theorem newline_notMem_print (v : Json) : '\n' ∉ v.print := control_notMem_print (by decide) v

end Control

end Json

end MinMcp.Core
