import Mathlib.Data.List.Basic

/-!
# Lines of a text

The standard library's `lines`: pieces between line feeds, without the line
feed and, when the line was terminated, without one carriage return in front of
it. A last piece without a line feed is a line of its own, kept as it is.

* `lines_append`: a text that ends at a line break can be cut there.
* `lines_line`: a terminated line is one line.
* `body_append_tail`, `lines_glue`: an open last line is glued to what is
  appended.
* `records_eq`, `records_glue`: the same for the lines that are not blank.
-/
namespace MinMcp.Core.Text

/-- Unicode `White_Space`. -/
def isWhitespace (c : Char) : Bool :=
  ('\x09'.toNat ≤ c.toNat && c.toNat ≤ '\x0d'.toNat) || c.toNat = 0x20 || c.toNat = 0x85 ||
  c.toNat = 0xA0 || c.toNat = 0x1680 || (0x2000 ≤ c.toNat && c.toNat ≤ 0x200A) ||
  c.toNat = 0x2028 || c.toNat = 0x2029 || c.toNat = 0x202F || c.toNat = 0x205F || c.toNat = 0x3000

/-- `line.trim().is_empty()`. -/
def isBlankLine (l : List Char) : Bool := l.all isWhitespace

/-- A terminated line without its carriage return. -/
def chompCr (l : List Char) : List Char := if l.getLast? = some '\r' then l.dropLast else l

/-- The lines of a text whose first line already has the characters `cur`. -/
def linesFrom (cur : List Char) : List Char → List (List Char)
  | [] => if cur = [] then [] else [cur]
  | c :: cs => if c = '\n' then chompCr cur :: linesFrom [] cs else linesFrom (cur ++ [c]) cs

def lines (cs : List Char) : List (List Char) := linesFrom [] cs

/-- The lines with something on them. -/
def records (cs : List Char) : List (List Char) := (lines cs).filter fun l => !isBlankLine l

/-- Nothing, or complete lines only: what is appended starts a line of its own. -/
def EndsAtLine (cs : List Char) : Prop := cs = [] ∨ cs.getLast? = some '\n'

/-- What stands after the last line feed. -/
def tail : List Char → List Char
  | [] => []
  | c :: cs => if '\n' ∈ c :: cs then tail cs else c :: cs

/-- The complete lines. -/
def body : List Char → List Char
  | [] => []
  | c :: cs => if '\n' ∈ c :: cs then c :: body cs else []

theorem chompCr_of_last {l : List Char} (h : l.getLast? ≠ some '\r') : chompCr l = l := if_neg h

theorem linesFrom_break (cur xs ys : List Char) :
    linesFrom cur (xs ++ '\n' :: ys) = linesFrom cur (xs ++ ['\n']) ++ lines ys := by
  induction xs generalizing cur with
  | nil => simp [linesFrom, lines]
  | cons c xs ih =>
    simp only [List.cons_append, linesFrom]
    split
    · rw [ih, List.cons_append]
    · exact ih _

theorem linesFrom_line (cur l : List Char) (h : '\n' ∉ l) :
    linesFrom cur (l ++ ['\n']) = [chompCr (cur ++ l)] := by
  induction l generalizing cur with
  | nil => simp [linesFrom]
  | cons c l ih =>
    rw [List.mem_cons, not_or] at h
    rw [List.cons_append, linesFrom, if_neg (Ne.symm h.1), ih _ h.2, List.append_assoc]
    rfl

/-- A terminated line is one line. -/
theorem lines_line {l : List Char} (h : '\n' ∉ l) : lines (l ++ ['\n']) = [chompCr l] :=
  linesFrom_line [] l h

/-- A text that ends at a line break can be cut there. -/
theorem lines_append {xs : List Char} (h : EndsAtLine xs) (ys : List Char) :
    lines (xs ++ ys) = lines xs ++ lines ys := by
  rcases h with rfl | h
  · rfl
  · obtain ⟨zs, rfl⟩ := List.getLast?_eq_some_iff.mp h
    unfold lines
    rw [List.append_assoc, List.singleton_append, linesFrom_break]
    rfl

theorem linesFrom_open (cur l : List Char) (h : '\n' ∉ l) :
    linesFrom cur l = if cur ++ l = [] then [] else [cur ++ l] := by
  induction l generalizing cur with
  | nil => simp [linesFrom]
  | cons c l ih =>
    rw [List.mem_cons, not_or] at h
    rw [linesFrom, if_neg (Ne.symm h.1), ih _ h.2, List.append_assoc]
    rfl

theorem lines_open {l : List Char} (h : '\n' ∉ l) : lines l = if l = [] then [] else [l] :=
  linesFrom_open [] l h

/-! ## The open last line -/

theorem body_append_tail (cs : List Char) : body cs ++ tail cs = cs := by
  induction cs with
  | nil => rfl
  | cons c cs ih =>
    unfold body tail
    split
    · rw [List.cons_append, ih]
    · rfl

theorem newline_notMem_tail (cs : List Char) : '\n' ∉ tail cs := by
  induction cs with
  | nil => simp [tail]
  | cons c cs ih =>
    unfold tail
    split
    · exact ih
    · assumption

theorem endsAtLine_body (cs : List Char) : EndsAtLine (body cs) := by
  induction cs with
  | nil => exact Or.inl rfl
  | cons c cs ih =>
    unfold body
    split
    · next h =>
      right
      rcases ih with hb | hb
      · -- no line feed further on: `c` is the last one
        by_cases hc : '\n' ∈ cs
        · cases cs with
          | nil => cases hc
          | cons d cs => rw [body, if_pos hc] at hb; cases hb
        · rcases List.mem_cons.mp h with rfl | h
          · rw [hb]; rfl
          · exact absurd h hc
      · obtain ⟨zs, hz⟩ := List.getLast?_eq_some_iff.mp hb
        rw [hz, ← List.cons_append]
        exact List.getLast?_concat
    · exact Or.inl rfl

theorem endsAtLine_line (xs l : List Char) : EndsAtLine (xs ++ (l ++ ['\n'])) := by
  right
  rw [← List.append_assoc]
  exact List.getLast?_concat

theorem tail_eq_nil {cs : List Char} (h : EndsAtLine cs) : tail cs = [] := by
  have hb := body_append_tail cs
  have hn := newline_notMem_tail cs
  rcases h with rfl | h
  · rfl
  · cases ht : tail cs with
    | nil => rfl
    | cons c t =>
      rw [ht] at hb hn
      rw [← hb, List.getLast?_append, List.getLast?_eq_some_getLast (List.cons_ne_nil c t),
        Option.some_or, Option.some.injEq] at h
      exact absurd (h ▸ List.getLast_mem _) hn

/-- An open last line is a line of the text. -/
theorem lines_eq (cs : List Char) :
    lines cs = lines (body cs) ++ if tail cs = [] then [] else [tail cs] := by
  conv_lhs => rw [← body_append_tail cs]
  rw [lines_append (endsAtLine_body cs), lines_open (newline_notMem_tail cs)]

/-- A line appended to a text is glued to its open last line. -/
theorem lines_glue (cs : List Char) {l : List Char} (h : '\n' ∉ l) :
    lines (cs ++ (l ++ ['\n'])) = lines (body cs) ++ [chompCr (tail cs ++ l)] := by
  conv_lhs => rw [← body_append_tail cs]
  rw [List.append_assoc, lines_append (endsAtLine_body cs), ← List.append_assoc (tail cs), lines_line]
  rw [List.mem_append, not_or]
  exact ⟨newline_notMem_tail cs, h⟩

/-! ## Lines that are not blank -/

theorem isBlankLine_append (xs ys : List Char) :
    isBlankLine (xs ++ ys) = (isBlankLine xs && isBlankLine ys) := List.all_append

theorem records_eq (cs : List Char) :
    records cs = records (body cs) ++ if isBlankLine (tail cs) then [] else [tail cs] := by
  rw [records, lines_eq, List.filter_append]
  congr 1
  by_cases ht : tail cs = []
  · rw [ht]; rfl
  · rw [if_neg ht]
    cases hb : isBlankLine (tail cs) <;> simp [hb]

theorem records_glue (cs : List Char) {l : List Char} (h : '\n' ∉ l)
    (hb : isBlankLine (chompCr (tail cs ++ l)) = false) :
    records (cs ++ (l ++ ['\n'])) = records (body cs) ++ [chompCr (tail cs ++ l)] := by
  rw [records, lines_glue cs h, List.filter_append, List.filter_cons_of_pos (by simp [hb])]; rfl

end MinMcp.Core.Text
