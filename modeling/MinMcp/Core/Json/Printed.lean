import MinMcp.Core.Json.Places
import MinMcp.Core.Json.Print
import Mathlib.Data.List.Infix

/-!
# Where a value stands in a printed text

`printPretty` is the indented serialisation: two blanks a level, and nothing between the brackets
of what is empty. `printedBefore` is what the compact serialisation writes in front of a value.

* `print_begins`: a printed value begins with what stands before one in it, and that one.
* `length_print_le_pretty`: indenting makes no text shorter.
* `length_entries_le`, `length_entriesBefore_le`: an entry takes four characters or more.
-/
namespace MinMcp.Core

namespace Json

/-! ## Indented -/

def newline (level : Nat) : List Char := '\n' :: List.replicate (2 * level) ' '

mutual
/-- `to_string_pretty`, at a level of indentation. -/
def printPretty (level : Nat) : Json → List Char
  | .null => print .null
  | .bool b => print (.bool b)
  | .num n => print (.num n)
  | .str s => print (.str s)
  | .arr xs => '[' :: prettyElems level true xs
  | .obj es => '{' :: prettyEntries level true es
termination_by structural v => v
def prettyElems (level : Nat) (first : Bool) : List Json → List Char
  | [] => (if first then [] else newline level) ++ [']']
  | v :: xs => sep first ++ newline (level + 1) ++ printPretty (level + 1) v ++ prettyElems level false xs
termination_by structural xs => xs
def prettyEntries (level : Nat) (first : Bool) : List (String × Json) → List Char
  | [] => (if first then [] else newline level) ++ ['}']
  | (k, v) :: es => sep first ++ newline (level + 1) ++ printString k ++ ':' :: ' ' :: printPretty
    (level + 1) v ++
      prettyEntries level false es
termination_by structural es => es
end

theorem length_print_le_pretty (v : Json) (level : Nat) :
    (print v).length ≤ (printPretty level v).length := by
  induction v using Json.ind generalizing level with
  | arr xs ih =>
    rw [print, printPretty, List.length_cons, List.length_cons]
    refine Nat.succ_le_succ ?_
    generalize true = first
    induction xs generalizing first with
    | nil => simp [printElems, prettyElems]
    | cons x xs rest =>
      have hx := ih x (by simp) (level + 1)
      have hxs := rest (fun x hx => ih x (by simp [hx])) false
      simp only [printElems, prettyElems, List.length_append]
      omega
  | obj es ih =>
    rw [print, printPretty, List.length_cons, List.length_cons]
    refine Nat.succ_le_succ ?_
    generalize true = first
    induction es generalizing first with
    | nil => simp [printEntries, prettyEntries]
    | cons e es rest =>
      have he := ih e (by simp) (level + 1)
      have hes := rest (fun e he => ih e (by simp [he])) false
      simp only [printEntries, prettyEntries, List.length_append, List.length_cons]
      omega
  | _ => exact Nat.le_refl _

/-! ## In front of a value -/

/-- The entries in front of that of a key, and the key. -/
def entriesBefore (first : Bool) (k : String) : List (String × Json) → List Char
  | [] => []
  | (k', v) :: es =>
    if k = k' then sep first ++ printString k ++ [':']
    else sep first ++ printString k' ++ ':' :: print v ++ entriesBefore false k es

def elemsBefore (first : Bool) : Nat → List Json → List Char
  | _, [] => []
  | 0, _ :: _ => sep first
  | i + 1, v :: xs => sep first ++ print v ++ elemsBefore false i xs

def childBefore : Json → Place → List Char
  | .obj es, .key k => '{' :: entriesBefore true k es
  | .arr xs, .index i => '[' :: elemsBefore true i xs
  | _, _ => []

/-- What is printed in front of the value at a place, with its key. -/
def printedBefore (v : Json) : List Place → List Char
  | [] => []
  | p :: ps => childBefore v p ++ ((v.child p).map fun c => printedBefore c ps).getD []

variable {v c : Json} {p : Place} {ps : List Place}

theorem printedBefore_cons (hc : v.child p = some c) (ps : List Place) :
    printedBefore v (p :: ps) = childBefore v p ++ printedBefore c ps := by
  rw [printedBefore, hc]
  rfl

theorem entries_prefix {es : List (String × Json)} {k : String} (h : es.lookup k = some c) (first : Bool) :
    entriesBefore first k es ++ print c <+: printEntries first es := by
  induction es generalizing first with
  | nil => cases h
  | cons e es ih =>
    obtain ⟨k', v⟩ := e
    rw [entriesBefore, printEntries]
    split
    · next hk =>
      obtain rfl : v = c := by simpa [List.lookup_cons, hk] using h
      subst hk
      exact ⟨printEntries false es, by simp⟩
    · next hk =>
      have h : es.lookup k = some c := by rwa [OrderedMap.lookup_cons_of_ne hk] at h
      rw [List.append_assoc]
      exact (List.prefix_append_right_inj _).mpr (ih h false)

theorem elems_prefix {xs : List Json} {i : Nat} (h : xs[i]? = some c) (first : Bool) :
    elemsBefore first i xs ++ print c <+: printElems first xs := by
  induction xs generalizing i first with
  | nil => cases h
  | cons x xs ih =>
    cases i with
    | zero =>
      obtain rfl := Option.some.inj h
      exact ⟨printElems false xs, by rw [elemsBefore, printElems]⟩
    | succ i =>
      rw [elemsBefore, printElems, List.append_assoc]
      exact (List.prefix_append_right_inj _).mpr (ih h false)

theorem child_begins (hc : v.child p = some c) : childBefore v p ++ print c <+: print v := by
  cases v with
  | obj es =>
    cases p with
    | key k => exact List.cons_prefix_cons.mpr ⟨rfl, entries_prefix hc true⟩
    | index i => cases hc
  | arr xs =>
    cases p with
    | key k => cases hc
    | index i => exact List.cons_prefix_cons.mpr ⟨rfl, elems_prefix hc true⟩
  | _ => cases hc

theorem print_begins (h : v.locate ps = some c) : printedBefore v ps ++ print c <+: print v := by
  induction ps generalizing v with
  | nil =>
    obtain rfl := Option.some.inj h
    exact List.prefix_refl _
  | cons p ps ih =>
    obtain ⟨w, hw, h⟩ := locate_cons_eq_some.mp h
    rw [printedBefore_cons hw, List.append_assoc]
    exact ((List.prefix_append_right_inj _).mpr (ih h)).trans (child_begins hw)

theorem printedBefore_append (h : v.locate ps = some c) (qs : List Place) :
    printedBefore v (ps ++ qs) = printedBefore v ps ++ printedBefore c qs := by
  induction ps generalizing v with
  | nil =>
    obtain rfl := Option.some.inj h
    rfl
  | cons p ps ih =>
    obtain ⟨w, hw, h⟩ := locate_cons_eq_some.mp h
    rw [List.cons_append, printedBefore_cons hw, printedBefore_cons hw, ih h, List.append_assoc]

/-! ## How long it is -/

theorem length_le_of_locate (h : v.locate ps = some c) : (print c).length ≤ (print v).length :=
  Nat.le_trans (by simp) (print_begins h).length_le

theorem length_entries_le (es : List (String × Json)) (first : Bool) :
    4 * es.length ≤ (printEntries first es).length := by
  induction es generalizing first with
  | nil => exact Nat.zero_le _
  | cons e es ih =>
    have hv := List.length_pos_iff.mpr (print_ne_nil e.2)
    have hes := ih false
    simp only [printEntries, printString, List.length_append, List.length_cons, List.length_nil]
    omega

/-- The entries in front of the last one. -/
theorem length_entriesBefore_le {es : List (String × Json)} {k : String} (hk : k ∉ OrderedMap.keys es)
    (v : Json) (first : Bool) : 4 * es.length ≤ (entriesBefore first k (es ++ [(k, v)])).length := by
  induction es generalizing first with
  | nil => exact Nat.zero_le _
  | cons e es ih =>
    rw [OrderedMap.keys_cons, List.mem_cons, not_or] at hk
    have hv := List.length_pos_iff.mpr (print_ne_nil e.2)
    have hes := ih hk.2 false
    rw [List.cons_append, entriesBefore, if_neg hk.1]
    simp only [printString, List.length_append, List.length_cons, List.length_nil]
    omega

end Json

end MinMcp.Core
