import MinMcp.Core.Json.Value
import Mathlib.Data.List.Perm.Subperm
import Mathlib.Data.Rat.Defs

/-!
# Comparing JSON values

Two notions of equality. `eqv` is the library's `==`: numbers by the text of their
literal, objects as unordered maps. `sameValue` is the equality of JSON Schema:
numbers by their mathematical value (`Num.value`, an exact rational), objects as
unordered maps. `Num.asF64` is the value as a 64-bit float: the literal rounded to
nearest even, `none` when that is infinite.

* `eqv_of_perm`: the order of an object's entries does not matter.
* `eqv_obj_iff`: two objects are equal iff they hold equal values under each key.
-/
namespace MinMcp.Core

/-- Digits, fraction digits and exponent of a literal without its sign. -/
structure Decimal where
  int : List Char
  frac : List Char
  exp : Int

namespace Decimal

def exponent (cs : List Char) : Int :=
  match cs with
  | 'e' :: '-' :: ds | 'E' :: '-' :: ds => -(Nat.ofDigitChars 10 ds 0 : Int)
  | 'e' :: '+' :: ds | 'E' :: '+' :: ds | 'e' :: ds | 'E' :: ds => Nat.ofDigitChars 10 ds 0
  | _ => 0

def ofLiteral (cs : List Char) : Decimal :=
  let int := cs.takeWhile Char.isDigit
  match cs.dropWhile Char.isDigit with
  | '.' :: rest => ⟨int, rest.takeWhile Char.isDigit, exponent (rest.dropWhile Char.isDigit)⟩
  | rest => ⟨int, [], exponent rest⟩

def value (d : Decimal) : Rat :=
  let m : Nat := Nat.ofDigitChars 10 (d.int ++ d.frac) 0
  match d.exp - d.frac.length with
  | .ofNat e => mkRat (m * 10 ^ e : Nat) 1
  | .negSucc e => mkRat m (10 ^ (e + 1))

end Decimal

namespace Num

/-- The number a literal denotes. -/
def value (n : Num) : Rat :=
  match n.text.toList with
  | '-' :: cs => -(Decimal.ofLiteral cs).value
  | cs => (Decimal.ofLiteral cs).value

/-- `2 ^ k`. -/
def twoPow : Int → Rat
  | .ofNat k => mkRat (2 ^ k : Nat) 1
  | .negSucc k => mkRat 1 (2 ^ (k + 1))

/-- The exponent `k` with `2 ^ k ≤ a < 2 ^ (k + 1)`, for `0 < a`. -/
def binExp (a : Rat) : Int :=
  let k : Int := (Nat.log2 a.num.natAbs : Int) - Nat.log2 a.den
  if twoPow k ≤ a then k else k - 1

def roundHalfEven (a : Rat) : Int :=
  let f := a.floor
  let r := a - f
  if r < mkRat 1 2 then f else if mkRat 1 2 < r then f + 1 else if f % 2 = 0 then f else f + 1

/-- Round to the nearest 64-bit float, ties to even; `none` when it overflows. -/
def roundF64 (q : Rat) : Option Rat :=
  let a := if q < 0 then -q else q
  if a = 0 then some 0
  else
    let unit := twoPow (max (binExp a - 52) (-1074))
    let r := roundHalfEven (a / unit) * unit
    if twoPow 1024 ≤ r then none else some (if q < 0 then -r else r)

def asF64 (n : Num) : Option Rat := roundF64 n.value

end Num

namespace Json

/-- `value.as_f64()`. -/
def asF64 : Json → Option Rat
  | .num n => n.asF64
  | _ => none

mutual
/-- `==`. -/
def eqv : Json → Json → Bool
  | .null, .null => true
  | .bool a, .bool b => a = b
  | .num a, .num b => a.text = b.text
  | .str a, .str b => a = b
  | .arr a, .arr b => eqvList a b
  | .obj a, .obj b => a.length = b.length && eqvEntries a b
  | _, _ => false
termination_by structural a => a
def eqvList : List Json → List Json → Bool
  | [], [] => true
  | v :: a, w :: b => eqv v w && eqvList a b
  | _, _ => false
termination_by structural a => a
def eqvEntries : List (String × Json) → List (String × Json) → Bool
  | [], _ => true
  | (k, v) :: a, b =>
    (match b.lookup k with
      | some w => eqv v w
      | none => false) && eqvEntries a b
termination_by structural a => a
end

mutual
/-- Equality of JSON Schema: numbers by value. -/
def sameValue : Json → Json → Bool
  | .null, .null => true
  | .bool a, .bool b => a = b
  | .num a, .num b => a.value = b.value
  | .str a, .str b => a = b
  | .arr a, .arr b => sameList a b
  | .obj a, .obj b => a.length = b.length && sameEntries a b
  | _, _ => false
termination_by structural a => a
def sameList : List Json → List Json → Bool
  | [], [] => true
  | v :: a, w :: b => sameValue v w && sameList a b
  | _, _ => false
termination_by structural a => a
def sameEntries : List (String × Json) → List (String × Json) → Bool
  | [], _ => true
  | (k, v) :: a, b =>
    (match b.lookup k with
      | some w => sameValue v w
      | none => false) && sameEntries a b
termination_by structural a => a
end

theorem eqvEntries_eq_true {es fs : List (String × Json)} :
    eqvEntries es fs = true ↔ ∀ e ∈ es, ∃ w, fs.lookup e.1 = some w ∧ e.2.eqv w = true := by
  induction es with
  | nil => simp [eqvEntries]
  | cons e es ih =>
    obtain ⟨k, v⟩ := e
    rw [eqvEntries, Bool.and_eq_true, ih, List.forall_mem_cons]
    cases fs.lookup k <;> simp

theorem eqv_refl {v : Json} (h : v.WF) : v.eqv v = true := by
  induction v using Json.ind with
  | null => rfl
  | bool b => simp [eqv]
  | num n => simp [eqv]
  | str s => simp [eqv]
  | arr xs ih =>
    rw [wf_arr] at h
    rw [eqv]
    induction xs with
    | nil => rfl
    | cons x xs ihx =>
      rw [eqvList, Bool.and_eq_true]
      exact ⟨ih x List.mem_cons_self (h x List.mem_cons_self),
        ihx (fun v hv => ih v (List.mem_cons_of_mem _ hv)) fun v hv => h v (List.mem_cons_of_mem _ hv)⟩
  | obj es ih =>
    rw [wf_obj] at h
    rw [eqv, Bool.and_eq_true, eqvEntries_eq_true]
    refine ⟨by simp, fun e he => ⟨e.2, OrderedMap.lookup_of_mem h.1 he, ih e he (h.2 e he)⟩⟩

/-- The order of an object's entries does not matter. -/
theorem eqv_of_perm {es fs : List (String × Json)} (h : (Json.obj fs).WF) (hp : es.Perm fs) :
    (Json.obj es).eqv (.obj fs) = true := by
  rw [wf_obj] at h
  rw [eqv, Bool.and_eq_true, eqvEntries_eq_true]
  refine ⟨by simp [hp.length_eq], fun e he => ?_⟩
  have hf : e ∈ fs := hp.subset he
  exact ⟨e.2, OrderedMap.lookup_of_mem h.1 hf, eqv_refl (h.2 e hf)⟩

theorem eqvList_eq_true {xs ys : List Json} :
    eqvList xs ys = true ↔ List.Forall₂ (fun v w => v.eqv w = true) xs ys := by
  induction xs generalizing ys with
  | nil =>
    cases ys with
    | nil => exact iff_of_true rfl .nil
    | cons y ys => exact iff_of_false (by simp [eqvList]) nofun
  | cons x xs ih =>
    cases ys with
    | nil => exact iff_of_false (by simp [eqvList]) nofun
    | cons y ys => rw [eqvList, Bool.and_eq_true, ih, List.forall₂_cons]

theorem eqv_obj_iff {es fs : List (String × Json)} (he : (OrderedMap.keys es).Nodup)
    (hf : (OrderedMap.keys fs).Nodup) :
    (Json.obj es).eqv (.obj fs) = true ↔
      ∀ k, Option.Rel (fun v w => v.eqv w = true) (es.lookup k) (fs.lookup k) := by
  rw [eqv, Bool.and_eq_true, eqvEntries_eq_true, decide_eq_true_iff]
  constructor
  · intro ⟨hlen, h⟩ k
    have hsub : OrderedMap.keys es ⊆ OrderedMap.keys fs := by
      intro k hk
      obtain ⟨v, hv⟩ := OrderedMap.lookup_isSome.mpr hk
      obtain ⟨w, hw, -⟩ := h _ (OrderedMap.mem_of_lookup hv)
      exact OrderedMap.mem_keys_of_lookup hw
    have hperm : (OrderedMap.keys es).Perm (OrderedMap.keys fs) :=
      (List.subperm_of_subset he hsub).perm_of_length_le (by simp [OrderedMap.keys, hlen])
    cases hv : es.lookup k with
    | some v =>
      obtain ⟨w, hw, hvw⟩ := h _ (OrderedMap.mem_of_lookup hv)
      have hw : fs.lookup k = some w := hw
      rw [hw]
      exact .some hvw
    | none =>
      have hk : k ∉ OrderedMap.keys fs := fun hk =>
        OrderedMap.lookup_eq_none.mp hv (hperm.mem_iff.mpr hk)
      rw [OrderedMap.lookup_eq_none.mpr hk]
      exact .none
  · intro h
    have hmem : ∀ k, k ∈ OrderedMap.keys es ↔ k ∈ OrderedMap.keys fs := by
      intro k
      have hk := h k
      rw [← not_iff_not, ← OrderedMap.lookup_eq_none, ← OrderedMap.lookup_eq_none]
      generalize es.lookup k = a, fs.lookup k = b at hk
      cases hk <;> simp
    have hperm := (List.perm_ext_iff_of_nodup he hf).mpr hmem
    refine ⟨by simpa [OrderedMap.keys] using hperm.length_eq, fun e hmem => ?_⟩
    have hl := OrderedMap.lookup_of_mem he hmem
    have hr := h e.1
    rw [hl] at hr
    generalize hfs : fs.lookup e.1 = o at hr
    cases hr with
    | some hvw => exact ⟨_, rfl, hvw⟩

/-- An object equals objects only. -/
theorem eqv_ne_obj {v w : Json} (h : v.eqv w = true) :
    (∃ es fs, v = .obj es ∧ w = .obj fs) ∨ ((∀ es, v ≠ .obj es) ∧ ∀ fs, w ≠ .obj fs) := by
  cases v <;> cases w <;> simp_all [eqv]

end Json

end MinMcp.Core
