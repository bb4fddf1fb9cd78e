import MinMcp.Core.OrderedMap
import Mathlib.Algebra.Group.Nat.Defs
import Mathlib.Data.Nat.Init

/-!
# JSON values

The value type of a JSON library with insertion-ordered objects and
arbitrary-precision numbers: a number is the text of its literal, carried
together with the proof that it is one (`Num.ok`), so an invalid number cannot
be built. The reader keeps a literal as it is written (`-0` too, which is no
unsigned integer then) but for its exponent, which it writes with a small `e`
and a sign (`normalExponent`).

* `NumState.step`: the automaton of the JSON number grammar.
* `Json`: the values; `Json.ind` is induction over elements and field values.
* `Json.depth`, `Json.WF`: nesting depth, and unique keys in every object.
-/
namespace MinMcp.Core

/-- State inside a number literal, named after what was read last. -/
inductive NumState where
  | start | minus | zero | int | dot | frac | e | eSign | exp
  deriving DecidableEq, Repr

namespace NumState

def isDigit19 (c : Char) : Bool := c.isDigit && c != '0'

def step : NumState → Char → Option NumState
  | .start, c =>
    if c = '-' then some .minus else if c = '0' then some .zero
    else if isDigit19 c then some .int else none
  | .minus, c => if c = '0' then some .zero else if isDigit19 c then some .int else none
  | .zero, c => if c = '.' then some .dot else if c = 'e' ∨ c = 'E' then some .e else none
  | .int, c =>
    if c.isDigit then some .int else if c = '.' then some .dot
    else if c = 'e' ∨ c = 'E' then some .e else none
  | .dot, c => if c.isDigit then some .frac else none
  | .frac, c => if c.isDigit then some .frac else if c = 'e' ∨ c = 'E' then some .e else none
  | .e, c => if c = '+' ∨ c = '-' then some .eSign else if c.isDigit then some .exp else none
  | .eSign, c => if c.isDigit then some .exp else none
  | .exp, c => if c.isDigit then some .exp else none

def accepting : NumState → Bool
  | .zero | .int | .frac | .exp => true
  | _ => false

def scan (s : NumState) : List Char → Option NumState
  | [] => some s
  | c :: cs => (s.step c).bind fun s' => s'.scan cs

theorem scan_append (s : NumState) (xs ys : List Char) :
    s.scan (xs ++ ys) = (s.scan xs).bind fun s' => s'.scan ys := by
  induction xs generalizing s with
  | nil => rfl
  | cons c cs ih =>
    simp only [List.cons_append, scan]
    cases s.step c with
    | none => rfl
    | some s' => exact ih s'

/-- What a number literal can start with. -/
theorem step_start {c : Char} {s : NumState} (h : start.step c = some s) :
    c = '-' ∨ c.isDigit := by
  simp only [step] at h
  split at h
  · exact Or.inl ‹_›
  · split at h
    · next hc => exact Or.inr (hc ▸ rfl)
    · split at h
      · next hd => exact Or.inr (by simp [isDigit19] at hd; exact hd.1)
      · cases h

theorem scan_digits (cs : List Char) (h : ∀ c ∈ cs, c.isDigit) : int.scan cs = some .int := by
  induction cs with
  | nil => rfl
  | cons c cs ih =>
    have hc : c.isDigit = true := h c List.mem_cons_self
    simp only [scan, step, hc, if_true, Option.bind_some]
    exact ih fun d hd => h d (List.mem_cons_of_mem _ hd)

end NumState

/-- `text` is a number literal of the grammar. -/
def isNumber (text : List Char) : Bool := (NumState.start.scan text).any NumState.accepting

namespace NumState

theorem isDigit19_digitChar {n : Nat} (h : 0 < n) (hn : n < 10) : isDigit19 n.digitChar = true := by
  have : ∀ m : Fin 10, 0 < m.val → isDigit19 m.val.digitChar = true := by decide
  exact this ⟨n, hn⟩ h

/-- Decimal digits have no leading zero. -/
theorem toDigits_head (n : Nat) (h : 0 < n) :
    ∃ c cs, Nat.toDigits 10 n = c :: cs ∧ isDigit19 c = true := by
  induction n using Nat.strongRecOn with
  | ind n ih =>
    by_cases hn : n < 10
    · exact ⟨_, _, Nat.toDigits_of_lt_base hn, isDigit19_digitChar h hn⟩
    · obtain ⟨c, cs, hc, hd⟩ := ih (n / 10) (by omega) (by omega)
      rw [Nat.toDigits_of_base_le (by decide) (by omega), hc]
      exact ⟨c, _, rfl, hd⟩

theorem isNumber_toDigits (n : Nat) : isNumber (Nat.toDigits 10 n) = true := by
  rcases Nat.eq_zero_or_pos n with rfl | h
  · rw [Nat.toDigits_zero]; decide
  · obtain ⟨c, cs, hc, hd⟩ := toDigits_head n h
    have hdig : ∀ d ∈ cs, d.isDigit := fun d hd => Nat.isDigit_of_mem_toDigits (b := 10) (n := n)
      (by decide) (by decide) (hc ▸ List.mem_cons_of_mem _ hd)
    have h1 : c ≠ '-' := by rintro rfl; exact absurd hd (by decide)
    have h2 : c ≠ '0' := by rintro rfl; exact absurd hd (by decide)
    simp [isNumber, hc, scan, step, h1, h2, hd, scan_digits cs hdig, accepting]

theorem isNumber_neg (n : Nat) : isNumber ('-' :: Nat.toDigits 10 (n + 1)) = true := by
  obtain ⟨c, cs, hc, hd⟩ := toDigits_head (n + 1) (by omega)
  have hdig : ∀ d ∈ cs, d.isDigit := fun d hd => Nat.isDigit_of_mem_toDigits (b := 10) (n := n + 1)
    (by decide) (by decide) (hc ▸ List.mem_cons_of_mem _ hd)
  have h2 : c ≠ '0' := by rintro rfl; exact absurd hd (by decide)
  simp [hc, isNumber, scan, step, h2, hd, scan_digits cs hdig, accepting]

end NumState

/-! ## The exponent as the reader writes it -/

/-- What follows the `e`: the sign is always written. -/
def signedExponent : List Char → List Char
  | [] => ['+']
  | c :: cs => if c = '+' ∨ c = '-' then c :: cs else '+' :: c :: cs

/-- The literal as the reader keeps it: `1E5` and `1e5` are `1e+5`. -/
def normalExponent : List Char → List Char
  | [] => []
  | c :: cs => if c = 'e' ∨ c = 'E' then 'e' :: signedExponent cs else c :: normalExponent cs

theorem signedExponent_idem (cs : List Char) : signedExponent (signedExponent cs) = signedExponent cs := by
  cases cs with
  | nil => rfl
  | cons c cs =>
    by_cases h : c = '+' ∨ c = '-'
    · simp only [signedExponent, if_pos h]
    · simp only [signedExponent, if_neg h, true_or, if_true]

theorem normalExponent_idem (cs : List Char) : normalExponent (normalExponent cs) = normalExponent cs := by
  induction cs with
  | nil => rfl
  | cons c cs ih =>
    by_cases h : c = 'e' ∨ c = 'E'
    · simp only [normalExponent, if_pos h, true_or, if_true, signedExponent_idem]
    · simp only [normalExponent, if_neg h, ih]

theorem normalExponent_eq_self {cs : List Char} (h : ∀ c ∈ cs, c ≠ 'e' ∧ c ≠ 'E') :
    normalExponent cs = cs := by
  induction cs with
  | nil => rfl
  | cons c cs ih =>
    have hc := h c List.mem_cons_self
    rw [normalExponent, if_neg (by simp [hc]), ih fun d hd => h d (List.mem_cons_of_mem _ hd)]

theorem normalExponent_digits {cs : List Char} (h : ∀ c ∈ cs, c.isDigit = true) : normalExponent cs = cs := by
  refine normalExponent_eq_self fun c hc => ⟨?_, ?_⟩ <;> rintro rfl <;> exact absurd (h _ hc) (by decide)

namespace NumState

/-- A sign that is not written is a `+`. -/
theorem scan_signedExponent (cs : List Char) (h : (e.scan cs).any accepting = true) :
    (e.scan (signedExponent cs)).any accepting = true := by
  cases cs with
  | nil => exact absurd h (by decide)
  | cons c cs =>
    by_cases hc : c = '+' ∨ c = '-'
    · rwa [signedExponent, if_pos hc]
    · simp only [signedExponent, if_neg hc]
      simpa [scan, step, hc] using h

/-- The two letters of an exponent lead to one state. -/
theorem step_exponent {c : Char} (hc : c = 'e' ∨ c = 'E') {s t : NumState} (h : s.step c = some t) :
    s.step 'e' = some e ∧ t = e := by
  have hd : c.isDigit = false ∧ c ≠ '-' ∧ c ≠ '+' ∧ c ≠ '.' ∧ c ≠ '0' := by rcases hc with rfl | rfl <;> decide
  cases s <;> simp_all [step, isDigit19]

theorem scan_normalExponent (s : NumState) (cs : List Char) (h : (s.scan cs).any accepting = true) :
    (s.scan (normalExponent cs)).any accepting = true := by
  induction cs generalizing s with
  | nil => exact h
  | cons c cs ih =>
    rw [scan] at h
    cases hs : s.step c with
    | none => rw [hs] at h; exact absurd h (by simp)
    | some t =>
      rw [hs, Option.bind_some] at h
      by_cases hc : c = 'e' ∨ c = 'E'
      · obtain ⟨he, rfl⟩ := step_exponent hc hs
        rw [normalExponent, if_pos hc, scan, he]
        exact scan_signedExponent cs h
      · rw [normalExponent, if_neg hc, scan, hs]
        exact ih t h

end NumState

structure Num where
  text : String
  ok : isNumber text.toList = true ∧ normalExponent text.toList = text.toList
  deriving DecidableEq

namespace Num

/-- The number the reader makes of a literal: `-0` stays as it is. -/
def ofLiteral (text : List Char) : Option Num :=
  if h : isNumber text = true then
    some ⟨String.ofList (normalExponent text), by
      rw [String.toList_ofList]
      exact ⟨NumState.scan_normalExponent .start text h, normalExponent_idem text⟩⟩
  else none

theorem ofLiteral_text (n : Num) : ofLiteral n.text.toList = some n := by
  obtain ⟨t, h1, h2⟩ := n
  simp only [ofLiteral, h1, h2, dite_true, String.ofList_toList]

/-- The literal of a natural number. -/
def ofNat (n : Nat) : Num where
  text := Nat.repr n
  ok := by
    rw [Nat.toList_repr]
    exact ⟨NumState.isNumber_toDigits n,
      normalExponent_digits fun c hc => Nat.isDigit_of_mem_toDigits (by decide) (by decide) hc⟩

@[simp] theorem ofNat_text (n : Nat) : (ofNat n).text.toList = Nat.toDigits 10 n := Nat.toList_repr

/-- The literal of an integer. -/
def ofInt : Int → Num
  | .ofNat n => ofNat n
  | .negSucc n =>
    { text := String.ofList ('-' :: Nat.toDigits 10 (n + 1))
      ok := by
        rw [String.toList_ofList]
        refine ⟨NumState.isNumber_neg n, ?_⟩
        rw [normalExponent, if_neg (by decide), normalExponent_digits fun c hc =>
          Nat.isDigit_of_mem_toDigits (by decide) (by decide) hc] }

end Num

inductive Json where
  | null
  | bool (b : Bool)
  | num (n : Num)
  | str (s : String)
  | arr (xs : List Json)
  | obj (es : List (String × Json))

namespace Json

/-- Induction over values: the elements of an array and the values of an
object's entries have the property already. -/
theorem ind {P : Json → Prop} (null : P .null) (bool : ∀ b, P (.bool b)) (num : ∀ n, P (.num n))
    (str : ∀ s, P (.str s)) (arr : ∀ xs, (∀ v ∈ xs, P v) → P (.arr xs))
    (obj : ∀ es, (∀ e ∈ es, P e.2) → P (.obj es)) (v : Json) : P v := by
  refine Json.rec (motive_1 := P) (motive_2 := fun xs => ∀ v ∈ xs, P v)
    (motive_3 := fun es => ∀ e ∈ es, P e.2) (motive_4 := fun e => P e.2)
    null bool num str arr obj ?_ ?_ ?_ ?_ (fun _ _ h => h) v
  · intro v h; cases h
  · intro v xs hv hxs w hw
    rcases List.mem_cons.mp hw with rfl | hw
    · exact hv
    · exact hxs w hw
  · intro e h; cases h
  · intro e es he hes d hd
    rcases List.mem_cons.mp hd with rfl | hd
    · exact he
    · exact hes d hd

mutual
def decEq : (a b : Json) → Decidable (a = b)
  | .null, .null => isTrue rfl
  | .bool a, .bool b => decidable_of_iff (a = b) (by simp)
  | .num a, .num b => decidable_of_iff (a = b) (by simp)
  | .str a, .str b => decidable_of_iff (a = b) (by simp)
  | .arr a, .arr b => match decEqList a b with
    | isTrue h => isTrue (by rw [h])
    | isFalse h => isFalse (by simpa using h)
  | .obj a, .obj b => match decEqEntries a b with
    | isTrue h => isTrue (by rw [h])
    | isFalse h => isFalse (by simpa using h)
  | .null, .bool _ | .null, .num _ | .null, .str _ | .null, .arr _ | .null, .obj _
  | .bool _, .null | .bool _, .num _ | .bool _, .str _ | .bool _, .arr _ | .bool _, .obj _
  | .num _, .null | .num _, .bool _ | .num _, .str _ | .num _, .arr _ | .num _, .obj _
  | .str _, .null | .str _, .bool _ | .str _, .num _ | .str _, .arr _ | .str _, .obj _
  | .arr _, .null | .arr _, .bool _ | .arr _, .num _ | .arr _, .str _ | .arr _, .obj _
  | .obj _, .null | .obj _, .bool _ | .obj _, .num _ | .obj _, .str _ | .obj _, .arr _ =>
    isFalse (by simp)
termination_by structural a => a
def decEqList : (a b : List Json) → Decidable (a = b)
  | [], [] => isTrue rfl
  | [], _ :: _ | _ :: _, [] => isFalse (by simp)
  | x :: a, y :: b => match decEq x y, decEqList a b with
    | isTrue h, isTrue h' => isTrue (by rw [h, h'])
    | isFalse h, _ => isFalse (by simp [h])
    | _, isFalse h => isFalse (by simp [h])
termination_by structural a => a
def decEqEntries : (a b : List (String × Json)) → Decidable (a = b)
  | [], [] => isTrue rfl
  | [], _ :: _ | _ :: _, [] => isFalse (by simp)
  | (k, x) :: a, (l, y) :: b => match decEq x y, decEqEntries a b with
    | isTrue h, isTrue h' => if hk : k = l then isTrue (by rw [h, h', hk]) else isFalse (by simp [hk])
    | isFalse h, _ => isFalse (by simp [h])
    | _, isFalse h => isFalse (by simp [h])
termination_by structural a => a
end

instance : DecidableEq Json := decEq

instance : Inhabited Json := ⟨.null⟩

mutual
/-- Containers nested around the innermost scalar. -/
def depth : Json → Nat
  | .arr xs => depthList xs + 1
  | .obj es => depthEntries es + 1
  | .null | .bool _ | .num _ | .str _ => 0
termination_by structural v => v
def depthList : List Json → Nat
  | [] => 0
  | v :: xs => max (depth v) (depthList xs)
termination_by structural xs => xs
def depthEntries : List (String × Json) → Nat
  | [] => 0
  | (_, v) :: es => max (depth v) (depthEntries es)
termination_by structural es => es
end

mutual
/-- Every object has unique keys, as the map type guarantees. -/
def WF : Json → Prop
  | .arr xs => WFList xs
  | .obj es => (OrderedMap.keys es).Nodup ∧ WFEntries es
  | .null | .bool _ | .num _ | .str _ => True
termination_by structural v => v
def WFList : List Json → Prop
  | [] => True
  | v :: xs => WF v ∧ WFList xs
termination_by structural xs => xs
def WFEntries : List (String × Json) → Prop
  | [] => True
  | (_, v) :: es => WF v ∧ WFEntries es
termination_by structural es => es
end

theorem wfList_iff {xs : List Json} : WFList xs ↔ ∀ v ∈ xs, v.WF := by
  induction xs with
  | nil => simp [WFList]
  | cons v xs ih => simp [WFList, ih]

theorem wfEntries_iff {es : List (String × Json)} : WFEntries es ↔ ∀ e ∈ es, e.2.WF := by
  induction es with
  | nil => simp [WFEntries]
  | cons e es ih => obtain ⟨k, v⟩ := e; simp [WFEntries, ih]

theorem wf_obj {es : List (String × Json)} :
    (Json.obj es).WF ↔ (OrderedMap.keys es).Nodup ∧ ∀ e ∈ es, e.2.WF := by
  rw [WF, wfEntries_iff]

theorem wf_arr {xs : List Json} : (Json.arr xs).WF ↔ ∀ v ∈ xs, v.WF := by rw [WF, wfList_iff]

theorem wf_field {es : List (String × Json)} {k : String} {v : Json} (h : (Json.obj es).WF)
    (hk : es.lookup k = some v) : v.WF := (wf_obj.mp h).2 _ (OrderedMap.mem_of_lookup hk)

theorem depthList_le {xs : List Json} {n : Nat} : depthList xs ≤ n ↔ ∀ v ∈ xs, v.depth ≤ n := by
  induction xs with
  | nil => simp [depthList]
  | cons v xs ih => rw [depthList, Nat.max_le, ih, List.forall_mem_cons]

theorem depthEntries_le {es : List (String × Json)} {n : Nat} :
    depthEntries es ≤ n ↔ ∀ e ∈ es, e.2.depth ≤ n := by
  induction es with
  | nil => simp [depthEntries]
  | cons e es ih => obtain ⟨k, v⟩ := e; rw [depthEntries, Nat.max_le, ih, List.forall_mem_cons]

/-! ## Accessors -/

def asObject : Json → Option (List (String × Json))
  | .obj es => some es
  | _ => none

theorem eq_obj_of_asObject {v : Json} {es : List (String × Json)} (h : v.asObject = some es) :
    v = .obj es := by
  cases v with
  | obj _ => exact congrArg Json.obj (Option.some.inj h)
  | null | bool _ | num _ | str _ | arr _ => cases h

def asArray : Json → Option (List Json)
  | .arr xs => some xs
  | _ => none

def asStr : Json → Option String
  | .str s => some s
  | _ => none

def asBool : Json → Option Bool
  | .bool b => some b
  | _ => none

def isNull : Json → Bool
  | .null => true
  | _ => false

/-- Digits only and below `2^64`, as an unsigned 64-bit parse of the literal. -/
def asU64 : Json → Option UInt64
  | .num n =>
    if n.text.toList.all Char.isDigit ∧ Nat.ofDigitChars 10 n.text.toList 0 < 2 ^ 64 then
      some (UInt64.ofNat (Nat.ofDigitChars 10 n.text.toList 0))
    else none
  | _ => none

theorem asU64_ofNat (n : UInt64) : asU64 (.num (Num.ofNat n.toNat)) = some n := by
  have hd : (Nat.toDigits 10 n.toNat).all Char.isDigit = true :=
    List.all_eq_true.mpr fun c hc => Nat.isDigit_of_mem_toDigits (by decide) (by decide) hc
  simp only [asU64, Num.ofNat_text, hd, Nat.ofDigitChars_ten_toDigits, n.toNat_lt, and_self, if_true,
    UInt64.ofNat_toNat]

/-- `value.get(key)`: the field of an object, `none` on any other value. -/
def get (v : Json) (k : String) : Option Json := v.asObject.bind fun es => es.lookup k

@[simp] theorem get_obj (es : List (String × Json)) (k : String) :
    (Json.obj es).get k = es.lookup k := rfl

end Json

end MinMcp.Core
