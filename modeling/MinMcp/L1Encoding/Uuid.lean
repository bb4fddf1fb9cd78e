import Mathlib.Data.List.OfFn
import Mathlib.Logic.Function.Basic
import MinMcp.Core.Json.Injective

/-!
# Request ids

The `{{uuid}}` of an overlay's header (src/surface/generators.rs): sixteen bytes of the system's
generator with the version and the variant written over six of their bits, in hexadecimal. When the
generator fails, the bytes are a time and a counter mixed.

* `IsV4`, `isV4_uuid`: what the text looks like.
* `uuid_eq_iff`: two texts are one when the bytes are, but for those six bits.
* `uuid_mixed_iff`: nothing of the mix is lost under them, since it is there twice.
* `uuids_tell_apart`: so ids are of the form, and one millisecond has 2^64 of them.
-/
namespace MinMcp.L1.Uuid

open MinMcp.Core

/-- `[u8; 16]` -/
abbrev Bytes := Fin 16 → UInt8

/-- The version and the variant.
mirrors src/surface/generators.rs:55-56 -/
def stamp (b : Bytes) : Bytes :=
  Function.update (Function.update b 6 ((b 6 &&& 0x0f) ||| 0x40)) 8 ((b 8 &&& 0x3f) ||| 0x80)

def hexByte (x : UInt8) : List Char := [Json.hexDigit (x.toNat / 16), Json.hexDigit (x.toNat % 16)]

/-- mirrors src/surface/generators.rs:57 -/
def hex (b : Bytes) : List Char := (List.ofFn b).flatMap hexByte

/-- mirrors src/surface/generators.rs:58 -/
def dashed (h : List Char) : List Char :=
  h.take 8 ++ '-' :: ((h.drop 8).take 4 ++ '-' :: ((h.drop 12).take 4 ++ '-' :: ((h.drop 16).take 4 ++
    '-' :: (h.drop 20).take 12)))

def uuid (b : Bytes) : List Char := dashed (hex (stamp b))

/-- `x.to_le_bytes()[i]` -/
def leByte (x : UInt64) (i : Nat) : UInt8 := ⟨x.toBitVec.extractLsb' (8 * i) 8⟩

/-- `x.rotate_left(32)` -/
def rotate (x : UInt64) : UInt64 := x <<< 32 ||| x >>> 32

/-- `epoch_millis()` and the counter, mixed.
mirrors src/surface/generators.rs:50-51 -/
def mix (millis count : UInt64) : UInt64 := millis ^^^ (count * 0x9E3779B97F4A7C15)

/-- mirrors src/surface/generators.rs:52-53 -/
def mixed (m : UInt64) : Bytes := fun i => if i.val < 8 then leByte m i.val else leByte (rotate m) (i.val - 8)

/-- `random` are the bytes of the system's generator, unless it fails.
mirrors src/surface/generators.rs:45-59 -/
def genUuid (random : Option Bytes) (millis count : UInt64) : List Char :=
  uuid (random.getD (mixed (mix millis count)))

/-! ## The text -/

/-- Thirty-two digits in groups of 8, 4, 4, 4 and 12; the third begins with the version, and the
fourth with the variant. -/
def IsV4 (text : List Char) : Prop :=
  ∃ ds : List Nat, ds.length = 32 ∧ (∀ d ∈ ds, d < 16) ∧ text = dashed (ds.map Json.hexDigit) ∧
    ds[12]? = some 4 ∧ ∃ v, ds[16]? = some v ∧ 8 ≤ v ∧ v < 12

def digits (b : Bytes) : List Nat := (List.ofFn b).flatMap fun x => [x.toNat / 16, x.toNat % 16]

theorem hex_eq (b : Bytes) : hex b = (digits b).map Json.hexDigit := by
  rw [hex, digits, List.map_flatMap]
  rfl

theorem digits_lt (b : Bytes) : ∀ d ∈ digits b, d < 16 := by
  intro d hd
  obtain ⟨x, -, hx⟩ := List.mem_flatMap.mp hd
  have := x.toNat_lt
  rcases List.mem_pair.mp hx with rfl | rfl <;> omega

theorem length_digits (b : Bytes) : (digits b).length = 32 := by
  simp [digits]

/-- The version nibble and the variant bits. -/
theorem stamp_bits : ∀ x : UInt8, ((x &&& 0x0f) ||| 0x40).toNat / 16 = 4 ∧
    8 ≤ ((x &&& 0x3f) ||| 0x80).toNat / 16 ∧ ((x &&& 0x3f) ||| 0x80).toNat / 16 < 12 := by
  intro x
  obtain ⟨⟨n, hn⟩⟩ := x
  revert n
  decide +kernel

theorem isV4_uuid (b : Bytes) : IsV4 (uuid b) := by
  refine ⟨digits (stamp b), length_digits _, digits_lt _, by rw [uuid, hex_eq], ?_, ?_⟩
  · have h12 : (digits (stamp b))[12]? = some ((stamp b 6).toNat / 16) := rfl
    have h6 : stamp b 6 = (b 6 &&& 0x0f) ||| 0x40 := by simp [stamp]
    rw [h12, h6, (stamp_bits _).1]
  · have h16 : (digits (stamp b))[16]? = some ((stamp b 8).toNat / 16) := rfl
    have h8 : stamp b 8 = (b 8 &&& 0x3f) ||| 0x80 := by simp [stamp]
    exact ⟨_, h16, by rw [h8]; exact (stamp_bits _).2.1, by rw [h8]; exact (stamp_bits _).2.2⟩

/-! ## What it tells -/

theorem dash_notMem (b : Bytes) : '-' ∉ hex b := by
  rw [hex_eq]
  intro h
  obtain ⟨d, hd, he⟩ := List.mem_map.mp h
  have hall : ∀ d : Fin 16, Json.hexDigit d.val ≠ '-' := by decide
  exact hall ⟨d, digits_lt b d hd⟩ he

theorem take_drop_append (h : List Char) (m n k : Nat) :
    (h.drop m).take n ++ (h.drop (m + n)).take k = (h.drop m).take (n + k) := by
  rw [List.take_add, List.drop_drop]

/-- The digits stand between the dashes. -/
theorem undash {h : List Char} (hl : h.length = 32) (hd : '-' ∉ h) : (dashed h).filter (· ≠ '-') = h := by
  have hkeep : ∀ m n, ((h.drop m).take n).filter (· ≠ '-') = (h.drop m).take n := by
    intro m n
    refine List.filter_eq_self.mpr fun c hc => ?_
    have : c ∈ h := List.mem_of_mem_drop (List.mem_of_mem_take hc)
    exact decide_eq_true fun he => hd (he ▸ this)
  have h0 := hkeep 0 8
  rw [List.drop_zero] at h0
  have hdash : decide ('-' ≠ '-') = false := rfl
  simp only [dashed, List.filter_append, List.filter_cons, hdash, Bool.false_eq_true, if_false, h0, hkeep]
  have hall := take_drop_append h 0 8 24
  rw [List.drop_zero, List.take_of_length_le (Nat.le_of_eq hl)] at hall
  rw [take_drop_append h 16 4 12, take_drop_append h 12 4 16, take_drop_append h 8 4 20]
  exact hall

theorem bytes_inj {xs ys : List UInt8}
    (h : (xs.flatMap fun x => [x.toNat / 16, x.toNat % 16]) = ys.flatMap fun x => [x.toNat / 16, x.toNat % 16]) :
    xs = ys := by
  induction xs generalizing ys with
  | nil =>
    cases ys with
    | nil => rfl
    | cons y ys => cases h
  | cons x xs ih =>
    cases ys with
    | nil => cases h
    | cons y ys =>
      simp only [List.flatMap_cons, List.cons_append, List.nil_append, List.cons.injEq] at h
      obtain ⟨hhigh, hlow, hrest⟩ := h
      have hxy : x = y := UInt8.toNat_inj.mp (by omega)
      rw [hxy, ih hrest]

theorem uuid_inj {b b' : Bytes} (h : uuid b = uuid b') : stamp b = stamp b' := by
  have hlen : ∀ b, (hex b).length = 32 := fun b => by rw [hex_eq, List.length_map, length_digits]
  have hhex : hex (stamp b) = hex (stamp b') := by
    have := congrArg (List.filter (· ≠ '-')) h
    rwa [uuid, uuid, undash (hlen _) (dash_notMem _), undash (hlen _) (dash_notMem _)] at this
  rw [hex_eq, hex_eq] at hhex
  have hdig : digits (stamp b) = digits (stamp b') := by
    refine List.ext_getElem (by rw [length_digits, length_digits]) fun i h1 h2 => ?_
    have hi : ((digits (stamp b)).map Json.hexDigit)[i]? = ((digits (stamp b')).map Json.hexDigit)[i]? := by rw [hhex]
    rw [List.getElem?_map, List.getElem?_map, List.getElem?_eq_getElem h1, List.getElem?_eq_getElem h2] at hi
    exact Json.hexDigit_inj (digits_lt _ _ (List.getElem_mem h1)) (digits_lt _ _ (List.getElem_mem h2))
      (Option.some.inj hi)
  exact List.ofFn_injective (bytes_inj hdig)

/-- The bytes are one, but for the bits that are written over. -/
structure SameFree (b b' : Bytes) : Prop where
  version : b 6 &&& 0x0f = b' 6 &&& 0x0f
  variant : b 8 &&& 0x3f = b' 8 &&& 0x3f
  others : ∀ i, i ≠ 6 → i ≠ 8 → b i = b' i

theorem stamp_of_ne (b : Bytes) {i : Fin 16} (h6 : i ≠ 6) (h8 : i ≠ 8) : stamp b i = b i := by
  simp [stamp, h6, h8]

theorem stamp_inj : ∀ x y : UInt8, ((x &&& 0x0f) ||| 0x40 = (y &&& 0x0f) ||| 0x40 → x &&& 0x0f = y &&& 0x0f) ∧
    ((x &&& 0x3f) ||| 0x80 = (y &&& 0x3f) ||| 0x80 → x &&& 0x3f = y &&& 0x3f) := by
  have hundo : ∀ x : UInt8, ((x &&& 0x0f) ||| 0x40) &&& 0x0f = x &&& 0x0f ∧
      ((x &&& 0x3f) ||| 0x80) &&& 0x3f = x &&& 0x3f := by
    intro x
    obtain ⟨⟨n, hn⟩⟩ := x
    revert n
    decide +kernel
  intro x y
  constructor
  · intro h
    rw [← (hundo x).1, h, (hundo y).1]
  · intro h
    rw [← (hundo x).2, h, (hundo y).2]

theorem uuid_eq_iff {b b' : Bytes} : uuid b = uuid b' ↔ SameFree b b' := by
  have h6 : ∀ b : Bytes, stamp b 6 = (b 6 &&& 0x0f) ||| 0x40 := fun b => by simp [stamp]
  have h8 : ∀ b : Bytes, stamp b 8 = (b 8 &&& 0x3f) ||| 0x80 := fun b => by simp [stamp]
  constructor
  · intro h
    have hs := uuid_inj h
    have hv := congrFun hs 6
    have hw := congrFun hs 8
    rw [h6, h6] at hv
    rw [h8, h8] at hw
    refine ⟨(stamp_inj _ _).1 hv, (stamp_inj _ _).2 hw, fun i hi6 hi8 => ?_⟩
    rw [← stamp_of_ne b hi6 hi8, hs, stamp_of_ne b' hi6 hi8]
  · intro h
    rw [uuid, uuid]
    congr 2
    funext i
    by_cases hi6 : i = 6
    · rw [hi6, h6, h6, h.version]
    · by_cases hi8 : i = 8
      · rw [hi8, h8, h8, h.variant]
      · rw [stamp_of_ne b hi6 hi8, stamp_of_ne b' hi6 hi8, h.others i hi6 hi8]

/-! ## The mix -/

theorem leByte_bit (x : UInt64) (i k : Nat) (hk : k < 8) :
    (leByte x i).toBitVec.getLsbD k = x.toBitVec.getLsbD (8 * i + k) := by
  simp [leByte, hk]

/-- The bytes of a rotated word are those of the word, from the middle on. -/
theorem leByte_rotate (x : UInt64) {i : Nat} (hi : i < 8) : leByte (rotate x) i = leByte x ((i + 4) % 8) := by
  refine UInt8.toBitVec_inj.mp (BitVec.eq_of_getLsbD_eq fun k hk => ?_)
  have hshift : (rotate x).toBitVec = x.toBitVec <<< 32 ||| x.toBitVec >>> 32 := rfl
  rw [leByte_bit _ _ _ hk, leByte_bit _ _ _ hk, hshift, BitVec.getLsbD_or, BitVec.getLsbD_shiftLeft,
    BitVec.getLsbD_ushiftRight]
  by_cases hlow : i < 4
  · have h1 : decide (8 * i + k < 32) = true := decide_eq_true (by omega)
    have h2 : 32 + (8 * i + k) = 8 * ((i + 4) % 8) + k := by omega
    rw [h1, h2]
    simp
  · have h1 : decide (8 * i + k < 32) = false := decide_eq_false (by omega)
    have h2 : decide (8 * i + k < 64) = true := decide_eq_true (by omega)
    have h3 : 8 * i + k - 32 = 8 * ((i + 4) % 8) + k := by omega
    have h4 : x.toBitVec.getLsbD (32 + (8 * i + k)) = false := BitVec.getLsbD_of_ge _ _ (by omega)
    rw [h1, h2, h3, h4]
    simp

theorem eq_of_leBytes {x y : UInt64} (h : ∀ i < 8, leByte x i = leByte y i) : x = y := by
  refine UInt64.toBitVec_inj.mp (BitVec.eq_of_getLsbD_eq fun k hk => ?_)
  have hb := congrArg (fun b : UInt8 => b.toBitVec.getLsbD (k % 8)) (h (k / 8) (by omega))
  simp only [leByte_bit _ _ _ (Nat.mod_lt k (by omega : 0 < 8))] at hb
  rwa [Nat.div_add_mod] at hb

/-- The mix is told by its ids: the byte that loses bits to the version, and the one that loses bits
to the variant, are there twice. -/
theorem uuid_mixed_iff {m m' : UInt64} : uuid (mixed m) = uuid (mixed m') ↔ m = m' := by
  constructor
  · intro h
    have hs := uuid_eq_iff.mp h
    have hlow : ∀ i : Fin 16, i.val < 8 → ∀ m, mixed m i = leByte m i.val := fun i hi m => if_pos hi
    have hhigh : ∀ i : Fin 16, 8 ≤ i.val → ∀ m, mixed m i = leByte m ((i.val - 8 + 4) % 8) := by
      intro i hi m
      rw [mixed, if_neg (by omega), leByte_rotate m (by omega)]
    refine eq_of_leBytes fun i hi => ?_
    by_cases h6 : i = 6
    · -- its copy is the eleventh byte
      have h10 := hs.others 10 (by decide) (by decide)
      rw [hhigh 10 (by decide), hhigh 10 (by decide)] at h10
      subst h6
      exact h10
    · have := hs.others ⟨i, by omega⟩ (fun he => h6 (congrArg Fin.val he)) fun he => by
        have := congrArg Fin.val he
        simp only [Fin.coe_ofNat_eq_mod] at this
        omega
      rwa [hlow _ hi, hlow _ hi] at this
  · rintro rfl
    rfl

theorem mul_inj {n n' : UInt64} (h : n * 0x9E3779B97F4A7C15 = n' * 0x9E3779B97F4A7C15) : n = n' := by
  have := congrArg (· * 0xF1DE83E19937733D) h
  simp only [UInt64.mul_assoc] at this
  have hone : (0x9E3779B97F4A7C15 : UInt64) * 0xF1DE83E19937733D = 1 := by decide
  simpa [hone] using this

/-- Every id is of the form; two that were made of the system's bytes are one only if the bytes are,
but for six bits; and two that were made in one millisecond without them are of one count. -/
theorem uuids_tell_apart (millis : UInt64) :
    (∀ random count, IsV4 (genUuid random millis count)) ∧
      (∀ b b' count count', genUuid (some b) millis count = genUuid (some b') millis count' ↔ SameFree b b') ∧
      ∀ count count', genUuid none millis count = genUuid none millis count' ↔ count = count' := by
  refine ⟨fun random count => isV4_uuid _, fun b b' _ _ => uuid_eq_iff, fun count count' => ?_⟩
  rw [genUuid, genUuid]
  simp only [Option.getD_none]
  rw [uuid_mixed_iff, mix, mix]
  constructor
  · intro h
    have hx := congrArg (millis ^^^ ·) h
    simp only [← UInt64.xor_assoc, UInt64.xor_self, UInt64.zero_xor] at hx
    exact mul_inj hx
  · rintro rfl
    rfl

end MinMcp.L1.Uuid
