/-!
# Base64

The standard alphabet with padding, over the UTF-8 bytes of a text. Three bytes make four digits of
six bits each; one or two bytes left at the end make a group filled up with `=`.

* `encode_injective`: two texts with one encoding are the same.
* `encode_printable`: every character of an encoding is visible ASCII.
-/
namespace MinMcp.Core.Base64

def alphabet : List Char :=
  "ABCDEFGHIJKLMNOPQRSTUVWXYZabcdefghijklmnopqrstuvwxyz0123456789+/".toList

/-- The character of six bits. -/
def digit (n : Nat) : Char := alphabet.getD n '='

def encodeBytes : List UInt8 → List Char
  | [] => []
  | [a] => [digit (a.toNat / 4), digit (a.toNat % 4 * 16), '=', '=']
  | [a, b] =>
    [digit (a.toNat / 4), digit (a.toNat % 4 * 16 + b.toNat / 16), digit (b.toNat % 16 * 4), '=']
  | a :: b :: c :: rest =>
    digit (a.toNat / 4) :: digit (a.toNat % 4 * 16 + b.toNat / 16) ::
      digit (b.toNat % 16 * 4 + c.toNat / 64) :: digit (c.toNat % 64) :: encodeBytes rest

def encode (s : String) : String := String.ofList (encodeBytes s.toByteArray.data.toList)

example : encode "Hello, 世界" = "SGVsbG8sIOS4lueVjA==" := by decide +kernel

/-! ## Digits -/

theorem digit_inj {m n : Nat} (hm : m < 64) (hn : n < 64) (h : digit m = digit n) : m = n := by
  have := (by decide +kernel : ∀ i j : Fin 64, digit i = digit j → i = j)
  exact congrArg Fin.val (this ⟨m, hm⟩ ⟨n, hn⟩ h)

theorem digit_ne_pad {n : Nat} (h : n < 64) : digit n ≠ '=' :=
  (by decide +kernel : ∀ i : Fin 64, digit i ≠ '=') ⟨n, h⟩

theorem digit_visible (n : Nat) : '+' ≤ digit n ∧ digit n ≤ 'z' := by
  by_cases h : n < 64
  · exact (by decide +kernel : ∀ i : Fin 64, '+' ≤ digit i ∧ digit i ≤ 'z') ⟨n, h⟩
  · have hlen : alphabet.length = 64 := by decide +kernel
    have : digit n = '=' := by
      rw [digit, List.getD_eq_getElem?_getD, List.getElem?_eq_none (by omega), Option.getD_none]
    rw [this]; decide

/-! ## Bytes -/

theorem high_lt (a : UInt8) : a.toNat / 4 < 64 := by have := a.toNat_lt; omega

theorem middle_lt (a b : UInt8) : a.toNat % 4 * 16 + b.toNat / 16 < 64 := by have := b.toNat_lt; omega

theorem lower_lt (b c : UInt8) : b.toNat % 16 * 4 + c.toNat / 64 < 64 := by have := c.toNat_lt; omega

theorem low_lt (c : UInt8) : c.toNat % 64 < 64 := by omega

/-- By the groups of both inputs; a group that is filled up is told by its `=`. -/
theorem encodeBytes_injective : Function.Injective encodeBytes := by
  intro xs
  induction xs using encodeBytes.induct with
  | case1 => intro ys h; cases ys using encodeBytes.fun_cases <;> simp [encodeBytes] at h ⊢
  | case2 a =>
    intro ys h
    cases ys using encodeBytes.fun_cases with
    | case1 => cases h
    | case2 a' =>
      simp only [encodeBytes, List.cons.injEq, and_true] at h
      have h1 := digit_inj (high_lt a) (high_lt a') h.1
      have h2 := digit_inj (by omega) (by omega) h.2
      rw [UInt8.toNat_inj.mp (show a.toNat = a'.toNat by omega)]
    | case3 a' b' =>
      simp only [encodeBytes, List.cons.injEq] at h
      exact absurd h.2.2.1.symm (digit_ne_pad (by omega))
    | case4 a' b' c' rest =>
      simp only [encodeBytes, List.cons.injEq] at h
      exact absurd h.2.2.1.symm (digit_ne_pad (lower_lt b' c'))
  | case3 a b =>
    intro ys h
    cases ys using encodeBytes.fun_cases with
    | case1 => cases h
    | case2 a' =>
      simp only [encodeBytes, List.cons.injEq] at h
      exact absurd h.2.2.1 (digit_ne_pad (by omega))
    | case3 a' b' =>
      simp only [encodeBytes, List.cons.injEq, and_true] at h
      have h1 := digit_inj (high_lt a) (high_lt a') h.1
      have h2 := digit_inj (middle_lt a b) (middle_lt a' b') h.2.1
      have h3 := digit_inj (by omega) (by omega) h.2.2
      have := b.toNat_lt
      have := b'.toNat_lt
      rw [UInt8.toNat_inj.mp (show a.toNat = a'.toNat by omega),
        UInt8.toNat_inj.mp (show b.toNat = b'.toNat by omega)]
    | case4 a' b' c' rest =>
      simp only [encodeBytes, List.cons.injEq] at h
      exact absurd h.2.2.2.1.symm (digit_ne_pad (low_lt c'))
  | case4 a b c rest ih =>
    intro ys h
    cases ys using encodeBytes.fun_cases with
    | case1 => cases h
    | case2 a' =>
      simp only [encodeBytes, List.cons.injEq] at h
      exact absurd h.2.2.1 (digit_ne_pad (lower_lt b c))
    | case3 a' b' =>
      simp only [encodeBytes, List.cons.injEq] at h
      exact absurd h.2.2.2.1 (digit_ne_pad (low_lt c))
    | case4 a' b' c' rest' =>
      simp only [encodeBytes, List.cons.injEq] at h
      have h1 := digit_inj (high_lt a) (high_lt a') h.1
      have h2 := digit_inj (middle_lt a b) (middle_lt a' b') h.2.1
      have h3 := digit_inj (lower_lt b c) (lower_lt b' c') h.2.2.1
      have h4 := digit_inj (low_lt c) (low_lt c') h.2.2.2.1
      have := b.toNat_lt
      have := b'.toNat_lt
      have := c.toNat_lt
      have := c'.toNat_lt
      rw [UInt8.toNat_inj.mp (show a.toNat = a'.toNat by omega),
        UInt8.toNat_inj.mp (show b.toNat = b'.toNat by omega),
        UInt8.toNat_inj.mp (show c.toNat = c'.toNat by omega), ih h.2.2.2.2]

theorem encodeBytes_visible : ∀ (bytes : List UInt8), ∀ c ∈ encodeBytes bytes, '+' ≤ c ∧ c ≤ 'z' := by
  intro bytes
  have pad : '+' ≤ '=' ∧ '=' ≤ 'z' := by decide
  induction bytes using encodeBytes.induct with
  | case1 => simp [encodeBytes]
  | case2 a => simp [encodeBytes, digit_visible, pad]
  | case3 a b => simp [encodeBytes, digit_visible, pad]
  | case4 a b c rest ih => simpa [encodeBytes, digit_visible] using ih

/-! ## Texts -/

theorem encode_injective : Function.Injective encode := by
  intro s t h
  have h := encodeBytes_injective (String.ofList_injective h)
  exact String.toByteArray_inj.mp (ByteArray.ext (Array.toList_inj.mp h))

theorem encode_printable (s : String) : ∀ c ∈ (encode s).toList, ' ' ≤ c ∧ c ≤ '~' := by
  intro c hc
  rw [encode, String.toList_ofList] at hc
  have h := encodeBytes_visible _ c hc
  exact ⟨Char.le_trans (by decide) h.1, Char.le_trans h.2 (by decide)⟩

end MinMcp.Core.Base64
