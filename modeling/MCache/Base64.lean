import Mathlib.Tactic

/-!
# Base64

The standard encoding with padding, as byte strings are written in JSON.
Decoding what was encoded gives the bytes back.
-/

namespace MCache.Base64

def encodeDigit (n : ℕ) : UInt8 :=
  if n < 26 then UInt8.ofNat (65 + n)
  else if n < 52 then UInt8.ofNat (97 + (n - 26))
  else if n < 62 then UInt8.ofNat (48 + (n - 52))
  else if n = 62 then 43
  else 47

def decodeDigit? (b : UInt8) : Option ℕ :=
  if 65 ≤ b ∧ b ≤ 90 then some (b.toNat - 65)
  else if 97 ≤ b ∧ b ≤ 122 then some (b.toNat - 97 + 26)
  else if 48 ≤ b ∧ b ≤ 57 then some (b.toNat - 48 + 52)
  else if b = 43 then some 62
  else if b = 47 then some 63
  else none

def padding : UInt8 := 61

theorem decodeDigit?_encodeDigit {n : ℕ} (hn : n < 64) : decodeDigit? (encodeDigit n) = some n := by
  have hall : ∀ k : Fin 64, decodeDigit? (encodeDigit k) = some k.val := by decide
  exact hall ⟨n, hn⟩

theorem encodeDigit_ne_padding {n : ℕ} (hn : n < 64) : encodeDigit n ≠ padding := by
  have hall : ∀ k : Fin 64, encodeDigit k ≠ padding := by decide
  exact hall ⟨n, hn⟩

def encode : List UInt8 → List UInt8
  | [] => []
  | [a] =>
    [encodeDigit (a.toNat / 4), encodeDigit (a.toNat % 4 * 16), padding, padding]
  | [a, b] =>
    [encodeDigit (a.toNat / 4), encodeDigit (a.toNat % 4 * 16 + b.toNat / 16),
      encodeDigit (b.toNat % 16 * 4), padding]
  | a :: b :: c :: rest =>
    encodeDigit (a.toNat / 4) ::
    encodeDigit (a.toNat % 4 * 16 + b.toNat / 16) ::
    encodeDigit (b.toNat % 16 * 4 + c.toNat / 64) ::
    encodeDigit (c.toNat % 64) :: encode rest

def decodeGroup (w x y z : UInt8) (last : Bool) : Option (List UInt8) :=
  (decodeDigit? w).bind fun i => (decodeDigit? x).bind fun j =>
    if last && y == padding && z == padding then
      some [UInt8.ofNat (i * 4 + j / 16)]
    else
      (decodeDigit? y).bind fun k =>
        if last && z == padding then
          some [UInt8.ofNat (i * 4 + j / 16), UInt8.ofNat (j % 16 * 16 + k / 4)]
        else
          (decodeDigit? z).map fun l =>
            [UInt8.ofNat (i * 4 + j / 16), UInt8.ofNat (j % 16 * 16 + k / 4),
              UInt8.ofNat (k % 4 * 64 + l)]

def decode : List UInt8 → Option (List UInt8)
  | [] => some []
  | w :: x :: y :: z :: rest =>
    (decodeGroup w x y z rest.isEmpty).bind fun bytes =>
      (decode rest).map fun more => bytes ++ more
  | _ => none

theorem ofNat_eq_byte {n : ℕ} {b : UInt8} (hn : n = b.toNat) : UInt8.ofNat n = b := by
  rw [hn, UInt8.ofNat_toNat]

theorem decodeGroup_one (a : UInt8) :
    decodeGroup (encodeDigit (a.toNat / 4)) (encodeDigit (a.toNat % 4 * 16))
      padding padding true = some [a] := by
  have ha := a.toNat_lt
  have hbyte : UInt8.ofNat (a.toNat / 4 * 4 + a.toNat % 4 * 16 / 16) = a := ofNat_eq_byte (by omega)
  rw [decodeGroup, decodeDigit?_encodeDigit (by omega), decodeDigit?_encodeDigit (by omega)]
  simp only [Option.bind_some, beq_self_eq_true, Bool.and_self, if_true, hbyte]

theorem decodeGroup_two (a b : UInt8) : decodeGroup (encodeDigit (a.toNat / 4))
      (encodeDigit (a.toNat % 4 * 16 + b.toNat / 16))
      (encodeDigit (b.toNat % 16 * 4)) padding true = some [a, b] := by
  have ha := a.toNat_lt
  have hb := b.toNat_lt
  have hfirst : UInt8.ofNat
      (a.toNat / 4 * 4 + (a.toNat % 4 * 16 + b.toNat / 16) / 16) = a :=
    ofNat_eq_byte (by omega)
  have hsecond : UInt8.ofNat
      ((a.toNat % 4 * 16 + b.toNat / 16) % 16 * 16 + b.toNat % 16 * 4 / 4) = b :=
    ofNat_eq_byte (by omega)
  have hdigit : encodeDigit (b.toNat % 16 * 4) ≠ padding := encodeDigit_ne_padding (by omega)
  rw [decodeGroup, decodeDigit?_encodeDigit (by omega),
    decodeDigit?_encodeDigit (by omega), decodeDigit?_encodeDigit (by omega)]
  simp only [Option.bind_some, beq_eq_false_iff_ne.mpr hdigit, beq_self_eq_true,
    Bool.and_false, Bool.and_true, Bool.false_eq_true, if_false, if_true, hfirst,
    hsecond]

theorem decodeGroup_three (a b c : UInt8) (last : Bool) : decodeGroup (encodeDigit (a.toNat / 4))
      (encodeDigit (a.toNat % 4 * 16 + b.toNat / 16))
      (encodeDigit (b.toNat % 16 * 4 + c.toNat / 64))
      (encodeDigit (c.toNat % 64)) last = some [a, b, c] := by
  have ha := a.toNat_lt
  have hb := b.toNat_lt
  have hc := c.toNat_lt
  have hfirst : UInt8.ofNat
      (a.toNat / 4 * 4 + (a.toNat % 4 * 16 + b.toNat / 16) / 16) = a :=
    ofNat_eq_byte (by omega)
  have hsecond : UInt8.ofNat ((a.toNat % 4 * 16 + b.toNat / 16) % 16 * 16 +
      (b.toNat % 16 * 4 + c.toNat / 64) / 4) = b :=
    ofNat_eq_byte (by omega)
  have hthird : UInt8.ofNat
      ((b.toNat % 16 * 4 + c.toNat / 64) % 4 * 64 + c.toNat % 64) = c :=
    ofNat_eq_byte (by omega)
  have hdigit : encodeDigit (c.toNat % 64) ≠ padding := encodeDigit_ne_padding (by omega)
  rw [decodeGroup, decodeDigit?_encodeDigit (by omega),
    decodeDigit?_encodeDigit (by omega), decodeDigit?_encodeDigit (by omega),
    decodeDigit?_encodeDigit (by omega)]
  simp only [Option.bind_some, Option.map_some, beq_eq_false_iff_ne.mpr hdigit,
    Bool.and_false, Bool.false_eq_true, if_false, hfirst, hsecond, hthird]

theorem decode_encode (bytes : List UInt8) : decode (encode bytes) = some bytes := by
  induction bytes using encode.induct with
  | case1 => rfl
  | case2 a =>
    rw [encode, decode, List.isEmpty_nil, decodeGroup_one]
    rfl
  | case3 a b =>
    rw [encode, decode, List.isEmpty_nil, decodeGroup_two]
    rfl
  | case4 a b c rest ih =>
    rw [encode, decode, decodeGroup_three, ih]
    rfl

end MCache.Base64
