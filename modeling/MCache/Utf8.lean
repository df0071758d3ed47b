import Mathlib.Tactic

/-!
# UTF-8 text in byte strings

Decoding of one code point as the standard decoders do it: a byte that does
not start a well-formed sequence counts as one code point of its own, the
replacement character.  `toValid` writes every such byte as the three bytes of
U+FFFD; it leaves exactly the valid texts alone.
-/

namespace MCache.Utf8

def runeError : ℕ := 0xFFFD

def replacement : List UInt8 := [0xEF, 0xBF, 0xBD]

def sequenceLength (b : UInt8) : ℕ :=
  if b < 0x80 then 1
  else if b < 0xC2 then 0
  else if b < 0xE0 then 2
  else if b < 0xF0 then 3
  else if b < 0xF5 then 4
  else 0

def isContinuation (b : UInt8) : Bool := decide (0x80 ≤ b ∧ b ≤ 0xBF)

def admits (first second : UInt8) : Bool :=
  if first = 0xE0 then decide (0xA0 ≤ second ∧ second ≤ 0xBF)
  else if first = 0xED then decide (0x80 ≤ second ∧ second ≤ 0x9F)
  else if first = 0xF0 then decide (0x90 ≤ second ∧ second ≤ 0xBF)
  else if first = 0xF4 then decide (0x80 ≤ second ∧ second ≤ 0x8F)
  else isContinuation second

def payload (b : UInt8) : ℕ := b.toNat % 64

def decode? : List UInt8 → Option (ℕ × ℕ)
  | [] => none
  | b :: rest =>
    match sequenceLength b, rest with
    | 1, _ => some (b.toNat, 1)
    | 2, b1 :: _ =>
      if admits b b1 then some (b.toNat % 32 * 64 + payload b1, 2) else none
    | 3, b1 :: b2 :: _ =>
      if admits b b1 && isContinuation b2 then
        some (b.toNat % 16 * 64 ^ 2 + payload b1 * 64 + payload b2, 3)
      else none
    | 4, b1 :: b2 :: b3 :: _ =>
      if admits b b1 && isContinuation b2 && isContinuation b3 then
        some (b.toNat % 8 * 64 ^ 3 + payload b1 * 64 ^ 2 + payload b2 * 64 + payload b3, 4)
      else none
    | _, _ => none

def decodeRune (text : List UInt8) : ℕ × ℕ :=
  if text = [] then (runeError, 0) else (decode? text).getD (runeError, 1)

def validFrom : ℕ → List UInt8 → Bool
  | _, [] => true
  | skip + 1, _ :: rest => validFrom skip rest
  | 0, b :: rest =>
    match decode? (b :: rest) with
    | some (_, size) => validFrom (size - 1) rest
    | none => false

def valid (text : List UInt8) : Bool := validFrom 0 text

def toValidFrom : ℕ → List UInt8 → List UInt8
  | _, [] => []
  | skip + 1, b :: rest => b :: toValidFrom skip rest
  | 0, b :: rest =>
    match decode? (b :: rest) with
    | some (_, size) => b :: toValidFrom (size - 1) rest
    | none => replacement ++ toValidFrom 0 rest

def toValid (text : List UInt8) : List UInt8 := toValidFrom 0 text

theorem toValidFrom_of_validFrom {text : List UInt8} {skip : ℕ}
    (hvalid : validFrom skip text = true) : toValidFrom skip text = text := by
  induction text generalizing skip with
  | nil => cases skip <;> rfl
  | cons b rest ih =>
    cases skip with
    | succ skip => rw [toValidFrom, ih hvalid]
    | zero =>
      rw [validFrom] at hvalid
      rw [toValidFrom]
      split at hvalid
      · rw [ih hvalid]
      · cases hvalid

theorem length_le_toValidFrom (text : List UInt8) (skip : ℕ) :
    text.length ≤ (toValidFrom skip text).length := by
  induction text generalizing skip with
  | nil => exact Nat.zero_le _
  | cons b rest ih =>
    cases skip with
    | succ skip => exact Nat.succ_le_succ (ih skip)
    | zero =>
      rw [toValidFrom]
      split
      · exact Nat.succ_le_succ (ih _)
      · have hrest := ih 0
        rw [List.length_append, List.length_cons, replacement]
        simp only [List.length_cons, List.length_nil]
        omega

theorem validFrom_of_toValidFrom {text : List UInt8} {skip : ℕ}
    (hsame : toValidFrom skip text = text) : validFrom skip text = true := by
  induction text generalizing skip with
  | nil => cases skip <;> rfl
  | cons b rest ih =>
    cases skip with
    | succ skip => exact ih (List.cons.inj hsame).2
    | zero =>
      rw [toValidFrom] at hsame
      rw [validFrom]
      split at hsame
      · exact ih (List.cons.inj hsame).2
      · have hlonger := length_le_toValidFrom rest 0
        have hlength := congrArg List.length hsame
        rw [List.length_append, List.length_cons, replacement] at hlength
        simp only [List.length_cons, List.length_nil] at hlength
        omega

theorem toValid_eq_self_iff {text : List UInt8} : toValid text = text ↔ valid text = true :=
  ⟨validFrom_of_toValidFrom, toValidFrom_of_validFrom⟩

end MCache.Utf8
