import Mathlib.Data.Nat.Digits.Defs
import Mathlib.Tactic

/-!
# Numbers as text

Decimal integers of 64 bits as `strconv` reads and writes them.  Reading stops
at the first byte that is no digit or makes the number too large.  Floats are
bit patterns; how they are read, written and added stays open, and so does the
quoting of a text in an error message.
-/

namespace MCache.Strconv

inductive NumError where
  | invalidSyntax
  | valueOutOfRange
  deriving DecidableEq

def digit? (b : UInt8) : Option ℕ :=
  if 48 ≤ b ∧ b ≤ 57 then some (b.toNat - 48) else none

def parseDigits : ℕ → List UInt8 → Except NumError ℕ
  | n, [] => .ok n
  | n, b :: rest =>
    match digit? b with
    | none => .error .invalidSyntax
    | some d =>
      if 2 ^ 64 ≤ n * 10 + d then .error .valueOutOfRange
      else parseDigits (n * 10 + d) rest

def parseUint (text : List UInt8) : Except NumError ℕ :=
  if text = [] then .error .invalidSyntax else parseDigits 0 text

def parseInt (text : List UInt8) : Except NumError ℤ :=
  if text.head? = some 45 then
    (parseUint text.tail).bind fun n =>
      if 2 ^ 63 < n then .error .valueOutOfRange else .ok (-n)
  else
    (parseUint (if text.head? = some 43 then text.tail else text)).bind fun n =>
      if 2 ^ 63 ≤ n then .error .valueOutOfRange else .ok n

def formatUint (n : ℕ) : List UInt8 :=
  if n = 0 then [48]
  else (Nat.digits 10 n).reverse.map fun d => UInt8.ofNat (48 + d)

def formatInt (n : ℤ) : List UInt8 :=
  if n < 0 then 45 :: formatUint n.natAbs else formatUint n.natAbs

theorem digit?_ofNat {d : ℕ} (hd : d < 10) : digit? (UInt8.ofNat (48 + d)) = some d := by
  interval_cases d <;> rfl

theorem parseDigits_eq_foldl {digits : List ℕ} (hdigits : ∀ d ∈ digits, d < 10) {n : ℕ}
    (hfits : digits.foldl (fun n d => n * 10 + d) n < 2 ^ 64) :
    parseDigits n (digits.map fun d => UInt8.ofNat (48 + d)) =
      .ok (digits.foldl (fun n d => n * 10 + d) n) := by
  have hgrows (rest : List ℕ) (m : ℕ) : m ≤ rest.foldl (fun n d => n * 10 + d) m := by
    induction rest generalizing m with
    | nil => exact le_rfl
    | cons d rest ih => exact le_trans (by omega) (ih (m * 10 + d))
  induction digits generalizing n with
  | nil => rfl
  | cons d rest ih =>
    have hnext : n * 10 + d < 2 ^ 64 := lt_of_le_of_lt (hgrows rest _) hfits
    rw [List.map_cons, parseDigits, digit?_ofNat (hdigits d List.mem_cons_self)]
    dsimp only
    rw [if_neg (not_le.mpr hnext)]
    exact ih (fun e he => hdigits e (List.mem_cons_of_mem d he)) hfits

theorem parseUint_formatUint {n : ℕ} (hn : n < 2 ^ 64) : parseUint (formatUint n) = .ok n := by
  by_cases hzero : n = 0
  · subst hzero
    rfl
  · have hvalue : (Nat.digits 10 n).reverse.foldl (fun n d => n * 10 + d) 0 = n := by
      rw [List.foldl_reverse]
      conv_rhs => rw [← Nat.ofDigits_digits 10 n, Nat.ofDigits_eq_foldr]
      simp only [Nat.cast_id, mul_comm, add_comm]
    have hdigits : ∀ d ∈ (Nat.digits 10 n).reverse, d < 10 := fun d hd =>
      Nat.digits_lt_base (by decide) (List.mem_reverse.mp hd)
    have hread := parseDigits_eq_foldl hdigits (n := 0) (by rw [hvalue]; exact hn)
    rw [parseUint, formatUint, if_neg hzero, if_neg ?_, hread, hvalue]
    simpa using Nat.digits_ne_nil_iff_ne_zero.mpr hzero

theorem formatUint_head {n : ℕ} {b : UInt8} (hhead : (formatUint n).head? = some b) :
    b ≠ 45 ∧ b ≠ 43 := by
  have hdigit : ∃ d < 10, b = UInt8.ofNat (48 + d) := by
    unfold formatUint at hhead
    split_ifs at hhead
    · exact ⟨0, by decide, by simpa using hhead.symm⟩
    · obtain ⟨d, hd, rfl⟩ := List.mem_map.mp (List.mem_of_head? hhead)
      exact ⟨d, Nat.digits_lt_base (by decide) (List.mem_reverse.mp hd), rfl⟩
  obtain ⟨d, hd, rfl⟩ := hdigit
  interval_cases d <;> decide

theorem parseInt_formatInt {n : ℤ} (hlow : -2 ^ 63 ≤ n) (hhigh : n < 2 ^ 63) :
    parseInt (formatInt n) = .ok n := by
  have hread := parseUint_formatUint (n := n.natAbs) (by omega)
  unfold formatInt
  split_ifs with hneg
  · rw [parseInt, List.head?_cons, if_pos rfl, List.tail_cons, hread]
    change (if 2 ^ 63 < n.natAbs then _ else _) = _
    rw [if_neg (by omega)]
    congr 1
    omega
  · have hminus : (formatUint n.natAbs).head? ≠ some 45 := fun h => (formatUint_head h).1 rfl
    have hplus : (formatUint n.natAbs).head? ≠ some 43 := fun h => (formatUint_head h).2 rfl
    rw [parseInt, if_neg hminus, if_neg hplus, hread]
    change (if 2 ^ 63 ≤ n.natAbs then _ else _) = _
    rw [if_neg (by omega)]
    congr 1
    omega

structure Primitives where
  parseFloat : List UInt8 → Except NumError UInt64
  formatFloat : UInt64 → List UInt8
  addFloat : UInt64 → UInt64 → UInt64
  quote : List UInt8 → List UInt8

end MCache.Strconv
