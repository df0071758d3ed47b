import Mathlib.Tactic

/-!
# Values of the source language

Go strings and byte slices, 64-bit integers, durations, and the 32-bit FNV-1a
hash that routes keys.  Integers are mathematical; `int64` is applied where
the source adds two 64-bit numbers that may overflow, `saturated` where the
time package clamps a difference.
-/

namespace MCache

abbrev Bytes := List UInt8

instance : LawfulBEq Bytes := inferInstance

def int64 (x : ℤ) : ℤ := Int.bmod x (2 ^ 64)

theorem le_int64 (x : ℤ) : -2 ^ 63 ≤ int64 x := Int.le_bmod (by norm_num)

theorem int64_lt (x : ℤ) : int64 x < 2 ^ 63 := Int.bmod_lt (by norm_num)

theorem int64_of_bounds {x : ℤ} (hlow : -2 ^ 63 ≤ x) (hhigh : x < 2 ^ 63) : int64 x = x := by
  unfold int64
  apply Int.bmod_eq_of_le <;> norm_num at * <;> omega

theorem int64_of_overflow {x : ℤ} (hlow : 2 ^ 63 ≤ x) (hhigh : x < 2 ^ 64) :
    int64 x = x - 2 ^ 64 := by
  unfold int64
  rw [Int.bmod_def]
  norm_num at *
  split_ifs <;> omega

theorem int64_le_of_overflow {x : ℤ} (hlow : 2 ^ 63 ≤ x) : int64 x ≤ x - 2 ^ 64 := by
  unfold int64
  rw [Int.bmod_def]
  norm_num at *
  split_ifs <;> omega

theorem int64_add_int64 (x y : ℤ) : int64 (x + int64 y) = int64 (x + y) := Int.add_bmod_bmod

def saturated (x : ℤ) : ℤ := max (-2 ^ 63) (min x (2 ^ 63 - 1))

theorem saturated_of_bounds {x : ℤ} (hlow : -2 ^ 63 ≤ x)
    (hhigh : x < 2 ^ 63) : saturated x = x := by
  unfold saturated
  omega

def unixNano (seconds : ℤ) : ℤ := (int64 (seconds + 62135596800) - 62135596800) * 10 ^ 9

theorem unixNano_of_bounds {seconds : ℤ} (hlow : -2 ^ 63 ≤ seconds)
    (hhigh : seconds + 62135596800 < 2 ^ 63) : unixNano seconds = seconds * 10 ^ 9 := by
  rw [unixNano, int64_of_bounds (by omega) hhigh, add_sub_cancel_right]

def fnv32a (key : Bytes) : UInt32 := key.foldl (fun h b => (h ^^^ b.toUInt32) * 16777619) 2166136261

def ascii (text : String) : Bytes := text.toList.map fun c => UInt8.ofNat c.toNat

def bigEndian : ℕ → ℕ → Bytes
  | 0, _ => []
  | width + 1, n => bigEndian width (n / 256) ++ [UInt8.ofNat n]

def uint64 (x : ℤ) : ℕ := (x % 2 ^ 64).toNat

end MCache
