import Mathlib.Algebra.Order.BigOperators.Group.List
import Mathlib.Algebra.Order.Ring.Nat
import Mathlib.Data.List.TakeDrop

/-!
# Ranges of given widths on a line

A list of widths cuts the numbers below their sum into adjacent ranges, one for
each width.  A range of width 0 contains nothing.
-/

namespace MCache

def rangeAt : List ℕ → ℕ → Option ℕ
  | [], _ => none
  | width :: widths, point =>
    if point < width then some 0
    else (rangeAt widths (point - width)).map (· + 1)

def rangeStart (widths : List ℕ) (i : ℕ) : ℕ := (widths.take i).sum

variable {widths : List ℕ} {i j point other : ℕ}

@[simp] theorem rangeStart_zero (widths : List ℕ) : rangeStart widths 0 = 0 := by
  simp [rangeStart]

@[simp] theorem rangeStart_cons_succ (width : ℕ) (widths : List ℕ) (i : ℕ) :
    rangeStart (width :: widths) (i + 1) = width + rangeStart widths i := by
  simp [rangeStart]

theorem rangeStart_mono (widths : List ℕ) : Monotone (rangeStart widths) := by
  intro i j hij
  exact (List.take_sublist_take_left hij).sum_le_sum (by simp)

theorem rangeStart_length (widths : List ℕ) : rangeStart widths widths.length = widths.sum := by
  simp [rangeStart]

theorem rangeAt_eq_some_iff : rangeAt widths point = some i ↔
      rangeStart widths i ≤ point ∧ point < rangeStart widths (i + 1) := by
  induction widths generalizing point i with
  | nil => simp [rangeAt, rangeStart]
  | cons width widths ih =>
    unfold rangeAt
    split_ifs with hfirst
    · cases i with
      | zero => simpa using hfirst
      | succ i =>
        simp only [rangeStart_cons_succ]
        constructor
        · intro h
          cases h
        · intro h
          omega
    · cases i with
      | zero => simp [hfirst]
      | succ i =>
        simp only [Option.map_eq_some_iff, Nat.add_left_inj, exists_eq_right, ih,
          rangeStart_cons_succ]
        omega

theorem exists_rangeAt (h : point < widths.sum) :
    ∃ i < widths.length, rangeAt widths point = some i := by
  induction widths generalizing point with
  | nil => simp at h
  | cons width widths ih =>
    unfold rangeAt
    split_ifs with hfirst
    · exact ⟨0, by simp, rfl⟩
    · rw [List.sum_cons] at h
      have hrest : point - width < widths.sum := by omega
      rcases ih hrest with ⟨i, hi, hrange⟩
      exact ⟨i + 1, by simpa using hi, by rw [hrange]; rfl⟩

theorem lt_sum_of_rangeAt (h : rangeAt widths point = some i) : point < widths.sum := by
  refine (rangeAt_eq_some_iff.mp h).2.trans_le ?_
  exact (List.take_sublist _ _).sum_le_sum (by simp)

theorem rangeAt_ones {n : ℕ} (h : point < n) : rangeAt (List.replicate n 1) point = some point := by
  rw [rangeAt_eq_some_iff]
  simp [rangeStart, List.take_replicate]
  omega

theorem rangeAt_eq_rangeAt_iff (hpoint : point < widths.sum) (hother : other < widths.sum) :
    rangeAt widths other = rangeAt widths point ↔ ∀ k < widths.length,
        (rangeStart widths k ≤ point ↔ rangeStart widths k ≤ other) := by
  rcases exists_rangeAt hpoint with ⟨i, hi, hrange⟩
  rw [hrange, rangeAt_eq_some_iff]
  rw [rangeAt_eq_some_iff] at hrange
  constructor
  · intro hsame k _
    rcases Nat.lt_or_ge i k with hlater | hearlier
    · have := rangeStart_mono widths (Nat.succ_le_of_lt hlater)
      simp only [Nat.succ_eq_add_one] at this
      omega
    · have := rangeStart_mono widths hearlier
      omega
  · intro hstarts
    refine ⟨(hstarts i hi).mp hrange.1, ?_⟩
    rcases Nat.lt_or_ge (i + 1) widths.length with hnext | hlast
    · have := hstarts (i + 1) hnext
      omega
    · have := rangeStart_mono widths hlast
      rw [rangeStart_length] at this
      omega

theorem rangeStart_succ (widths : List ℕ) (i : ℕ) :
    rangeStart widths (i + 1) = rangeStart widths i + widths.getD i 0 := by
  induction widths generalizing i with
  | nil => simp [rangeStart]
  | cons width widths ih =>
    cases i with
    | zero => simp
    | succ i => simp [ih i, Nat.add_assoc]

theorem rangeStart_set_zero (widths : List ℕ) (i k : ℕ) :
    rangeStart (widths.set i 0) k + (if i < k then widths.getD i 0 else 0) =
      rangeStart widths k := by
  induction widths generalizing i k with
  | nil => simp [rangeStart]
  | cons width widths ih =>
    cases k with
    | zero => simp
    | succ k =>
      cases i with
      | zero => simp [Nat.add_comm]
      | succ i => simpa [Nat.add_assoc] using ih i k

def pointWithout (widths : List ℕ) (i point : ℕ) : ℕ :=
  if point < rangeStart widths i then point else point - widths.getD i 0

theorem rangeAt_pointWithout (hrange : rangeAt widths point = some j) (hne : j ≠ i) :
    rangeAt (widths.set i 0) (pointWithout widths i point) = some j := by
  rw [rangeAt_eq_some_iff] at hrange ⊢
  have hstart := rangeStart_set_zero widths i j
  have hend := rangeStart_set_zero widths i (j + 1)
  rcases Nat.lt_or_gt_of_ne hne with hbefore | hbehind
  · have hmono := rangeStart_mono widths hbefore
    rw [if_neg (by omega)] at hstart hend
    rw [pointWithout, if_pos (by simp at hmono; omega)]
    omega
  · have hmono := rangeStart_mono widths hbehind
    have hsucc := rangeStart_succ widths i
    rw [if_pos (by omega)] at hstart hend
    rw [pointWithout, if_neg (by simp at hmono; omega)]
    omega

end MCache
