import Mathlib.Data.List.Rotate
import Mathlib.Tactic

/-!
# Round robin with a counter that wraps

A counter below `width` picks one of `m` slots by its residue.  A round of `m`
increments reaches every slot exactly if the residues go around without a
jump: the counter does not wrap within the round, it wraps before the first
pick, or `m` divides the width.
-/

namespace MCache.RoundRobin

variable {width m counter : ℕ}

def slot (width m counter i : ℕ) : ℕ := (counter + 1 + i) % width % m

def Smooth (width m counter : ℕ) : Prop := counter + m < width ∨ counter + 1 = width ∨ m ∣ width

instance : Decidable (Smooth width m counter) := inferInstanceAs (Decidable (_ ∨ _ ∨ _))

theorem slot_succ (i : ℕ) :
    slot width m counter (i + 1) = slot width m ((counter + 1) % width) i := by
  unfold slot
  rw [Nat.add_assoc ((counter + 1) % width), Nat.mod_add_mod]
  congr 2
  omega

theorem Smooth.rotates (hm : m < width) (hsmooth : Smooth width m counter) :
    ∃ start, ∀ i < m, slot width m counter i = (start + i) % m := by
  rcases hsmooth with hfar | hlast | hdvd
  · refine ⟨counter + 1, fun i hi => ?_⟩
    have hbelow : (counter + 1 + i) % width = counter + 1 + i := Nat.mod_eq_of_lt (by omega)
    rw [slot, hbelow]
  · refine ⟨0, fun i hi => ?_⟩
    rw [slot, hlast, Nat.add_mod_left, Nat.mod_eq_of_lt (hi.trans hm), Nat.zero_add]
  · refine ⟨counter + 1, fun i _ => ?_⟩
    rw [slot, Nat.mod_mod_of_dvd _ hdvd]

theorem succ_mod_eq_zero {x : ℕ} (hm : 0 < m) (hx : x % m = m - 1) : (x + 1) % m = 0 := by
  have hsplit := Nat.div_add_mod x m
  refine Nat.mod_eq_zero_of_dvd ⟨x / m + 1, ?_⟩
  rw [Nat.mul_succ]
  omega

theorem slot_injective_of_covers (hm : 0 < m)
    (hcovers : ∀ p < m, ∃ i < m, slot width m counter i = p) {i j : ℕ}
    (hi : i < m) (hj : j < m)
    (hsame : slot width m counter i = slot width m counter j) : i = j := by
  let pick : Fin m → Fin m := fun i => ⟨slot width m counter i, Nat.mod_lt _ hm⟩
  have hsurjective : Function.Surjective pick := by
    intro p
    obtain ⟨i, hi, hslot⟩ := hcovers p p.isLt
    exact ⟨⟨i, hi⟩, Fin.ext hslot⟩
  have hinjective := Finite.injective_iff_surjective.mpr hsurjective
  exact congrArg Fin.val (@hinjective ⟨i, hi⟩ ⟨j, hj⟩ (Fin.ext hsame))

theorem smooth_of_covers (hcounter : counter < width) (hm : m < width)
    (hcovers : ∀ p < m, ∃ i < m, slot width m counter i = p) :
    Smooth width m counter := by
  by_contra hjump
  simp only [Smooth, not_or, not_lt] at hjump
  obtain ⟨hwraps, hlate, hdvd⟩ := hjump
  have hpos : 0 < m := by omega
  have hbefore : ∀ i, counter + 1 + i < width → slot width m counter i = (counter + 1 + i) % m := by
    intro i hi
    rw [slot, Nat.mod_eq_of_lt hi]
  have hafter : ∀ i < m, width ≤ counter + 1 + i →
      slot width m counter i = counter + 1 + i - width := by
    intro i hi hwrapped
    rw [slot, Nat.mod_eq_sub_mod hwrapped, Nat.mod_eq_of_lt (a := _ - _) (by omega),
      Nat.mod_eq_of_lt (by omega)]
  obtain ⟨j, hj, hlast⟩ := hcovers (m - 1) (by omega)
  rcases lt_trichotomy (counter + 1 + j + 1) width with hearly | hwrap | hwrapped
  · rw [hbefore j (by omega)] at hlast
    have hzero : slot width m counter (j + 1) = 0 := by
      rw [hbefore (j + 1) hearly]
      exact succ_mod_eq_zero hpos hlast
    have hagain := hafter (width - 1 - counter) (by omega) (by omega)
    have hsame := slot_injective_of_covers hpos hcovers (i := j + 1)
      (j := width - 1 - counter) (by omega) (by omega) (by omega)
    omega
  · rw [hbefore j (by omega)] at hlast
    refine hdvd (Nat.dvd_of_mod_eq_zero ?_)
    rw [← hwrap]
    exact succ_mod_eq_zero hpos hlast
  · rw [hafter j hj (by omega)] at hlast
    omega

end MCache.RoundRobin
