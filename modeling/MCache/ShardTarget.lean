import MCache.GoValues
import MCache.HistoryBuffers
import Mathlib.Data.Nat.Size

/-!
# The shard count of a migration

`calculateTargetShards` of `mbr/migrator.go`.  The quotient of keys and load is
rounded down, clamped to the configured bounds and only then rounded up to a
power of two, so the result can be too small by a remainder and can exceed the
upper bound.  An `int` has 64 bits; the memory pressure is in exact arithmetic.
-/

namespace MCache.Mbr

open Monitoring

variable {M : Metrics}

structure MigratorConfig where
  targetLoadPerShard : ℤ
  minShards : ℤ
  maxShards : ℤ
  maxShards_lt : maxShards < 2 ^ 63

def defaultMigratorConfig : MigratorConfig where
  targetLoadPerShard := 512
  minShards := 4
  maxShards := 1024
  maxShards_lt := by norm_num

structure IncrementalMigrationExecutor (M : Metrics) where
  mon : Option (Monitor M)
  cfg : MigratorConfig

def nextPowerOfTwo (n : ℤ) : ℤ :=
  if n ≤ 1 then 1 else int64 (2 ^ Nat.size (uint64 (n - 1)))

def truncated (q : ℚ) : ℤ := Int.tdiv q.num q.den

def MigratorConfig.clamp (cfg : MigratorConfig) (target : ℤ) : ℤ :=
  let target := if target < cfg.minShards then cfg.minShards else target
  if cfg.maxShards < target then cfg.maxShards else target

namespace IncrementalMigrationExecutor

def effectiveLoad (e : IncrementalMigrationExecutor M) : ℤ :=
  match (e.mon.bind Monitor.latest).bind SystemSnapshot.memory with
  | none => e.cfg.targetLoadPerShard
  | some memory =>
    let memRatio := memory.usedPercent / 100
    let setpoint : ℚ := 0.60
    if setpoint < memRatio then
      let pressure := (memRatio - setpoint) / (1.0 - setpoint)
      let adjusted := truncated (e.cfg.targetLoadPerShard * (1.0 - pressure * 0.75))
      if adjusted < 64 then 64 else adjusted
    else e.cfg.targetLoadPerShard

def calculateTargetShards (e : IncrementalMigrationExecutor M) (currentKeys : ℤ) :
    Option ℤ :=
  if e.effectiveLoad = 0 then none
  else
    let target := Int.tdiv currentKeys e.effectiveLoad
    some (nextPowerOfTwo (e.cfg.clamp target))

end IncrementalMigrationExecutor

def PowerBetween (low high : ℤ) : Prop := ∃ j : ℕ, low ≤ 2 ^ j ∧ 2 ^ j ≤ high

theorem le_two_pow_iff {n : ℤ} (hpos : 1 ≤ n) (hn : n < 2 ^ 63) (i : ℕ) :
    n ≤ 2 ^ i ↔ Nat.size (uint64 (n - 1)) ≤ i := by
  have hcast : ((uint64 (n - 1) : ℕ) : ℤ) = n - 1 := by
    unfold uint64
    omega
  rw [Nat.size_le, ← Nat.cast_lt (α := ℤ), hcast, Nat.cast_pow, Nat.cast_ofNat]
  omega

theorem nextPowerOfTwo_of_le {n : ℤ} (hpos : 1 ≤ n) (hn : n ≤ 2 ^ 62) :
    ∃ j : ℕ, nextPowerOfTwo n = 2 ^ j ∧ n ≤ 2 ^ j ∧ ∀ i : ℕ, n ≤ 2 ^ i → (2 : ℤ) ^ j ≤ 2 ^ i := by
  have hlength := le_two_pow_iff hpos (by omega)
  refine ⟨Nat.size (uint64 (n - 1)), ?_, (hlength _).mpr le_rfl, fun i hi => ?_⟩
  · unfold nextPowerOfTwo
    split
    · rw [show n - 1 = 0 by omega]
      rfl
    · have hpow : (2 : ℤ) ^ Nat.size (uint64 (n - 1)) ≤ 2 ^ 62 :=
        pow_le_pow_right₀ (by norm_num) ((hlength 62).mp hn)
      have hnonneg : (0 : ℤ) < 2 ^ Nat.size (uint64 (n - 1)) := by positivity
      exact int64_of_bounds (by omega) (by omega)
  · exact pow_le_pow_right₀ (by norm_num) ((hlength i).mp hi)

theorem nextPowerOfTwo_of_gt {n : ℤ} (hlow : 2 ^ 62 < n) (hhigh : n < 2 ^ 63) :
    nextPowerOfTwo n = -2 ^ 63 := by
  have hlength := le_two_pow_iff (by omega) hhigh
  have hsize : Nat.size (uint64 (n - 1)) = 63 := by
    have hle := (hlength 63).mp hhigh.le
    have hgt := mt (hlength 62).mpr (by omega)
    omega
  rw [nextPowerOfTwo, if_neg (by omega), hsize, int64_of_overflow (by norm_num) (by norm_num)]
  norm_num

structure LegalTarget (cfg : MigratorConfig) (currentKeys result : ℤ) : Prop where
  bounded : PowerBetween cfg.minShards cfg.maxShards →
    (∃ j : ℕ, result = 2 ^ j) ∧ cfg.minShards ≤ result ∧ result ≤ cfg.maxShards
  sufficient : 2 * result ≤ cfg.maxShards → currentKeys ≤ result * cfg.targetLoadPerShard

section Targets

variable {cfg : MigratorConfig} {k : ℤ}

theorem clamp_bounds (hle : cfg.minShards ≤ cfg.maxShards) (target : ℤ) :
    cfg.minShards ≤ cfg.clamp target ∧ cfg.clamp target ≤ cfg.maxShards := by
  unfold MigratorConfig.clamp
  dsimp only
  split_ifs <;> omega

theorem clamp_eq_self {target : ℤ} (hlow : cfg.minShards ≤ target)
    (hhigh : target ≤ cfg.maxShards) : cfg.clamp target = target := by
  unfold MigratorConfig.clamp
  dsimp only
  split_ifs <;> omega

theorem le_of_clamp_lt {target : ℤ} (hlt : cfg.clamp target < cfg.maxShards) :
    target ≤ cfg.clamp target := by
  unfold MigratorConfig.clamp at hlt ⊢
  dsimp only at hlt ⊢
  split_ifs at hlt ⊢ <;> omega

theorem sufficient_iff (hload : 1 ≤ cfg.targetLoadPerShard)
    (hle : cfg.minShards ≤ cfg.maxShards) {r : ℤ}
    (hr : cfg.clamp (k / cfg.targetLoadPerShard) ≤ r)
    (hleast : ∀ i : ℕ, cfg.clamp (k / cfg.targetLoadPerShard) ≤ 2 ^ i → r ≤ 2 ^ i)
    (hpower : ∃ j : ℕ, r = 2 ^ j) :
    (2 * r ≤ cfg.maxShards → k ≤ r * cfg.targetLoadPerShard) ↔
      ((∃ j : ℕ, k / cfg.targetLoadPerShard = 2 ^ j) → cfg.minShards ≤ k / cfg.targetLoadPerShard →
        2 * (k / cfg.targetLoadPerShard) ≤ cfg.maxShards →
        cfg.targetLoadPerShard ∣ k) := by
  obtain ⟨j, hj⟩ := hpower
  have hpos : (0 : ℤ) < 2 ^ j := by positivity
  have hfloor := Int.ediv_mul_le k (by omega : cfg.targetLoadPerShard ≠ 0)
  have hceil := Int.lt_ediv_add_one_mul_self k (by omega : 0 < cfg.targetLoadPerShard)
  constructor
  · rintro hsufficient ⟨i, hi⟩ hmin hmax
    have hquotient : (0 : ℤ) < 2 ^ i := by positivity
    rw [clamp_eq_self hmin (by omega)] at hr hleast
    have hsame : r = k / cfg.targetLoadPerShard := le_antisymm (hi ▸ hleast i hi.le) hr
    have hfits := hsufficient (by omega)
    rw [hsame] at hfits
    exact Dvd.intro_left _ (hfloor.antisymm hfits)
  · intro hexact hdouble
    have hquotient : k / cfg.targetLoadPerShard ≤ r := (le_of_clamp_lt (by omega)).trans hr
    rcases hquotient.lt_or_eq with hlt | heq
    · have hmore : (k / cfg.targetLoadPerShard + 1) * cfg.targetLoadPerShard ≤
          r * cfg.targetLoadPerShard :=
        mul_le_mul_of_nonneg_right (by omega) (by omega)
      omega
    · have hmin := (clamp_bounds hle (k / cfg.targetLoadPerShard)).1
      have hdvd := hexact ⟨j, heq.trans hj⟩ (by omega) (by omega)
      rw [← heq, Int.ediv_mul_cancel hdvd]

theorem calculateTargetShards_legal_iff (e : IncrementalMigrationExecutor M)
    (hmon : e.mon = none) (k : ℤ) (hload : 1 ≤ e.cfg.targetLoadPerShard)
    (hmin : 1 ≤ e.cfg.minShards) (hle : e.cfg.minShards ≤ e.cfg.maxShards)
    (hk : 0 ≤ k) :
    ∃ result, e.calculateTargetShards k = some result ∧
      (LegalTarget e.cfg k result ↔
        let quotient := k / e.cfg.targetLoadPerShard
        PowerBetween (e.cfg.clamp quotient) e.cfg.maxShards ∧
            ((∃ j : ℕ, quotient = 2 ^ j) → e.cfg.minShards ≤ quotient →
              2 * quotient ≤ e.cfg.maxShards → e.cfg.targetLoadPerShard ∣ k) ∨
          ¬ PowerBetween e.cfg.minShards e.cfg.maxShards ∧ e.cfg.minShards ≤ 2 ^ 62) := by
  have hsame : e.effectiveLoad = e.cfg.targetLoadPerShard := by
    rw [IncrementalMigrationExecutor.effectiveLoad, hmon]
    rfl
  have hbounds := clamp_bounds hle (k / e.cfg.targetLoadPerShard)
  have hint := e.cfg.maxShards_lt
  refine ⟨nextPowerOfTwo (e.cfg.clamp (k / e.cfg.targetLoadPerShard)), ?_, ?_⟩
  · rw [IncrementalMigrationExecutor.calculateTargetShards, hsame, if_neg (by omega),
      Int.tdiv_eq_ediv_of_nonneg hk]
  · dsimp only
    rcases le_or_gt (e.cfg.clamp (k / e.cfg.targetLoadPerShard)) (2 ^ 62) with hfits | hover
    · obtain ⟨j, hj, hr, hleast⟩ := nextPowerOfTwo_of_le (by omega) hfits
      rw [hj]
      have hbetween : (2 : ℤ) ^ j ≤ e.cfg.maxShards ↔
          PowerBetween (e.cfg.clamp (k / e.cfg.targetLoadPerShard)) e.cfg.maxShards :=
        ⟨fun hmax => ⟨j, hr, hmax⟩, fun ⟨i, hi, hmax⟩ => (hleast i hi).trans hmax⟩
      have hsufficient := sufficient_iff hload hle hr hleast ⟨j, rfl⟩
      constructor
      · intro hlegal
        by_cases hany : PowerBetween e.cfg.minShards e.cfg.maxShards
        · exact .inl ⟨hbetween.mp (hlegal.bounded hany).2.2, hsufficient.mp hlegal.sufficient⟩
        · exact .inr ⟨hany, hbounds.1.trans hfits⟩
      · rintro (⟨hpower, hexact⟩ | ⟨hnone, _⟩)
        · exact ⟨fun _ => ⟨⟨j, rfl⟩, hbounds.1.trans hr, hbetween.mpr hpower⟩,
            hsufficient.mpr hexact⟩
        · refine ⟨fun hany => absurd hany hnone, hsufficient.mpr ?_⟩
          rintro ⟨i, hi⟩ hlow hhigh
          exact absurd ⟨i, hi ▸ hlow, by omega⟩ hnone
    · rw [nextPowerOfTwo_of_gt hover (by omega)]
      refine iff_of_false (fun hlegal => ?_) ?_
      · have hfew := hlegal.sufficient (by omega)
        have hnegative : -2 ^ 63 * e.cfg.targetLoadPerShard < 0 :=
          mul_neg_of_neg_of_pos (by norm_num) (by omega)
        omega
      · rintro (⟨⟨i, hlow, hhigh⟩, _⟩ | ⟨hnone, hlow⟩)
        · have hover' : (2 : ℤ) ^ 62 < 2 ^ i := by omega
          have hint' : (2 : ℤ) ^ i < 2 ^ 63 := by omega
          rw [pow_lt_pow_iff_right₀ (by norm_num)] at hover' hint'
          omega
        · exact hnone ⟨62, hlow, by omega⟩

end Targets

def unmonitored (cfg : MigratorConfig) : IncrementalMigrationExecutor ⟨Unit, Unit, Unit, Unit⟩ :=
  ⟨none, cfg⟩

theorem calculateTargetShards_legal_default :
    LegalTarget defaultMigratorConfig 4096 8 := by
  obtain ⟨result, hresult, hiff⟩ := calculateTargetShards_legal_iff
    (unmonitored defaultMigratorConfig) rfl 4096 (by decide) (by decide) (by decide)
    (by decide)
  have height : (unmonitored defaultMigratorConfig).calculateTargetShards 4096 =
      some 8 := by decide +kernel
  cases hresult.symm.trans height
  exact hiff.mpr (.inl ⟨⟨3, by decide, by decide⟩, fun _ _ _ => by decide⟩)

def upToThousand : MigratorConfig :=
  { defaultMigratorConfig with maxShards := 1000, maxShards_lt := by norm_num }

theorem target_too_small_or_too_large :
    ((unmonitored defaultMigratorConfig).calculateTargetShards 2049 = some 4 ∧
        ¬ LegalTarget defaultMigratorConfig 2049 4) ∧
      (unmonitored upToThousand).calculateTargetShards 300000 = some 1024 ∧
        ¬ LegalTarget upToThousand 300000 1024 := by
  refine ⟨⟨by decide +kernel, fun hlegal => ?_⟩, by decide +kernel, fun hlegal => ?_⟩
  · exact absurd (hlegal.sufficient (by decide)) (by decide)
  · exact absurd (hlegal.bounded ⟨9, by decide, by decide⟩).2.2 (by decide)

end MCache.Mbr
