import MCache.HistoryBuffers
import MCache.TransitionSystem
import Mathlib.Algebra.Order.Field.Rat

/-!
# The migration scorecard

`mbr/scorecard.go` in exact arithmetic.  `Decide` scores the current window
and, if the score is high, asks `recomputeScore` whether the windows before it
were high as well.  `recomputeScore` is meant to be the same rule, but under
false pressure it replaces the buffer penalty by its worst value first.

A window has here the fields that the scorecard reads.
-/

namespace MCache.Mbr

structure WindowStats where
  memGrowthRate : ℚ := 0
  keysGrowthRate : ℚ := 0
  hitRate : ℚ := 0
  evictionsPerSec : ℚ := 0
  newKeysRate : ℚ := 0
  rehashActive : Bool := false
  migrationActive : Bool := false
  clientOutputBufferUsage : ℚ := 0
  replBacklogUsage : ℚ := 0
  aofRewriteBufferSize : ℚ := 0
  largeInputBufClients : ℤ := 0

inductive Decision where
  | evict
  | migrate
  deriving DecidableEq, Repr

structure ScoreWeights where
  memGrowth : ℚ
  hitRate : ℚ
  newKeys : ℚ
  evictionPressure : ℚ
  bufferPenalty : ℚ

def defaultWeights : ScoreWeights where
  memGrowth := 0.35
  hitRate := 0.25
  newKeys := 0.20
  evictionPressure := 0.15
  bufferPenalty := 0.05

def migrateThreshold : ℚ := 0.55
def consecutiveWindows : ℕ := 2
def falsePressureFactor : ℚ := 0.6
def migrationSuppressionFactor : ℚ := 0.3

def growthFactor (full rate : ℚ) : ℚ :=
  if rate ≤ 0 then 0 else if full ≤ rate then 1 else rate / full

def memGrowthScore : ℚ → ℚ := growthFactor 0.05

def keysGrowthScore : ℚ → ℚ := growthFactor 500

def pressureFactor (low high width rate : ℚ) : ℚ :=
  if high ≤ rate then 1 else if rate ≤ low then 0 else (rate - low) / width

def newKeysScore : ℚ → ℚ := pressureFactor 0.1 0.5 0.4

def evictionPressureScore : ℚ → ℚ := pressureFactor 10 100 90

def hitRateScore (rate : ℚ) : ℚ :=
  if 0.95 ≤ rate then 0 else if rate ≤ 0.70 then 1 else (0.95 - rate) / 0.25

def clamp01 (v : ℚ) : ℚ :=
  if v < 0 then 0 else if 1 < v then 1 else v

namespace WindowStats

def bufferPenalty (stats : WindowStats) : ℚ :=
  let score : ℚ := 0
  let score :=
    if 0.8 < stats.clientOutputBufferUsage then
      score - (stats.clientOutputBufferUsage - 0.8) / 0.2
    else score
  let score :=
    if 0.8 < stats.replBacklogUsage then
      score - (stats.replBacklogUsage - 0.8) / 0.2
    else score
  let aofMB := stats.aofRewriteBufferSize / (1024 * 1024)
  let score :=
    if 512 < aofMB then
      let excess := (aofMB - 512) / 512
      score - (if 1 < excess then 1 else excess)
    else score
  let score :=
    if 0 < stats.largeInputBufClients then
      let c : ℚ := stats.largeInputBufClients
      score - (if 10 < c then 10 else c) / 10
    else score
  if score < -1 then -1 else score

def isFalsePressure (stats : WindowStats) : Bool :=
  if 0.80 < stats.clientOutputBufferUsage then true
  else if 512 * 1024 * 1024 < stats.aofRewriteBufferSize then true
  else if 0 < stats.largeInputBufClients then true
  else false

def recomputeScore (stats : WindowStats) (weights : ScoreWeights) : ℚ :=
  let memScore := memGrowthScore stats.memGrowthRate
  let hitScore := hitRateScore stats.hitRate
  let nkScore := newKeysScore stats.newKeysRate
  let evScore := evictionPressureScore stats.evictionsPerSec
  let keyScore := keysGrowthScore stats.keysGrowthRate
  let bufPen := if stats.isFalsePressure then -1 else stats.bufferPenalty
  let growthScore := max memScore (keyScore * 0.8)
  let raw := clamp01 (weights.memGrowth * growthScore + weights.hitRate * hitScore +
    weights.newKeys * nkScore + weights.evictionPressure * evScore +
    weights.bufferPenalty * bufPen)
  let raw := if stats.isFalsePressure then raw * falsePressureFactor else raw
  if stats.rehashActive || stats.migrationActive then
    raw * migrationSuppressionFactor
  else raw

def confirm (matrix : FeatureMatrix WindowStats) (weights : ScoreWeights) (final : ℚ) : Decision :=
  if migrateThreshold < final then
    let recent := matrix.getRecent (consecutiveWindows + 1)
    if consecutiveWindows + 1 ≤ recent.length then
      if (recent.take consecutiveWindows).all
          (fun s => migrateThreshold < s.recomputeScore weights) then .migrate
      else .evict
    else if 1 ≤ recent.length then
      if migrateThreshold + 0.10 < final then .migrate else .evict
    else .evict
  else .evict

def decide (stats : WindowStats) (matrix : FeatureMatrix WindowStats)
    (weights : ScoreWeights) : Decision × ℚ :=
  let memScore := memGrowthScore stats.memGrowthRate
  let hitScore := hitRateScore stats.hitRate
  let nkScore := newKeysScore stats.newKeysRate
  let evScore := evictionPressureScore stats.evictionsPerSec
  let keyScore := keysGrowthScore stats.keysGrowthRate
  let bufPen := stats.bufferPenalty
  let falsePressure := stats.isFalsePressure
  let growthScore := max memScore (keyScore * 0.8)
  let raw := clamp01 (weights.memGrowth * growthScore + weights.hitRate * hitScore +
    weights.newKeys * nkScore + weights.evictionPressure * evScore +
    weights.bufferPenalty * bufPen)
  let raw := if falsePressure then raw * falsePressureFactor else raw
  let final := if stats.rehashActive || stats.migrationActive then
    raw * migrationSuppressionFactor else raw
  (confirm matrix weights final, final)

end WindowStats

theorem clamp01_eq_iff (a b : ℚ) :
    clamp01 a = clamp01 b ↔ a = b ∨ a ≤ 0 ∧ b ≤ 0 ∨ 1 ≤ a ∧ 1 ≤ b := by
  unfold clamp01
  split_ifs <;> grind

namespace WindowStats

variable (stats : WindowStats) (matrix : FeatureMatrix WindowStats) (weights : ScoreWeights)

def weightedFactors : ℚ := weights.memGrowth * max (memGrowthScore stats.memGrowthRate)
      (keysGrowthScore stats.keysGrowthRate * 0.8) +
    weights.hitRate * hitRateScore stats.hitRate +
    weights.newKeys * newKeysScore stats.newKeysRate +
    weights.evictionPressure * evictionPressureScore stats.evictionsPerSec

def scoreWith (bufPen : ℚ) : ℚ :=
  let raw := clamp01 (stats.weightedFactors weights + weights.bufferPenalty * bufPen)
  let raw := if stats.isFalsePressure then raw * falsePressureFactor else raw
  if stats.rehashActive || stats.migrationActive then
    raw * migrationSuppressionFactor
  else raw

theorem recomputeScore_eq : stats.recomputeScore weights = stats.scoreWith weights
      (if stats.isFalsePressure then -1 else stats.bufferPenalty) :=
  rfl

theorem decide_score :
    (stats.decide matrix weights).2 = stats.scoreWith weights stats.bufferPenalty :=
  rfl

theorem scoreWith_eq_iff (p q : ℚ) : stats.scoreWith weights p = stats.scoreWith weights q ↔
      clamp01 (stats.weightedFactors weights + weights.bufferPenalty * p) =
        clamp01 (stats.weightedFactors weights + weights.bufferPenalty * q) := by
  have hpressure : falsePressureFactor ≠ 0 := by norm_num [falsePressureFactor]
  have hmigration : migrationSuppressionFactor ≠ 0 := by
    norm_num [migrationSuppressionFactor]
  unfold scoreWith
  dsimp only
  split_ifs
  · rw [mul_left_inj' hmigration, mul_left_inj' hpressure]
  · rw [mul_left_inj' hmigration]
  · rw [mul_left_inj' hpressure]
  · rfl

theorem recomputeScore_eq_decide_iff :
    stats.recomputeScore weights = (stats.decide matrix weights).2 ↔ (stats.isFalsePressure = true →
        let factors := stats.weightedFactors weights
        let now := factors + weights.bufferPenalty * stats.bufferPenalty
        let past := factors - weights.bufferPenalty
        weights.bufferPenalty = 0 ∨ stats.bufferPenalty = -1 ∨
          past ≤ 0 ∧ now ≤ 0 ∨ 1 ≤ past ∧ 1 ≤ now) := by
  rw [recomputeScore_eq, decide_score, scoreWith_eq_iff]
  by_cases hpressure : stats.isFalsePressure = true
  · have hsame : weights.bufferPenalty * -1 = weights.bufferPenalty * stats.bufferPenalty ↔
        weights.bufferPenalty = 0 ∨ stats.bufferPenalty = -1 := by
      rw [mul_eq_mul_left_iff, or_comm, eq_comm (a := (-1 : ℚ))]
    rw [if_pos hpressure, clamp01_eq_iff, add_right_inj, hsame, mul_neg_one,
      ← sub_eq_add_neg, or_assoc]
    exact ⟨fun h _ => h, fun h => h hpressure⟩
  · rw [if_neg hpressure]
    exact iff_of_true rfl (fun h => absurd h hpressure)

def oneLargeClient : WindowStats where
  memGrowthRate := 0.05
  hitRate := 0.5
  evictionsPerSec := 100
  newKeysRate := 0.5
  largeInputBufClients := 1

theorem past_window_scores_lower : oneLargeClient.recomputeScore defaultWeights = 0.54 ∧
      oneLargeClient.decide ((FeatureMatrix.newFeatureMatrix 60).pushAll
          [oneLargeClient, oneLargeClient, oneLargeClient]) defaultWeights =
        (.evict, 0.567) := by
  decide +kernel

end WindowStats

end MCache.Mbr
