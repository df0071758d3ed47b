import MCache.TableContents

/-!
# The spread of keys over sub-shards

The shard of a key and its sub-shard are two remainders of one hash: modulo
the number of shards, which is a power of two, and modulo the number of
sub-shards.  Every pair of remainders is taken if and only if the two moduli
are coprime and their product does not exceed the range of the hash.  In any
other configuration some sub-shards stay empty in every run.
-/

namespace MCache

section Remainders

variable {a n bound : ℕ}

theorem coprime_of_remainders_covered (ha : 0 < a) (hn : 0 < n)
    (hcovered : ∀ i < a, ∀ j < n, ∃ h < bound, h % a = i ∧ h % n = j) :
    a.Coprime n := by
  by_cases hone : n = 1
  · subst n
    exact Nat.coprime_one_right a
  · rcases hcovered 0 ha 1 (by omega) with ⟨h, -, hi, hj⟩
    have hleft : a.gcd n ∣ h := (Nat.gcd_dvd_left a n).trans (Nat.dvd_of_mod_eq_zero hi)
    have hright : a.gcd n ∣ h % n := (Nat.dvd_mod_iff (Nat.gcd_dvd_right a n)).mpr hleft
    rw [hj] at hright
    exact Nat.dvd_one.mp hright

theorem mul_le_of_remainders_covered
    (hcovered : ∀ i < a, ∀ j < n, ∃ h < bound, h % a = i ∧ h % n = j) :
    a * n ≤ bound := by
  choose f hlt hleft hright using hcovered
  let g : Fin a × Fin n → Fin bound := fun p =>
    ⟨f p.1 p.1.isLt p.2 p.2.isLt, hlt _ _ _ _⟩
  have hinjective : Function.Injective g := by
    intro p q hpq
    have heq : f p.1 p.1.isLt p.2 p.2.isLt = f q.1 q.1.isLt q.2 q.2.isLt := congrArg Fin.val hpq
    have hfst : p.1.val = q.1.val := by
      rw [← hleft p.1 p.1.isLt p.2 p.2.isLt, heq, hleft]
    have hsnd : p.2.val = q.2.val := by
      rw [← hright p.1 p.1.isLt p.2 p.2.isLt, heq, hright]
    exact Prod.ext (Fin.ext hfst) (Fin.ext hsnd)
  simpa using Fintype.card_le_of_injective g hinjective

theorem remainders_covered_iff (ha : 0 < a) (hn : 0 < n) :
    (∀ i < a, ∀ j < n, ∃ h < bound, h % a = i ∧ h % n = j) ↔ a.Coprime n ∧ a * n ≤ bound := by
  constructor
  · intro hcovered
    exact ⟨coprime_of_remainders_covered ha hn hcovered, mul_le_of_remainders_covered hcovered⟩
  · rintro ⟨hcoprime, hle⟩ i hi j hj
    have hspec := (Nat.chineseRemainder hcoprime i j).2
    refine ⟨Nat.chineseRemainder hcoprime i j, ?_, ?_, ?_⟩
    · exact (Nat.chineseRemainder_lt_mul hcoprime i j ha.ne' hn.ne').trans_le hle
    · exact Nat.mod_eq_of_modEq hspec.1 hi
    · exact Nat.mod_eq_of_modEq hspec.2 hj

end Remainders

namespace Store

theorem eq_two_pow_of_and_pred {n : ℕ} (hpos : 0 < n)
    (hand : n &&& (n - 1) = 0) : 2 ^ n.log2 = n := by
  have hlow : 2 ^ n.log2 ≤ n := Nat.log2_self_le hpos.ne'
  have hhigh : n < 2 ^ (n.log2 + 1) := Nat.lt_log2_self
  rw [pow_succ] at hhigh
  by_contra hne
  have htop : ∀ m, 2 ^ n.log2 ≤ m → m < 2 ^ n.log2 * 2 → m.testBit n.log2 = true := by
    intro m hm hm'
    have hdiv : m / 2 ^ n.log2 = 1 := Nat.div_eq_of_lt_le (by omega) (by omega)
    rw [Nat.testBit_eq_decide_div_mod_eq, hdiv]
    rfl
  have hbit : (n &&& (n - 1)).testBit n.log2 = true := by
    rw [Nat.testBit_and, htop n hlow hhigh, htop (n - 1) (by omega) (by omega)]
    rfl
  rw [hand, Nat.zero_testBit] at hbit
  cases hbit

theorem validShards_two_pow {shardCount : ℤ} (hvalid : validShards shardCount = true) :
    2 ^ shardCount.toNat.log2 = shardCount.toNat := by
  rcases of_decide_eq_true hvalid with ⟨hpos, hand⟩
  exact eq_two_pow_of_and_pred (by omega) hand

theorem ShardTable.and_mask (t : ShardTable) (h : UInt32) :
    (h &&& t.mask).toNat = h.toNat % 2 ^ t.bits := by
  rw [UInt32.toNat_and, ShardTable.mask, UInt32.toNat_ofNat']
  rcases Nat.lt_or_ge 32 t.bits with hbig | hsmall
  · have hmask : (2 ^ t.bits - 1) % 2 ^ 32 = 2 ^ 32 - 1 := by
      have hsplit : 2 ^ t.bits = 2 ^ 32 * 2 ^ (t.bits - 32) := by
        rw [← pow_add]
        congr 1
        omega
      have hpos := Nat.two_pow_pos (t.bits - 32)
      have hform : 2 ^ t.bits - 1 = 2 ^ 32 - 1 + 2 ^ 32 * (2 ^ (t.bits - 32) - 1) := by
        rw [hsplit, Nat.mul_sub]
        omega
      rw [hform, Nat.add_mul_mod_self_left]
      rfl
    have hlt : h.toNat < 2 ^ t.bits := h.toNat_lt.trans (Nat.pow_lt_pow_right (by decide) hbig)
    rw [hmask, Nat.and_two_pow_sub_one_eq_mod, Nat.mod_eq_of_lt h.toNat_lt, Nat.mod_eq_of_lt hlt]
  · have hle : 2 ^ t.bits ≤ 2 ^ 32 := Nat.pow_le_pow_right (by decide) hsmall
    have hpos := Nat.two_pow_pos t.bits
    rw [Nat.mod_eq_of_lt (by omega), Nat.and_two_pow_sub_one_eq_mod]

theorem subShards_usable_iff {opts : Options} {c : Cache} (hnew : Cache.new opts = .ok c) :
    (∀ (i : Fin (2 ^ c.table.bits)) (j : Fin (c.table.shards i).numSubs),
      ∃ h : UInt32, (h &&& c.table.mask).toNat = i.val ∧
        h.toNat % (c.table.shards i).numSubs = j.val) ↔
    opts.shardCount.toNat.Coprime (effectiveSubShards
        (perShardMax opts.maxSize.toNat opts.shardCount.toNat)) ∧
      opts.shardCount.toNat * effectiveSubShards
        (perShardMax opts.maxSize.toNat opts.shardCount.toNat) ≤ 2 ^ 32 := by
  rcases Cache.new_ok hnew with ⟨hvalid, -, hc⟩
  have hcount := validShards_two_pow hvalid
  have htable : c.table = newTable opts.shardCount.toNat.log2 c.policyFactory
      (perShardMax opts.maxSize.toNat opts.shardCount.toNat) := by
    rw [hc]
  rw [← remainders_covered_iff (hcount ▸ Nat.two_pow_pos _) (effectiveSubShards_pos _), htable]
  simp only [ShardTable.and_mask]
  change (∀ (i : Fin (2 ^ opts.shardCount.toNat.log2)) (j : Fin (effectiveSubShards
    (perShardMax opts.maxSize.toNat opts.shardCount.toNat))), ∃ h : UInt32,
      h.toNat % 2 ^ opts.shardCount.toNat.log2 = i.val ∧
      h.toNat % effectiveSubShards
        (perShardMax opts.maxSize.toNat opts.shardCount.toNat) = j.val) ↔ _
  rw [hcount]
  constructor
  · intro hall i hi j hj
    rcases hall ⟨i, hi⟩ ⟨j, hj⟩ with ⟨h, hleft, hright⟩
    exact ⟨h.toNat, h.toNat_lt, hleft, hright⟩
  · intro hall i j
    rcases hall i i.isLt j j.isLt with ⟨h, hlt, hleft, hright⟩
    refine ⟨UInt32.ofNat h, ?_⟩
    rw [UInt32.toNat_ofNat', Nat.mod_eq_of_lt hlt]
    exact ⟨hleft, hright⟩

theorem subShards_usable_iff_threeSubs :
    ∃ c, Cache.new { newOptions with shardCount := 2, maxSize := 12 } = .ok c ∧
      ∀ (i : Fin (2 ^ c.table.bits)) (j : Fin (c.table.shards i).numSubs),
        ∃ h : UInt32, (h &&& c.table.mask).toNat = i.val ∧
          h.toNat % (c.table.shards i).numSubs = j.val := by
  have hnew : Cache.new { newOptions with shardCount := 2, maxSize := 12 } =
      .ok { Cache.ofDefaults with table := newTable 1 .lru 6, maxSize := 12 } := rfl
  exact ⟨_, hnew, (subShards_usable_iff hnew).mpr (by decide)⟩

theorem default_subShard_unreachable : Cache.new newOptions = .ok .ofDefaults ∧
    ∃ (i : Fin (2 ^ Cache.ofDefaults.table.bits))
      (j : Fin (Cache.ofDefaults.table.shards i).numSubs),
      ¬ ∃ h : UInt32, (h &&& Cache.ofDefaults.table.mask).toNat = i.val ∧
        h.toNat % (Cache.ofDefaults.table.shards i).numSubs = j.val := by
  refine ⟨Cache.new_newOptions, ⟨0, by decide⟩, ⟨1, by decide⟩, ?_⟩
  rintro ⟨h, hshard, hsub⟩
  rw [ShardTable.and_mask] at hshard
  change h.toNat % 16 = 0 at hshard
  change h.toNat % 8 = 1 at hsub
  omega

end Store

end MCache
