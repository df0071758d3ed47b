import MCache.ShardChanges
import MCache.StoreBookkeeping
import MCache.SubShardSpread

/-!
# The size limit of the whole cache

`New` and `Resize` divide the configured limit by the number of shards, and a
new shard divides its share by the number of its sub-shards; both shares are
at least one.  No later operation touches the two numbers, so a table stays
within the number of its shards times the share of one.  That product is
within the configured limit exactly when there are no more shards than the
limit.
-/

namespace MCache.Store

def ShardTable.Divided (t : ShardTable) (perShardMax : ℕ) : Prop :=
  ∀ i, (t.shards i).numSubs = effectiveSubShards perShardMax ∧
    (t.shards i).maxSubSize = (newShard .noop perShardMax).maxSubSize

theorem newTable_divided (bits : ℕ) (kind : PolicyKind) (perShardMax : ℕ) :
    (newTable bits kind perShardMax).Divided perShardMax :=
  fun _ => ⟨rfl, rfl⟩

def Shard.SameDivision (s later : Shard) : Prop :=
  later.numSubs = s.numSubs ∧ later.maxSubSize = s.maxSubSize

theorem sameDivision_relation : ShardRelation (fun _ => True) Shard.SameDivision where
  refl := fun _ => ⟨rfl, rfl⟩
  trans := fun hfirst hsecond =>
    ⟨hsecond.1.trans hfirst.1, hsecond.2.trans hfirst.2⟩
  set := fun _ _ _ _ _ => ⟨rfl, rfl⟩
  get := fun _ _ _ _ => ⟨rfl, rfl⟩
  del := fun _ _ _ => ⟨rfl, rfl⟩
  cleanup := fun _ _ => ⟨rfl, rfl⟩
  swapPolicy := fun _ _ _ => ⟨rfl, rfl⟩
  expire := fun _ _ _ _ _ => ⟨rfl, rfl⟩
  persist := fun _ _ _ => ⟨rfl, rfl⟩
  collection := fun _ _ _ _ => ⟨rfl, rfl⟩

theorem Cache.apply_maxSize {c next : Cache} {a : CacheAction}
    (hstep : c.apply a = some next) : next.maxSize = c.maxSize := by
  have htouched : a.command.Touches fun _ => True := by
    cases a.command <;> trivial
  rcases sameDivision_relation.effect htouched (Cache.apply_effect hstep) with
    hchanges | ⟨shardCount, kind, -, -, hmax, -⟩
  · exact hchanges.maxSize
  · exact hmax

theorem newTable_divided_of_valid {shardCount : ℤ}
    (hvalid : validShards shardCount = true) (kind : PolicyKind) (maxSize : ℕ) :
    (newTable shardCount.toNat.log2 kind (perShardMax maxSize shardCount.toNat)).Divided
        (perShardMax maxSize (2 ^ shardCount.toNat.log2)) := by
  rw [validShards_two_pow hvalid]
  exact newTable_divided _ _ _

theorem Cache.divided_apply {c next : Cache} {a : CacheAction}
    (hdivided : c.table.Divided (perShardMax c.maxSize (2 ^ c.table.bits)))
    (hstep : c.apply a = some next) :
    next.table.Divided (perShardMax next.maxSize (2 ^ next.table.bits)) := by
  have htouched : a.command.Touches fun _ => True := by
    cases a.command <;> trivial
  rcases sameDivision_relation.effect htouched (Cache.apply_effect hstep) with
    hchanges | ⟨shardCount, kind, -, hvalid, hmax, htable⟩
  · rcases hchanges.table with ⟨shards, htable, hshards⟩
    rw [hchanges.maxSize, htable]
    intro i
    exact ⟨(hshards i).1.trans (hdivided i).1, (hshards i).2.trans (hdivided i).2⟩
  · rw [hmax, htable]
    exact newTable_divided_of_valid hvalid kind c.maxSize

def ShardTable.size (t : ShardTable) : ℕ := ∑ i, (t.shards i).size

def Cache.stored (c : Cache) : ℕ := (c.tables.map ShardTable.size).sum

theorem effectiveSubShards_le {perShardMax : ℕ} (hpos : 0 < perShardMax) :
    effectiveSubShards perShardMax ≤ perShardMax := by
  unfold effectiveSubShards subShardsPerShard
  dsimp only
  split_ifs <;> omega

theorem newShard_capacity {perShardMax : ℕ} (hpos : 0 < perShardMax) :
    0 < (newShard .noop perShardMax).maxSubSize ∧
      effectiveSubShards perShardMax * (newShard .noop perShardMax).maxSubSize ≤
        perShardMax := by
  have hsubs := effectiveSubShards_pos perShardMax
  have hshare : 0 < perShardMax / effectiveSubShards perShardMax :=
    Nat.div_pos (effectiveSubShards_le hpos) hsubs
  have hmax : (newShard .noop perShardMax).maxSubSize =
      perShardMax / effectiveSubShards perShardMax := by
    simp only [newShard]
    rw [if_neg (by omega)]
  rw [hmax]
  exact ⟨hshare, Nat.mul_div_le _ _⟩

theorem Shard.size_le {s : Shard} {perShardMax : ℕ} (hpos : 0 < perShardMax)
    (hsubs : s.numSubs = effectiveSubShards perShardMax)
    (hmax : s.maxSubSize = (newShard .noop perShardMax).maxSubSize)
    (hcap : ∀ j, 0 < s.maxSubSize → (s.subs j).entries.keys.length ≤ s.maxSubSize) :
    s.size ≤ perShardMax := by
  rcases newShard_capacity hpos with ⟨hlimit, hproduct⟩
  calc s.size ≤ ∑ _j : Fin s.numSubs, s.maxSubSize :=
        Finset.sum_le_sum fun j _ => hcap j (hmax ▸ hlimit)
    _ = s.numSubs * s.maxSubSize := by simp
    _ ≤ perShardMax := by rw [hsubs, hmax]; exact hproduct

theorem ShardTable.size_le {t : ShardTable} {perShardMax : ℕ}
    (hpos : 0 < perShardMax) (hdivided : t.Divided perShardMax)
    (hbook : t.Each Bookkept) : t.size ≤ 2 ^ t.bits * perShardMax := by
  calc t.size ≤ ∑ _i : Fin (2 ^ t.bits), perShardMax :=
        Finset.sum_le_sum fun i _ => Shard.size_le hpos (hdivided i).1
          (hdivided i).2 fun j => (hbook i j).withinCap
    _ = 2 ^ t.bits * perShardMax := by simp

theorem perShardMax_pos {maxSize : ℕ} (hpos : 0 < maxSize) (shardCount : ℕ) :
    0 < perShardMax maxSize shardCount := by
  unfold perShardMax
  split_ifs <;> omega

theorem mul_perShardMax_le {maxSize shardCount : ℕ} (hpos : 0 < shardCount)
    (hfits : shardCount ≤ maxSize) :
    shardCount * perShardMax maxSize shardCount ≤ maxSize := by
  have hshare : 0 < maxSize / shardCount := Nat.div_pos hfits hpos
  unfold perShardMax
  rw [if_pos (by omega), if_neg (by omega)]
  exact Nat.mul_div_le _ _

theorem store_divided {c : Cache} {allowed : Cache → CacheAction → Prop}
    (hreach : trackedStore.ReachableBy allowed c) :
    c.table.Divided (perShardMax c.maxSize (2 ^ c.table.bits)) := by
  apply hreach.invariant fun c =>
    c.table.Divided (perShardMax c.maxSize (2 ^ c.table.bits))
  · rintro c ⟨⟨opts, hnew⟩, -⟩
    rcases Cache.new_ok hnew with ⟨hvalid, -, hc⟩
    rw [hc]
    exact newTable_divided_of_valid hvalid _ _
  · intro c a next hdivided _ hstep
    exact Cache.divided_apply hdivided hstep

theorem stored_le_maxSize {c : Cache}
    (hreach : trackedStore.ReachableBy (fun _ a => a.command.lruOrLfu = true) c)
    (hidle : c.migration = none) (hshards : 2 ^ c.table.bits ≤ c.maxSize) :
    c.stored ≤ c.maxSize := by
  have hcount := Nat.two_pow_pos c.table.bits
  have hshare := perShardMax_pos (hcount.trans_le hshards) (2 ^ c.table.bits)
  have hbook : c.table.Each Bookkept :=
    trackedStore_each bookkept_invariant hreach c.table (List.mem_cons_self ..)
  have hsize : c.stored = c.table.size := by
    simp [Cache.stored, Cache.tables, hidle]
  calc c.stored = c.table.size := hsize
    _ ≤ 2 ^ c.table.bits * perShardMax c.maxSize (2 ^ c.table.bits) :=
        ShardTable.size_le hshare (store_divided hreach) hbook
    _ ≤ c.maxSize := mul_perShardMax_le hcount hshards

structure Cache.Load where
  rehashing : Bool
  bits : ℕ
  maxSize : ℕ
  stored : ℕ
  deriving DecidableEq

def Cache.load (c : Cache) : Cache.Load := ⟨c.migration.isSome, c.table.bits, c.maxSize, c.stored⟩

def limitedRun : List CacheAction := [⟨.set [97] (some [1]) none, .asStored, fun _ _ => 1⟩,
    ⟨.set [98] (some [2]) none, .asStored, fun _ _ => 1⟩,
    ⟨.resize 2, .asStored, fun _ _ => 1⟩,
    ⟨.step, .asStored, fun _ _ => 1⟩,
    ⟨.step, .asStored, fun _ _ => 1⟩]

theorem stored_le_maxSize_resizedRun :
    ∃ c, trackedStore.ReachableBy (fun _ a => a.command.lruOrLfu = true) c ∧
      c.migration = none ∧ c.table.bits = 1 ∧ c.stored = 2 ∧
      c.stored ≤ c.maxSize := by
  have hinit : trackedStore.init
      { Cache.ofDefaults with table := newTable 0 .lru 16, maxSize := 16 } :=
    ⟨⟨{ newOptions with shardCount := 1, maxSize := 16 }, rfl⟩, by decide⟩
  have hrun : (trackedStore.runBy (fun _ a => a.command.lruOrLfu = true)
      { Cache.ofDefaults with table := newTable 0 .lru 16, maxSize := 16 }
      limitedRun).map Cache.load = some ⟨false, 1, 16, 2⟩ := by
    decide +kernel
  rcases TransitionSystem.exists_reachableBy hinit hrun with ⟨c, hreach, hload⟩
  simp only [Cache.load, Cache.Load.mk.injEq, Option.isSome_eq_false_iff,
    Option.isNone_iff_eq_none] at hload
  rcases hload with ⟨hidle, hbits, hmax, hstored⟩
  refine ⟨c, hreach, hidle, hbits, hstored, ?_⟩
  exact stored_le_maxSize hreach hidle (by rw [hbits, hmax]; decide)

theorem stored_exceeds_maxSize :
    ∃ c, trackedStore.ReachableBy (fun _ a => a.command.lruOrLfu = true) c ∧
      c.migration = none ∧ c.maxSize = 1 ∧ c.stored = 2 := by
  have hinit : trackedStore.init
      { Cache.ofDefaults with table := newTable 1 .lru 1, maxSize := 1 } :=
    ⟨⟨{ newOptions with shardCount := 2, maxSize := 1 }, rfl⟩, by decide⟩
  have hrun : (trackedStore.runBy (fun _ a => a.command.lruOrLfu = true)
      { Cache.ofDefaults with table := newTable 1 .lru 1, maxSize := 1 }
      [⟨.set [97] (some [1]) none, .asStored, fun _ _ => 1⟩,
        ⟨.set [98] (some [2]) none, .asStored, fun _ _ => 1⟩]).map Cache.load =
      some ⟨false, 1, 1, 2⟩ := by
    decide +kernel
  rcases TransitionSystem.exists_reachableBy hinit hrun with ⟨c, hreach, hload⟩
  simp only [Cache.load, Cache.Load.mk.injEq, Option.isSome_eq_false_iff,
    Option.isNone_iff_eq_none] at hload
  exact ⟨c, hreach, hload.1, hload.2.2.1, hload.2.2.2⟩

end MCache.Store
