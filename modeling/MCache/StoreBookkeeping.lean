import MCache.TableContents

/-!
# Bookkeeping of the sub-shards

With an LRU or LFU policy, the policy of a sub-shard tracks the keys of its
entries, no more and no fewer.  Eviction therefore always finds a key while
there are too many entries, and the size limit holds after every command.
-/

namespace MCache.Store

variable {cap : ℕ} {sub : SubShard} {K V : Type} {policy : Policy}

structure SubShard.Tracked (sub : SubShard) : Prop where
  tracking : sub.policy.Tracking
  tracked : ∀ key, key ∈ sub.policy.keys ↔ key ∈ sub.entries

structure SubShard.Bookkept (cap : ℕ) (sub : SubShard) : Prop where
  tracking : sub.policy.Tracking
  tracked : ∀ key, key ∈ sub.policy.keys ↔ key ∈ sub.entries
  withinCap : 0 < cap → sub.entries.keys.length ≤ cap

theorem SubShard.Bookkept.toTracked (h : sub.Bookkept cap) : sub.Tracked := ⟨h.tracking, h.tracked⟩

theorem SubShard.Tracked.bookkept (h : sub.Tracked)
    (hcap : 0 < cap → sub.entries.keys.length ≤ cap) : sub.Bookkept cap :=
  ⟨h.tracking, h.tracked, hcap⟩

def Bookkept : SubShardProperty := fun _ cap sub => sub.Bookkept cap

theorem length_keys_insert [DecidableEq K] (m : AList fun _ : K => V) (key : K) (value : V) :
    (m.insert key value).keys.length = (m.erase key).keys.length + 1 := by
  rw [AList.keys_insert, List.length_cons, AList.keys_erase]

theorem length_keys_insert_of_mem [DecidableEq K] (m : AList fun _ : K => V) {key : K}
    (hmem : key ∈ m) (value : V) :
    (m.insert key value).keys.length = m.keys.length := by
  rw [length_keys_insert, length_keys_erase m hmem]

theorem length_keys_insert_of_notMem [DecidableEq K] (m : AList fun _ : K => V)
    {key : K} (hkey : key ∉ m) (value : V) :
    (m.insert key value).keys.length = m.keys.length + 1 := by
  have hsame : m.erase key = m := AList.ext (List.kerase_of_notMem_keys hkey)
  rw [length_keys_insert, hsame]

theorem length_keys_erase_le [DecidableEq K] (m : AList fun _ : K => V) (key : K) :
    (m.erase key).keys.length ≤ m.keys.length := by
  rw [AList.keys_erase]
  exact List.length_erase_le

theorem length_tracked {entries : EntryMap} (htracking : policy.Tracking)
    (htracked : ∀ key, key ∈ policy.keys ↔ key ∈ entries) :
    policy.keys.length = entries.keys.length := by
  apply List.Perm.length_eq
  exact (List.perm_ext_iff_of_nodup htracking.keys_nodup entries.keys_nodup).mpr htracked

theorem SubShard.Tracked.evict (h : sub.Tracked) (hsize : 0 < sub.entries.keys.length) :
    ∃ policy victim, sub.policy.evict = (policy, some victim) ∧
      SubShard.Tracked { entries := sub.entries.erase victim, policy := policy } ∧
      (sub.entries.erase victim).keys.length + 1 = sub.entries.keys.length := by
  have hne : sub.policy.keys ≠ [] := by
    rw [← length_tracked h.tracking h.tracked] at hsize
    exact List.ne_nil_of_length_pos hsize
  rcases h.tracking.evict hne with ⟨victim, hvictim, hevict, htracking, hkeys⟩
  refine ⟨sub.policy.evict.1, victim, by rw [← hevict], ⟨htracking, ?_⟩, ?_⟩
  · intro other
    rw [hkeys, h.tracked, AList.mem_erase]
  · exact length_keys_erase sub.entries ((h.tracked victim).mp hvictim)

theorem SubShard.Tracked.evictLoop {fuel : ℕ} (h : sub.Tracked)
    (hfuel : sub.entries.keys.length < fuel) :
    (SubShard.evictLoop cap fuel sub).1.Bookkept cap := by
  induction fuel generalizing sub with
  | zero => exact absurd hfuel (Nat.not_lt_zero _)
  | succ fuel ih =>
    unfold SubShard.evictLoop
    split_ifs with hover
    · rcases h.evict (by omega) with ⟨policy, victim, hevict, hlater, hsize⟩
      rw [hevict]
      apply ih hlater
      dsimp only
      omega
    · exact h.bookkept fun hcap => not_lt.mp fun hlt => hover ⟨hcap, hlt⟩

theorem SubShard.Tracked.length_lt_rounds (h : sub.Tracked) :
    sub.entries.keys.length < sub.policy.keys.length + 1 := by
  rw [length_tracked h.tracking h.tracked]
  exact Nat.lt_succ_self _

theorem SubShard.Tracked.insert (h : sub.Tracked) {key : Bytes}
    (hmem : key ∈ sub.entries) (e : CacheEntry) (htracking : policy.Tracking)
    (hkeys : ∀ other, other ∈ policy.keys ↔ other ∈ sub.policy.keys) :
    SubShard.Tracked { entries := sub.entries.insert key e, policy := policy } := by
  constructor
  case tracking => exact htracking
  case tracked =>
    intro other
    rw [hkeys, h.tracked, AList.mem_insert]
    constructor
    · exact .inr
    · rintro (rfl | hother)
      · exact hmem
      · exact hother

theorem SubShard.Tracked.add (h : sub.Tracked) (key : Bytes) (e : CacheEntry) : SubShard.Tracked
      { entries := sub.entries.insert key e, policy := sub.policy.onAdd key } := by
  rcases h.tracking.onAdd key with ⟨htracking, hkeys⟩
  constructor
  case tracking => exact htracking
  case tracked =>
    intro other
    rw [hkeys, h.tracked, AList.mem_insert]

theorem SubShard.Tracked.set (h : sub.Tracked) (cap : ℕ) (key value : Bytes)
    (ttl now : ℤ) : (sub.set cap key value ttl now).1.Tracked := by
  unfold SubShard.set
  split_ifs with hmem
  · rcases h.tracking.onAccess key with ⟨htracking, hkeys⟩
    exact h.insert hmem _ htracking hkeys
  · exact ((h.add key _).evictLoop (h.add key _).length_lt_rounds).toTracked

theorem SubShard.Bookkept.set (h : sub.Bookkept cap) (key value : Bytes) (ttl now : ℤ) :
    (sub.set cap key value ttl now).1.Bookkept cap := by
  apply (h.toTracked.set cap key value ttl now).bookkept
  intro hcap
  unfold SubShard.set
  split_ifs with hmem
  · rw [length_keys_insert_of_mem _ hmem]
    exact h.withinCap hcap
  · have hadded := h.toTracked.add key (newEntry now value ttl)
    exact (hadded.evictLoop hadded.length_lt_rounds).withinCap hcap

theorem SubShard.Tracked.remove (h : sub.Tracked) (key : Bytes) : (sub.remove key).Tracked := by
  rcases h.tracking.onRemove key with ⟨htracking, hkeys⟩
  constructor
  case tracking => exact htracking
  case tracked =>
    intro other
    rw [SubShard.remove, hkeys, h.tracked, AList.mem_erase]

theorem SubShard.Bookkept.remove (h : sub.Bookkept cap) (key : Bytes) :
    (sub.remove key).Bookkept cap := by
  apply (h.toTracked.remove key).bookkept
  intro hcap
  exact (length_keys_erase_le sub.entries key).trans (h.withinCap hcap)

theorem foldl_onAdd_tracking (entries : EntryList) (hpolicy : policy.Tracking) :
    (entries.foldl (fun policy entry => policy.onAdd entry.1) policy).Tracking ∧ ∀ key, key ∈
          (entries.foldl (fun policy entry => policy.onAdd entry.1) policy).keys ↔
        key ∈ entries.keys ∨ key ∈ policy.keys := by
  induction entries generalizing policy with
  | nil => exact ⟨hpolicy, by simp⟩
  | cons entry rest ih =>
    rcases hpolicy.onAdd entry.1 with ⟨htracking, hkeys⟩
    rcases ih htracking with ⟨htracking', hkeys'⟩
    refine ⟨htracking', ?_⟩
    intro key
    rw [List.foldl_cons, hkeys', hkeys, List.keys_cons, List.mem_cons, or_left_comm, or_assoc]

theorem SubShard.swapPolicy_tracked (sub : SubShard) (order : MapOrder)
    {kind : PolicyKind} (hkind : kind ≠ .noop) :
    (sub.swapPolicy order kind).Tracked := by
  rcases PolicyKind.new_tracking hkind with ⟨hnew, hempty⟩
  rcases foldl_onAdd_tracking (order.arrange sub.entries.entries) hnew with
    ⟨htracking, hkeys⟩
  constructor
  case tracking => exact htracking
  case tracked =>
    intro key
    rw [SubShard.swapPolicy, hkeys, hempty]
    have hperm := (order.perm sub.entries.entries).map Sigma.fst
    simp only [List.not_mem_nil, or_false]
    exact hperm.mem_iff

theorem PolicyKind.new_tracked {kind : PolicyKind} (hkind : kind ≠ .noop) :
    SubShard.Tracked { entries := ∅, policy := kind.new } := by
  rcases PolicyKind.new_tracking hkind with ⟨htracking, hempty⟩
  constructor
  case tracking => exact htracking
  case tracked =>
    intro key
    rw [hempty]
    exact ⟨nofun, fun hmem => absurd hmem (AList.notMem_empty key)⟩

theorem bookkept_invariant : SubShardInvariant (fun kind => kind ≠ .noop) Bookkept where
  new := fun _ _ _ hkind =>
    (PolicyKind.new_tracked hkind).bookkept fun _ => Nat.zero_le _
  set := fun key value ttl now h _ => h.set key value ttl now
  remove := fun key h => h.remove key
  update := by
    intro route cap sub key e h hmem
    apply (h.toTracked.insert hmem e h.tracking fun _ => Iff.rfl).bookkept
    intro hcap
    rw [length_keys_insert_of_mem _ hmem]
    exact h.withinCap hcap
  swapPolicy := fun order _ hkind h =>
    (SubShard.swapPolicy_tracked _ order hkind).bookkept h.withinCap

def Command.lruOrLfu : Command → Bool
  | .setEvictionPolicy name => name == "lru" || name == "lfu"
  | _ => true

theorem Command.uses_of_lruOrLfu {command : Command} (h : command.lruOrLfu = true) :
    command.Uses fun kind => kind ≠ .noop := by
  cases command with
  | setEvictionPolicy name =>
    intro kind hkind
    simp only [Command.lruOrLfu, Bool.or_eq_true, beq_iff_eq] at h
    rcases h with rfl | rfl
    · cases hkind
      decide
    · cases hkind
      decide
  | _ => trivial

def trackedStore : TransitionSystem Cache CacheAction :=
  store.restrict fun c => c.policyFactory ≠ .noop

theorem trackedStore_each {c : Cache} {Q : SubShardProperty}
    (hQ : SubShardInvariant (fun kind => kind ≠ .noop) Q)
    (hreach : trackedStore.ReachableBy (fun _ a => a.command.lruOrLfu = true) c) :
    ∀ t ∈ c.tables, t.Each Q := by
  have heach : c.Each (fun kind => kind ≠ .noop) Q := by
    apply hreach.invariant
    · rintro c ⟨⟨opts, hnew⟩, hpolicy⟩
      exact hQ.new_each hnew hpolicy
    · intro c a next h hcommand hstep
      exact hQ.apply_each h (Command.uses_of_lruOrLfu hcommand) hstep
  intro t ht
  rcases List.mem_cons.mp ht with rfl | hold
  · exact heach.table
  · rw [Option.mem_toList, Option.map_eq_some_iff] at hold
    rcases hold with ⟨m, hm, rfl⟩
    exact heach.old m hm

theorem policy_tracks_entries {c : Cache}
    (hreach : trackedStore.ReachableBy (fun _ a => a.command.lruOrLfu = true) c)
    {t : ShardTable} (ht : t ∈ c.tables) (i : Fin (2 ^ t.bits))
    (j : Fin (t.shards i).numSubs) :
    (∀ key, key ∈ ((t.shards i).subs j).policy.keys ↔ key ∈ ((t.shards i).subs j).entries) ∧
    (∀ key, key ∈ ((t.shards i).subs j).entries → t.index key = i ∧ (t.shards i).subIndex key = j) ∧
    (0 < (t.shards i).maxSubSize →
      ((t.shards i).subs j).entries.keys.length ≤ (t.shards i).maxSubSize) := by
  have hrouted : SubShardInvariant (fun kind => kind ≠ .noop) Routed :=
    routed_invariant.weaken fun _ _ => trivial
  have hbook := trackedStore_each bookkept_invariant hreach t ht i j
  exact ⟨hbook.tracked, trackedStore_each hrouted hreach t ht i j, hbook.withinCap⟩

def evictingRun : List CacheAction := [⟨.set [97] (some [1]) none, .asStored, fun _ _ => 1⟩,
    ⟨.set [98] (some [2]) none, .asStored, fun _ _ => 1⟩,
    ⟨.setEvictionPolicy "lfu", .asStored, fun _ _ => 1⟩,
    ⟨.set [99] (some [3]) none, .asStored, fun _ _ => 1⟩]

theorem policy_tracks_entries_evictingRun :
    ∃ c, trackedStore.ReachableBy (fun _ a => a.command.lruOrLfu = true) c ∧
      c.len (fun _ => 1) = 2 ∧
      ∀ t ∈ c.tables, ∀ i j key, key ∈ ((t.shards i).subs j).policy.keys ↔
          key ∈ ((t.shards i).subs j).entries := by
  have hinit : trackedStore.init
      { Cache.ofDefaults with table := newTable 0 .lru 2, maxSize := 2 } :=
    ⟨⟨{ newOptions with shardCount := 1, maxSize := 2 }, rfl⟩, by decide⟩
  have hrun : ((trackedStore.runBy (fun _ a => a.command.lruOrLfu = true)
      { Cache.ofDefaults with table := newTable 0 .lru 2, maxSize := 2 }
      evictingRun).map fun c => c.len fun _ => 1) = some 2 := by
    decide +kernel
  rcases TransitionSystem.exists_reachableBy hinit hrun with ⟨c, hreach, hlen⟩
  exact ⟨c, hreach, hlen, fun t ht i j => (policy_tracks_entries hreach ht i j).1⟩

end MCache.Store
