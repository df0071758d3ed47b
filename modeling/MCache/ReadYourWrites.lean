import MCache.CacheCommands
import MCache.StoreBookkeeping

/-!
# Reading what was just written

`Set` gives a new key to the policy before it evicts.  An LRU policy has it in
front then and evicts from the back.  An LFU policy has it behind the other
keys of frequency one, which are the first to go; when there are fewer of them
than entries above the limit, the new key is evicted by its own `Set`.
-/

namespace MCache.Store

section FirstBucket

variable {p : LFUPolicy} {first : Bytes} {rest : List Bytes}

theorem LFUPolicy.WellFormed.evict_first (hp : p.WellFormed)
    (hmin : p.minFreq = 1) (hbucket : p.bucket 1 = first :: rest) :
    p.evict = (p.onRemove first, some first) := by
  have hmem : first ∈ p.bucket 1 := by simp [hbucket]
  rw [hp.mem_bucket] at hmem
  have hitem : first ∈ p.items := AList.lookup_isSome.mp (by simp [hmem])
  have hitems : p.items.keys ≠ [] := List.ne_nil_of_mem hitem
  have hne : p.bucket p.minFreq ≠ [] := by
    rw [hmin, hbucket]
    simp
  rw [LFUPolicy.evict, if_neg hitems, if_neg hne, LFUPolicy.evictFront, hmin, hbucket]

theorem LFUPolicy.WellFormed.onRemove_first (hp : p.WellFormed)
    (hbucket : p.bucket 1 = first :: rest) (hrest : rest ≠ []) :
    (p.onRemove first).minFreq = p.minFreq ∧ (p.onRemove first).bucket 1 = rest := by
  have hmem : first ∈ p.bucket 1 := by simp [hbucket]
  rw [hp.mem_bucket] at hmem
  have herase : (p.bucket 1).erase first = rest := by
    rw [hbucket, List.erase_cons_head]
  have hremove : p.onRemove first =
      { p.removeFromBucket first 1 with items := p.items.erase first } := by
    simp only [LFUPolicy.onRemove, hmem, LFUPolicy.removeFromBucket_items]
  rw [hremove]
  constructor
  · simp only [LFUPolicy.removeFromBucket, herase, if_neg hrest]
  · change (p.removeFromBucket first 1).bucket 1 = rest
    rw [LFUPolicy.removeFromBucket_bucket, if_pos rfl, herase]

end FirstBucket

section EvictionLoop

variable {cap fuel : ℕ} {sub : SubShard} {key : Bytes}

theorem SubShard.evictLoop_noop (hpolicy : sub.policy = .noop) :
    (SubShard.evictLoop cap fuel sub).1 = sub := by
  rcases sub with ⟨entries, policy⟩
  subst hpolicy
  cases fuel with
  | zero => rfl
  | succ fuel =>
    unfold SubShard.evictLoop
    split_ifs <;> rfl

theorem SubShard.evictLoop_lru_lookup {p : LRUPolicy} {rest : List Bytes}
    (hpolicy : sub.policy = .lru p) (horder : p.order = key :: rest)
    (h : sub.Tracked) :
    (SubShard.evictLoop cap fuel sub).1.entries.lookup key = sub.entries.lookup key := by
  induction fuel generalizing sub p rest with
  | zero => rfl
  | succ fuel ih =>
    have hlength := length_tracked h.tracking h.tracked
    rw [hpolicy, Policy.keys, horder, List.length_cons] at hlength
    unfold SubShard.evictLoop
    split_ifs with hover
    · have hrest : rest ≠ [] := List.ne_nil_of_length_pos (by omega)
      have hfront : p.evict.1.order = key :: rest.dropLast := by
        simp only [LRUPolicy.evict, horder]
        exact List.dropLast_cons_of_ne_nil hrest
      rcases h.evict (by omega) with ⟨policy, victim, hevict, hlater, -⟩
      rw [hevict]
      rw [hpolicy, Policy.evict, Prod.mk.injEq] at hevict
      rcases hevict with ⟨rfl, -⟩
      have hkept : key ∈ sub.entries.erase victim :=
        (hlater.tracked key).mp (by simp [Policy.keys, hfront])
      exact (ih rfl hfront hlater).trans (AList.lookup_erase_ne (AList.mem_erase.mp hkept).1)
    · rfl

theorem SubShard.evictLoop_lfu_lookup {p : LFUPolicy} {older : List Bytes}
    (hpolicy : sub.policy = .lfu p) (hmin : p.minFreq = 1)
    (hbucket : p.bucket 1 = older ++ [key]) (h : sub.Tracked) (hcap : 0 < cap)
    (hfuel : sub.entries.keys.length < fuel) :
    (SubShard.evictLoop cap fuel sub).1.entries.lookup key =
      if sub.entries.keys.length ≤ cap + older.length then
        sub.entries.lookup key
      else none := by
  induction fuel generalizing sub p older with
  | zero => exact absurd hfuel (Nat.not_lt_zero _)
  | succ fuel ih =>
    have hwf : p.WellFormed := by
      have htracking := h.tracking
      rw [hpolicy] at htracking
      exact htracking
    unfold SubShard.evictLoop
    by_cases hover : cap < sub.entries.keys.length
    · rcases h.evict (by omega) with ⟨policy, victim, hevict, hlater, hsize⟩
      rw [if_pos ⟨hcap, hover⟩, hevict]
      cases older with
      | nil =>
        rw [hpolicy, Policy.evict, hwf.evict_first hmin hbucket,
          Prod.mk.injEq, Option.some.injEq] at hevict
        rcases hevict with ⟨rfl, rfl⟩
        rw [if_neg (by simpa using hover)]
        rw [SubShard.lookup_evictLoop, AList.lookup_erase, ite_self]
      | cons first older =>
        rw [hpolicy, Policy.evict, hwf.evict_first hmin hbucket,
          Prod.mk.injEq, Option.some.injEq] at hevict
        rcases hevict with ⟨rfl, rfl⟩
        rcases hwf.onRemove_first hbucket (by simp) with ⟨hmin', hbucket'⟩
        have hother : key ≠ first := by
          rintro rfl
          have hnodup := hwf.nodup 1
          rw [hbucket] at hnodup
          simp at hnodup
        have hrest := ih rfl (hmin'.trans hmin) hbucket' hlater (by dsimp only; omega)
        refine hrest.trans ?_
        rw [AList.lookup_erase_ne hother, List.length_cons]
        congr 1
        rw [eq_iff_iff]
        dsimp only
        omega
    · rw [if_neg fun hlt => hover hlt.2, if_pos (by omega)]

end EvictionLoop

def SubShard.Consistent (sub : SubShard) : Prop := sub.policy = .noop ∨ sub.Tracked

theorem SubShard.set_noop {cap : ℕ} {sub : SubShard}
    (hpolicy : sub.policy = .noop) (key value : Bytes) (ttl now : ℤ) :
    (sub.set cap key value ttl now).1 =
      { entries := sub.entries.insert key (newEntry now value ttl)
        policy := .noop } := by
  unfold SubShard.set
  rw [hpolicy]
  split_ifs
  · rfl
  · exact SubShard.evictLoop_noop rfl

theorem foldl_onAdd_noop (entries : EntryList) :
    entries.foldl (fun policy entry => policy.onAdd entry.1) Policy.noop = .noop := by
  induction entries with
  | nil => rfl
  | cons entry rest ih => exact ih

theorem consistent_invariant : SubShardInvariant (fun _ => True) fun _ _ sub => sub.Consistent where
  new := by
    intro route cap kind _
    by_cases hkind : kind = .noop
    · subst kind
      exact .inl rfl
    · exact .inr (PolicyKind.new_tracked hkind)
  set := by
    rintro route cap sub key value ttl now (hnoop | htracked) -
    · left
      rw [SubShard.set_noop hnoop]
    · exact .inr (htracked.set cap key value ttl now)
  remove := by
    rintro route cap sub key (hnoop | htracked)
    · left
      rw [SubShard.remove, hnoop]
      rfl
    · exact .inr (htracked.remove key)
  update := by
    rintro route cap sub key e (hnoop | htracked) hmem
    · exact .inl hnoop
    · exact .inr (htracked.insert hmem e htracked.tracking fun _ => Iff.rfl)
  swapPolicy := by
    intro route cap sub order kind _ _
    by_cases hkind : kind = .noop
    · subst kind
      exact .inl (foldl_onAdd_noop _)
    · exact .inr (SubShard.swapPolicy_tracked sub order hkind)

def SubShard.dropsNew (sub : SubShard) (cap : ℕ) (key : Bytes) : Bool :=
  match sub.policy with
  | .lfu p =>
    decide (0 < cap ∧ key ∉ sub.entries ∧ (p.bucket 1).length + cap ≤ sub.entries.keys.length)
  | _ => false

theorem SubShard.evictLoop_zero {fuel : ℕ} (sub : SubShard) :
    (SubShard.evictLoop 0 fuel sub).1 = sub := by
  cases fuel with
  | zero => rfl
  | succ fuel => simp [SubShard.evictLoop]

theorem SubShard.Tracked.add_lookup {sub : SubShard} (h : sub.Tracked)
    (cap : ℕ) {key : Bytes} (hkey : key ∉ sub.entries) (e : CacheEntry) :
    (SubShard.evictLoop cap ((sub.policy.onAdd key).keys.length + 1)
        ⟨sub.entries.insert key e, sub.policy.onAdd key⟩).1.entries.lookup key =
      if sub.dropsNew cap key then none else some e := by
  have hadded := h.add key e
  have hfuel := hadded.length_lt_rounds
  have hnew : key ∉ sub.policy.keys := fun hmem => hkey ((h.tracked key).mp hmem)
  have hsize : (sub.entries.insert key e).keys.length = sub.entries.keys.length + 1 :=
    length_keys_insert_of_notMem _ hkey e
  cases hpolicy : sub.policy with
  | noop =>
    have htracking := h.tracking
    rw [hpolicy] at htracking
    cases htracking
  | lru p =>
    rw [hpolicy] at hadded hnew
    change key ∉ p.order at hnew
    have horder : (p.onAdd key).order = key :: p.order := by
      rw [LRUPolicy.onAdd, if_neg hnew]
    rw [SubShard.dropsNew, hpolicy, if_neg (by simp)]
    rw [SubShard.evictLoop_lru_lookup rfl horder hadded, AList.lookup_insert]
  | lfu p =>
    rw [hpolicy] at hadded hnew hfuel
    change key ∉ p.items at hnew
    have hadd : p.onAdd key = { p.pushBack key 1 with minFreq := 1 } := by
      rw [LFUPolicy.onAdd, if_neg hnew]
    have hbucket : (p.onAdd key).bucket 1 = p.bucket 1 ++ [key] := by
      rw [hadd]
      exact (LFUPolicy.pushBack_bucket key 1 1).trans (if_pos rfl)
    rcases Nat.eq_zero_or_pos cap with rfl | hcap
    · rw [SubShard.evictLoop_zero, AList.lookup_insert, SubShard.dropsNew,
        hpolicy, if_neg (by simp)]
    · have hloop := SubShard.evictLoop_lfu_lookup rfl (by rw [hadd]) hbucket hadded hcap hfuel
      refine hloop.trans ?_
      rw [hsize, AList.lookup_insert, SubShard.dropsNew, hpolicy]
      by_cases hfits : sub.entries.keys.length + 1 ≤ cap + (p.bucket 1).length
      · rw [if_pos hfits, if_neg (by simp only [decide_eq_true_eq]; omega)]
      · rw [if_neg hfits, if_pos]
        exact decide_eq_true ⟨hcap, hkey, by omega⟩

theorem SubShard.Consistent.set_lookup {sub : SubShard} (h : sub.Consistent)
    (cap : ℕ) (key value : Bytes) (ttl now : ℤ) :
    (sub.set cap key value ttl now).1.entries.lookup key =
      if sub.dropsNew cap key then none else some (newEntry now value ttl) := by
  rcases h with hnoop | htracked
  · rw [SubShard.set_noop hnoop, AList.lookup_insert, SubShard.dropsNew, hnoop]
    rfl
  · unfold SubShard.set
    by_cases hmem : key ∈ sub.entries
    · rw [if_pos hmem, AList.lookup_insert, if_neg]
      rw [SubShard.dropsNew]
      split
      · simp [hmem]
      · simp
    · rw [if_neg hmem]
      exact htracked.add_lookup cap hmem _

def Cache.dropsNew (c : Cache) (key : Bytes) : Bool :=
  ((c.table.shard key).subs ((c.table.shard key).subIndex key)).dropsNew
    (c.table.shard key).maxSubSize key

theorem ShardTable.set_lookup_self {t : ShardTable} {key : Bytes}
    (h : ((t.shard key).subs ((t.shard key).subIndex key)).Consistent)
    (value : Bytes) (ttl now : ℤ) :
    (t.set key value ttl now).lookup key =
      if ((t.shard key).subs ((t.shard key).subIndex key)).dropsNew (t.shard key).maxSubSize key
      then none else some (newEntry now value ttl) := by
  rw [ShardTable.set, ShardTable.lookup_withShard_self, Shard.set, Shard.lookup_withSub, if_pos rfl]
  exact h.set_lookup _ key value ttl now

theorem Cache.set_idle {c next : Cache} {order : MapOrder} {clock : Clock}
    {key value : Bytes} {ttl : Option ℤ} (hidle : c.migration = none)
    (hset : c.set order clock key (some value) ttl = some (next, .ok ())) :
    c.closed = false ∧ key ≠ [] ∧
      next = { c with
        table := c.table.set key value (c.ttlOrDefault ttl) (clock .current key) } := by
  rcases Cache.set_ok_open hset with ⟨hopen, hkey⟩
  rw [Cache.set_of_idle hopen hidle order clock hkey] at hset
  cases hset
  exact ⟨hopen, hkey, rfl⟩

theorem Cache.get_idle {c : Cache} (hidle : c.migration = none)
    (hopen : c.closed = false) {key : Bytes} (hkey : key ≠ [])
    (order : MapOrder) (clock : Clock) (value : Bytes) :
    (∃ later, c.get order clock key = some (later, .ok value)) ↔
      ∃ e, c.table.lookup key = some e ∧ e.value = value ∧
        e.isExpired (clock .current key) = false := by
  have hread := c.table.get_value key (clock .current key) (clock .currentAgain key)
  unfold Cache.get
  rw [hopen, if_neg (by simp), if_neg hkey]
  dsimp only
  rw [hidle, hread]
  cases hlookup : c.table.lookup key with
  | none => simp
  | some e =>
    cases hexpired : e.isExpired (clock .current key) with
    | true => simp [Option.filter, hexpired]
    | false => simp [Option.filter, hexpired, Cache.step]

theorem newEntry_live {now later ttl : ℤ} (hnow : 0 ≤ now)
    (hnowBound : now < 2 ^ 63) (httl : ttl < 2 ^ 63) (hlater : now ≤ later)
    (helapsed : 0 < ttl → later < now + ttl) (value : Bytes) :
    (newEntry now value ttl).isExpired later = false ↔ (0 < ttl → now + ttl < 2 ^ 63) := by
  unfold newEntry CacheEntry.isExpired
  by_cases hpos : 0 < ttl
  · rw [if_pos hpos, decide_eq_false_iff_not]
    have hdeadline := helapsed hpos
    by_cases hfits : now + ttl < 2 ^ 63
    · rw [int64_of_bounds (by omega) hfits]
      dsimp only
      exact iff_of_true (by omega) fun _ => hfits
    · rw [int64_of_overflow (by omega) (by omega)]
      dsimp only
      exact iff_of_false (by omega) fun h => hfits (h hpos)
  · simp [hpos]

theorem get_after_set {c next : Cache} (hreach : store.Reachable c)
    (hidle : c.migration = none) {order order' : MapOrder}
    {clock clock' : Clock} {key value : Bytes} {ttl : Option ℤ}
    (hset : c.set order clock key (some value) ttl = some (next, .ok ()))
    (hnow : 0 ≤ clock .current key) (hnowBound : clock .current key < 2 ^ 63)
    (httl : c.ttlOrDefault ttl < 2 ^ 63)
    (hlater : clock .current key ≤ clock' .current key)
    (helapsed : 0 < c.ttlOrDefault ttl →
      clock' .current key < clock .current key + c.ttlOrDefault ttl) :
    (∃ later, next.get order' clock' key = some (later, .ok value)) ↔ c.dropsNew key = false ∧
        (0 < c.ttlOrDefault ttl → clock .current key + c.ttlOrDefault ttl < 2 ^ 63) := by
  rcases Cache.set_idle hidle hset with ⟨hopen, hkey, hnext⟩
  have hconsistent := (store_each consistent_invariant hreach).table
    (c.table.index key) ((c.table.shard key).subIndex key)
  have hlookup := ShardTable.set_lookup_self hconsistent value
    (c.ttlOrDefault ttl) (clock .current key)
  have hlive := newEntry_live hnow hnowBound httl hlater helapsed value
  have hidle' : next.migration = none := by rw [hnext, hidle]
  have hopen' : next.closed = false := by rw [hnext, hopen]
  have htable : next.table = c.table.set key value (c.ttlOrDefault ttl)
      (clock .current key) := by rw [hnext]
  rw [Cache.get_idle hidle' hopen' hkey, htable, hlookup, ← hlive]
  cases hdrops : c.dropsNew key with
  | true =>
    rw [Cache.dropsNew] at hdrops
    simp [hdrops]
  | false =>
    rw [Cache.dropsNew] at hdrops
    simp [hdrops, newEntry]

def Cache.writeAndRead (c : Cache) (key value : Bytes) (ttl : Option ℤ) :
    Option (Except CacheError Unit × Except CacheError Bytes) :=
  (c.set .asStored (fun _ _ => 1) key (some value) ttl).bind fun written =>
    (written.1.get .asStored (fun _ _ => 1) key).map fun read =>
      (written.2, read.2)

def lfuCache : Cache :=
  { Cache.ofDefaults with
    table := newTable 0 .lfu 2
    policyFactory := .lfu
    maxSize := 2 }

theorem lfuCache_init : store.init lfuCache :=
  ⟨{ newOptions with shardCount := 1, maxSize := 2, evictionPolicy := "lfu" }, rfl⟩

def setAction (key value : Bytes) : CacheAction :=
  ⟨.set key (some value) none, .asStored, fun _ _ => 1⟩

theorem get_after_set_lfuCache : ∃ c next, store.Reachable c ∧ c.migration = none ∧
      c.set .asStored (fun _ _ => 1) [99] (some [3]) (some 5) = some (next, .ok ()) ∧
      ∃ later, next.get .asStored (fun _ _ => 2) [99] = some (later, .ok [3]) := by
  have hrun : (store.runBy (fun _ _ => True) lfuCache
      [setAction [97] [1], setAction [98] [2]]).map (fun c =>
        (c.migration.isSome, c.closed, c.dropsNew [99], c.ttlOrDefault (some 5))) =
      some (false, false, false, 5) := by
    decide +kernel
  rcases TransitionSystem.exists_reachableBy lfuCache_init hrun with
    ⟨c, hreach, hstate⟩
  simp only [Prod.mk.injEq, Option.isSome_eq_false_iff, Option.isNone_iff_eq_none] at hstate
  rcases hstate with ⟨hidle, hopen, hkept, httl⟩
  have hset : c.set .asStored (fun _ _ => 1) [99] (some [3]) (some 5) =
      some ({ c with table := c.table.set [99] [3] (c.ttlOrDefault (some 5)) 1 }, .ok ()) :=
    Cache.set_of_idle hopen hidle _ _ (by decide) [3] (some 5)
  refine ⟨c, _, hreach, hidle, hset, ?_⟩
  exact (get_after_set hreach hidle hset (by decide) (by decide)
    (by rw [httl]; decide) (by decide) (by rw [httl]; decide)).mpr
    ⟨hkept, by rw [httl]; decide⟩

theorem new_key_lost : ∃ c, store.Reachable c ∧ c.migration = none ∧
      c.writeAndRead [99] [3] none = some (.ok (), .error .keyNotFound) := by
  have hrun : (store.runBy (fun _ _ => True) lfuCache
      [setAction [97] [1], setAction [98] [2], setAction [97] [1],
        setAction [98] [2]]).map (fun c =>
          (c.migration.isSome, c.writeAndRead [99] [3] none)) =
      some (false, some (.ok (), .error .keyNotFound)) := by
    decide +kernel
  rcases TransitionSystem.exists_reachableBy lfuCache_init hrun with
    ⟨c, hreach, hstate⟩
  simp only [Prod.mk.injEq, Option.isSome_eq_false_iff, Option.isNone_iff_eq_none] at hstate
  exact ⟨c, hreach, hstate.1, hstate.2⟩

end MCache.Store
