import MCache.CacheCapacity
import MCache.ReadYourWrites

/-!
# The victims of the LRU policy

A `Set` puts its key in front of the list of its sub-shard, and nothing else
moves a key: reads leave the list alone, a deletion, a read of an expired entry
and `Cleanup` take keys out of it.  The list is therefore in the order of the
last `Set` of its keys, and the eviction takes the last one.
-/

namespace MCache.Store

def SetAfter (sets : List Bytes) (key other : Bytes) : Prop := sets.idxOf key < sets.idxOf other

def SubShard.Recent (sets : List Bytes) (sub : SubShard) : Prop :=
  ∃ p : LRUPolicy, sub.policy = .lru p ∧ p.order.Pairwise (SetAfter sets) ∧
    ∀ key ∈ p.order, key ∈ sets

def SubShard.EvictsOldest (sets : List Bytes) (sub : SubShard) (key : Bytes)
    (evicted : List Bytes) : Prop :=
  evicted = [] ∨ key ∉ sub.entries ∧ ∃ victim ∈ sub.entries, evicted = [victim] ∧
    ∀ other ∈ sub.entries, other ≠ victim → SetAfter sets other victim

section Lists

variable {sets keys : List Bytes} {key : Bytes}

theorem setAfter_latest {other : Bytes} (hne : other ≠ key) : SetAfter (key :: sets) key other := by
  rw [SetAfter, List.idxOf_cons_self, List.idxOf_cons_ne _ (Ne.symm hne)]
  exact Nat.succ_pos _

theorem pairwise_setAfter (h : keys.Pairwise (SetAfter sets)) (hkey : key ∉ keys) :
    keys.Pairwise (SetAfter (key :: sets)) := by
  refine h.imp_of_mem fun {a b} ha hb hafter => ?_
  rw [SetAfter, List.idxOf_cons_ne _ (ne_of_mem_of_not_mem ha hkey).symm,
    List.idxOf_cons_ne _ (ne_of_mem_of_not_mem hb hkey).symm]
  exact Nat.succ_lt_succ hafter

theorem pairwise_setAfter_cons (h : keys.Pairwise (SetAfter sets)) (hkey : key ∉ keys) :
    (key :: keys).Pairwise (SetAfter (key :: sets)) := by
  refine List.pairwise_cons.mpr ⟨fun other hother => ?_, pairwise_setAfter h hkey⟩
  exact setAfter_latest (ne_of_mem_of_not_mem hother hkey)

end Lists

section SubShards

variable {sets : List Bytes} {sub : SubShard} {key : Bytes} {cap : ℕ}

theorem recent_removals (sets : List Bytes) : RemovalInvariant fun _ _ sub => sub.Recent sets where
  remove := by
    rintro _ _ sub key ⟨p, hpolicy, hpairwise, hsets⟩
    refine ⟨p.onRemove key, ?_, hpairwise.sublist List.erase_sublist,
      fun x hx => hsets x (List.mem_of_mem_erase hx)⟩
    simp only [SubShard.remove, hpolicy, Policy.onRemove]
  update := fun _ _ h _ => h

theorem SubShard.Recent.other (h : sub.Recent sets) (hbook : sub.Bookkept cap)
    (hkey : key ∉ sub.entries) : sub.Recent (key :: sets) := by
  rcases h with ⟨p, hpolicy, hpairwise, hsets⟩
  refine ⟨p, hpolicy, pairwise_setAfter hpairwise fun hmem => hkey ?_,
    fun x hx => List.mem_cons_of_mem key (hsets x hx)⟩
  exact (hbook.tracked key).mp (hpolicy ▸ hmem)

theorem SubShard.evictLoop_fits {fuel : ℕ} (hfits : sub.entries.keys.length ≤ cap) :
    SubShard.evictLoop cap fuel sub = (sub, []) := by
  cases fuel with
  | zero => rfl
  | succ fuel => rw [SubShard.evictLoop, if_neg (by omega)]

theorem SubShard.evictLoop_last {fuel : ℕ} (front : List Bytes) {victim : Bytes}
    (hcap : 0 < cap) (hsize : sub.entries.keys.length = cap + 1)
    (hpolicy : sub.policy = .lru ⟨front ++ [victim]⟩) (hmem : victim ∈ sub.entries) :
    SubShard.evictLoop cap (fuel + 1) sub =
      (⟨sub.entries.erase victim, .lru ⟨front⟩⟩, [victim]) := by
  have hevict : sub.policy.evict = (.lru ⟨front⟩, some victim) := by
    simp [hpolicy, Policy.evict, LRUPolicy.evict]
  have hfits : (sub.entries.erase victim).keys.length ≤ cap := by
    have hlength := length_keys_erase sub.entries hmem
    omega
  rw [SubShard.evictLoop, if_pos (by omega), hevict]
  dsimp only
  rw [SubShard.evictLoop_fits hfits]

theorem SubShard.Recent.order (h : sub.Recent sets) (hbook : sub.Bookkept cap) :
    ∃ p : LRUPolicy, sub.policy = .lru p ∧ p.order.Pairwise (SetAfter sets) ∧
      (∀ x ∈ p.order, x ∈ sets) ∧ p.order.Nodup ∧
      ∀ x, x ∈ p.order ↔ x ∈ sub.entries := by
  rcases h with ⟨p, hpolicy, hpairwise, hsets⟩
  have htracking := hbook.tracking
  rw [hpolicy] at htracking
  refine ⟨p, hpolicy, hpairwise, hsets, htracking, fun x => ?_⟩
  rw [← hbook.tracked, hpolicy]
  rfl

structure SubShard.SetRecent (sets : List Bytes) (sub : SubShard) (key : Bytes)
    (result : SubShard × List Bytes) : Prop where
  recent : result.1.Recent (key :: sets)
  evicts : sub.EvictsOldest sets key result.2

theorem SubShard.SetRecent.mem_of_evicted {result : SubShard × List Bytes}
    (h : sub.SetRecent sets key result) {x : Bytes} (hx : x ∈ result.2) :
    x ∈ sub.entries := by
  rcases h.evicts with hnil | ⟨-, victim, hvictim, hone, -⟩
  · rw [hnil] at hx
    cases hx
  · rw [hone, List.mem_singleton] at hx
    exact hx ▸ hvictim

theorem SubShard.Recent.set_stored (h : sub.Recent sets) (hbook : sub.Bookkept cap)
    (hmem : key ∈ sub.entries) (value : Bytes) (ttl now : ℤ) :
    sub.SetRecent sets key (sub.set cap key value ttl now) := by
  rcases h.order hbook with ⟨p, hpolicy, hpairwise, hsets, hnodup, htracked⟩
  have hfront : key ∉ p.order.erase key := fun hx => (hnodup.mem_erase_iff.mp hx).1 rfl
  simp only [SubShard.set, if_pos hmem]
  refine ⟨⟨⟨key :: p.order.erase key⟩, ?_, ?_, ?_⟩, .inl rfl⟩
  · simp only [hpolicy, Policy.onAccess, LRUPolicy.onAccess, if_pos ((htracked key).mpr hmem)]
  · exact pairwise_setAfter_cons (hpairwise.sublist List.erase_sublist) hfront
  · intro x hx
    refine List.mem_cons.mpr ((List.mem_cons.mp hx).imp_right fun hx => ?_)
    exact hsets x (List.mem_of_mem_erase hx)

theorem SubShard.Recent.set_new (h : sub.Recent sets) (hbook : sub.Bookkept cap)
    (hcap : 0 < cap) (hmem : key ∉ sub.entries) (value : Bytes) (ttl now : ℤ) :
    sub.SetRecent sets key (sub.set cap key value ttl now) := by
  rcases h.order hbook with ⟨p, hpolicy, hpairwise, hsets, hnodup, htracked⟩
  have hnew : key ∉ p.order := fun hx => hmem ((htracked key).mp hx)
  have hadded : sub.policy.onAdd key = .lru ⟨key :: p.order⟩ := by
    simp only [hpolicy, Policy.onAdd, LRUPolicy.onAdd, if_neg hnew]
  have hsize := length_keys_insert_of_notMem sub.entries hmem (newEntry now value ttl)
  have horder := pairwise_setAfter_cons hpairwise hnew
  have hall : ∀ x ∈ key :: p.order, x ∈ key :: sets :=
    fun x hx => List.mem_cons.mpr ((List.mem_cons.mp hx).imp_right (hsets x))
  simp only [SubShard.set, if_neg hmem, hadded]
  by_cases hfits : (sub.entries.insert key (newEntry now value ttl)).keys.length ≤ cap
  · rw [SubShard.evictLoop_fits hfits]
    exact ⟨⟨_, rfl, horder, hall⟩, .inl rfl⟩
  · have hlength := length_tracked hbook.tracking hbook.tracked
    rw [hpolicy] at hlength
    have hwithin := hbook.withinCap hcap
    rcases List.eq_nil_or_concat p.order with hnil | ⟨front, victim, hlast⟩
    · rw [Policy.keys, hnil, List.length_nil] at hlength
      omega
    · rw [List.concat_eq_append] at hlast
      have hvictim : victim ∈ sub.entries := by
        rw [← htracked, hlast]
        exact List.mem_append_right _ (List.mem_singleton.mpr rfl)
      rw [hlast, ← List.cons_append] at horder hall
      rw [hlast] at hpairwise
      have hfull : (sub.entries.insert key (newEntry now value ttl)).keys.length = cap + 1 := by
        omega
      rw [hlast, SubShard.evictLoop_last (key :: front) hcap hfull rfl
        ((AList.mem_insert _).mpr (.inr hvictim))]
      refine ⟨⟨_, rfl, (List.pairwise_append.mp horder).1, fun x hx => hall x ?_⟩,
        .inr ⟨hmem, victim, hvictim, rfl, ?_⟩⟩
      · exact List.mem_append_left _ hx
      · intro other hother hne
        rw [← htracked, hlast, List.mem_append, List.mem_singleton] at hother
        exact (List.pairwise_append.mp hpairwise).2.2 other (hother.resolve_right hne)
          victim (List.mem_singleton.mpr rfl)

theorem SubShard.Recent.set (h : sub.Recent sets) (hbook : sub.Bookkept cap)
    (hcap : 0 < cap) (key value : Bytes) (ttl now : ℤ) :
    sub.SetRecent sets key (sub.set cap key value ttl now) := by
  by_cases hmem : key ∈ sub.entries
  · exact h.set_stored hbook hmem value ttl now
  · exact h.set_new hbook hcap hmem value ttl now

end SubShards

def Command.keepsTable : Command → Bool
  | .resize _ | .setEvictionPolicy _ => false
  | _ => true

section Commands

variable {c next : Cache} {Q : SubShardProperty}

theorem Cache.step_of_idle {order : MapOrder} {clock : Clock}
    (hstep : c.step order clock = some next) (hidle : c.migration = none) : next = c := by
  rw [Cache.step, hidle] at hstep
  exact (Option.some.inj hstep).symm

theorem RemovalInvariant.apply_idle (hQ : RemovalInvariant Q) {a : CacheAction}
    (hidle : c.migration = none) (hkeeps : a.command.keepsTable = true)
    (hset : ∀ key value ttl, a.command ≠ .set key value ttl)
    (h : c.table.Each Q) (hstep : c.apply a = some next) :
    next.migration = none ∧ next.table.Each Q := by
  cases Cache.apply_effect hstep with
  | same => exact ⟨hidle, h⟩
  | stepped hmid hstep =>
    cases hmid with
    | step =>
      rw [Cache.step_of_idle hstep hidle]
      exact ⟨hidle, h⟩
    | set hcommand => exact absurd hcommand (hset _ _ _)
    | get =>
      rw [Cache.step_of_idle hstep hidle]
      exact ⟨hidle, hQ.table_get h _ _ _⟩
    | getOld _ hm => cases hidle.symm.trans hm
    | del =>
      have hnone : ∀ key, (c.delOld key).migration = none := by
        simp [Cache.delOld, hidle]
      rw [Cache.step_of_idle hstep (hnone _)]
      exact ⟨hnone _, hQ.table_del h _⟩
  | cleanup => exact ⟨by rw [hidle]; rfl, hQ.table_cleanup h _⟩
  | resize hcommand =>
    rw [hcommand] at hkeeps
    cases hkeeps
  | expire => exact ⟨hidle, h.withShard _ (hQ.shard_expire (h _) _ _ _ _)⟩
  | persist => exact ⟨hidle, h.withShard _ (hQ.shard_persist (h _) _ _)⟩
  | collection => exact ⟨hidle, h.withShard _ (h _)⟩
  | setEvictionPolicy hcommand =>
    rw [hcommand] at hkeeps
    cases hkeeps
  | setRehasher => exact ⟨rfl, h⟩
  | close => exact ⟨rfl, h⟩

end Commands

section Tables

variable {t : ShardTable} {sets : List Bytes}

theorem ShardTable.each_set {Q : SubShardProperty} {key value : Bytes} {ttl now : ℤ}
    (hself : Q (t.Beside · key) (t.shard key).maxSubSize
      (((t.shard key).subs ((t.shard key).subIndex key)).set
        (t.shard key).maxSubSize key value ttl now).1)
    (hothers : t.Each fun route cap sub => ¬ route key → Q route cap sub) :
    (t.set key value ttl now).Each Q := by
  change ∀ i : Fin (2 ^ t.bits), (Function.update t.shards (t.index key) _ i).Each Q _
  intro i
  by_cases hi : i = t.index key
  · subst hi
    rw [Function.update_self]
    change ∀ j : Fin (t.shard key).numSubs, Q _ _
      (Function.update (t.shard key).subs ((t.shard key).subIndex key) _ j)
    intro j
    by_cases hj : j = (t.shard key).subIndex key
    · subst hj
      rw [Function.update_self]
      exact hself
    · rw [Function.update_of_ne hj]
      exact hothers _ j fun hroute => hj hroute.2.symm
  · rw [Function.update_of_ne hi]
    exact fun j => hothers i j fun hroute => hi hroute.1.symm

theorem ShardTable.set_recent (hrouted : t.Each Routed) (hbook : t.Each Bookkept)
    (hcap : ∀ i, 0 < (t.shards i).maxSubSize)
    (h : t.Each fun _ _ sub => sub.Recent sets) (key value : Bytes) (ttl now : ℤ) :
    (t.set key value ttl now).Each fun _ _ sub => sub.Recent (key :: sets) := by
  apply ShardTable.each_set
  · exact ((h _ _).set (hbook _ _) (hcap _) key value ttl now).recent
  · intro i j hnot
    exact (h i j).other (hbook i j) fun hmem => hnot (hrouted i j key hmem)

def ShardTable.subShard (t : ShardTable) (key : Bytes) : SubShard :=
  (t.shard key).subs ((t.shard key).subIndex key)

theorem ShardTable.mem_set_iff {key value : Bytes} {ttl now : ℤ} (hrouted : t.Each Routed)
    (hset : (t.subShard key).SetRecent sets key
      ((t.subShard key).set (t.shard key).maxSubSize key value ttl now)) (x : Bytes) :
    ((t.set key value ttl now).lookup x).isSome = true ↔
      (x = key ∨ (t.lookup x).isSome = true) ∧ x ∉ t.evictedBy key value ttl now := by
  have hplace : x ∈ t.evictedBy key value ttl now → t.Beside x key :=
    fun hevicted => hrouted _ _ x (hset.mem_of_evicted hevicted)
  simp only [t.lookup_set, and_iff_right_of_imp hplace]
  split_ifs with hevicted hkey
  · simp [hevicted]
  · exact iff_of_true rfl ⟨.inl hkey, hevicted⟩
  · simp [hkey, hevicted]

end Tables

structure RecordedCache where
  cache : Cache
  sets : List Bytes

namespace RecordedCache

def record (r : RecordedCache) (a : CacheAction) : List Bytes :=
  match a.command with
  | .set key value ttl =>
    match r.cache.set a.order a.clock key value ttl with
    | some (_, .ok _) => key :: r.sets
    | _ => r.sets
  | _ => r.sets

def apply (r : RecordedCache) (a : CacheAction) : Option RecordedCache :=
  (r.cache.apply a).map fun next => ⟨next, r.record a⟩

end RecordedCache

def lruStore : TransitionSystem RecordedCache CacheAction where
  init := fun r => r.sets = [] ∧ r.cache.policyFactory = .lru ∧
    ∃ opts : Options, Cache.new opts = .ok r.cache ∧ 0 < opts.maxSize
  step := RecordedCache.apply

structure RecordedCache.Sound (r : RecordedCache) : Prop where
  tracked : trackedStore.ReachableBy (fun _ a => a.command.lruOrLfu = true) r.cache
  limited : 0 < r.cache.maxSize
  idle : r.cache.migration = none
  recent : r.cache.table.Each fun _ _ sub => sub.Recent r.sets

section Runs

variable {r next : RecordedCache} {a : CacheAction}

theorem lruStore_init (hinit : lruStore.init r) : r.Sound := by
  rcases r with ⟨c, sets⟩
  rcases hinit with ⟨rfl, hpolicy, opts, hnew, hmax⟩
  dsimp only at hpolicy hnew
  rcases Cache.new_ok hnew with ⟨-, -, hc⟩
  refine ⟨.init ⟨⟨opts, hnew⟩, fun hnoop => nomatch hpolicy.symm.trans hnoop⟩, ?_, ?_, ?_⟩
  · dsimp only
    rw [hc]
    dsimp only
    omega
  · dsimp only
    rw [hc]
  · dsimp only
    rw [hc, hpolicy]
    exact fun i j => ⟨.empty, rfl, List.Pairwise.nil, nofun⟩

theorem RecordedCache.record_of_not_set
    (hset : ∀ key value ttl, a.command ≠ .set key value ttl) : r.record a = r.sets := by
  unfold RecordedCache.record
  split
  · rename_i key value ttl hcommand
    exact absurd hcommand (hset key value ttl)
  · rfl

namespace RecordedCache.Sound

theorem routed (h : r.Sound) : r.cache.table.Each Routed :=
  trackedStore_each (routed_invariant.weaken fun _ _ => trivial) h.tracked _ (List.mem_cons_self ..)

theorem bookkept (h : r.Sound) : r.cache.table.Each Bookkept :=
  trackedStore_each bookkept_invariant h.tracked _ (List.mem_cons_self ..)

theorem maxSubSize_pos (h : r.Sound) (i : Fin (2 ^ r.cache.table.bits)) :
    0 < (r.cache.table.shards i).maxSubSize := by
  rw [(store_divided h.tracked i).2]
  exact (newShard_capacity (perShardMax_pos h.limited _)).1

theorem recent_of_set (h : r.Sound) {c : Cache} {key : Bytes} {value : Option Bytes}
    {ttl : Option ℤ} (hcommand : a.command = .set key value ttl)
    (happly : r.cache.apply a = some c) :
    c.migration = none ∧ c.table.Each fun _ _ sub => sub.Recent (r.record a) := by
  simp only [Cache.apply, hcommand] at happly
  rcases Option.map_eq_some_iff.mp happly with ⟨result, hresult, rfl⟩
  by_cases hrefused : r.cache.closed = true ∨ key = [] ∨ value = none
  · rcases Cache.set_refused hrefused with ⟨e, he⟩
    have hrecord : r.record a = r.sets := by
      simp only [RecordedCache.record, hcommand, he]
    rw [he] at hresult
    cases hresult
    rw [hrecord]
    exact ⟨h.idle, h.recent⟩
  · rw [not_or, not_or, Bool.not_eq_true] at hrefused
    rcases Option.ne_none_iff_exists'.mp hrefused.2.2 with ⟨stored, rfl⟩
    have hset := Cache.set_of_idle hrefused.1 h.idle a.order a.clock hrefused.2.1 stored ttl
    have hrecord : r.record a = key :: r.sets := by
      simp only [RecordedCache.record, hcommand, hset]
    rw [hset] at hresult
    cases hresult
    rw [hrecord]
    exact ⟨h.idle, ShardTable.set_recent h.routed h.bookkept h.maxSubSize_pos h.recent
      key stored _ _⟩

theorem step (h : r.Sound) (hkeeps : a.command.keepsTable = true)
    (hstep : lruStore.step r a = some next) : next.Sound := by
  rcases Option.map_eq_some_iff.mp hstep with ⟨c, happly, rfl⟩
  have htracked : trackedStore.ReachableBy (fun _ a => a.command.lruOrLfu = true) c := by
    refine h.tracked.step ?_ happly
    cases hcommand : a.command with
    | setEvictionPolicy name =>
      rw [hcommand] at hkeeps
      cases hkeeps
    | _ => rfl
  have hlimited : 0 < c.maxSize := by
    rw [Cache.apply_maxSize happly]
    exact h.limited
  by_cases hset : ∃ key value ttl, a.command = .set key value ttl
  · rcases hset with ⟨key, value, ttl, hcommand⟩
    rcases h.recent_of_set hcommand happly with ⟨hidle, hrecent⟩
    exact ⟨htracked, hlimited, hidle, hrecent⟩
  · push Not at hset
    rcases (recent_removals r.sets).apply_idle h.idle hkeeps hset h.recent happly with
      ⟨hidle, hrecent⟩
    refine ⟨htracked, hlimited, hidle, ?_⟩
    rw [RecordedCache.record_of_not_set hset]
    exact hrecent

end RecordedCache.Sound

end Runs

theorem lruStore_sound {r : RecordedCache}
    (hreach : lruStore.ReachableBy (fun _ a => a.command.keepsTable = true) r) :
    r.Sound := by
  apply hreach.invariant
  · exact fun r hinit => lruStore_init hinit
  · exact fun r a next h hkeeps hstep => h.step hkeeps hstep

theorem set_evicts_oldest {r : RecordedCache}
    (hreach : lruStore.ReachableBy (fun _ a => a.command.keepsTable = true) r)
    {next : Cache} {order : MapOrder} {clock : Clock} {key value : Bytes}
    {ttl : Option ℤ}
    (hset : r.cache.set order clock key (some value) ttl = some (next, .ok ())) :
    ∃ evicted, evicted = r.cache.table.evictedBy key value (r.cache.ttlOrDefault ttl)
        (clock .current key) ∧
      (∀ x, (next.table.lookup x).isSome = true ↔
        (x = key ∨ (r.cache.table.lookup x).isSome = true) ∧ x ∉ evicted) ∧
      (key ∈ (r.cache.table.subShard key).entries → evicted = []) ∧
      (evicted ≠ [] → ∃ victim ∈ (r.cache.table.subShard key).entries,
        evicted = [victim] ∧ victim ∈ r.sets ∧
        ∀ other ∈ (r.cache.table.subShard key).entries, other ≠ victim →
          SetAfter r.sets other victim) := by
  have hsound := lruStore_sound hreach
  rcases Cache.set_idle hsound.idle hset with ⟨-, -, rfl⟩
  have hbook := hsound.bookkept (r.cache.table.index key) ((r.cache.table.shard key).subIndex key)
  have hrecent := hsound.recent (r.cache.table.index key) ((r.cache.table.shard key).subIndex key)
  have hresult := hrecent.set hbook (hsound.maxSubSize_pos _) key value
    (r.cache.ttlOrDefault ttl) (clock .current key)
  refine ⟨_, rfl, fun x => ?_, fun hmem => ?_, fun hne => ?_⟩
  · exact ShardTable.mem_set_iff hsound.routed hresult x
  · rcases hresult.evicts with hnil | ⟨hnew, -⟩
    · exact hnil
    · exact absurd hmem hnew
  · rcases hresult.evicts with hnil | ⟨-, victim, hvictim, hevicted, holdest⟩
    · exact absurd hnil hne
    · rcases hrecent.order hbook with ⟨p, -, -, hsets, -, htracked⟩
      exact ⟨victim, hvictim, hevicted, hsets victim ((htracked victim).mpr hvictim), holdest⟩

def fullRun : List CacheAction := [⟨.set [97] (some [1]) none, .asStored, fun _ _ => 1⟩,
    ⟨.set [98] (some [2]) none, .asStored, fun _ _ => 1⟩,
    ⟨.get [97], .asStored, fun _ _ => 1⟩]

theorem set_evicts_oldest_fullRun :
    ∃ r next, lruStore.ReachableBy (fun _ a => a.command.keepsTable = true) r ∧
      r.cache.set .asStored (still 1) [99] (some [3]) none = some (next, .ok ()) ∧
      r.cache.table.evictedBy [99] [3] 0 1 = [[97]] ∧
      ∀ x, (next.table.lookup x).isSome = true ↔
        (x = [99] ∨ (r.cache.table.lookup x).isSome = true) ∧ x ∉ [[97]] := by
  let start : RecordedCache :=
    ⟨{ Cache.ofDefaults with table := newTable 0 .lru 2, maxSize := 2 }, []⟩
  have hinit : lruStore.init start :=
    ⟨rfl, rfl, { newOptions with shardCount := 1, maxSize := 2 }, rfl, by decide⟩
  have hrun : (lruStore.runBy (fun _ a => a.command.keepsTable = true) start
      fullRun).map (fun r => (r.cache.closed, r.cache.migration.isNone,
        r.cache.defaultTTL, r.cache.table.evictedBy [99] [3] 0 1)) =
        some (false, true, 0, [[97]]) := by
    decide +kernel
  rcases TransitionSystem.exists_reachableBy hinit hrun with ⟨r, hreach, hfacts⟩
  simp only [Prod.mk.injEq, Option.isNone_iff_eq_none] at hfacts
  rcases hfacts with ⟨hopen, hidle, hdefault, hevicted⟩
  have hset := Cache.set_of_idle hopen hidle .asStored (still 1)
    (show ([99] : Bytes) ≠ [] by decide) [3] none
  rcases set_evicts_oldest hreach hset with ⟨evicted, hsame, hkeys, -, -⟩
  have htaken : evicted = [[97]] := by
    rw [hsame, Cache.ttlOrDefault, hdefault]
    exact hevicted
  rw [htaken] at hkeys
  exact ⟨r, _, hreach, hset, hevicted, hkeys⟩

end MCache.Store
