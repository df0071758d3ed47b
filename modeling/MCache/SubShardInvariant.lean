import MCache.CommandEffects

/-!
# Invariants of sub-shards

Entries come and go in a few ways only: a store, a removal, a new deadline
for an entry that is there, and a change of the policy.  A property of
sub-shards that these keep, and that new ones have, holds of every sub-shard
of both tables in every run.  The property may speak of the keys that are
routed to the sub-shard and of its size limit.
-/

namespace MCache.Store

abbrev SubShardProperty := (Bytes → Prop) → ℕ → SubShard → Prop

structure SubShardInvariant (allowed : PolicyKind → Prop) (Q : SubShardProperty) : Prop where
  new : ∀ route cap kind, allowed kind → Q route cap { entries := ∅, policy := kind.new }
  set : ∀ {route : Bytes → Prop} {cap sub} (key value ttl now), Q route cap sub → route key →
      Q route cap (sub.set cap key value ttl now).1
  remove : ∀ {route cap sub} (key), Q route cap sub → Q route cap (sub.remove key)
  update : ∀ {route cap} {sub : SubShard} (key e), Q route cap sub → key ∈ sub.entries →
      Q route cap { sub with entries := sub.entries.insert key e }
  swapPolicy : ∀ {route cap sub} (order kind), allowed kind → Q route cap sub →
      Q route cap (sub.swapPolicy order kind)

theorem SubShardInvariant.weaken {allowed fewer : PolicyKind → Prop}
    {Q : SubShardProperty} (hQ : SubShardInvariant allowed Q)
    (hfewer : ∀ kind, fewer kind → allowed kind) : SubShardInvariant fewer Q :=
  { hQ with
    new := fun route cap kind hkind => hQ.new route cap kind (hfewer kind hkind)
    swapPolicy := fun order kind hkind h =>
      hQ.swapPolicy order kind (hfewer kind hkind) h }

structure RemovalInvariant (Q : SubShardProperty) : Prop where
  remove : ∀ {route cap sub} (key), Q route cap sub → Q route cap (sub.remove key)
  update : ∀ {route cap} {sub : SubShard} (key e), Q route cap sub → key ∈ sub.entries →
      Q route cap { sub with entries := sub.entries.insert key e }

theorem SubShardInvariant.removals {allowed : PolicyKind → Prop}
    {Q : SubShardProperty} (hQ : SubShardInvariant allowed Q) : RemovalInvariant Q :=
  ⟨hQ.remove, hQ.update⟩

section SubShards

variable {Q : SubShardProperty}
    {route : Bytes → Prop} {cap : ℕ} {sub : SubShard}

variable (hQ : RemovalInvariant Q)
include hQ

variable (h : Q route cap sub)
include h

theorem RemovalInvariant.get (key : Bytes) (now again : ℤ) :
    Q route cap (sub.get key now again).1 := by
  unfold SubShard.get
  cases sub.entries.lookup key with
  | none => exact h
  | some e =>
    dsimp only
    split_ifs
    · exact hQ.remove key h
    · exact h
    · exact h

theorem RemovalInvariant.del (key : Bytes) : Q route cap (sub.del key) := by
  unfold SubShard.del
  split_ifs
  · exact hQ.remove key h
  · exact h

theorem RemovalInvariant.cleanup (now : Bytes → ℤ) : Q route cap (sub.cleanup now) := by
  unfold SubShard.cleanup
  generalize sub.entries.entries = entries
  induction entries generalizing sub with
  | nil => exact h
  | cons entry rest ih =>
    apply ih
    dsimp only
    split_ifs
    · exact hQ.remove entry.1 h
    · exact h

theorem RemovalInvariant.expire (key : Bytes) (ttl now again : ℤ) :
    Q route cap (sub.expire key ttl now again).1 := by
  unfold SubShard.expire
  cases hlookup : sub.entries.lookup key with
  | none => exact h
  | some e =>
    dsimp only
    split_ifs
    · exact h
    · apply hQ.update key _ h
      rw [← AList.lookup_isSome, hlookup]
      rfl

theorem RemovalInvariant.persist (key : Bytes) (now : ℤ) : Q route cap (sub.persist key now).1 := by
  unfold SubShard.persist
  cases hlookup : sub.entries.lookup key with
  | none => exact h
  | some e =>
    dsimp only
    split_ifs
    · exact h
    · apply hQ.update key _ h
      rw [← AList.lookup_isSome, hlookup]
      rfl

theorem RemovalInvariant.extractLoop (clock : Clock) (n : ℕ) (entries : EntryList)
    (items : List Item) :
    Q route cap (sub.extractLoop clock n entries items).1 := by
  induction entries generalizing sub items with
  | nil => exact h
  | cons entry rest ih =>
    have hremoved : Q route cap (sub.remove entry.1) := hQ.remove entry.1 h
    unfold SubShard.extractLoop
    split
    · exact ih hremoved items
    · dsimp only
      split_ifs
      · exact hremoved
      · exact ih hremoved _

end SubShards

def Shard.Each (Q : SubShardProperty) (route : Bytes → Prop) (s : Shard) :
    Prop :=
  ∀ j, Q (fun key => route key ∧ s.subIndex key = j) s.maxSubSize (s.subs j)

section Shards

variable {allowed : PolicyKind → Prop} {Q : SubShardProperty}
    {route : Bytes → Prop} {s : Shard}

theorem Shard.Each.withSub (h : s.Each Q route) (j : Fin s.numSubs)
    {sub : SubShard}
    (hsub : Q (fun key => route key ∧ s.subIndex key = j) s.maxSubSize sub) :
    (s.withSub j sub).Each Q route := by
  change ∀ k : Fin s.numSubs, Q (fun key => route key ∧ s.subIndex key = k) s.maxSubSize
      (Function.update s.subs j sub k)
  intro k
  by_cases hk : k = j
  · subst k
    rw [Function.update_self]
    exact hsub
  · rw [Function.update_of_ne hk]
    exact h k

theorem SubShardInvariant.newShard (hQ : SubShardInvariant allowed Q)
    (route : Bytes → Prop) {kind : PolicyKind} (hkind : allowed kind)
    (maxSize : ℕ) : (newShard kind maxSize).Each Q route :=
  fun _ => hQ.new _ _ kind hkind

theorem SubShardInvariant.shard_set (hQ : SubShardInvariant allowed Q)
    (h : s.Each Q route) {key : Bytes} (hroute : route key) (value : Bytes)
    (ttl now : ℤ) : (s.set key value ttl now).1.Each Q route :=
  h.withSub _ (hQ.set key value ttl now (h _) ⟨hroute, rfl⟩)

variable (hQ : RemovalInvariant Q)
include hQ

theorem RemovalInvariant.shard_get (h : s.Each Q route) (key : Bytes) (now again : ℤ) :
    (s.get key now again).1.Each Q route :=
  h.withSub _ (hQ.get (h _) key now again)

theorem RemovalInvariant.shard_del (h : s.Each Q route) (key : Bytes) : (s.del key).Each Q route :=
  h.withSub _ (hQ.del (h _) key)

theorem RemovalInvariant.shard_expire (h : s.Each Q route) (key : Bytes) (ttl now again : ℤ) :
    (s.expire key ttl now again).1.Each Q route :=
  h.withSub _ (hQ.expire (h _) key ttl now again)

theorem RemovalInvariant.shard_persist (h : s.Each Q route) (key : Bytes) (now : ℤ) :
    (s.persist key now).1.Each Q route :=
  h.withSub _ (hQ.persist (h _) key now)

theorem RemovalInvariant.extractFrom {order : MapOrder} {clock : Clock} {n slots i : ℕ}
    {items : List Item}
    {result : Shard × List Item} (h : s.Each Q route)
    (hresult : s.extractFrom order clock n slots i items = some result) :
    result.1.Each Q route := by
  induction slots generalizing s i items with
  | zero =>
    cases hresult
    exact h
  | succ slots ih =>
    unfold Shard.extractFrom at hresult
    split_ifs at hresult with hfull hslot
    · cases hresult
      exact h
    · exact ih (h.withSub ⟨i, hslot⟩ (hQ.extractLoop (h _) ..)) hresult

end Shards

def ShardTable.Each (Q : SubShardProperty) (t : ShardTable) : Prop :=
  ∀ i, (t.shards i).Each Q fun key => t.index key = i

section Tables

variable {allowed : PolicyKind → Prop} {Q : SubShardProperty} {t : ShardTable}

theorem ShardTable.Each.withShard (h : t.Each Q) (i : Fin (2 ^ t.bits))
    {s : Shard} (hs : s.Each Q fun key => t.index key = i) :
    (t.withShard i s).Each Q := by
  change ∀ k : Fin (2 ^ t.bits), (Function.update t.shards i s k).Each Q fun key => t.index key = k
  intro k
  by_cases hk : k = i
  · subst k
    rw [Function.update_self]
    exact hs
  · rw [Function.update_of_ne hk]
    exact h k

theorem SubShardInvariant.newTable (hQ : SubShardInvariant allowed Q)
    {kind : PolicyKind} (hkind : allowed kind) (bits maxSize : ℕ) :
    (newTable bits kind maxSize).Each Q :=
  fun _ => hQ.newShard _ hkind maxSize

theorem SubShardInvariant.table_set (hQ : SubShardInvariant allowed Q)
    (h : t.Each Q) (key value : Bytes) (ttl now : ℤ) :
    (t.set key value ttl now).Each Q :=
  h.withShard _ (hQ.shard_set (h _) rfl value ttl now)

theorem RemovalInvariant.table_get (hQ : RemovalInvariant Q)
    (h : t.Each Q) (key : Bytes) (now again : ℤ) :
    (t.get key now again).1.Each Q :=
  h.withShard _ (hQ.shard_get (h _) key now again)

theorem RemovalInvariant.table_del (hQ : RemovalInvariant Q)
    (h : t.Each Q) (key : Bytes) : (t.del key).Each Q :=
  h.withShard _ (hQ.shard_del (h _) key)

theorem RemovalInvariant.table_cleanup (hQ : RemovalInvariant Q)
    (h : t.Each Q) (now : Bytes → ℤ) : (t.cleanup now).Each Q :=
  fun i j => hQ.cleanup (h i j) now

theorem SubShardInvariant.table_swapPolicy (hQ : SubShardInvariant allowed Q)
    {kind : PolicyKind} (hkind : allowed kind) (h : t.Each Q)
    (order : MapOrder) : (t.swapPolicy order kind).Each Q :=
  fun i j => hQ.swapPolicy order kind hkind (h i j)

theorem SubShardInvariant.insertItems (hQ : SubShardInvariant allowed Q)
    (h : t.Each Q) (clock : Clock) (items : List Item) :
    (t.insertItems clock items).Each Q := by
  induction items generalizing t with
  | nil => exact h
  | cons item rest ih => exact ih (hQ.table_set h _ _ _ _)

end Tables

section Migrations

variable {allowed : PolicyKind → Prop} {Q : SubShardProperty}

theorem RemovalInvariant.stepIncremental (hQ : RemovalInvariant Q)
    {m : Migration} {order : MapOrder} {clock : Clock} {table : ShardTable}
    {result : Option Migration × ShardTable} (hold : m.old.Each Q)
    (hresult : m.stepIncremental order clock table = some result) :
    ∀ later, result.1 = some later → later.old.Each Q := by
  unfold Migration.stepIncremental at hresult
  split at hresult
  case isFalse => cases hresult
  rename_i hidx
  rcases Option.map_eq_some_iff.mp hresult with ⟨extracted, hextract, rfl⟩
  have holdNext : (m.old.withShard ⟨m.rehashIdx, hidx⟩ extracted.1).Each Q :=
    hold.withShard _ (hQ.extractFrom (hold _) hextract)
  dsimp only
  split_ifs
  · exact nofun
  · rintro later ⟨⟩
    exact holdNext
  · rintro later ⟨⟩
    exact holdNext

theorem SubShardInvariant.migrationStep (hQ : SubShardInvariant allowed Q)
    {m : Migration} {kind : RehasherKind} {order : MapOrder} {clock : Clock}
    {table : ShardTable} {result : Option Migration × ShardTable}
    (hold : m.old.Each Q) (htable : table.Each Q)
    (hresult : m.step kind order clock table = some result) :
    (∀ later, result.1 = some later → later.old.Each Q) ∧ result.2.Each Q := by
  constructor
  · cases kind with
    | incremental => exact hQ.removals.stepIncremental hold hresult
    | batch =>
      rcases Option.map_eq_some_iff.mp hresult with ⟨drained, -, rfl⟩
      exact nofun
    | noop =>
      cases hresult
      rintro later ⟨⟩
      exact hold
  · rcases Migration.step_inserts hresult with ⟨items, hitems⟩
    rw [hitems]
    exact hQ.insertItems htable clock items

end Migrations

structure Cache.Each (allowed : PolicyKind → Prop) (Q : SubShardProperty) (c : Cache) : Prop where
  policy : allowed c.policyFactory
  table : c.table.Each Q
  old : ∀ m, c.migration = some m → m.old.Each Q

section Caches

variable {allowed : PolicyKind → Prop} {Q : SubShardProperty} {c : Cache}

theorem Cache.new_ok {opts : Options} (hnew : Cache.new opts = .ok c) :
    validShards opts.shardCount = true ∧ 0 ≤ opts.defaultTTL ∧
      c = {
        table := newTable opts.shardCount.toNat.log2 c.policyFactory
          (perShardMax opts.maxSize.toNat opts.shardCount.toNat)
        rehasher := c.rehasher
        migration := none
        policyFactory := c.policyFactory
        maxSize := opts.maxSize.toNat
        defaultTTL := opts.defaultTTL
        closed := false } := by
  unfold Cache.new at hnew
  split at hnew
  · cases hnew
  rename_i hvalid
  split at hnew
  · cases hnew
  rename_i httl
  dsimp only at hnew
  generalize getPolicyFactory _ = policy at hnew
  generalize getRehasherFactory _ = rehasher at hnew
  cases policy with
  | none => cases hnew
  | some policy =>
    cases rehasher with
    | none => cases hnew
    | some rehasher =>
      cases hnew
      exact ⟨by simpa using hvalid, not_lt.mp httl, rfl⟩

theorem SubShardInvariant.new_each (hQ : SubShardInvariant allowed Q)
    {opts : Options} (hnew : Cache.new opts = .ok c)
    (hpolicy : allowed c.policyFactory) : c.Each allowed Q := by
  rcases Cache.new_ok hnew with ⟨-, -, hc⟩
  rw [hc]
  constructor
  case policy => exact hpolicy
  case table => exact hQ.newTable hpolicy _ _
  case old => exact nofun

theorem SubShardInvariant.step_each (hQ : SubShardInvariant allowed Q)
    {order : MapOrder} {clock : Clock} {next : Cache} (h : c.Each allowed Q)
    (hstep : c.step order clock = some next) : next.Each allowed Q := by
  unfold Cache.step at hstep
  split at hstep
  · cases hstep
    exact h
  · rename_i m hm
    rcases Option.map_eq_some_iff.mp hstep with ⟨result, hresult, rfl⟩
    rcases hQ.migrationStep (h.old m hm) h.table hresult with ⟨hold, htable⟩
    exact ⟨h.policy, htable, hold⟩

theorem Cache.Each.map_old (h : c.Each allowed Q) {f : ShardTable → ShardTable}
    (hf : ∀ {t : ShardTable}, t.Each Q → (f t).Each Q) :
    ∀ m, (c.migration.map fun m => { m with old := f m.old }) = some m → m.old.Each Q := by
  intro later hlater
  rcases Option.map_eq_some_iff.mp hlater with ⟨m, hm, rfl⟩
  exact hf (h.old m hm)

theorem SubShardInvariant.beforeStep_each (hQ : SubShardInvariant allowed Q)
    {a : CacheAction} {mid : Cache} (h : c.Each allowed Q)
    (hmid : c.BeforeStep a mid) : mid.Each allowed Q := by
  have hdeleted : ∀ key, ∀ m, (c.delOld key).migration = some m → m.old.Each Q :=
    fun key => h.map_old fun ht => hQ.removals.table_del ht key
  cases hmid with
  | step => exact h
  | set => exact ⟨h.policy, hQ.table_set h.table _ _ _ _, hdeleted _⟩
  | get => exact ⟨h.policy, hQ.removals.table_get h.table _ _ _, h.old⟩
  | getOld _ hm =>
    refine ⟨h.policy, hQ.removals.table_get h.table _ _ _, ?_⟩
    rintro later ⟨⟩
    exact hQ.removals.table_get (h.old _ hm) _ _ _
  | del => exact ⟨h.policy, hQ.removals.table_del h.table _, hdeleted _⟩

def Command.Uses (allowed : PolicyKind → Prop) : Command → Prop
  | .setEvictionPolicy name =>
    ∀ kind, getPolicyFactory name = some kind → allowed kind
  | _ => True

theorem SubShardInvariant.apply_each (hQ : SubShardInvariant allowed Q)
    {a : CacheAction} {next : Cache} (h : c.Each allowed Q)
    (huses : a.command.Uses allowed) (hstep : c.apply a = some next) :
    next.Each allowed Q := by
  cases Cache.apply_effect hstep with
  | same => exact h
  | stepped hmid hstep => exact hQ.step_each (hQ.beforeStep_each h hmid) hstep
  | cleanup =>
    exact ⟨h.policy, hQ.removals.table_cleanup h.table _,
      h.map_old fun ht => hQ.removals.table_cleanup ht _⟩
  | resize =>
    refine ⟨h.policy, hQ.newTable h.policy _ _, fun m hm => ?_⟩
    dsimp only at hm
    split_ifs at hm
    cases hm
    exact h.table
  | expire =>
    exact ⟨h.policy, h.table.withShard _ (hQ.removals.shard_expire (h.table _) _ _ _ _), h.old⟩
  | persist =>
    exact ⟨h.policy, h.table.withShard _ (hQ.removals.shard_persist (h.table _) _ _), h.old⟩
  | collection => exact ⟨h.policy, h.table.withShard _ (h.table _), h.old⟩
  | setEvictionPolicy hcommand hpolicy =>
    rw [hcommand] at huses
    have hallowed := huses _ hpolicy
    exact ⟨hallowed, hQ.table_swapPolicy hallowed h.table _,
      h.map_old fun ht => hQ.table_swapPolicy hallowed ht _⟩
  | setRehasher => exact ⟨h.policy, h.table, nofun⟩
  | close => exact ⟨h.policy, h.table, nofun⟩

end Caches

end MCache.Store
