import MCache.Cache

/-!
# What a command can do

A command leaves the cache as it is or changes it in one of a few ways.  `Set`,
`Get` and `Del` change the tables and then move the migration on by a step.
-/

namespace MCache.Store

def Command.Retimes (key : Bytes) : Command → Prop
  | .expire other _ | .pExpire other _ | .expireAt other _ | .pExpireAt other _
  | .persist other => other = key
  | _ => False

inductive Cache.BeforeStep (c : Cache) (a : CacheAction) : Cache → Prop where
  | step (hcommand : a.command = .step) : c.BeforeStep a c
  | set {key value : Bytes} {ttl : Option ℤ} (hcommand : a.command = .set key (some value) ttl) :
      c.BeforeStep a (Cache.delOld
          { c with
            table := c.table.set key value (c.ttlOrDefault ttl) (a.clock .current key) } key)
  | get {key : Bytes} (hcommand : a.command = .get key) : c.BeforeStep a
        { c with
          table := (c.table.get key (a.clock .current key) (a.clock .currentAgain key)).1 }
  | getOld {key : Bytes} {m : Migration} (hcommand : a.command = .get key)
      (hm : c.migration = some m) :
      c.BeforeStep a
        { c with
          table := (c.table.get key (a.clock .current key) (a.clock .currentAgain key)).1
          migration := some
            { m with
              old := (m.old.get key (a.clock .old key) (a.clock .oldAgain key)).1 } }
  | del {key : Bytes} (hcommand : a.command = .del key) :
      c.BeforeStep a (Cache.delOld { c with table := c.table.del key } key)

inductive Cache.Effect (c : Cache) (a : CacheAction) : Cache → Prop where
  | same : c.Effect a c
  | stepped {mid next : Cache} (hmid : c.BeforeStep a mid)
      (hstep : mid.step a.order a.clock = some next) : c.Effect a next
  | cleanup (hcommand : a.command = .cleanup) : c.Effect a
        { c with
          table := c.table.cleanup (a.clock .current)
          migration := c.migration.map fun m =>
            { m with old := m.old.cleanup (a.clock .current) } }
  | resize {shardCount : ℤ} (hcommand : a.command = .resize shardCount)
      (hvalid : validShards shardCount = true) (hidle : c.migration = none) :
      c.Effect a
        { c with
          table := newTable shardCount.toNat.log2 c.policyFactory
            (perShardMax c.maxSize shardCount.toNat)
          migration := if c.rehasher = .noop then none else some ⟨c.table, 0⟩ }
  | expire {key : Bytes} {ttl : ℤ} (hcommand : a.command.Retimes key) : c.Effect a
        { c with
          table := c.table.withShard (c.table.index key)
            ((c.table.shard key).expire key ttl (a.clock .current key)
              (a.clock .currentAgain key)).1 }
  | persist {key : Bytes} (hcommand : a.command.Retimes key) : c.Effect a
        { c with
          table := c.table.withShard (c.table.index key)
            ((c.table.shard key).persist key (a.clock .current key)).1 }
  | collection {key : Bytes} {cmd : CollectionCommand}
      (hcommand : a.command = .collection key cmd) :
      c.Effect a
        { c with
          table := c.table.withShard (c.table.index key)
            { c.table.shard key with
              collections := (c.table.shard key).collections.run key cmd } }
  | setEvictionPolicy {name : String} {policy : PolicyKind}
      (hcommand : a.command = .setEvictionPolicy name)
      (hpolicy : getPolicyFactory name = some policy) :
      c.Effect a
        { c with
          policyFactory := policy
          table := c.table.swapPolicy a.order policy
          migration := c.migration.map fun m =>
            { m with old := m.old.swapPolicy a.order policy } }
  | setRehasher {name : String} {rehasher : RehasherKind} (hcommand : a.command = .setRehasher name)
      (hrehasher : getRehasherFactory name = some rehasher) :
      c.Effect a { c with rehasher := rehasher, migration := none }
  | close (hcommand : a.command = .close) : c.Effect a { c with closed := true, migration := none }

theorem ShardTable.withShard_self (t : ShardTable) (i : Fin (2 ^ t.bits)) :
    t.withShard i (t.shards i) = t := by
  unfold ShardTable.withShard
  rw [Function.update_eq_self]

namespace Cache

variable {c next : Cache} {order : MapOrder} {clock : Clock} {key : Bytes}

theorem set_effect {value : Option Bytes} {ttl : Option ℤ}
    {result : Cache × Except CacheError Unit}
    (hset : c.set order clock key value ttl = some result) :
    c.Effect ⟨.set key value ttl, order, clock⟩ result.1 := by
  unfold Cache.set at hset
  split_ifs at hset
  · cases hset
    exact .same
  · cases hset
    exact .same
  · cases value with
    | none =>
      cases hset
      exact .same
    | some value =>
      rcases Option.map_eq_some_iff.mp hset with ⟨stepped, hstep, rfl⟩
      exact .stepped (.set rfl) hstep

theorem get_effect {result : Cache × Except CacheError Bytes}
    (hget : c.get order clock key = some result) :
    c.Effect ⟨.get key, order, clock⟩ result.1 := by
  unfold Cache.get at hget
  split_ifs at hget
  · cases hget
    exact .same
  · cases hget
    exact .same
  · dsimp only at hget
    split at hget
    · rcases Option.map_eq_some_iff.mp hget with ⟨stepped, hstep, rfl⟩
      exact .stepped (.get rfl) hstep
    · rename_i hidle
      cases hget
      -- without a migration the step would change nothing
      exact .stepped (.get rfl) (by rw [Cache.step, hidle])
    · rename_i m _ hm
      rcases Option.map_eq_some_iff.mp hget with ⟨stepped, hstep, rfl⟩
      exact .stepped (.getOld rfl hm) hstep

theorem del_effect {result : Cache × Except CacheError Unit}
    (hdel : c.del order clock key = some result) :
    c.Effect ⟨.del key, order, clock⟩ result.1 := by
  unfold Cache.del at hdel
  split_ifs at hdel
  · cases hdel
    exact .same
  · cases hdel
    exact .same
  · rcases Option.map_eq_some_iff.mp hdel with ⟨stepped, hstep, rfl⟩
    exact .stepped (.del rfl) hstep

theorem resize_effect (shardCount : ℤ) :
    c.Effect ⟨.resize shardCount, order, clock⟩ (c.resize shardCount).1 := by
  unfold Cache.resize
  split
  · exact .same
  split
  · exact .same
  rename_i hvalid
  split
  · exact .same
  rename_i hbusy
  exact .resize rfl (by simpa using hvalid) (by simpa using hbusy)

theorem onShard_effect {a : CacheAction} {α : Type} {f : Shard → Shard × α} (heffect : c.Effect a
      { c with
        table := c.table.withShard (c.table.index key) (f (c.table.shard key)).1 }) :
    c.Effect a (c.onShard key f).1 := by
  unfold Cache.onShard
  split_ifs
  · exact .same
  · exact .same
  · exact heffect

theorem expireTarget_effect {a : CacheAction} (hcommand : a.command.Retimes key)
    {target : ℤ} : c.Effect a (c.expireTarget a.clock key target).1 := by
  apply onShard_effect
  dsimp only
  split_ifs
  · rw [ShardTable.shard, ShardTable.withShard_self]
    exact .same
  · exact .expire hcommand

theorem setEvictionPolicy_effect (name : String) : c.Effect ⟨.setEvictionPolicy name, order, clock⟩
      (c.setEvictionPolicy order name).1 := by
  unfold Cache.setEvictionPolicy
  split
  · exact .same
  · rename_i policy hpolicy
    split_ifs
    · exact .same
    · exact .setEvictionPolicy rfl hpolicy

theorem setRehasher_effect (name : String) :
    c.Effect ⟨.setRehasher name, order, clock⟩ (c.setRehasher name).1 := by
  unfold Cache.setRehasher
  split
  · exact .same
  · rename_i rehasher hrehasher
    split_ifs
    · exact .same
    · exact .setRehasher rfl hrehasher

theorem apply_effect {a : CacheAction} (happly : c.apply a = some next) : c.Effect a next := by
  rcases a with ⟨command, order, clock⟩
  cases command with
  | set key value ttl =>
    rcases Option.map_eq_some_iff.mp happly with ⟨result, hset, rfl⟩
    exact set_effect hset
  | get key =>
    rcases Option.map_eq_some_iff.mp happly with ⟨result, hget, rfl⟩
    exact get_effect hget
  | del key =>
    rcases Option.map_eq_some_iff.mp happly with ⟨result, hdel, rfl⟩
    exact del_effect hdel
  | step => exact .stepped (.step rfl) happly
  | len =>
    cases happly
    exact .same
  | cleanup =>
    cases happly
    unfold Cache.cleanup
    split_ifs
    · exact .same
    · exact .cleanup rfl
  | resize shardCount =>
    cases happly
    exact resize_effect shardCount
  | expire key seconds =>
    cases happly
    exact onShard_effect (.expire rfl)
  | pExpire key ms =>
    cases happly
    exact onShard_effect (.expire rfl)
  | expireAt key timestamp =>
    cases happly
    exact expireTarget_effect (a := ⟨.expireAt key timestamp, order, clock⟩) rfl
  | pExpireAt key msTimestamp =>
    cases happly
    exact expireTarget_effect (a := ⟨.pExpireAt key msTimestamp, order, clock⟩) rfl
  | persist key =>
    cases happly
    exact onShard_effect (.persist rfl)
  | collection key cmd =>
    cases happly
    exact onShard_effect (.collection rfl)
  | setEvictionPolicy name =>
    cases happly
    exact setEvictionPolicy_effect name
  | setRehasher name =>
    cases happly
    exact setRehasher_effect name
  | close =>
    cases happly
    unfold Cache.close
    split_ifs
    · exact .same
    · exact .close rfl

end Cache

end MCache.Store
