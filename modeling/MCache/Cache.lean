import MCache.Shard
import MCache.TransitionSystem

/-!
# The sharded cache

`cache.go` with the rehashers of `rehash/`, for sequential use: each operation
runs to its end before the next one starts.  An operation that panics has the
result `none`.  The observer is left out, as no operation reads what it does.
-/

namespace MCache.Store

/-! ## Shard tables -/

structure ShardTable where
  bits : ℕ
  shards : Fin (2 ^ bits) → Shard

namespace ShardTable

def mask (t : ShardTable) : UInt32 := UInt32.ofNat (2 ^ t.bits - 1)

theorem and_mask_lt (t : ShardTable) (h : UInt32) : (h &&& t.mask).toNat < 2 ^ t.bits := by
  have hand : (h &&& t.mask).toNat ≤ t.mask.toNat := by
    rw [UInt32.toNat_and]
    exact Nat.and_le_right
  have hmask : t.mask.toNat ≤ 2 ^ t.bits - 1 := by
    rw [mask, UInt32.toNat_ofNat']
    exact Nat.mod_le _ _
  have := Nat.two_pow_pos t.bits
  omega

def index (t : ShardTable) (key : Bytes) : Fin (2 ^ t.bits) :=
  ⟨(fnv32a key &&& t.mask).toNat, t.and_mask_lt _⟩

def shard (t : ShardTable) (key : Bytes) : Shard := t.shards (t.index key)

def withShard (t : ShardTable) (i : Fin (2 ^ t.bits)) (s : Shard) : ShardTable :=
  { t with shards := Function.update t.shards i s }

def set (t : ShardTable) (key value : Bytes) (ttl now : ℤ) : ShardTable :=
  t.withShard (t.index key) ((t.shard key).set key value ttl now).1

def del (t : ShardTable) (key : Bytes) : ShardTable :=
  t.withShard (t.index key) ((t.shard key).del key)

def get (t : ShardTable) (key : Bytes) (now again : ℤ) : ShardTable × Option Bytes :=
  let result := (t.shard key).get key now again
  (t.withShard (t.index key) result.1, result.2)

def len (t : ShardTable) (now : Bytes → ℤ) : ℕ := ∑ i, (t.shards i).len now

def cleanup (t : ShardTable) (now : Bytes → ℤ) : ShardTable :=
  { t with shards := fun i => (t.shards i).cleanup now }

def cleanupCount (t : ShardTable) (now : Bytes → ℤ) : ℕ := ∑ i, (t.shards i).cleanupCount now

def swapPolicy (t : ShardTable) (order : MapOrder) (kind : PolicyKind) :
    ShardTable :=
  { t with shards := fun i => (t.shards i).swapPolicy order kind }

def insertItems (t : ShardTable) (clock : Clock) (items : List Item) :
    ShardTable :=
  items.foldl (fun t item => t.set item.key item.value item.ttl (clock .store item.key)) t

end ShardTable

def newTable (bits : ℕ) (kind : PolicyKind) (perShardMax : ℕ) : ShardTable where
  bits := bits
  shards := fun _ => newShard kind perShardMax

/-! ## Rehashers -/

inductive RehasherKind where
  | incremental
  | batch
  | noop
  deriving DecidableEq

def getRehasherFactory : String → Option RehasherKind
  | "incremental" => some .incremental
  | "batch" => some .batch
  | "noop" => some .noop
  | _ => none

structure Migration where
  old : ShardTable
  rehashIdx : ℕ

def batchSize : ℕ := 16

namespace Migration

def stepIncremental (m : Migration) (order : MapOrder) (clock : Clock)
    (table : ShardTable) : Option (Option Migration × ShardTable) :=
  if hidx : m.rehashIdx < 2 ^ m.old.bits then
    ((m.old.shards ⟨m.rehashIdx, hidx⟩).extractN order clock batchSize).map fun result =>
        let old := m.old.withShard ⟨m.rehashIdx, hidx⟩ result.1
        let table := table.insertItems clock result.2
        if result.2 = [] then
          if 2 ^ m.old.bits ≤ m.rehashIdx + 1 then (none, table)
          else (some ⟨old, m.rehashIdx + 1⟩, table)
        else (some ⟨old, m.rehashIdx⟩, table)
  else none

def drainShard (order : MapOrder) (clock : Clock) :
    ℕ → Shard → ShardTable → Option (Shard × ShardTable)
  | 0, s, table => some (s, table)
  | fuel + 1, s, table =>
    (s.extractN order clock 1000).bind fun result =>
      if result.2 = [] then some (result.1, table)
      else drainShard order clock fuel result.1 (table.insertItems clock result.2)

def drainShards (order : MapOrder) (clock : Clock) (old : ShardTable) :
    List (Fin (2 ^ old.bits)) → ShardTable → Option ShardTable
  | [], table => some table
  | i :: rest, table =>
    (drainShard order clock ((old.shards i).size + 1) (old.shards i) table).bind
      fun result => drainShards order clock old rest result.2

def stepBatch (m : Migration) (order : MapOrder) (clock : Clock)
    (table : ShardTable) : Option (Option Migration × ShardTable) :=
  (drainShards order clock m.old (List.finRange (2 ^ m.old.bits)) table).map
    fun table => (none, table)

def step (m : Migration) (kind : RehasherKind) (order : MapOrder)
    (clock : Clock) (table : ShardTable) : Option (Option Migration × ShardTable) :=
  match kind with
  | .incremental => m.stepIncremental order clock table
  | .batch => m.stepBatch order clock table
  | .noop => some (some m, table)

section Moved

variable {order : MapOrder} {clock : Clock} {table : ShardTable}

theorem insertItems_append (table : ShardTable) (clock : Clock) (items more : List Item) :
    table.insertItems clock (items ++ more) =
      (table.insertItems clock items).insertItems clock more :=
  List.foldl_append

def drained (order : MapOrder) (clock : Clock) : ℕ → Shard → Option (Shard × List Item)
  | 0, s => some (s, [])
  | fuel + 1, s =>
    (s.extractN order clock 1000).bind fun result =>
      if result.2 = [] then some (result.1, [])
      else (drained order clock fuel result.1).map fun rest =>
        (rest.1, result.2 ++ rest.2)

def drainedAll (order : MapOrder) (clock : Clock) (old : ShardTable) :
    List (Fin (2 ^ old.bits)) → Option (List Item)
  | [] => some []
  | i :: rest =>
    (drained order clock ((old.shards i).size + 1) (old.shards i)).bind
      fun result => (drainedAll order clock old rest).map fun items =>
        result.2 ++ items

def moved (m : Migration) (kind : RehasherKind) (order : MapOrder)
    (clock : Clock) : Option (Option Migration × List Item) :=
  match kind with
  | .incremental =>
    if hidx : m.rehashIdx < 2 ^ m.old.bits then
      ((m.old.shards ⟨m.rehashIdx, hidx⟩).extractN order clock batchSize).map fun result =>
          let old := m.old.withShard ⟨m.rehashIdx, hidx⟩ result.1
          if result.2 = [] then
            if 2 ^ m.old.bits ≤ m.rehashIdx + 1 then (none, result.2)
            else (some ⟨old, m.rehashIdx + 1⟩, result.2)
          else (some ⟨old, m.rehashIdx⟩, result.2)
    else none
  | .batch =>
    (drainedAll order clock m.old (List.finRange (2 ^ m.old.bits))).map fun items => (none, items)
  | .noop => some (some m, [])

theorem drainShard_eq (fuel : ℕ) (s : Shard) (table : ShardTable) :
    drainShard order clock fuel s table = (drained order clock fuel s).map fun result =>
        (result.1, table.insertItems clock result.2) := by
  induction fuel generalizing s table with
  | zero => rfl
  | succ fuel ih =>
    simp only [drainShard, drained]
    cases s.extractN order clock 1000 with
    | none => rfl
    | some result =>
      simp only [Option.bind_some]
      split_ifs
      · rfl
      · rw [ih, Option.map_map]
        simp only [Function.comp_def, insertItems_append]

theorem drainShards_eq {old : ShardTable} (shards : List (Fin (2 ^ old.bits)))
    (table : ShardTable) :
    drainShards order clock old shards table =
      (drainedAll order clock old shards).map (table.insertItems clock) := by
  induction shards generalizing table with
  | nil => rfl
  | cons i rest ih =>
    simp only [drainShards, drainedAll, drainShard_eq]
    cases drained order clock ((old.shards i).size + 1) (old.shards i) with
    | none => rfl
    | some result =>
      simp only [Option.map_some, Option.bind_some, ih, Option.map_map]
      simp only [Function.comp_def, insertItems_append]

theorem step_eq (m : Migration) (kind : RehasherKind) (table : ShardTable) :
    m.step kind order clock table = (m.moved kind order clock).map fun result =>
        (result.1, table.insertItems clock result.2) := by
  cases kind with
  | incremental =>
    simp only [step, stepIncremental, moved]
    split
    · rw [Option.map_map]
      congr 1
      funext result
      simp only [Function.comp_apply]
      split_ifs <;> rfl
    · rfl
  | batch =>
    simp only [step, stepBatch, moved, drainShards_eq, Option.map_map]
    rfl
  | noop => rfl

theorem step_inserts {m : Migration} {kind : RehasherKind}
    {result : Option Migration × ShardTable}
    (hresult : m.step kind order clock table = some result) :
    ∃ items, result.2 = table.insertItems clock items := by
  rw [step_eq] at hresult
  rcases Option.map_eq_some_iff.mp hresult with ⟨taken, -, rfl⟩
  exact ⟨taken.2, rfl⟩

end Moved

end Migration

/-! ## The cache -/

inductive CacheError where
  | keyNotFound
  | keyEmpty
  | valueNil
  | negativeTTL
  | cacheClosed
  | invalidShards
  | unknownPolicy
  | unknownRehasher
  | rehashInProgress
  deriving DecidableEq

structure Options where
  shardCount : ℤ
  maxSize : ℤ
  defaultTTL : ℤ
  evictionPolicy : String
  rehasher : String

def newOptions : Options where
  shardCount := 16
  maxSize := 0
  defaultTTL := 0
  evictionPolicy := "lru"
  rehasher := "incremental"

structure Cache where
  table : ShardTable
  rehasher : RehasherKind
  migration : Option Migration
  policyFactory : PolicyKind
  maxSize : ℕ
  defaultTTL : ℤ
  closed : Bool

def validShards (shardCount : ℤ) : Bool :=
  decide (0 < shardCount ∧ shardCount.toNat &&& (shardCount.toNat - 1) = 0)

def perShardMax (maxSize shardCount : ℕ) : ℕ :=
  if 0 < maxSize then
    if maxSize / shardCount < 1 then 1 else maxSize / shardCount
  else 0

namespace Cache

def new (opts : Options) : Except CacheError Cache :=
  if !validShards opts.shardCount then .error .invalidShards
  else if opts.defaultTTL < 0 then .error .negativeTTL
  else
    let policyName :=
      if opts.evictionPolicy = "" then "noop" else opts.evictionPolicy
    match getPolicyFactory policyName with
    | none => .error .unknownPolicy
    | some policy =>
      let rehasherName :=
        if opts.rehasher = "" then "incremental" else opts.rehasher
      match getRehasherFactory rehasherName with
      | none => .error .unknownRehasher
      | some rehasher =>
        let maxSize := opts.maxSize.toNat
        let shardCount := opts.shardCount.toNat
        .ok {
          table := newTable shardCount.log2 policy (perShardMax maxSize shardCount)
          rehasher := rehasher
          migration := none
          policyFactory := policy
          maxSize := maxSize
          defaultTTL := opts.defaultTTL
          closed := false }

def ofDefaults : Cache where
  table := newTable 4 .lru 0
  rehasher := .incremental
  migration := none
  policyFactory := .lru
  maxSize := 0
  defaultTTL := 0
  closed := false

theorem new_newOptions : Cache.new newOptions = .ok ofDefaults := rfl

def step (c : Cache) (order : MapOrder) (clock : Clock) : Option Cache :=
  match c.migration with
  | none => some c
  | some m =>
    (m.step c.rehasher order clock c.table).map fun result =>
      { c with migration := result.1, table := result.2 }

def delOld (c : Cache) (key : Bytes) : Cache :=
  { c with migration := c.migration.map fun m => { m with old := m.old.del key } }

def ttlOrDefault (c : Cache) (ttl : Option ℤ) : ℤ :=
  match ttl with
  | some ttl => max ttl 0
  | none => c.defaultTTL

def set (c : Cache) (order : MapOrder) (clock : Clock) (key : Bytes)
    (value : Option Bytes) (ttl : Option ℤ) :
    Option (Cache × Except CacheError Unit) :=
  if c.closed then some (c, .error .cacheClosed)
  else if key = [] then some (c, .error .keyEmpty)
  else
    match value with
    | none => some (c, .error .valueNil)
    | some value =>
      let c :=
        { c with
          table := c.table.set key value (c.ttlOrDefault ttl) (clock .current key) }
      ((c.delOld key).step order clock).map fun c => (c, .ok ())

def get (c : Cache) (order : MapOrder) (clock : Clock) (key : Bytes) :
    Option (Cache × Except CacheError Bytes) :=
  if c.closed then some (c, .error .cacheClosed)
  else if key = [] then some (c, .error .keyEmpty)
  else
    let result := c.table.get key (clock .current key) (clock .currentAgain key)
    let c := { c with table := result.1 }
    match result.2, c.migration with
    | some value, _ => (c.step order clock).map fun c => (c, .ok value)
    | none, none => some (c, .error .keyNotFound)
    | none, some m =>
      let result := m.old.get key (clock .old key) (clock .oldAgain key)
      let c := { c with migration := some { m with old := result.1 } }
      (c.step order clock).map fun c =>
        (c, match result.2 with
          | some value => .ok value
          | none => .error .keyNotFound)

def del (c : Cache) (order : MapOrder) (clock : Clock) (key : Bytes) :
    Option (Cache × Except CacheError Unit) :=
  if c.closed then some (c, .error .cacheClosed)
  else if key = [] then some (c, .error .keyEmpty)
  else
    let c := { c with table := c.table.del key }
    ((c.delOld key).step order clock).map fun c => (c, .ok ())

def len (c : Cache) (now : Bytes → ℤ) : ℕ :=
  if c.closed then 0
  else c.table.len now + (c.migration.map fun m => m.old.len now).getD 0

def cleanup (c : Cache) (now : Bytes → ℤ) : Cache × ℕ :=
  if c.closed then (c, 0)
  else
    ({ c with
        table := c.table.cleanup now
        migration := c.migration.map fun m => { m with old := m.old.cleanup now } },
      c.table.cleanupCount now + (c.migration.map fun m => m.old.cleanupCount now).getD 0)

def resize (c : Cache) (shardCount : ℤ) : Cache × Except CacheError Unit :=
  if c.closed then (c, .error .cacheClosed)
  else if !validShards shardCount then (c, .error .invalidShards)
  else if c.migration.isSome then (c, .error .rehashInProgress)
  else
    let count := shardCount.toNat
    ({ c with
        table := newTable count.log2 c.policyFactory (perShardMax c.maxSize count)
        migration :=
          if c.rehasher = .noop then none
          else some { old := c.table, rehashIdx := 0 } }, .ok ())

def setEvictionPolicy (c : Cache) (order : MapOrder) (name : String) :
    Cache × Except CacheError Unit :=
  match getPolicyFactory name with
  | none => (c, .error .unknownPolicy)
  | some policy =>
    if c.closed then (c, .error .cacheClosed)
    else
      ({ c with
          policyFactory := policy
          table := c.table.swapPolicy order policy
          migration := c.migration.map fun m =>
            { m with old := m.old.swapPolicy order policy } }, .ok ())

def setRehasher (c : Cache) (name : String) : Cache × Except CacheError Unit :=
  match getRehasherFactory name with
  | none => (c, .error .unknownRehasher)
  | some rehasher =>
    if c.closed then (c, .error .cacheClosed)
    else ({ c with rehasher := rehasher, migration := none }, .ok ())

def close (c : Cache) : Cache × Except CacheError Unit :=
  if c.closed then (c, .error .cacheClosed)
  else ({ c with closed := true, migration := none }, .ok ())

/-! ## Commands on the shard of a key -/

def onShard {α : Type} (c : Cache) (key : Bytes) (f : Shard → Shard × α) :
    Cache × Except CacheError α :=
  if c.closed then (c, .error .cacheClosed)
  else if key = [] then (c, .error .keyEmpty)
  else
    let result := f (c.table.shard key)
    ({ c with table := c.table.withShard (c.table.index key) result.1 }, .ok result.2)

def expire (c : Cache) (clock : Clock) (key : Bytes) (seconds : ℤ) :
    Cache × Except CacheError Bool :=
  c.onShard key fun s => s.expire key (int64 (seconds * 10 ^ 9))
    (clock .current key) (clock .currentAgain key)

def pExpire (c : Cache) (clock : Clock) (key : Bytes) (ms : ℤ) : Cache × Except CacheError Bool :=
  c.onShard key fun s => s.expire key (int64 (ms * 10 ^ 6))
    (clock .current key) (clock .currentAgain key)

def expireTarget (c : Cache) (clock : Clock) (key : Bytes) (target : ℤ) :
    Cache × Except CacheError Bool :=
  c.onShard key fun s =>
    let ttl := saturated (target - clock .until key)
    if ttl ≤ 0 then (s, false)
    else s.expire key ttl (clock .current key) (clock .currentAgain key)

def expireAt (c : Cache) (clock : Clock) (key : Bytes) (timestamp : ℤ) :
    Cache × Except CacheError Bool :=
  c.expireTarget clock key (unixNano timestamp)

def pExpireAt (c : Cache) (clock : Clock) (key : Bytes) (msTimestamp : ℤ) :
    Cache × Except CacheError Bool :=
  c.expireTarget clock key (int64 (msTimestamp * 10 ^ 6))

def persist (c : Cache) (clock : Clock) (key : Bytes) : Cache × Except CacheError Bool :=
  c.onShard key fun s => s.persist key (clock .current key)

def collection (c : Cache) (key : Bytes) (cmd : CollectionCommand) :
    Cache × Except CacheError Reply :=
  c.onShard key fun s =>
    ({ s with collections := s.collections.run key cmd }, s.collections.reply key cmd)

def sMembers (c : Cache) (key : Bytes) : Except CacheError (List Bytes) :=
  (c.onShard key fun s => (s, s.collections.sMembers key)).2

def orNotFound {α : Type} : Except CacheError (Option α) → Except CacheError α
  | .error e => .error e
  | .ok none => .error .keyNotFound
  | .ok (some a) => .ok a

def hGetAll (c : Cache) (key : Bytes) : Except CacheError HashValue :=
  orNotFound (c.onShard key fun s => (s, s.collections.hGetAll key)).2

def lRange (c : Cache) (key : Bytes) (start stop : ℤ) : Except CacheError (List Bytes) :=
  orNotFound (c.onShard key fun s => (s, s.collections.lRange key start stop)).2

end Cache

/-! ## Runs -/

inductive Command where
  | set (key : Bytes) (value : Option Bytes) (ttl : Option ℤ)
  | get (key : Bytes)
  | del (key : Bytes)
  | len
  | cleanup
  | resize (shardCount : ℤ)
  | step
  | expire (key : Bytes) (seconds : ℤ)
  | pExpire (key : Bytes) (ms : ℤ)
  | expireAt (key : Bytes) (timestamp : ℤ)
  | pExpireAt (key : Bytes) (msTimestamp : ℤ)
  | persist (key : Bytes)
  | collection (key : Bytes) (cmd : CollectionCommand)
  | setEvictionPolicy (name : String)
  | setRehasher (name : String)
  | close

structure CacheAction where
  command : Command
  order : MapOrder
  clock : Clock

def Cache.apply (c : Cache) (a : CacheAction) : Option Cache :=
  match a.command with
  | .set key value ttl => (c.set a.order a.clock key value ttl).map Prod.fst
  | .get key => (c.get a.order a.clock key).map Prod.fst
  | .del key => (c.del a.order a.clock key).map Prod.fst
  | .len => some c
  | .cleanup => some (c.cleanup (a.clock .current)).1
  | .resize shardCount => some (c.resize shardCount).1
  | .step => c.step a.order a.clock
  | .expire key seconds => some (c.expire a.clock key seconds).1
  | .pExpire key ms => some (c.pExpire a.clock key ms).1
  | .expireAt key timestamp => some (c.expireAt a.clock key timestamp).1
  | .pExpireAt key msTimestamp => some (c.pExpireAt a.clock key msTimestamp).1
  | .persist key => some (c.persist a.clock key).1
  | .collection key cmd => some (c.collection key cmd).1
  | .setEvictionPolicy name => some (c.setEvictionPolicy a.order name).1
  | .setRehasher name => some (c.setRehasher name).1
  | .close => some c.close.1

def store : TransitionSystem Cache CacheAction where
  init := fun c => ∃ opts, Cache.new opts = .ok c
  step := Cache.apply

theorem store_init_ofDefaults : store.init .ofDefaults := ⟨newOptions, Cache.new_newOptions⟩

theorem reachable_ofDefaults : store.Reachable .ofDefaults := .init store_init_ofDefaults

end MCache.Store
