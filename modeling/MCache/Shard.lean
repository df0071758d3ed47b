import MCache.Collections
import MCache.EvictionPolicy

/-!
# Shards

The entries of `entry.go` and the shards of `shard.go`.  A nil slot of the
array of sub-shards is a slot past `numSubs`.

An operation reads the clock in several places; a `Clock` gives the reading of
each place for each key, so that nothing is assumed about how the readings of
one operation relate.  Likewise a `MapOrder` fixes, for each content, the
order in which `range` visits a map.
-/

namespace MCache.Store

/-! ## Entries -/

structure CacheEntry where
  value : Bytes
  expiresAt : ℤ
  deriving DecidableEq

def newEntry (now : ℤ) (value : Bytes) (ttl : ℤ) : CacheEntry where
  value := value
  expiresAt := if 0 < ttl then int64 (now + ttl) else 0

def CacheEntry.isExpired (e : CacheEntry) (now : ℤ) : Bool :=
  decide (e.expiresAt ≠ 0 ∧ e.expiresAt ≤ now)

abbrev EntryMap := AList fun _ : Bytes => CacheEntry

abbrev EntryList := List (Sigma fun _ : Bytes => CacheEntry)

structure MapOrder where
  arrange : EntryList → EntryList
  perm : ∀ entries, (arrange entries).Perm entries

def MapOrder.asStored : MapOrder := ⟨id, fun _ => .rfl⟩

inductive Reading where
  | current
  | currentAgain
  | old
  | oldAgain
  | scan
  | until
  | store
  deriving DecidableEq

abbrev Clock := Reading → Bytes → ℤ

/-! ## Sub-shards -/

structure SubShard where
  entries : EntryMap
  policy : Policy

structure Item where
  key : Bytes
  value : Bytes
  ttl : ℤ
  deriving DecidableEq

namespace SubShard

def remove (sub : SubShard) (key : Bytes) : SubShard where
  entries := sub.entries.erase key
  policy := sub.policy.onRemove key

def get (sub : SubShard) (key : Bytes) (now again : ℤ) : SubShard × Option Bytes :=
  match sub.entries.lookup key with
  | none => (sub, none)
  | some e =>
    if e.isExpired now then
      (if e.isExpired again then sub.remove key else sub, none)
    else (sub, some e.value)

def evictLoop (maxSubSize : ℕ) : ℕ → SubShard → SubShard × List Bytes
  | 0, sub => (sub, [])
  | fuel + 1, sub =>
    if 0 < maxSubSize ∧ maxSubSize < sub.entries.keys.length then
      match sub.policy.evict with
      | (policy, none) => ({ sub with policy := policy }, [])
      | (policy, some key) =>
        let rest := evictLoop maxSubSize fuel
          { entries := sub.entries.erase key, policy := policy }
        (rest.1, key :: rest.2)
    else (sub, [])

def set (sub : SubShard) (maxSubSize : ℕ) (key value : Bytes) (ttl now : ℤ) :
    SubShard × List Bytes :=
  let entries := sub.entries.insert key (newEntry now value ttl)
  if key ∈ sub.entries then
    ({ entries := entries, policy := sub.policy.onAccess key }, [])
  else
    let policy := sub.policy.onAdd key
    evictLoop maxSubSize (policy.keys.length + 1)
      { entries := entries, policy := policy }

def del (sub : SubShard) (key : Bytes) : SubShard :=
  if key ∈ sub.entries then sub.remove key else sub

def len (sub : SubShard) (now : Bytes → ℤ) : ℕ :=
  sub.entries.entries.countP fun entry => !entry.2.isExpired (now entry.1)

def cleanup (sub : SubShard) (now : Bytes → ℤ) : SubShard := sub.entries.entries.foldl
    (fun sub entry =>
      if entry.2.isExpired (now entry.1) then sub.remove entry.1 else sub) sub

def cleanupCount (sub : SubShard) (now : Bytes → ℤ) : ℕ :=
  sub.entries.entries.countP fun entry => entry.2.isExpired (now entry.1)

def swapPolicy (sub : SubShard) (order : MapOrder) (kind : PolicyKind) :
    SubShard :=
  { sub with
    policy := (order.arrange sub.entries.entries).foldl
      (fun policy entry => policy.onAdd entry.1) kind.new }

def expire (sub : SubShard) (key : Bytes) (ttl now again : ℤ) : SubShard × Bool :=
  match sub.entries.lookup key with
  | none => (sub, false)
  | some e =>
    if e.isExpired now then (sub, false)
    else
      ({ sub with
          entries := sub.entries.insert key
            { e with expiresAt := int64 (again + ttl) } }, true)

def persist (sub : SubShard) (key : Bytes) (now : ℤ) : SubShard × Bool :=
  match sub.entries.lookup key with
  | none => (sub, false)
  | some e =>
    if e.isExpired now then (sub, false)
    else
      ({ sub with
          entries := sub.entries.insert key { e with expiresAt := 0 } }, true)

def remaining (clock : Clock) (key : Bytes) (e : CacheEntry) : Option ℤ :=
  if 0 < e.expiresAt ∧ e.expiresAt ≤ clock .scan key then none
  else if 0 < e.expiresAt then
    let ttl := saturated (e.expiresAt - clock .until key)
    if ttl ≤ 0 then none else some ttl
  else some 0

def extractLoop (clock : Clock) (n : ℕ) : EntryList → SubShard → List Item → SubShard × List Item
  | [], sub, items => (sub, items)
  | ⟨key, e⟩ :: rest, sub, items =>
    match remaining clock key e with
    | none => extractLoop clock n rest (sub.remove key) items
    | some ttl =>
      let items := items ++ [⟨key, e.value, ttl⟩]
      if n ≤ items.length then (sub.remove key, items)
      else extractLoop clock n rest (sub.remove key) items

end SubShard

/-! ## Shards -/

structure Shard where
  numSubs : ℕ
  numSubs_pos : 0 < numSubs
  subs : Fin numSubs → SubShard
  maxSubSize : ℕ
  collections : Collections

def subShardsPerShard : ℕ := 8

def effectiveSubShards (maxSize : ℕ) : ℕ :=
  if maxSize = 0 then subShardsPerShard
  else
    let n := maxSize / 2
    let n := if n < 1 then 1 else n
    if subShardsPerShard < n then subShardsPerShard else n

theorem effectiveSubShards_pos (maxSize : ℕ) : 0 < effectiveSubShards maxSize := by
  unfold effectiveSubShards subShardsPerShard
  dsimp only
  split_ifs <;> omega

def newShard (kind : PolicyKind) (maxSize : ℕ) : Shard where
  numSubs := effectiveSubShards maxSize
  numSubs_pos := effectiveSubShards_pos maxSize
  subs := fun _ => { entries := ∅, policy := kind.new }
  maxSubSize :=
    let subMax := maxSize / effectiveSubShards maxSize
    if subMax < 1 ∧ 0 < maxSize then 1 else subMax
  collections := .empty

namespace Shard

def subIndex (s : Shard) (key : Bytes) : Fin s.numSubs :=
  ⟨(fnv32a key).toNat % s.numSubs, Nat.mod_lt _ s.numSubs_pos⟩

def withSub (s : Shard) (i : Fin s.numSubs) (sub : SubShard) : Shard :=
  { s with subs := Function.update s.subs i sub }

def get (s : Shard) (key : Bytes) (now again : ℤ) : Shard × Option Bytes :=
  let result := (s.subs (s.subIndex key)).get key now again
  (s.withSub (s.subIndex key) result.1, result.2)

def set (s : Shard) (key value : Bytes) (ttl now : ℤ) : Shard × List Bytes :=
  let result := (s.subs (s.subIndex key)).set s.maxSubSize key value ttl now
  (s.withSub (s.subIndex key) result.1, result.2)

def del (s : Shard) (key : Bytes) : Shard :=
  { s.withSub (s.subIndex key) ((s.subs (s.subIndex key)).del key) with
    collections := s.collections.del key }

def len (s : Shard) (now : Bytes → ℤ) : ℕ := ∑ i, (s.subs i).len now

def cleanup (s : Shard) (now : Bytes → ℤ) : Shard :=
  { s with subs := fun i => (s.subs i).cleanup now }

def cleanupCount (s : Shard) (now : Bytes → ℤ) : ℕ := ∑ i, (s.subs i).cleanupCount now

def swapPolicy (s : Shard) (order : MapOrder) (kind : PolicyKind) : Shard :=
  { s with subs := fun i => (s.subs i).swapPolicy order kind }

def expire (s : Shard) (key : Bytes) (ttl now again : ℤ) : Shard × Bool :=
  let result := (s.subs (s.subIndex key)).expire key ttl now again
  (s.withSub (s.subIndex key) result.1, result.2)

def persist (s : Shard) (key : Bytes) (now : ℤ) : Shard × Bool :=
  let result := (s.subs (s.subIndex key)).persist key now
  (s.withSub (s.subIndex key) result.1, result.2)

def extractFrom (order : MapOrder) (clock : Clock) (n : ℕ) :
    ℕ → ℕ → Shard → List Item → Option (Shard × List Item)
  | 0, _, s, items => some (s, items)
  | slots + 1, i, s, items =>
    if n ≤ items.length then some (s, items)
    else if hi : i < s.numSubs then
      let sub := s.subs ⟨i, hi⟩
      let result := sub.extractLoop clock n (order.arrange sub.entries.entries) items
      extractFrom order clock n slots (i + 1) (s.withSub ⟨i, hi⟩ result.1) result.2
    else none

def extractN (s : Shard) (order : MapOrder) (clock : Clock) (n : ℕ) : Option (Shard × List Item) :=
  s.extractFrom order clock n subShardsPerShard 0 []

def size (s : Shard) : ℕ := ∑ i, (s.subs i).entries.keys.length

end Shard

end MCache.Store
