import MCache.CacheCommands
import MCache.Glob

/-!
# Key management

`Exists`, `Type`, `TTL`, `PTTL` and `Keys` of `cache_ext.go`.  Like `Expire`
and `Persist` they look at the current table only, while `Get` also reads the
table that is being migrated.  For a key with a readable string they agree
with `Get` exactly when the string is in the current table.
-/

namespace MCache.Store

structure KeyOrder where
  arrange : List Bytes → List Bytes
  perm : ∀ keys, (arrange keys).Perm keys

def KeyOrder.asStored : KeyOrder := ⟨id, fun _ => .rfl⟩

def timeLeft (unit : ℤ) (entry : Option CacheEntry) (now : ℤ) : ℤ :=
  match entry with
  | none => -2
  | some e =>
    if e.expiresAt ≤ 0 then -1
    else
      let remaining := saturated (e.expiresAt - now)
      if remaining ≤ 0 then -2 else remaining / unit

def keyTypeString : UInt8 := 1
def keyTypeSet : UInt8 := 2
def keyTypeHash : UInt8 := 3
def keyTypeList : UInt8 := 4
def keyTypeNone : UInt8 := 0

namespace Shard

def holdsString (s : Shard) (key : Bytes) (now : ℤ) : Bool :=
  (s.lookup key).any fun e => !e.isExpired now

def keyExists (s : Shard) (key : Bytes) (now : ℤ) : Bool :=
  s.holdsString key now || decide (key ∈ s.collections.sets) ||
    decide (key ∈ s.collections.hashes) || decide (key ∈ s.collections.lists)

def keyType (s : Shard) (key : Bytes) (now : ℤ) : UInt8 :=
  if s.holdsString key now then keyTypeString
  else if key ∈ s.collections.sets then keyTypeSet
  else if key ∈ s.collections.hashes then keyTypeHash
  else if key ∈ s.collections.lists then keyTypeList
  else keyTypeNone

def ttlSeconds (s : Shard) (key : Bytes) (now : ℤ) : ℤ := timeLeft (10 ^ 9) (s.lookup key) now

def ttlMillis (s : Shard) (key : Bytes) (now : ℤ) : ℤ := timeLeft (10 ^ 6) (s.lookup key) now

def matchKeys (s : Shard) (order : KeyOrder) (clock : Clock) (pattern : Bytes) : List Bytes :=
  ((List.finRange s.numSubs).flatMap fun i =>
    (order.arrange (s.subs i).entries.keys).filter fun key =>
      ((s.subs i).entries.lookup key).any (fun e => !e.isExpired (clock .current key)) &&
      Glob.pathMatch pattern key) ++
  (order.arrange s.collections.sets.keys).filter (Glob.pathMatch pattern) ++
  (order.arrange s.collections.hashes.keys).filter (Glob.pathMatch pattern) ++
  (order.arrange s.collections.lists.keys).filter (Glob.pathMatch pattern)

end Shard

namespace Cache

def readShard {α : Type} (c : Cache) (key : Bytes) (f : Shard → α) : Except CacheError α :=
  (c.onShard key fun s => (s, f s)).2

def keyExists (c : Cache) (clock : Clock) (key : Bytes) : Except CacheError Bool :=
  c.readShard key fun s => s.keyExists key (clock .current key)

def keyType (c : Cache) (clock : Clock) (key : Bytes) : Except CacheError UInt8 :=
  c.readShard key fun s => s.keyType key (clock .current key)

def ttl (c : Cache) (clock : Clock) (key : Bytes) : Except CacheError ℤ :=
  c.readShard key fun s => s.ttlSeconds key (clock .until key)

def pTTL (c : Cache) (clock : Clock) (key : Bytes) : Except CacheError ℤ :=
  c.readShard key fun s => s.ttlMillis key (clock .until key)

def keys (c : Cache) (order : KeyOrder) (clock : Clock) (pattern : Bytes) :
    Except CacheError (List Bytes) :=
  if c.closed then .error .cacheClosed
  else
    .ok ((List.finRange (2 ^ c.table.bits)).flatMap fun i =>
      (c.table.shards i).matchKeys order clock pattern)

end Cache

structure Cache.KeyCommandsAgree (c : Cache) (key : Bytes) (seconds now : ℤ) : Prop where
  keyExists : c.keyExists (still now) key = .ok true
  keyType : c.keyType (still now) key = .ok keyTypeString
  ttl : ∃ left, c.ttl (still now) key = .ok left ∧ left ≠ -2
  pTTL : ∃ left, c.pTTL (still now) key = .ok left ∧ left ≠ -2
  keys : Glob.Plain key → ∀ order, ∃ found, c.keys order (still now) key = .ok found ∧ key ∈ found
  expire : (c.expire (still now) key seconds).2 = .ok true
  expired : (c.expire (still now) key seconds).1.ttl (still now) key = .ok seconds
  persist : (c.persist (still now) key).2 = .ok true
  persisted : (c.persist (still now) key).1.ttl (still now) key = .ok (-1)

def Cache.NoCollection (c : Cache) (key : Bytes) : Prop :=
  key ∉ (c.table.shard key).collections.sets ∧ key ∉ (c.table.shard key).collections.hashes ∧
    key ∉ (c.table.shard key).collections.lists

instance (c : Cache) (key : Bytes) : Decidable (c.NoCollection key) :=
  inferInstanceAs (Decidable (_ ∧ _ ∧ _))

def Cache.InTable (c : Cache) (key : Bytes) (now : ℤ) : Prop :=
  ∃ e, c.table.lookup key = some e ∧ e.isExpired now = false

section Agreement

variable {c : Cache} {key : Bytes} {now : ℤ}
variable {e : CacheEntry} {s : Shard}

theorem Cache.readShard_open {α : Type} (hopen : c.closed = false)
    (hkey : key ≠ []) (f : Shard → α) :
    c.readShard key f = .ok (f (c.table.shard key)) := by
  rw [Cache.readShard, Cache.onShard_open hopen hkey]

theorem Cache.inTable_iff : c.InTable key now ↔ (c.table.shard key).holdsString key now = true := by
  rw [Shard.holdsString, Option.any_eq_true]
  simp only [Cache.InTable, ShardTable.lookup, Bool.not_eq_true']

theorem Cache.NoCollection.keyExists_eq (hnone : c.NoCollection key) :
    (c.table.shard key).keyExists key now = (c.table.shard key).holdsString key now := by
  simp [Shard.keyExists, hnone.1, hnone.2.1, hnone.2.2]

theorem timeLeft_live (hlive : e.isExpired now = false) {unit : ℤ} (hunit : 0 < unit) :
    timeLeft unit (some e) now ≠ -2 := by
  unfold timeLeft
  dsimp only
  rcases CacheEntry.isExpired_eq_false_iff.mp hlive with hzero | hlater
  · rw [if_pos hzero.le]
    decide
  · split_ifs with hnone hgone
    · decide
    · unfold saturated at hgone
      omega
    · have := Int.ediv_nonneg (not_le.mp hgone).le hunit.le
      omega

theorem timeLeft_deadline {seconds : ℤ} (hnow : 0 ≤ now) (hnowBound : now < 2 ^ 63)
    (hseconds : 0 < seconds) :
    timeLeft (10 ^ 9) (some { e with expiresAt := int64 (now + int64 (seconds * 10 ^ 9)) }) now =
      seconds ↔ now + seconds * 10 ^ 9 < 2 ^ 63 := by
  rw [int64_add_int64]
  unfold timeLeft
  dsimp only
  by_cases hfits : now + seconds * 10 ^ 9 < 2 ^ 63
  · have hremaining : saturated (now + seconds * 10 ^ 9 - now) = seconds * 10 ^ 9 := by
      rw [add_sub_cancel_left, saturated_of_bounds] <;> omega
    rw [int64_of_bounds (by omega) hfits, if_neg (by omega), hremaining,
      if_neg (by omega), Int.mul_ediv_cancel _ (by norm_num)]
    exact iff_of_true rfl hfits
  · have hwrapped := int64_le_of_overflow (not_lt.mp hfits)
    refine iff_of_false ?_ hfits
    generalize int64 (now + seconds * 10 ^ 9) = deadline at hwrapped
    split_ifs with hnone hgone
    · omega
    · omega
    · unfold saturated at hgone ⊢
      omega

theorem Shard.expire_live (hlookup : s.lookup key = some e)
    (hlive : e.isExpired now = false) (ttl again : ℤ) :
    (s.expire key ttl now again).2 = true ∧ (s.expire key ttl now again).1.lookup key =
        some { e with expiresAt := int64 (again + ttl) } := by
  change (s.subs (s.subIndex key)).entries.lookup key = some e at hlookup
  simp only [Shard.expire, SubShard.expire, hlookup, hlive, Shard.lookup_withSub]
  simp

theorem Shard.persist_live (hlookup : s.lookup key = some e) (hlive : e.isExpired now = false) :
    (s.persist key now).2 = true ∧
      (s.persist key now).1.lookup key = some { e with expiresAt := 0 } := by
  change (s.subs (s.subIndex key)).entries.lookup key = some e at hlookup
  simp only [Shard.persist, SubShard.persist, hlookup, hlive, Shard.lookup_withSub]
  simp

theorem Shard.mem_matchKeys (hlookup : s.lookup key = some e)
    (hlive : e.isExpired now = false) {pattern : Bytes}
    (hmatch : Glob.pathMatch pattern key = true) (order : KeyOrder) :
    key ∈ s.matchKeys order (still now) pattern := by
  have hmem : key ∈ (s.subs (s.subIndex key)).entries.keys := by
    rw [← AList.mem_keys, ← AList.lookup_isSome]
    exact Option.isSome_of_mem hlookup
  simp only [Shard.matchKeys, List.mem_append, List.mem_flatMap, List.mem_filter]
  refine .inl (.inl (.inl ⟨s.subIndex key, List.mem_finRange _, ?_, ?_⟩))
  · exact (order.perm _).mem_iff.mpr hmem
  · change (s.subs (s.subIndex key)).entries.lookup key = some e at hlookup
    simp [hlookup, still, hlive, hmatch]

theorem Cache.ttl_onShard {α : Type} (hopen : c.closed = false)
    (hkey : key ≠ []) (f : Shard → Shard × α) (clock : Clock) :
    (c.onShard key f).1.ttl clock key =
      .ok (timeLeft (10 ^ 9) ((f (c.table.shard key)).1.lookup key) (clock .until key)) := by
  have hopen' : (c.onShard key f).1.closed = false := by
    rw [Cache.onShard_open hopen hkey]
    exact hopen
  rw [Cache.ttl, Cache.readShard_open hopen' hkey, Cache.onShard_open hopen hkey,
    ← ShardTable.lookup_withShard_self]
  rfl

theorem Cache.InTable.agree (hopen : c.closed = false) (hkey : key ≠ [])
    (hlive : c.InTable key now) {seconds : ℤ} (hnow : 0 ≤ now)
    (hnowBound : now < 2 ^ 63) (hseconds : 0 < seconds)
    (hfits : now + seconds * 10 ^ 9 < 2 ^ 63) :
    c.KeyCommandsAgree key seconds now := by
  have hstring := Cache.inTable_iff.mp hlive
  rcases hlive with ⟨e, hlookup, hlive⟩
  have hshard : (c.table.shard key).lookup key = some e := hlookup
  rcases Shard.expire_live hshard hlive (int64 (seconds * 10 ^ 9)) now with
    ⟨hexpire, hexpired⟩
  rcases Shard.persist_live hshard hlive with ⟨hpersist, hpersisted⟩
  constructor
  case keyExists =>
    rw [Cache.keyExists, Cache.readShard_open hopen hkey, Shard.keyExists]
    simp [still, hstring]
  case keyType =>
    rw [Cache.keyType, Cache.readShard_open hopen hkey, Shard.keyType]
    simp [still, hstring]
  case ttl =>
    rw [Cache.ttl, Cache.readShard_open hopen hkey, Shard.ttlSeconds, hshard]
    exact ⟨_, rfl, timeLeft_live hlive (by norm_num)⟩
  case pTTL =>
    rw [Cache.pTTL, Cache.readShard_open hopen hkey, Shard.ttlMillis, hshard]
    exact ⟨_, rfl, timeLeft_live hlive (by norm_num)⟩
  case keys =>
    intro hplain order
    rw [Cache.keys, hopen, if_neg (by simp)]
    refine ⟨_, rfl, List.mem_flatMap.mpr ⟨c.table.index key, ?_, ?_⟩⟩
    · exact List.mem_finRange _
    · exact Shard.mem_matchKeys hshard hlive hplain.pathMatch_self order
  case expire =>
    rw [Cache.expire, Cache.onShard_open hopen hkey]
    exact congrArg Except.ok hexpire
  case expired =>
    rw [Cache.expire, Cache.ttl_onShard hopen hkey]
    simp only [still, hexpired]
    rw [(timeLeft_deadline hnow hnowBound hseconds).mpr hfits]
  case persist =>
    rw [Cache.persist, Cache.onShard_open hopen hkey]
    exact congrArg Except.ok hpersist
  case persisted =>
    rw [Cache.persist, Cache.ttl_onShard hopen hkey]
    simp only [still, hpersisted]
    rfl

end Agreement

theorem keyCommands_agree_iff {c : Cache} {order : MapOrder} {key : Bytes}
    {now seconds : ℤ} (hnow : 0 ≤ now) (hnowBound : now < 2 ^ 63)
    (hseconds : 0 < seconds) (honly : c.NoCollection key)
    (hget : ∃ next value, c.get order (still now) key = some (next, .ok value)) :
    c.KeyCommandsAgree key seconds now ↔ c.InTable key now ∧ now + seconds * 10 ^ 9 < 2 ^ 63 := by
  rcases hget with ⟨next, value, hget⟩
  rcases Cache.get_ok_open hget with ⟨hopen, hkey⟩
  constructor
  · intro hagree
    have hexists := hagree.keyExists
    rw [Cache.keyExists, Cache.readShard_open hopen hkey, honly.keyExists_eq,
      Except.ok.injEq] at hexists
    have hlive : c.InTable key now := Cache.inTable_iff.mpr hexists
    refine ⟨hlive, ?_⟩
    rcases hlive with ⟨e, hlookup, hlive⟩
    have hshard : (c.table.shard key).lookup key = some e := hlookup
    have hdeadline := (Shard.expire_live hshard hlive (int64 (seconds * 10 ^ 9)) now).2
    have hexpired := hagree.expired
    rw [Cache.expire, Cache.ttl_onShard hopen hkey] at hexpired
    simp only [still, hdeadline, Except.ok.injEq] at hexpired
    exact (timeLeft_deadline hnow hnowBound hseconds).mp hexpired
  · rintro ⟨hlive, hfits⟩
    exact hlive.agree hopen hkey hnow hnowBound hseconds hfits

def startedRun : List CacheAction := [⟨.set [97] (some [120]) none, .asStored, still 1⟩,
    ⟨.resize 2, .asStored, still 1⟩]

theorem keyCommands_agree_iff_storedLater : ∃ c, store.Reachable c ∧ c.migration.isSome = true ∧
      c.KeyCommandsAgree [98] 5 2 := by
  have hrun : (store.runFrom .ofDefaults
      (startedRun ++ [⟨.set [98] (some [121]) none, .asStored, still 1⟩])).map
      (fun c => (decide (c.migration.isSome = true ∧ c.NoCollection [98]),
        c.table.lookup [98], (c.get .asStored (still 2) [98]).map Prod.snd)) =
      some (true, some ⟨[121], 0⟩, some (.ok [121])) := by
    decide +kernel
  rcases TransitionSystem.exists_reachableBy store_init_ofDefaults hrun with
    ⟨c, hreach, hstate⟩
  simp only [Prod.mk.injEq, decide_eq_true_eq] at hstate
  rcases hstate with ⟨⟨hmigrating, honly⟩, hlookup, hget⟩
  rcases Option.map_eq_some_iff.mp hget with ⟨⟨next, reply⟩, hget, rfl⟩
  refine ⟨c, hreach, hmigrating, ?_⟩
  exact (keyCommands_agree_iff (by decide) (by decide) (by decide) honly
    ⟨next, [121], hget⟩).mpr ⟨⟨_, hlookup, rfl⟩, by decide⟩

theorem readable_key_not_found : ∃ c, store.Reachable c ∧ c.NoCollection [97] ∧
      (∃ next, c.get .asStored (still 2) [97] = some (next, .ok [120])) ∧
      c.keyExists (still 2) [97] = .ok false := by
  have hrun : (store.runFrom .ofDefaults startedRun).map (fun c => (decide (c.NoCollection [97]),
        (c.get .asStored (still 2) [97]).map Prod.snd,
        c.keyExists (still 2) [97])) =
      some (true, some (.ok [120]), .ok false) := by
    decide +kernel
  rcases TransitionSystem.exists_reachableBy store_init_ofDefaults hrun with
    ⟨c, hreach, hstate⟩
  simp only [Prod.mk.injEq, decide_eq_true_eq] at hstate
  rcases hstate with ⟨honly, hget, hexists⟩
  rcases Option.map_eq_some_iff.mp hget with ⟨⟨next, reply⟩, hget, rfl⟩
  exact ⟨c, hreach, honly, ⟨next, hget⟩, hexists⟩

end MCache.Store
