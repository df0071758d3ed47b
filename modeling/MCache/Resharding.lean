import MCache.MigrationSteps

/-!
# Resharding does not show

The purpose of the cache, seen from string keys, is a flat map from keys to
values with deadlines.  The sharded cache, its two tables and its migration
run in lockstep with this map: at every point of a run a read gives what the
map has, and the number of entries is that of the live keys of the map.
-/

namespace MCache.Store

variable {now : ℤ} {s : Lockstep} {key : Bytes}

/-! ## The flat map -/

structure Binding where
  value : Bytes
  deadline : Option ℤ
  deriving DecidableEq

def Binding.live (b : Binding) (now : ℤ) : Bool :=
  match b.deadline with
  | none => true
  | some deadline => decide (now < deadline)

abbrev FlatCache := Bytes → Option Binding

namespace FlatCache

def deadline (defaultTTL : ℤ) (ttl : Option ℤ) (now : ℤ) : Option ℤ :=
  let ttl := ttl.getD defaultTTL
  if 0 < ttl then some (now + ttl) else none

def apply (flat : FlatCache) (defaultTTL now : ℤ) : Command → FlatCache
  | .set key (some value) ttl =>
    if key = [] then flat
    else Function.update flat key (some ⟨value, deadline defaultTTL ttl now⟩)
  | .del key => if key = [] then flat else Function.update flat key none
  | _ => flat

def get (flat : FlatCache) (now : ℤ) (key : Bytes) : Except CacheError Bytes :=
  if key = [] then .error .keyEmpty
  else
    match flat key with
    | none => .error .keyNotFound
    | some b => if b.live now then .ok b.value else .error .keyNotFound

end FlatCache

/-! ## Lockstep runs -/

def Command.onStrings : Command → Bool
  | .set .. | .get _ | .del _ | .len | .cleanup | .resize _ => true
  | _ => false

def Command.fits (defaultTTL now : ℤ) : Command → Bool
  | .set _ _ ttl => decide (now + ttl.getD defaultTTL < 2 ^ 63)
  | _ => true

structure Lockstep where
  cache : Cache
  flat : FlatCache
  now : ℤ

structure TimedCommand where
  command : Command
  order : MapOrder
  now : ℤ

def resharding : TransitionSystem Lockstep TimedCommand where
  init := fun s =>
    (∃ opts, Cache.new opts = .ok s.cache) ∧ s.cache.maxSize = 0 ∧
      s.cache.rehasher ≠ .noop ∧ s.flat = fun _ => none
  step := fun s a =>
    if a.command.onStrings ∧ 0 < a.now ∧ s.now ≤ a.now ∧
        a.command.fits s.cache.defaultTTL a.now then
      (s.cache.apply ⟨a.command, a.order, still a.now⟩).map fun cache =>
        { cache := cache
          flat := s.flat.apply s.cache.defaultTTL a.now a.command
          now := a.now }
    else none

/-! ## Contents of a cache -/

def CacheEntry.binding (e : CacheEntry) : Binding where
  value := e.value
  deadline := if e.expiresAt = 0 then none else some e.expiresAt

theorem CacheEntry.binding_live (e : CacheEntry) (now : ℤ) :
    e.binding.live now = !e.isExpired now := by
  rw [← Bool.coe_iff_coe, Bool.not_eq_true', isExpired_eq_false_iff]
  unfold binding Binding.live
  by_cases hzero : e.expiresAt = 0
  · simp [hzero]
  · simp [hzero]

theorem newEntry_binding {ttl : ℤ} (hnow : 0 < now) (hfits : now + ttl < 2 ^ 63) (value : Bytes) :
    (newEntry now value (max ttl 0)).binding = ⟨value, if 0 < ttl then some (now + ttl) else none⟩ ∧
      (newEntry now value (max ttl 0)).Bounded := by
  unfold newEntry CacheEntry.binding CacheEntry.Bounded
  by_cases hpos : 0 < ttl
  · have hmax : max ttl 0 = ttl := max_eq_left hpos.le
    have hsum : int64 (now + ttl) = now + ttl := int64_of_bounds (by omega) hfits
    have hne : now + ttl ≠ 0 := by omega
    rw [hmax]
    simp only [hpos, if_true, hsum, hne, if_false]
    exact ⟨trivial, by omega, hfits⟩
  · have hmax : max ttl 0 = 0 := max_eq_right (not_lt.mp hpos)
    rw [hmax]
    simp [hpos]

def Cache.lookup (c : Cache) : Bytes → Option CacheEntry :=
  overlay c.table.lookup (oldLookup c.migration)

structure Cache.Plain (c : Cache) : Prop where
  isOpen : c.closed = false
  maxSize : c.maxSize = 0
  rehasher : c.rehasher ≠ .noop
  defaultTTL : 0 ≤ c.defaultTTL
  table : c.table.Plain
  migration : ∀ m, c.migration = some m → m.Sound
  apart : Apart c.table.lookup (oldLookup c.migration)

structure Cache.SameAt (now : ℤ) (c next : Cache) : Prop where
  plain : next.Plain
  defaultTTL : next.defaultTTL = c.defaultTTL
  live : SameLive (CacheEntry.DeadAt now) c.lookup next.lookup

section Steps

variable {c : Cache} {now : ℤ}
variable {t : ShardTable} {m : Migration} {key : Bytes}

theorem Cache.Plain.sameAt (hc : c.Plain) (now : ℤ) : c.SameAt now c := ⟨hc, rfl, .refl _ _⟩

theorem Cache.Plain.step (hc : c.Plain) (hnow : 0 < now) (order : MapOrder) :
    ∃ next, c.step order (still now) = some next ∧ c.SameAt now next := by
  cases hm : c.migration with
  | none =>
    refine ⟨c, ?_, hc.sameAt now⟩
    unfold Cache.step
    rw [hm]
  | some m =>
    have hapart : Apart c.table.lookup m.old.lookup := by
      simpa only [hm, oldLookup] using hc.apart
    rcases Migration.step_spec (hc.migration m hm) hc.table hapart hnow hc.rehasher order with
      ⟨result, hresult, hplain, hsound, hmigrates⟩
    refine ⟨{ c with migration := result.1, table := result.2 }, ?_, ?_⟩
    · unfold Cache.step
      rw [hm]
      dsimp only
      rw [hresult, Option.map_some]
    · constructor
      case plain =>
        exact ⟨hc.isOpen, hc.maxSize, hc.rehasher, hc.defaultTTL, hplain,
          hsound, hmigrates.apart hapart⟩
      case defaultTTL => rfl
      case live =>
        have hlive := hmigrates.sameLive hapart
        unfold Cache.lookup
        rw [hm]
        exact hlive

/-! ## Reads and cleanup -/

theorem ShardTable.get_prunes (t : ShardTable) (key : Bytes) (now : ℤ) :
    Prunes (CacheEntry.DeadAt now) t.lookup (t.get key now now).1.lookup := by
  intro other
  rw [t.get_lookup]
  by_cases hother : other = key
  · subst other
    rw [Function.update_self]
    cases hlookup : t.lookup key with
    | none => exact .inl rfl
    | some e =>
      cases hexpired : e.isExpired now with
      | true =>
        right
        refine ⟨by simp [Option.filter, hexpired], ?_⟩
        rintro _ ⟨⟩
        exact hexpired
      | false => exact .inl (by simp [Option.filter, hexpired])
  · rw [Function.update_of_ne hother]
    exact .inl rfl

theorem ShardTable.cleanup_prunes (t : ShardTable) (now : ℤ) :
    Prunes (CacheEntry.DeadAt now) t.lookup (t.cleanup fun _ => now).lookup := by
  intro key
  cases hcleaned : (t.cleanup fun _ => now).lookup key with
  | some e =>
    rw [((t.cleanup_lookup _ key e).mp hcleaned).1]
    exact .inl rfl
  | none =>
    right
    refine ⟨rfl, ?_⟩
    intro e he
    by_contra hlive
    have hsome := (t.cleanup_lookup (fun _ => now) key e).mpr ⟨he, Bool.eq_false_iff.mpr hlive⟩
    rw [hcleaned] at hsome
    cases hsome

theorem ShardTable.Plain.prune {pruned : ShardTable} (ht : t.Plain)
    (hunbounded : ∀ i, (pruned.shards i).Unbounded) (hrouted : pruned.Each Routed)
    (hlookup : Prunes (CacheEntry.DeadAt now) t.lookup pruned.lookup) : pruned.Plain :=
  ⟨hunbounded, hrouted, fun key e he => ht.bounded key e (hlookup.some_of_some he)⟩

theorem ShardTable.Plain.get (ht : t.Plain) (key : Bytes) (now : ℤ) : (t.get key now now).1.Plain :=
  ht.prune (t.withShard_unbounded ht.unbounded _ (ht.unbounded (t.index key)))
    (routed_invariant.removals.table_get ht.routed key now now) (t.get_prunes key now)

theorem ShardTable.Plain.cleanup (ht : t.Plain) (now : ℤ) : (t.cleanup fun _ => now).Plain :=
  ht.prune ht.unbounded (routed_invariant.removals.table_cleanup ht.routed _) (t.cleanup_prunes now)

theorem Migration.Sound.withShards (hm : m.Sound)
    {shards : Fin (2 ^ m.old.bits) → Shard} (hplain : (ShardTable.mk _ shards).Plain)
    (hlookup : ∀ key e, (ShardTable.mk _ shards).lookup key = some e →
      m.old.lookup key = some e) : { m with old := ⟨_, shards⟩ : Migration }.Sound := by
  refine ⟨hplain, hm.inRange, fun key hkey => ?_⟩
  by_contra hsome
  rcases Option.ne_none_iff_exists'.mp hsome with ⟨e, he⟩
  cases (hm.swept key hkey).symm.trans (hlookup key e he)

theorem Migration.Sound.get (hm : m.Sound) (key : Bytes) (now : ℤ) :
    { m with old := (m.old.get key now now).1 : Migration }.Sound :=
  hm.withShards (hm.plain.get key now) fun _ _ => (m.old.get_prunes key now).some_of_some

theorem Migration.Sound.cleanup (hm : m.Sound) (now : ℤ) :
    { m with old := m.old.cleanup fun _ => now : Migration }.Sound :=
  hm.withShards (hm.plain.cleanup now) fun _ _ => (m.old.cleanup_prunes now).some_of_some

theorem Cache.Plain.prune (hc : c.Plain) {table : ShardTable}
    {migration : Option Migration} (htable : table.Plain)
    (hmigration : ∀ m, migration = some m → m.Sound)
    (htableLookup : Prunes (CacheEntry.DeadAt now) c.table.lookup table.lookup)
    (holdLookup : Prunes (CacheEntry.DeadAt now) (oldLookup c.migration) (oldLookup migration)) :
    c.SameAt now { c with table := table, migration := migration } := by
  constructor
  case plain =>
    exact ⟨hc.isOpen, hc.maxSize, hc.rehasher, hc.defaultTTL, htable,
      hmigration, hc.apart.prunes htableLookup holdLookup⟩
  case defaultTTL => rfl
  case live => exact .overlay hc.apart htableLookup holdLookup

theorem Cache.SameAt.step {next : Cache} (h : c.SameAt now next)
    (hnow : 0 < now) (order : MapOrder) :
    ∃ last, next.step order (still now) = some last ∧ c.SameAt now last := by
  rcases h.plain.step hnow order with ⟨last, hstep, hlast⟩
  exact ⟨last, hstep, hlast.plain, hlast.defaultTTL.trans h.defaultTTL, h.live.trans hlast.live⟩

def Cache.find (c : Cache) (now : ℤ) (key : Bytes) : Option Bytes :=
  ((c.lookup key).filter fun e => !e.isExpired now).map CacheEntry.value

def foundOr : Option Bytes → Except CacheError Bytes
  | some value => .ok value
  | none => .error .keyNotFound

theorem Cache.Plain.find_eq (hc : c.Plain) (key : Bytes) : c.find now key =
      ((c.table.get key now now).2 <|>
        ((oldLookup c.migration key).filter fun e => !e.isExpired now).map CacheEntry.value) := by
  unfold Cache.find Cache.lookup overlay
  rw [ShardTable.get_value]
  cases htable : c.table.lookup key with
  | none => simp
  | some e =>
    rcases hc.apart key with hnone | hnone
    · rw [htable] at hnone
      cases hnone
    · rw [hnone]
      simp

theorem Cache.Plain.get (hc : c.Plain) (hnow : 0 < now) (order : MapOrder) (hkey : key ≠ []) :
    ∃ next, c.get order (still now) key = some (next, foundOr (c.find now key)) ∧
      c.SameAt now next := by
  have hread : c.SameAt now
      { c with table := (c.table.get key now now).1 } :=
    hc.prune (hc.table.get key now) hc.migration (c.table.get_prunes key now) (.refl _ _)
  have hclosed : ¬ c.closed = true := by simp [hc.isOpen]
  unfold Cache.get
  rw [if_neg hclosed, if_neg hkey, hc.find_eq]
  unfold still
  dsimp only
  cases hvalue : (c.table.get key now now).2 with
  | some value =>
    rcases hread.step hnow order with ⟨last, hstep, hlast⟩
    refine ⟨last, ?_, hlast⟩
    unfold still at hstep
    dsimp only
    rw [hstep]
    rfl
  | none =>
    cases hm : c.migration with
    | none =>
      refine ⟨_, rfl, ?_⟩
      rw [hm] at hread
      exact hread
    | some m =>
      have hboth : c.SameAt now
          { c with
            table := (c.table.get key now now).1
            migration := some { m with old := (m.old.get key now now).1 } } := by
        apply hc.prune (hc.table.get key now) _ (c.table.get_prunes key now)
        · rw [hm]
          exact m.old.get_prunes key now
        · rintro _ ⟨⟩
          exact (hc.migration m hm).get key now
      rcases hboth.step hnow order with ⟨last, hstep, hlast⟩
      refine ⟨last, ?_, hlast⟩
      unfold still at hstep
      dsimp only
      rw [hstep, Option.map_some, ShardTable.get_value]
      dsimp only [oldLookup]
      cases (m.old.lookup key).filter fun e => !e.isExpired now <;> rfl

theorem Cache.Plain.cleanup (hc : c.Plain) (now : ℤ) : c.SameAt now (c.cleanup fun _ => now).1 := by
  have hclosed : ¬ c.closed = true := by simp [hc.isOpen]
  unfold Cache.cleanup
  rw [if_neg hclosed]
  apply hc.prune (hc.table.cleanup now) _ (c.table.cleanup_prunes now)
  · cases c.migration with
    | none => exact .refl _ _
    | some m => exact m.old.cleanup_prunes now
  · intro later hlater
    rcases Option.map_eq_some_iff.mp hlater with ⟨m, hm, rfl⟩
    exact (hc.migration m hm).cleanup now

/-! ## Writes -/

theorem Migration.Sound.del (hm : m.Sound) (key : Bytes) :
    { m with old := m.old.del key : Migration }.Sound := by
  have hlookup : ∀ other e, (m.old.del key).lookup other = some e →
      m.old.lookup other = some e := by
    intro other e he
    rw [m.old.del_lookup] at he
    by_cases hother : other = key
    · subst other
      rw [Function.update_self] at he
      cases he
    · rwa [Function.update_of_ne hother] at he
  exact hm.withShards ⟨m.old.withShard_unbounded hm.plain.unbounded _ (hm.plain.unbounded _),
      routed_invariant.removals.table_del hm.plain.routed key,
      fun other e he => hm.plain.bounded other e (hlookup other e he)⟩ hlookup

theorem oldLookup_del (migration : Option Migration) (key : Bytes) :
    oldLookup (migration.map fun m => { m with old := m.old.del key }) =
      Function.update (oldLookup migration) key none := by
  cases migration with
  | none => exact (Function.update_eq_self key fun _ => none).symm
  | some m => exact m.old.del_lookup key

theorem Cache.Plain.write (hc : c.Plain) {table : ShardTable} {o : Option CacheEntry}
    (htable : table.Plain)
    (hlookup : table.lookup = Function.update c.table.lookup key o) :
    ({ c with table := table : Cache }.delOld key).Plain ∧
      ({ c with table := table : Cache }.delOld key).lookup = Function.update c.lookup key o := by
  have hold : oldLookup ({ c with table := table : Cache }.delOld key).migration =
      Function.update (oldLookup c.migration) key none :=
    oldLookup_del c.migration key
  constructor
  · refine { hc with table := htable, migration := ?_, apart := ?_ }
    · intro later hlater
      rcases Option.map_eq_some_iff.mp hlater with ⟨m, hm, rfl⟩
      exact (hc.migration m hm).del key
    · rw [hold]
      change Apart table.lookup _
      rw [hlookup]
      exact hc.apart.update_left key o
  · unfold Cache.lookup
    rw [hold]
    change overlay table.lookup _ = _
    rw [hlookup, overlay_update]

theorem ShardTable.Plain.set (ht : t.Plain) (key value : Bytes) {ttl : ℤ}
    (hbounded : (newEntry now value ttl).Bounded) :
    (t.set key value ttl now).Plain := by
  constructor
  case unbounded => exact t.set_unbounded ht.unbounded _ _ _ _
  case routed => exact routed_invariant.table_set ht.routed _ _ _ _
  case bounded =>
    intro other e he
    rw [t.set_lookup (ht.unbounded _).2] at he
    by_cases hother : other = key
    · subst other
      rw [Function.update_self] at he
      cases he
      exact hbounded
    · rw [Function.update_of_ne hother] at he
      exact ht.bounded other e he

theorem ShardTable.Plain.del (ht : t.Plain) (key : Bytes) : (t.del key).Plain :=
  (Migration.Sound.del (m := ⟨t, 0⟩)
    ⟨ht, Nat.two_pow_pos _, fun _ h => absurd h (Nat.not_lt_zero _)⟩ key).plain

theorem Cache.Plain.ttlOrDefault (hc : c.Plain) (ttl : Option ℤ) :
    c.ttlOrDefault ttl = max (ttl.getD c.defaultTTL) 0 := by
  cases ttl with
  | none => exact (max_eq_left hc.defaultTTL).symm
  | some ttl => rfl

theorem Cache.Plain.set (hc : c.Plain) (hnow : 0 < now) (order : MapOrder)
    (hkey : key ≠ []) (value : Bytes) {ttl : Option ℤ}
    (hfits : now + ttl.getD c.defaultTTL < 2 ^ 63) :
    ∃ next, c.set order (still now) key (some value) ttl = some (next, .ok ()) ∧
      next.Plain ∧ next.defaultTTL = c.defaultTTL ∧
      SameLive (CacheEntry.DeadAt now) next.lookup (Function.update c.lookup key
          (some (newEntry now value (max (ttl.getD c.defaultTTL) 0)))) := by
  have hentry := (newEntry_binding hnow hfits value).2
  rcases hc.write (hc.table.set key value hentry)
      (c.table.set_lookup (hc.table.unbounded _).2 value _ now) with
    ⟨hplain, hlookup⟩
  rcases hplain.step hnow order with ⟨next, hstep, hnext⟩
  refine ⟨next, ?_, hnext.plain, hnext.defaultTTL, ?_⟩
  · have hclosed : ¬ c.closed = true := by simp [hc.isOpen]
    unfold Cache.set
    rw [if_neg hclosed, if_neg hkey, hc.ttlOrDefault]
    dsimp only
    rw [show still now .current key = now from rfl, hstep]
    rfl
  · rw [← hlookup]
    exact hnext.live.symm

theorem Cache.Plain.del (hc : c.Plain) (hnow : 0 < now) (order : MapOrder) (hkey : key ≠ []) :
    ∃ next, c.del order (still now) key = some (next, .ok ()) ∧
      next.Plain ∧ next.defaultTTL = c.defaultTTL ∧
      SameLive (CacheEntry.DeadAt now) next.lookup (Function.update c.lookup key none) := by
  rcases hc.write (hc.table.del key) (c.table.del_lookup key) with
    ⟨hplain, hlookup⟩
  rcases hplain.step hnow order with ⟨next, hstep, hnext⟩
  refine ⟨next, ?_, hnext.plain, hnext.defaultTTL, ?_⟩
  · have hclosed : ¬ c.closed = true := by simp [hc.isOpen]
    unfold Cache.del
    rw [if_neg hclosed, if_neg hkey]
    dsimp only
    rw [hstep]
    rfl
  · rw [← hlookup]
    exact hnext.live.symm

/-! ## Resizes -/

theorem newTable_lookup (bits : ℕ) (kind : PolicyKind) (maxSize : ℕ) :
    (newTable bits kind maxSize).lookup = fun _ => none := by
  funext key
  rfl

theorem newTable_plain (bits : ℕ) (kind : PolicyKind) : (newTable bits kind 0).Plain := by
  constructor
  case unbounded => exact fun _ => newShard_unbounded kind
  case routed => exact routed_invariant.newTable trivial bits 0
  case bounded =>
    intro key e he
    rw [newTable_lookup] at he
    cases he

theorem Cache.Plain.resize (hc : c.Plain) (shardCount : ℤ) :
    c.SameAt now (c.resize shardCount).1 := by
  unfold Cache.resize
  split_ifs with hclosed hvalid hbusy hnoop
  · exact hc.sameAt now
  · exact hc.sameAt now
  · exact hc.sameAt now
  · exact absurd hnoop hc.rehasher
  · have hnone : c.migration = none := by simpa using hbusy
    have hmax : perShardMax c.maxSize shardCount.toNat = 0 := by
      simp [perShardMax, hc.maxSize]
    have hsound : Migration.Sound ⟨c.table, 0⟩ :=
      ⟨hc.table, Nat.two_pow_pos _, fun _ h => absurd h (Nat.not_lt_zero _)⟩
    dsimp only
    rw [hmax]
    constructor
    case plain =>
      refine { hc with table := newTable_plain _ _, migration := ?_, apart := ?_ }
      · rintro _ ⟨⟩
        exact hsound
      · intro key
        left
        exact congrFun (newTable_lookup _ _ _) key
    case defaultTTL => rfl
    case live =>
      have hlookup : c.lookup = overlay (fun _ => none) c.table.lookup := by
        rw [Cache.lookup, hnone, overlay_none_left]
        exact overlay_none_right
      rw [hlookup, ← newTable_lookup shardCount.toNat.log2 c.policyFactory 0]
      exact .refl _ _

/-! ## Counting -/

theorem Cache.Plain.len (hc : c.Plain) (now : ℤ) :
    c.len (fun _ => now) = {key | ∃ value, c.find now key = some value}.ncard := by
  have hclosed : ¬ c.closed = true := by simp [hc.isOpen]
  have hfind : ∀ key, (∃ value, c.find now key = some value) ↔
      ∃ e, c.lookup key = some e ∧ e.isExpired now = false := by
    intro key
    simp [Cache.find, Option.filter_eq_some_iff]
  have htable : ∀ key, key ∈ c.table.liveKeys (fun _ => now) ↔
      ∃ e, c.table.lookup key = some e ∧ e.isExpired now = false :=
    fun key => ShardTable.mem_liveKeys hc.table.routed
  unfold Cache.len
  rw [if_neg hclosed, ← ShardTable.card_liveKeys hc.table.routed]
  simp only [hfind]
  cases hm : c.migration with
  | none =>
    have hset : {key | ∃ e, c.lookup key = some e ∧ e.isExpired now = false} =
        ↑(c.table.liveKeys fun _ => now) := by
      ext key
      rw [Finset.mem_coe, htable, Set.mem_ofPred_eq, Cache.lookup, hm]
      simp only [oldLookup, overlay_none_right]
    rw [hset, Set.ncard_coe_finset]
    rfl
  | some m =>
    have hplain := (hc.migration m hm).plain
    have hold : ∀ key, key ∈ m.old.liveKeys (fun _ => now) ↔
        ∃ e, m.old.lookup key = some e ∧ e.isExpired now = false :=
      fun key => ShardTable.mem_liveKeys hplain.routed
    have hapart : Apart c.table.lookup m.old.lookup := by
      simpa only [hm, oldLookup] using hc.apart
    have hset : {key | ∃ e, c.lookup key = some e ∧ e.isExpired now = false} =
        ↑(c.table.liveKeys (fun _ => now) ∪ m.old.liveKeys fun _ => now) := by
      ext key
      rw [Finset.mem_coe, Finset.mem_union, htable, hold, Set.mem_ofPred_eq,
        Cache.lookup, hm, ← exists_or]
      simp only [oldLookup, overlay_eq_some hapart, or_and_right]
    have hdisjoint : Disjoint (c.table.liveKeys fun _ => now) (m.old.liveKeys fun _ => now) := by
      apply Finset.disjoint_left.mpr
      intro key hin hin'
      rcases (htable key).mp hin with ⟨e, he, -⟩
      rcases (hold key).mp hin' with ⟨e', he', -⟩
      rcases hapart key with hnone | hnone
      · rw [he] at hnone
        cases hnone
      · rw [he'] at hnone
        cases hnone
    rw [hset, Set.ncard_coe_finset, Finset.card_union_of_disjoint hdisjoint,
      ShardTable.card_liveKeys hplain.routed]
    rfl

end Steps

/-! ## The simulation -/

def Cache.flat (c : Cache) : FlatCache := fun key => (c.lookup key).map CacheEntry.binding

def Binding.DeadAt (now : ℤ) (b : Binding) : Prop := b.live now = false

theorem CacheEntry.DeadAt.binding {e : CacheEntry} (hdead : e.DeadAt now) :
    e.binding.DeadAt now := by
  unfold Binding.DeadAt
  rw [e.binding_live, hdead]
  rfl

theorem Binding.DeadAt.mono {b : Binding} {later : ℤ} (hle : now ≤ later)
    (hdead : b.DeadAt now) : b.DeadAt later := by
  unfold Binding.DeadAt Binding.live at *
  cases hdeadline : b.deadline with
  | none => simp [hdeadline] at hdead
  | some deadline =>
    simp only [hdeadline, decide_eq_false_iff_not, not_lt] at hdead ⊢
    exact hdead.trans hle

theorem FlatCache.apply_sameLive {dead : Binding → Prop} {f g : FlatCache}
    (h : SameLive dead f g) (defaultTTL now : ℤ) (command : Command) :
    SameLive dead (f.apply defaultTTL now command) (g.apply defaultTTL now command) := by
  unfold FlatCache.apply
  split
  · split_ifs
    · exact h
    · exact h.update _ _
  · split_ifs
    · exact h
    · exact h.update _ _
  · exact h

theorem map_update {V W : Type} (b : V → W) (f : Bytes → Option V) (key : Bytes) (o : Option V) :
    (fun other => (Function.update f key o other).map b) =
      Function.update (fun other => (f other).map b) key (o.map b) := by
  funext other
  by_cases hother : other = key
  · subst other
    simp only [Function.update_self]
  · simp only [Function.update_of_ne hother]

section Simulation

variable {c : Cache} {now : ℤ}

theorem Cache.SameAt.flat {next : Cache} (h : c.SameAt now next) :
    SameLive (Binding.DeadAt now) next.flat c.flat :=
  (h.live.map CacheEntry.binding fun _ hdead => hdead.binding).symm

theorem Cache.Plain.apply (hc : c.Plain) (hnow : 0 < now) {command : Command}
    (hcommand : command.onStrings = true)
    (hfits : command.fits c.defaultTTL now = true) (order : MapOrder) :
    ∃ next, c.apply ⟨command, order, still now⟩ = some next ∧
      next.Plain ∧ next.defaultTTL = c.defaultTTL ∧
      SameLive (Binding.DeadAt now) next.flat
        (c.flat.apply c.defaultTTL now command) := by
  have hclosed : ¬ c.closed = true := by simp [hc.isOpen]
  have hsame : ∀ {next : Cache}, c.SameAt now next →
      next.Plain ∧ next.defaultTTL = c.defaultTTL ∧
        SameLive (Binding.DeadAt now) next.flat c.flat :=
    fun h => ⟨h.plain, h.defaultTTL, h.flat⟩
  cases command with
  | set key value ttl =>
    cases value with
    | none =>
      refine ⟨c, ?_, hsame (hc.sameAt now)⟩
      unfold Cache.apply Cache.set
      dsimp only
      rw [if_neg hclosed]
      split_ifs <;> rfl
    | some value =>
      by_cases hkey : key = []
      · refine ⟨c, ?_, ?_⟩
        · unfold Cache.apply Cache.set
          dsimp only
          rw [if_neg hclosed, if_pos hkey]
          rfl
        · rw [show c.flat.apply c.defaultTTL now (.set key (some value) ttl) =
            c.flat from if_pos hkey]
          exact hsame (hc.sameAt now)
      · have hfits' : now + ttl.getD c.defaultTTL < 2 ^ 63 := by
          simpa [Command.fits] using hfits
        rcases hc.set hnow order hkey value hfits' with
          ⟨next, hset, hplain, httl, hlive⟩
        refine ⟨next, ?_, hplain, httl, ?_⟩
        · unfold Cache.apply
          dsimp only
          rw [hset]
          rfl
        · have hflat := hlive.map CacheEntry.binding fun _ hdead => CacheEntry.DeadAt.binding hdead
          rw [map_update, Option.map_some, (newEntry_binding hnow hfits' value).1] at hflat
          simp only [FlatCache.apply, hkey, if_false]
          exact hflat
  | get key =>
    by_cases hkey : key = []
    · refine ⟨c, ?_, hsame (hc.sameAt now)⟩
      unfold Cache.apply Cache.get
      dsimp only
      rw [if_neg hclosed, if_pos hkey]
      rfl
    · rcases hc.get hnow order hkey with ⟨next, hget, hnext⟩
      refine ⟨next, ?_, hsame hnext⟩
      unfold Cache.apply
      dsimp only
      rw [hget]
      rfl
  | del key =>
    by_cases hkey : key = []
    · refine ⟨c, ?_, ?_⟩
      · unfold Cache.apply Cache.del
        dsimp only
        rw [if_neg hclosed, if_pos hkey]
        rfl
      · rw [show c.flat.apply c.defaultTTL now (.del key) = c.flat from
          if_pos hkey]
        exact hsame (hc.sameAt now)
    · rcases hc.del hnow order hkey with ⟨next, hdel, hplain, httl, hlive⟩
      refine ⟨next, ?_, hplain, httl, ?_⟩
      · unfold Cache.apply
        dsimp only
        rw [hdel]
        rfl
      · have hflat := hlive.map CacheEntry.binding fun _ hdead => CacheEntry.DeadAt.binding hdead
        rw [map_update] at hflat
        simp only [FlatCache.apply, hkey, if_false]
        exact hflat
  | len => exact ⟨c, rfl, hsame (hc.sameAt now)⟩
  | cleanup => exact ⟨_, rfl, hsame (hc.cleanup now)⟩
  | resize shardCount => exact ⟨_, rfl, hsame (hc.resize shardCount)⟩
  | _ => cases hcommand

end Simulation

structure Lockstep.Related (s : Lockstep) : Prop where
  plain : s.cache.Plain
  agree : SameLive (Binding.DeadAt s.now) s.cache.flat s.flat
  emptyKey : s.flat [] = none

theorem resharding_init_related (hinit : resharding.init s) : s.Related := by
  rcases hinit with ⟨⟨opts, hnew⟩, hmax, hkind, hflat⟩
  rcases Cache.new_ok hnew with ⟨-, httl, hc⟩
  have hzero : opts.maxSize.toNat = 0 := by
    rw [hc] at hmax
    exact hmax
  have htable : s.cache.table = newTable opts.shardCount.toNat.log2 s.cache.policyFactory 0 := by
    rw [hc]
    simp [perShardMax, hzero]
  have hnone : s.cache.migration = none := by rw [hc]
  constructor
  case plain =>
    constructor
    case isOpen => rw [hc]
    case maxSize => exact hmax
    case rehasher => exact hkind
    case defaultTTL =>
      rw [hc]
      exact httl
    case table =>
      rw [htable]
      exact newTable_plain _ _
    case migration =>
      intro m hm
      rw [hnone] at hm
      cases hm
    case apart =>
      intro key
      right
      rw [hnone]
      rfl
  case agree =>
    have hlookup : s.cache.lookup = fun _ => none := by
      rw [Cache.lookup, hnone, htable, newTable_lookup]
      exact overlay_none_left
    have hempty : s.cache.flat = fun _ => none := by
      unfold Cache.flat
      rw [hlookup]
      rfl
    rw [hempty, hflat]
    exact .refl _ _
  case emptyKey => rw [hflat]

theorem FlatCache.apply_emptyKey {flat : FlatCache} (hflat : flat [] = none)
    (defaultTTL now : ℤ) (command : Command) :
    flat.apply defaultTTL now command [] = none := by
  unfold FlatCache.apply
  split
  · split_ifs with hkey
    · exact hflat
    · rw [Function.update_of_ne (Ne.symm hkey), hflat]
  · split_ifs with hkey
    · exact hflat
    · rw [Function.update_of_ne (Ne.symm hkey), hflat]
  · exact hflat

theorem Lockstep.Related.step {next : Lockstep} {a : TimedCommand} (h : s.Related)
    (hstep : resharding.step s a = some next) : next.Related := by
  unfold resharding at hstep
  dsimp only at hstep
  split_ifs at hstep with henabled
  rcases henabled with ⟨hcommand, hnow, hle, hfits⟩
  rcases h.plain.apply hnow hcommand hfits a.order with
    ⟨cache, happly, hplain, -, hflat⟩
  rw [happly, Option.map_some, Option.some.injEq] at hstep
  subst next
  constructor
  case plain => exact hplain
  case agree =>
    exact hflat.trans (FlatCache.apply_sameLive (h.agree.mono fun _ hdead => hdead.mono hle) _ _ _)
  case emptyKey => exact FlatCache.apply_emptyKey h.emptyKey _ _ _

theorem resharding_related (hreach : resharding.Reachable s) : s.Related :=
  hreach.invariant Lockstep.Related (fun _ => resharding_init_related)
    fun _ _ _ h _ hstep => h.step hstep

theorem Cache.find_eq_some_iff {c : Cache} {value : Bytes} : c.find now key = some value ↔
      ∃ b, c.flat key = some b ∧ b.live now = true ∧ b.value = value := by
  unfold Cache.find Cache.flat
  simp only [Option.map_eq_some_iff, Option.filter_eq_some_iff]
  constructor
  · rintro ⟨e, ⟨hlookup, hlive⟩, rfl⟩
    exact ⟨e.binding, ⟨e, hlookup, rfl⟩, by rw [e.binding_live]; exact hlive, rfl⟩
  · rintro ⟨b, ⟨e, hlookup, rfl⟩, hlive, rfl⟩
    exact ⟨e, ⟨hlookup, by rw [← e.binding_live]; exact hlive⟩, rfl⟩

theorem Lockstep.Related.flat_iff (h : s.Related) (hnow : s.now ≤ now) (key : Bytes)
    {b : Binding} (hlive : b.live now = true) :
    s.cache.flat key = some b ↔ s.flat key = some b := by
  apply h.agree.mono (fun _ hdead => hdead.mono hnow) key b
  simp [Binding.DeadAt, hlive]

theorem Lockstep.Related.foundOr_find (h : s.Related) (hnow : s.now ≤ now)
    (hkey : key ≠ []) : foundOr (s.cache.find now key) = s.flat.get now key := by
  unfold FlatCache.get
  rw [if_neg hkey]
  cases hfind : s.cache.find now key with
  | some value =>
    rcases Cache.find_eq_some_iff.mp hfind with ⟨b, hflat, hlive, rfl⟩
    rw [(h.flat_iff hnow key hlive).mp hflat]
    simp [foundOr, hlive]
  | none =>
    cases hflat : s.flat key with
    | none => rfl
    | some b =>
      cases hlive : b.live now with
      | false => simp [foundOr, hlive]
      | true =>
        have hsome := Cache.find_eq_some_iff.mpr
          ⟨b, (h.flat_iff hnow key hlive).mpr hflat, hlive, rfl⟩
        rw [hfind] at hsome
        cases hsome

theorem Lockstep.Related.get (h : s.Related) (hpos : 0 < now) (hnow : s.now ≤ now)
    (order : MapOrder) (key : Bytes) :
    ∃ later, s.cache.get order (still now) key = some (later, s.flat.get now key) := by
  by_cases hkey : key = []
  · subst key
    refine ⟨s.cache, ?_⟩
    unfold Cache.get
    simp [h.plain.isOpen, FlatCache.get]
  · rcases h.plain.get hpos order hkey with ⟨later, hget, -⟩
    exact ⟨later, by rw [hget, h.foundOr_find hnow hkey]⟩

theorem Lockstep.Related.find_iff (h : s.Related) (hpos : 0 < now) (hnow : s.now ≤ now)
    (order : MapOrder) (key : Bytes) :
    (∃ value, s.cache.find now key = some value) ↔
      ∃ later value, s.cache.get order (still now) key = some (later, .ok value) := by
  by_cases hkey : key = []
  · subst key
    rcases h.get hpos hnow order [] with ⟨later, hget⟩
    constructor
    · rintro ⟨value, hfind⟩
      rcases Cache.find_eq_some_iff.mp hfind with ⟨b, hflat, hlive, -⟩
      rw [h.flat_iff hnow [] hlive, h.emptyKey] at hflat
      cases hflat
    · rintro ⟨later', value, hvalue⟩
      rw [hget] at hvalue
      simp [FlatCache.get] at hvalue
  · rcases h.plain.get hpos order hkey with ⟨later, hget, -⟩
    rw [hget]
    cases s.cache.find now key <;> simp [foundOr]

def ShardTable.Has (t : ShardTable) (key : Bytes) : Prop :=
  ∃ i j, key ∈ ((t.shards i).subs j).entries

theorem ShardTable.Plain.has_iff {t : ShardTable} (ht : t.Plain) :
    t.Has key ↔ ∃ e, t.lookup key = some e := by
  simp only [ShardTable.Has, t.lookup_eq_some_iff ht.routed, ← AList.lookup_isSome,
    Option.isSome_iff_exists]
  constructor
  · rintro ⟨i, j, e, he⟩
    exact ⟨e, i, j, he⟩
  · rintro ⟨e, i, j, he⟩
    exact ⟨i, j, e, he⟩

theorem resharding_transparent {s : Lockstep} (hreach : resharding.Reachable s)
    {now : ℤ} (hpos : 0 < now) (hnow : s.now ≤ now) (order : MapOrder) :
    (∀ key, ∃ later, s.cache.get order (still now) key = some (later, s.flat.get now key)) ∧
    s.cache.len (fun _ => now) =
      {key | ∃ later value, s.cache.get order (still now) key =
        some (later, .ok value)}.ncard ∧
    (∀ m, s.cache.migration = some m → ∀ key, ¬ (s.cache.table.Has key ∧ m.old.Has key)) := by
  have h := resharding_related hreach
  refine ⟨h.get hpos hnow order, ?_, ?_⟩
  · rw [h.plain.len]
    congr 1
    ext key
    exact h.find_iff hpos hnow order key
  · rintro m hm key ⟨hnew, hold⟩
    have hapart := h.plain.apart key
    rw [hm] at hapart
    rcases h.plain.table.has_iff.mp hnew with ⟨e, he⟩
    rcases (h.plain.migration m hm).plain.has_iff.mp hold with ⟨e', he'⟩
    rcases hapart with hnone | hnone
    · rw [he] at hnone
      cases hnone
    · rw [oldLookup, he'] at hnone
      cases hnone

def resizedRun : List TimedCommand := [⟨.set [97] (some [120]) (some 10), .asStored, 1⟩,
    ⟨.set [98] (some [121]) none, .asStored, 1⟩,
    ⟨.resize 2, .asStored, 2⟩,
    ⟨.get [98], .asStored, 3⟩]

theorem resharding_transparent_resizedRun :
    ∃ s, resharding.Reachable s ∧ s.cache.migration.isSome = true ∧
      (∃ later, s.cache.get .asStored (still 5) [97] = some (later, .ok [120])) ∧
      (∃ later, s.cache.get .asStored (still 11) [97] = some (later, .error .keyNotFound)) := by
  have hinit : resharding.init ⟨.ofDefaults, fun _ => none, 0⟩ :=
    ⟨store_init_ofDefaults, rfl, by decide, rfl⟩
  have hrun : ((resharding.runFrom ⟨.ofDefaults, fun _ => none, 0⟩ resizedRun).map
        fun s => (s.cache.migration.isSome, s.now, s.flat.get 5 [97], s.flat.get 11 [97])) =
      some (true, 3, .ok [120], .error .keyNotFound) := by
    decide +kernel
  rcases TransitionSystem.exists_reachableBy hinit hrun with ⟨s, hreach, hs⟩
  simp only [Prod.mk.injEq] at hs
  rcases hs with ⟨hmigration, hnow, hearly, hlate⟩
  refine ⟨s, hreach, hmigration, ?_, ?_⟩
  · rw [← hearly]
    exact (resharding_transparent hreach (by decide) (by omega) .asStored).1 [97]
  · rw [← hlate]
    exact (resharding_transparent hreach (by decide) (by omega) .asStored).1 [97]

end MCache.Store
