import MCache.CommandEffects

/-!
# Changes of the current and of the old table

Until the next resize the current table keeps its number of shards, and a
command changes them in a few ways only.  A relation on shards that holds over
each of these ways holds between every shard before a command and the same
shard after it.  A deletion and a command on a collection are asked for only
on the keys that may be touched.  The old table of a migration has fewer ways
to change.
-/

namespace MCache.Store

structure ShardRelation (touched : Bytes → Prop) (R : Shard → Shard → Prop) : Prop where
  refl : ∀ s, R s s
  trans : ∀ {s mid later}, R s mid → R mid later → R s later
  set : ∀ s key value ttl now, R s (s.set key value ttl now).1
  get : ∀ s key now again, R s (s.get key now again).1
  del : ∀ s key, touched key → R s (s.del key)
  cleanup : ∀ s now, R s (s.cleanup now)
  swapPolicy : ∀ s order kind, R s (s.swapPolicy order kind)
  expire : ∀ s key ttl now again, R s (s.expire key ttl now again).1
  persist : ∀ s key now, R s (s.persist key now).1
  collection : ∀ s key cmd, touched key → R s { s with collections := s.collections.run key cmd }

def ShardTable.Changes (R : Shard → Shard → Prop) (t later : ShardTable) : Prop :=
  ∃ shards, later = ⟨t.bits, shards⟩ ∧ ∀ i, R (t.shards i) (shards i)

section Tables

variable {touched : Bytes → Prop} {R : Shard → Shard → Prop}
    {t mid later : ShardTable}

variable (hR : ShardRelation touched R)
include hR

theorem ShardRelation.same (t : ShardTable) : t.Changes R t :=
  ⟨t.shards, rfl, fun i => hR.refl (t.shards i)⟩

theorem ShardRelation.chain (hfirst : t.Changes R mid) (hsecond : mid.Changes R later) :
    t.Changes R later := by
  rcases hfirst with ⟨shards, rfl, hshards⟩
  rcases hsecond with ⟨shards', rfl, hshards'⟩
  exact ⟨shards', rfl, fun i => hR.trans (hshards i) (hshards' i)⟩

theorem ShardRelation.withShard (t : ShardTable)
    {i : Fin (2 ^ t.bits)} {s : Shard} (hs : R (t.shards i) s) :
    t.Changes R (t.withShard i s) := by
  refine ⟨Function.update t.shards i s, rfl, fun k => ?_⟩
  by_cases hk : k = i
  · subst k
    rw [Function.update_self]
    exact hs
  · rw [Function.update_of_ne hk]
    exact hR.refl (t.shards k)

theorem ShardRelation.table_set (t : ShardTable)
    (key value : Bytes) (ttl now : ℤ) : t.Changes R (t.set key value ttl now) :=
  hR.withShard t (hR.set _ key value ttl now)

theorem ShardRelation.insertItems (t : ShardTable) (clock : Clock) (items : List Item) :
    t.Changes R (t.insertItems clock items) := by
  induction items generalizing t with
  | nil => exact hR.same t
  | cons item rest ih => exact hR.chain (hR.table_set t _ _ _ _) (ih _)

end Tables

structure Cache.Changes (R : Shard → Shard → Prop) (c next : Cache) : Prop where
  maxSize : next.maxSize = c.maxSize
  table : c.table.Changes R next.table

section Commands

variable {touched : Bytes → Prop} {R : Shard → Shard → Prop} {c next : Cache}
    {order : MapOrder} {clock : Clock} {key : Bytes}

theorem ShardRelation.unchanged (hR : ShardRelation touched R) (c : Cache) : c.Changes R c :=
  ⟨rfl, hR.same c.table⟩

theorem ShardRelation.step (hR : ShardRelation touched R)
    (hstep : c.step order clock = some next) : c.Changes R next := by
  unfold Cache.step at hstep
  split at hstep
  · cases hstep
    exact hR.unchanged c
  · rcases Option.map_eq_some_iff.mp hstep with ⟨result, hresult, rfl⟩
    rcases Migration.step_inserts hresult with ⟨items, hitems⟩
    refine ⟨rfl, ?_⟩
    dsimp only
    rw [hitems]
    exact hR.insertItems c.table clock items

theorem ShardRelation.onShard (hR : ShardRelation touched R) {α : Type}
    (c : Cache) (key : Bytes) {f : Shard → Shard × α} (hf : ∀ s, R s (f s).1) :
    c.Changes R (c.onShard key f).1 := by
  unfold Cache.onShard
  split_ifs
  · exact hR.unchanged c
  · exact hR.unchanged c
  · exact ⟨rfl, hR.withShard _ (hf _)⟩

def Command.Touches (touched : Bytes → Prop) : Command → Prop
  | .del key | .collection key _ => touched key
  | _ => True

theorem ShardRelation.beforeStep (hR : ShardRelation touched R) {a : CacheAction}
    (htouched : a.command.Touches touched) {mid : Cache} (hmid : c.BeforeStep a mid) :
    c.Changes R mid := by
  cases hmid with
  | step => exact hR.unchanged c
  | set => exact ⟨rfl, hR.table_set c.table _ _ _ _⟩
  | get => exact ⟨rfl, hR.withShard c.table (hR.get _ _ _ _)⟩
  | getOld => exact ⟨rfl, hR.withShard c.table (hR.get _ _ _ _)⟩
  | del hcommand =>
    rw [hcommand] at htouched
    exact ⟨rfl, hR.withShard c.table (hR.del _ _ htouched)⟩

theorem ShardRelation.effect (hR : ShardRelation touched R) {a : CacheAction}
    (htouched : a.command.Touches touched) (heffect : c.Effect a next) :
    c.Changes R next ∨ ∃ shardCount kind, a.command = .resize shardCount ∧
        validShards shardCount = true ∧ next.maxSize = c.maxSize ∧
        next.table = newTable shardCount.toNat.log2 kind
          (perShardMax c.maxSize shardCount.toNat) := by
  cases heffect with
  | resize hcommand hvalid => exact .inr ⟨_, _, hcommand, hvalid, rfl, rfl⟩
  | same => exact .inl (hR.unchanged c)
  | stepped hmid hstep =>
    have hbefore := hR.beforeStep htouched hmid
    have hafter := hR.step hstep
    exact .inl ⟨hafter.maxSize.trans hbefore.maxSize, hR.chain hbefore.table hafter.table⟩
  | cleanup => exact .inl ⟨rfl, _, rfl, fun i => hR.cleanup _ _⟩
  | expire => exact .inl ⟨rfl, hR.withShard c.table (hR.expire _ _ _ _ _)⟩
  | persist => exact .inl ⟨rfl, hR.withShard c.table (hR.persist _ _ _)⟩
  | collection hcommand =>
    rw [hcommand] at htouched
    exact .inl ⟨rfl, hR.withShard c.table (hR.collection _ _ _ htouched)⟩
  | setEvictionPolicy => exact .inl ⟨rfl, _, rfl, fun i => hR.swapPolicy _ _ _⟩
  | setRehasher => exact .inl ⟨rfl, hR.same c.table⟩
  | close => exact .inl ⟨rfl, hR.same c.table⟩

theorem ShardRelation.effect_of_ne_resize (hR : ShardRelation touched R)
    {a : CacheAction} (heffect : c.Effect a next)
    (htouched : a.command.Touches touched)
    (hresize : ∀ shardCount, a.command ≠ .resize shardCount) : c.Changes R next := by
  rcases hR.effect htouched heffect with hchanges | ⟨shardCount, -, hcommand, -⟩
  · exact hchanges
  · exact absurd hcommand (hresize shardCount)

end Commands

/-! ## Changes of the old table

A read, a deletion, `Cleanup`, a change of the policy and the extraction of
items are all that happens to the shards of an old table. -/

structure OldRelation (R : Shard → Shard → Prop) : Prop where
  refl : ∀ s, R s s
  get : ∀ s key now again, R s (s.get key now again).1
  del : ∀ s key, R s (s.del key)
  cleanup : ∀ s now, R s (s.cleanup now)
  swapPolicy : ∀ s order kind, R s (s.swapPolicy order kind)
  extract : ∀ {s : Shard} {order clock n result},
    s.extractN order clock n = some result → R s result.1
  trans : ∀ {s mid later}, R s mid → R mid later → R s later

structure Migration.Changes (R : Shard → Shard → Prop) (m later : Migration) : Prop where
  old : m.old.Changes R later.old
  cursor : m.rehashIdx < 2 ^ m.old.bits → later.rehashIdx < 2 ^ later.old.bits

def Cache.OldChanges (R : Shard → Shard → Prop) (c next : Cache) : Prop :=
  ∀ later, next.migration = some later → ∃ m, c.migration = some m ∧ m.Changes R later

section OldTable

variable {R : Shard → Shard → Prop} {c next : Cache} {order : MapOrder}
    {clock : Clock} {key : Bytes} {m : Migration}

theorem OldRelation.same (hR : OldRelation R) (m : Migration) : m.Changes R m :=
  ⟨⟨m.old.shards, rfl, fun _ => hR.refl _⟩, id⟩

theorem OldRelation.chain (hR : OldRelation R) {mid later : Migration}
    (hfirst : m.Changes R mid) (hsecond : mid.Changes R later) : m.Changes R later := by
  refine ⟨?_, fun hcursor => hsecond.cursor (hfirst.cursor hcursor)⟩
  rcases hfirst.old with ⟨shards, hmid, hshards⟩
  rcases hsecond.old with ⟨shards', hlater, hshards'⟩
  rcases m with ⟨old, idx⟩
  rcases mid with ⟨mid, midIdx⟩
  rcases later with ⟨later, laterIdx⟩
  dsimp only at hmid hlater hshards hshards' ⊢
  subst hmid
  subst hlater
  exact ⟨shards', rfl, fun i => hR.trans (hshards i) (hshards' i)⟩

theorem OldRelation.withShard (hR : OldRelation R) (m : Migration)
    {i : Fin (2 ^ m.old.bits)} {s : Shard} (hs : R (m.old.shards i) s) {idx : ℕ}
    (hidx : m.rehashIdx < 2 ^ m.old.bits → idx < 2 ^ m.old.bits) :
    m.Changes R ⟨m.old.withShard i s, idx⟩ := by
  refine ⟨⟨Function.update m.old.shards i s, rfl, fun k => ?_⟩, hidx⟩
  by_cases hk : k = i
  · subst k
    rw [Function.update_self]
    exact hs
  · rw [Function.update_of_ne hk]
    exact hR.refl _

theorem OldRelation.unchanged (hR : OldRelation R) (hsame : next.migration = c.migration) :
    c.OldChanges R next := by
  intro later hlater
  exact ⟨later, hsame ▸ hlater, hR.same later⟩

theorem Cache.OldChanges.ended (hended : next.migration = none) : c.OldChanges R next := by
  intro later hlater
  rw [hended] at hlater
  cases hlater

theorem OldRelation.migrationStep (hR : OldRelation R) {kind : RehasherKind}
    {table : ShardTable} {result : Option Migration × ShardTable}
    (hresult : m.step kind order clock table = some result) {later : Migration}
    (hlater : result.1 = some later) : m.Changes R later := by
  cases kind with
  | incremental =>
    simp only [Migration.step, Migration.stepIncremental] at hresult
    split at hresult
    case isFalse => cases hresult
    rename_i hidx
    rcases Option.map_eq_some_iff.mp hresult with ⟨extracted, hextract, rfl⟩
    split_ifs at hlater with hempty hlast
    · cases hlater
      exact hR.withShard m (hR.extract hextract) fun _ => not_le.mp hlast
    · cases hlater
      exact hR.withShard m (hR.extract hextract) id
  | batch =>
    rcases Option.map_eq_some_iff.mp hresult with ⟨drained, -, rfl⟩
    cases hlater
  | noop =>
    cases hresult
    cases hlater
    exact hR.same m

theorem OldRelation.thenStep (hR : OldRelation R) {mid : Cache}
    (hmid : c.OldChanges R mid) (hstep : mid.step order clock = some next) :
    c.OldChanges R next := by
  intro later hlater
  unfold Cache.step at hstep
  split at hstep
  · cases hstep
    exact hmid later hlater
  · rename_i m hm
    rcases Option.map_eq_some_iff.mp hstep with ⟨result, hresult, rfl⟩
    rcases hmid m hm with ⟨first, hfirst, hchanges⟩
    exact ⟨first, hfirst, hR.chain hchanges (hR.migrationStep hresult hlater)⟩

theorem Cache.OldChanges.map_old {f : ShardTable → ShardTable}
    (hf : ∀ t : ShardTable, t.Changes R (f t)) {table : ShardTable} :
    c.OldChanges R
      { c with
        table := table
        migration := c.migration.map fun m => { m with old := f m.old } } := by
  intro later hlater
  rcases Option.map_eq_some_iff.mp hlater with ⟨m, hm, rfl⟩
  refine ⟨m, hm, hf m.old, fun hcursor => ?_⟩
  rcases hf m.old with ⟨shards, hold, -⟩
  dsimp only
  rw [hold]
  exact hcursor

theorem OldRelation.old_del (hR : OldRelation R) (key : Bytes) (t : ShardTable) :
    t.Changes R (t.del key) :=
  (hR.withShard ⟨t, 0⟩ (hR.del _ key) id).old

theorem OldRelation.old_get (hR : OldRelation R) (key : Bytes) (now again : ℤ)
    (t : ShardTable) : t.Changes R (t.get key now again).1 :=
  (hR.withShard ⟨t, 0⟩ (hR.get _ key now again) id).old

theorem OldRelation.beforeStep (hR : OldRelation R) {a : CacheAction} {mid : Cache}
    (hmid : c.BeforeStep a mid) : c.OldChanges R mid := by
  cases hmid with
  | step => exact hR.unchanged rfl
  | set => exact .map_old (hR.old_del _)
  | get => exact hR.unchanged rfl
  | getOld _ hm =>
    rintro later ⟨⟩
    exact ⟨_, hm, hR.old_get _ _ _ _, id⟩
  | del => exact .map_old (hR.old_del _)

theorem OldRelation.effect (hR : OldRelation R) {a : CacheAction} (heffect : c.Effect a next) :
    c.OldChanges R next ∨ c.migration = none ∧ next.migration = some ⟨c.table, 0⟩ ∧
        next.maxSize = c.maxSize := by
  cases heffect with
  | resize _ _ hidle =>
    by_cases hnoop : c.rehasher = .noop
    · exact .inl (.ended (if_pos hnoop))
    · exact .inr ⟨hidle, if_neg hnoop, rfl⟩
  | same => exact .inl (hR.unchanged rfl)
  | stepped hmid hstep => exact .inl (hR.thenStep (hR.beforeStep hmid) hstep)
  | cleanup => exact .inl (.map_old fun t => ⟨_, rfl, fun i => hR.cleanup _ _⟩)
  | expire => exact .inl (hR.unchanged rfl)
  | persist => exact .inl (hR.unchanged rfl)
  | collection => exact .inl (hR.unchanged rfl)
  | setEvictionPolicy =>
    left
    intro later hlater
    rcases Option.map_eq_some_iff.mp hlater with ⟨m, hm, rfl⟩
    exact ⟨m, hm, ⟨_, rfl, fun i => hR.swapPolicy _ _ _⟩, id⟩
  | setRehasher => exact .inl (.ended rfl)
  | close => exact .inl (.ended rfl)

end OldTable

end MCache.Store
