import MCache.CacheCommands
import MCache.ShardChanges

/-!
# Collections and resizes

`Resize` starts with an empty table, a migration moves the string entries, and
the commands on collections look at the current table only.  What a key held
as a set, a hash or a list is therefore gone from the moment of the resize on,
unless a command puts something there again.
-/

namespace MCache.Store

variable {key : Bytes} {c : Cache}

def ShardTable.content (t : ShardTable) (key : Bytes) :
    Option (List Bytes) × Option HashValue × Option (List Bytes) :=
  (t.shard key).collections.content key

theorem newTable_content (bits : ℕ) (kind : PolicyKind) (maxSize : ℕ)
    (key : Bytes) : (newTable bits kind maxSize).content key = (none, none, none) :=
  rfl

def Shard.SameCollections (key : Bytes) (s later : Shard) : Prop :=
  later.collections.content key = s.collections.content key

theorem ShardTable.Changes.content {t later : ShardTable}
    (hchanges : t.Changes (Shard.SameCollections key) later) :
    later.content key = t.content key := by
  rcases hchanges with ⟨shards, rfl, hshards⟩
  exact hshards (t.index key)

def Command.avoids (key : Bytes) : Command → Bool
  | .set other _ _ | .get other | .del other | .expire other _
  | .pExpire other _ | .expireAt other _ | .pExpireAt other _
  | .persist other | .collection other _ => decide (key ≠ other)
  | _ => true

theorem Command.touches_of_avoids {cmd : Command} (havoids : cmd.avoids key) :
    cmd.Touches (key ≠ ·) := by
  cases cmd with
  | del other => exact (of_decide_eq_true havoids : key ≠ other)
  | collection other _ => exact (of_decide_eq_true havoids : key ≠ other)
  | _ => trivial

theorem sameCollections_relation (key : Bytes) :
    ShardRelation (key ≠ ·) (Shard.SameCollections key) where
  refl := fun _ => rfl
  trans := fun hfirst hsecond => hsecond.trans hfirst
  set := fun _ _ _ _ _ => rfl
  get := fun _ _ _ _ => rfl
  del := fun s _ hne => Collections.content_del_ne s.collections hne
  cleanup := fun _ _ => rfl
  swapPolicy := fun _ _ _ => rfl
  expire := fun _ _ _ _ _ => rfl
  persist := fun _ _ _ => rfl
  collection := fun s _ cmd hne => Collections.content_run_ne s.collections hne cmd

section Commands

variable {c : Cache} {key other : Bytes}

theorem Cache.collection_content (hopen : c.closed = false) (hkey : key ≠ [])
    (cmd : CollectionCommand) :
    (c.collection key cmd).1.table.content key =
      ((c.table.shard key).collections.run key cmd).content key := by
  rw [Cache.collection, Cache.onShard_open hopen hkey]
  change ((c.table.withShard (c.table.index key) _).shard key).collections.content key = _
  rw [ShardTable.shard_withShard]

theorem Cache.collection_content_ne (hne : other ≠ key) (cmd : CollectionCommand) :
    (c.collection key cmd).1.table.content other = c.table.content other := by
  have hrun : ∀ s : Shard, s.SameCollections other
      { s with collections := s.collections.run key cmd } :=
    fun s => Collections.content_run_ne s.collections hne cmd
  exact ((sameCollections_relation other).onShard c key hrun).table.content

end Commands

theorem Cache.content_apply {next : Cache} {a : CacheAction}
    (havoids : a.command.avoids key) (hstep : c.apply a = some next) :
    next.table.content key = c.table.content key ∨
      next.table.content key = (none, none, none) := by
  rcases (sameCollections_relation key).effect
      (Command.touches_of_avoids havoids) (Cache.apply_effect hstep) with
    hchanges | ⟨shardCount, kind, -, -, -, htable⟩
  · exact .inl hchanges.table.content
  · right
    rw [htable]
    exact newTable_content _ _ _ key

def Cache.collectionView (c : Cache) (key : Bytes) :
    Except CacheError (List Bytes) × Except CacheError HashValue × Except CacheError (List Bytes) :=
  (c.sMembers key, c.hGetAll key, c.lRange key 0 (-1))

def emptyView : Except CacheError (List Bytes) × Except CacheError HashValue ×
    Except CacheError (List Bytes) :=
  (.ok [], .error .keyNotFound, .error .keyNotFound)

theorem Cache.collectionView_of_content_none (hopen : c.closed = false)
    (hkey : key ≠ []) (hcontent : c.table.content key = (none, none, none)) :
    c.collectionView key = emptyView := by
  unfold ShardTable.content Collections.content at hcontent
  simp only [Prod.mk.injEq] at hcontent
  rcases hcontent with ⟨hset, hhash, hlist⟩
  simp [Cache.collectionView, Cache.sMembers, Cache.hGetAll, Cache.lRange,
    Cache.onShard, hopen, hkey, Collections.sMembers, Collections.hGetAll,
    Collections.lRange, hset, hhash, hlist, Cache.orNotFound, emptyView]

theorem Cache.collectionView_emptyKey (hopen : c.closed = false) : c.collectionView [] =
      (.error .keyEmpty, .error .keyEmpty, .error .keyEmpty) := by
  simp [Cache.collectionView, Cache.sMembers, Cache.hGetAll, Cache.lRange,
    Cache.onShard, hopen, Cache.orNotFound]

theorem Cache.sMembers_eq_closed_iff : c.sMembers key = .error .cacheClosed ↔ c.closed = true := by
  unfold Cache.sMembers Cache.onShard
  split_ifs with hclosed hkey <;> simp [hclosed]

theorem Cache.resize_ok {shardCount : ℤ} (hresize : (c.resize shardCount).2 = .ok ()) :
    c.closed = false ∧ ∃ bits kind maxSize,
        (c.resize shardCount).1.table = newTable bits kind maxSize := by
  unfold Cache.resize at hresize ⊢
  split_ifs at hresize ⊢ with hclosed
  · exact ⟨by simpa using hclosed, _, _, _, rfl⟩
  · exact ⟨by simpa using hclosed, _, _, _, rfl⟩

theorem collections_kept_iff {before later : Cache} {shardCount : ℤ}
    {key : Bytes} (hresize : (before.resize shardCount).2 = .ok ())
    (hlater : (store.startingIn (before.resize shardCount).1).ReachableBy
      (fun _ a => a.command.avoids key) later) :
    later.collectionView key = before.collectionView key ↔ later.closed = false ∧
        (key = [] ∨ before.collectionView key = emptyView) := by
  rcases Cache.resize_ok hresize with ⟨hopenBefore, bits, kind, maxSize, htable⟩
  have hcontent : later.table.content key = (none, none, none) := by
    apply hlater.invariant fun c => c.table.content key = (none, none, none)
    · rintro _ rfl
      rw [htable]
      exact newTable_content _ _ _ key
    · intro c a next hnone havoids hstep
      rcases Cache.content_apply havoids hstep with hsame | hempty
      · rw [hsame, hnone]
      · exact hempty
  cases hclosed : later.closed with
  | true =>
    -- A closed cache answers with an error that the open one did not give.
    have hnot : later.collectionView key ≠ before.collectionView key := by
      intro hsame
      have hmembers : later.sMembers key = before.sMembers key := congrArg Prod.fst hsame
      rw [Cache.sMembers_eq_closed_iff.mpr hclosed, eq_comm,
        Cache.sMembers_eq_closed_iff, hopenBefore] at hmembers
      cases hmembers
    simp [hnot]
  | false =>
    by_cases hkey : key = []
    · subst key
      rw [Cache.collectionView_emptyKey hclosed, Cache.collectionView_emptyKey hopenBefore]
      simp
    · rw [Cache.collectionView_of_content_none hclosed hkey hcontent, eq_comm]
      simp [hkey]

def withMember : Cache := (Cache.ofDefaults.collection [107] (.sAdd [[120]])).1

theorem withMember_reachable : store.Reachable withMember := by
  apply reachable_ofDefaults.next
    (a := ⟨.collection [107] (.sAdd [[120]]), .asStored, fun _ _ => 1⟩)
  rfl

theorem collections_kept_iff_withMember :
    (withMember.resize 2).1.collectionView [98] = withMember.collectionView [98] ∧
    (withMember.resize 2).1.collectionView [107] ≠ withMember.collectionView [107] := by
  have hreach : ∀ key, (store.startingIn (withMember.resize 2).1).ReachableBy
      (fun _ a => a.command.avoids key) (withMember.resize 2).1 :=
    fun _ => .init rfl
  constructor
  · apply (collections_kept_iff rfl (hreach [98])).mpr
    exact ⟨rfl, .inr rfl⟩
  · intro hsame
    rcases (collections_kept_iff rfl (hreach [107])).mp hsame with ⟨-, hkey | hview⟩
    · cases hkey
    · have hmembers := congrArg Prod.fst hview
      exact absurd hmembers (by decide +kernel)

theorem resize_drops_set : store.Reachable withMember ∧ withMember.rehasher = .incremental ∧
    (withMember.resize 2).2 = .ok () ∧
    withMember.sMembers [107] = .ok [[120]] ∧
    (withMember.resize 2).1.sMembers [107] = .ok [] ∧
    ∃ later, (store.startingIn (withMember.resize 2).1).ReachableBy
        (fun _ a => a.command.avoids [107]) later ∧
      later.migration.isNone = true ∧ later.sMembers [107] = .ok [] := by
  refine ⟨withMember_reachable, rfl, rfl, by decide +kernel, by decide +kernel, ?_⟩
  have hinit : (store.startingIn (withMember.resize 2).1).init (withMember.resize 2).1 := rfl
  have hrun : (((store.startingIn (withMember.resize 2).1).runBy
      (fun _ a => a.command.avoids [107] = true) (withMember.resize 2).1
      (List.replicate 16 ⟨.step, .asStored, fun _ _ => 1⟩)).map fun c =>
        (c.migration.isNone, c.sMembers [107])) = some (true, .ok []) := by
    decide +kernel
  rcases TransitionSystem.exists_reachableBy hinit hrun with ⟨later, hlater, hview⟩
  rw [Prod.mk.injEq] at hview
  exact ⟨later, hlater, hview⟩

end MCache.Store
