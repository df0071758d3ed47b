import MCache.EmptyCollections
import MCache.ExpiredEntries

/-!
# Invariants of collections

The collections of a shard change by a deletion and by a command on a key that
is routed to the shard, and start empty in the table of a resize.  A property
that these keep holds of every shard of the current table in every run: the keys
are where they are looked for, and a set has no element twice.  No key is empty,
in the collections or among the strings.
-/

namespace MCache.Store

abbrev CollectionsProperty := (Bytes → Prop) → Collections → Prop

structure CollectionsInvariant (Q : CollectionsProperty) : Prop where
  empty : ∀ route, Q route .empty
  del : ∀ {route c} (key), Q route c → Q route (c.del key)
  run : ∀ {route : Bytes → Prop} {c key} (cmd), Q route c → route key → Q route (c.run key cmd)

def ShardTable.EachStores (Q : CollectionsProperty) (t : ShardTable) : Prop :=
  ∀ i, Q (fun key => t.index key = i ∧ key ≠ []) (t.shards i).collections

section Rule

variable {Q : CollectionsProperty} {t later : ShardTable} {c next : Cache}

theorem ShardTable.EachStores.withShard (h : t.EachStores Q) (i : Fin (2 ^ t.bits))
    {s : Shard} (hs : Q (fun key => t.index key = i ∧ key ≠ []) s.collections) :
    (t.withShard i s).EachStores Q := by
  change ∀ k : Fin (2 ^ t.bits), Q (fun key => t.index key = k ∧ key ≠ [])
    (Function.update t.shards i s k).collections
  intro k
  by_cases hk : k = i
  · subst hk
    rwa [Function.update_self]
  · rw [Function.update_of_ne hk]
    exact h k

theorem ShardTable.Changes.eachStores (h : t.EachStores Q)
    (hchanges : t.Changes Shard.SameStores later) : later.EachStores Q := by
  rcases hchanges with ⟨shards, rfl, hshards⟩
  intro i
  have hsame : (shards i).collections = (t.shards i).collections := hshards i
  dsimp only
  rw [hsame]
  exact h i

variable (hQ : CollectionsInvariant Q)
include hQ

theorem CollectionsInvariant.newTable (bits : ℕ)
    (kind : PolicyKind) (cap : ℕ) : (newTable bits kind cap).EachStores Q :=
  fun _ => hQ.empty _

theorem CollectionsInvariant.cache_del (h : c.table.EachStores Q) {order : MapOrder}
    {clock : Clock} {key : Bytes}
    {result : Cache × Except CacheError Unit}
    (hdel : c.del order clock key = some result) : result.1.table.EachStores Q := by
  unfold Cache.del at hdel
  split_ifs at hdel
  · cases hdel
    exact h
  · cases hdel
    exact h
  · rcases Option.map_eq_some_iff.mp hdel with ⟨stepped, hstep, rfl⟩
    refine (sameStores_relation.step hstep).table.eachStores ?_
    exact h.withShard _ (hQ.del key (h _))

theorem CollectionsInvariant.cache_collection (h : c.table.EachStores Q) (key : Bytes)
    (cmd : CollectionCommand) :
    (c.collection key cmd).1.table.EachStores Q := by
  unfold Cache.collection Cache.onShard
  split_ifs with hclosed hkey
  · exact h
  · exact h
  · exact h.withShard _ (hQ.run cmd (h _) ⟨rfl, hkey⟩)

theorem CollectionsInvariant.apply (h : c.table.EachStores Q) {a : CacheAction}
    (hstep : c.apply a = some next) :
    next.table.EachStores Q := by
  have hother : a.command.Touches (fun _ => False) → next.table.EachStores Q := by
    intro htouches
    rcases sameStores_relation.effect htouches (Cache.apply_effect hstep) with
      hchanges | ⟨shardCount, kind, -, -, -, htable⟩
    · exact hchanges.table.eachStores h
    · rw [htable]
      exact hQ.newTable _ _ _
  rcases a with ⟨command, order, clock⟩
  cases command with
  | collection key cmd =>
    cases hstep
    exact hQ.cache_collection h key cmd
  | del key =>
    rcases Option.map_eq_some_iff.mp hstep with ⟨result, hdel, rfl⟩
    exact hQ.cache_del h hdel
  | _ => exact hother trivial

theorem store_eachStores (hreach : store.Reachable c) : c.table.EachStores Q := by
  apply hreach.invariant (fun c => c.table.EachStores Q)
  · rintro c ⟨opts, hnew⟩
    rcases Cache.new_ok hnew with ⟨-, -, hc⟩
    rw [hc]
    exact hQ.newTable _ _ _
  · exact fun c a next h _ hstep => hQ.apply h hstep

end Rule

def Collections.Has (c : Collections) (key : Bytes) : Prop :=
  key ∈ c.sets ∨ key ∈ c.hashes ∨ key ∈ c.lists

theorem Collections.has_iff_content (c : Collections) (key : Bytes) :
    c.Has key ↔ c.content key ≠ (none, none, none) := by
  unfold Collections.Has Collections.content
  rw [← AList.lookup_isSome, ← AList.lookup_isSome, ← AList.lookup_isSome]
  cases c.sets.lookup key <;> cases c.hashes.lookup key <;> cases c.lists.lookup key <;>
    simp

theorem keys_routed : CollectionsInvariant fun route c => ∀ key, c.Has key → route key where
  empty := by
    rintro route key (hset | hhash | hlist)
    · exact absurd hset (AList.notMem_empty key)
    · exact absurd hhash (AList.notMem_empty key)
    · exact absurd hlist (AList.notMem_empty key)
  del := by
    rintro route c key h other (hset | hhash | hlist)
    · exact h other (.inl (AList.mem_erase.mp hset).2)
    · exact h other (.inr (.inl (AList.mem_erase.mp hhash).2))
    · exact h other (.inr (.inr (AList.mem_erase.mp hlist).2))
  run := by
    intro route c key cmd h hroute other hother
    by_cases hkey : other = key
    · rw [hkey]
      exact hroute
    · apply h other
      rw [Collections.has_iff_content, ← c.content_run_ne hkey cmd, ← Collections.has_iff_content]
      exact hother

theorem setAdd_nodup {s : List Bytes} (hs : s.Nodup) (elems : List Bytes) :
    (setAdd s elems).Nodup := by
  unfold setAdd
  induction elems generalizing s with
  | nil => exact hs
  | cons e rest ih =>
    apply ih
    dsimp only
    split_ifs with hmem
    · exact hs
    · rw [← List.concat_eq_append]
      exact hs.concat hmem

theorem setRem_nodup {s : List Bytes} (hs : s.Nodup) (elems : List Bytes) :
    (setRem s elems).Nodup := by
  unfold setRem
  induction elems generalizing s with
  | nil => exact hs
  | cons e rest ih => exact ih (hs.erase e)

theorem AllValues.getD_nodup {m : AList fun _ : Bytes => List Bytes}
    (hm : AllValues List.Nodup m) (key : Bytes) : ((m.lookup key).getD []).Nodup := by
  cases hlookup : m.lookup key with
  | none => exact List.nodup_nil
  | some s => exact hm key s hlookup

theorem unlessNil_eq_some {l kept : List Bytes} (h : unlessNil l = some kept) : kept = l := by
  unfold unlessNil at h
  split_ifs at h
  cases h
  rfl

theorem sets_nodup : CollectionsInvariant fun _ c => AllValues List.Nodup c.sets where
  empty := by
    intro route key s hlookup
    cases hlookup
  del := fun key h => h.erase key
  run := by
    intro route c key cmd h _
    cases cmd with
    | sAdd elems =>
      refine (h.alter_iff key _).mpr fun s hs => ?_
      cases hs
      exact setAdd_nodup (h.getD_nodup key) elems
    | sRem elems =>
      refine (h.alter_iff key _).mpr fun s hs => ?_
      rcases Option.bind_eq_some_iff.mp hs with ⟨prev, hprev, hkept⟩
      rw [unlessNil_eq_some hkept]
      exact setRem_nodup (h key prev hprev) elems
    | sPop choice =>
      refine (h.alter_iff key _).mpr fun s hs => ?_
      rcases Option.bind_eq_some_iff.mp hs with ⟨prev, hprev, hkept⟩
      have hnodup := h key prev hprev
      split_ifs at hkept
      · cases hkept
        exact hnodup
      · rw [unlessNil_eq_some hkept]
        exact hnodup.sublist (List.eraseIdx_sublist _ _)
    | _ => exact h

theorem Cache.apply_sets_empty {c next : Cache} {a : CacheAction}
    (hsets : a.command.Sets []) (hstep : c.apply a = some next) : next = c := by
  rcases a with ⟨command, order, clock⟩
  cases command with
  | set key value ttl =>
    obtain ⟨rfl, -⟩ := hsets
    rcases Option.map_eq_some_iff.mp hstep with ⟨result, hset, rfl⟩
    unfold Cache.set at hset
    split_ifs at hset with hclosed hkey
    · cases hset
      rfl
    · cases hset
      rfl
    · exact absurd rfl hkey
  | _ => exact hsets.elim

theorem store_no_empty_key {c : Cache} (hreach : store.Reachable c) :
    c.AllAt [] (fun _ => False) (fun _ => False) := by
  have hboth : c.Each (fun _ => True) Routed ∧ c.AllAt [] (fun _ => False) (fun _ => False) := by
    apply hreach.invariant fun c => c.Each (fun _ => True) Routed ∧
      c.AllAt [] (fun _ => False) (fun _ => False)
    · rintro c ⟨opts, hnew⟩
      refine ⟨routed_invariant.new_each hnew trivial, ?_⟩
      rcases Cache.new_ok hnew with ⟨-, -, hc⟩
      rw [hc]
      constructor
      · intro e he
        cases he
      · intro m hm
        cases hm
    · rintro c a next ⟨hrouted, hnone⟩ _ hstep
      refine ⟨routed_invariant.apply_each hrouted ?_ hstep, ?_⟩
      · cases a.command <;> simp [Command.Uses]
      · by_cases hsets : a.command.Sets []
        · rw [Cache.apply_sets_empty hsets hstep]
          exact hnone
        · exact hnone.apply hrouted (fun e he => he) (fun e he => he.elim) hsets
            (fun _ e he => he.elim) hstep
  exact hboth.2

end MCache.Store
