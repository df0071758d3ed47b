import MCache.MigrationSteps

/-!
# Tables with the same keys

Which entries a store evicts and which items a migration step moves does not
depend on the values and deadlines of the entries of the current table.  Two
tables with the same keys and the same state of the policies therefore keep
the same keys when the same keys are stored in them.
-/

namespace MCache.Store

variable {items : List Item} {key : Bytes}

structure SubShard.SameKeys (sub other : SubShard) : Prop where
  policy : sub.policy = other.policy
  keys : sub.entries.keys = other.entries.keys

namespace SubShard.SameKeys

variable {sub other : SubShard}

theorem refl (sub : SubShard) : sub.SameKeys sub := ⟨rfl, rfl⟩

variable (h : sub.SameKeys other)
include h

theorem mem_iff (key : Bytes) : key ∈ sub.entries ↔ key ∈ other.entries := by
  rw [AList.mem_keys, AList.mem_keys, h.keys]

theorem evictLoop (cap fuel : ℕ) : (SubShard.evictLoop cap fuel sub).1.SameKeys
      (SubShard.evictLoop cap fuel other).1 := by
  induction fuel generalizing sub other with
  | zero => exact h
  | succ fuel ih =>
    unfold SubShard.evictLoop
    rw [← h.keys, ← h.policy]
    split_ifs
    · cases hevict : sub.policy.evict with
      | mk policy victim =>
        cases victim with
        | none => exact ⟨rfl, h.keys⟩
        | some key =>
          apply ih
          exact ⟨rfl, by simp only [AList.keys_erase, h.keys]⟩
    · exact h

theorem set (cap : ℕ) (key value value' : Bytes) (ttl ttl' now now' : ℤ) :
    (sub.set cap key value ttl now).1.SameKeys (other.set cap key value' ttl' now').1 := by
  have hinsert : (sub.entries.insert key (newEntry now value ttl)).keys =
      (other.entries.insert key (newEntry now' value' ttl')).keys := by
    simp only [AList.keys_insert, h.keys]
  unfold SubShard.set
  by_cases hmem : key ∈ sub.entries
  · rw [if_pos hmem, if_pos ((h.mem_iff key).mp hmem), h.policy]
    exact ⟨rfl, hinsert⟩
  · rw [if_neg hmem, if_neg fun hother => hmem ((h.mem_iff key).mpr hother)]
    dsimp only
    rw [h.policy]
    apply evictLoop
    exact ⟨rfl, hinsert⟩

theorem lookup_isSome (key : Bytes) :
    (sub.entries.lookup key).isSome = (other.entries.lookup key).isSome := by
  rw [Bool.eq_iff_iff, AList.lookup_isSome, AList.lookup_isSome, h.mem_iff]

end SubShard.SameKeys

theorem update_related {ι α : Type} [DecidableEq ι] {R : α → α → Prop}
    {f g : ι → α} (h : ∀ i, R (f i) (g i)) (j : ι) {a b : α} (hab : R a b)
    (i : ι) : R (Function.update f j a i) (Function.update g j b i) := by
  by_cases hi : i = j
  · subst hi
    rw [Function.update_self, Function.update_self]
    exact hab
  · rw [Function.update_of_ne hi, Function.update_of_ne hi]
    exact h i

def Shard.SameKeys (s other : Shard) : Prop :=
  ∃ subs, other = { s with subs := subs } ∧ ∀ i, (s.subs i).SameKeys (subs i)

theorem Shard.SameKeys.refl (s : Shard) : s.SameKeys s := ⟨s.subs, rfl, fun i => .refl (s.subs i)⟩

theorem Shard.SameKeys.set {s other : Shard} (h : s.SameKeys other)
    (key value value' : Bytes) (ttl ttl' now now' : ℤ) :
    (s.set key value ttl now).1.SameKeys (other.set key value' ttl' now').1 := by
  obtain ⟨subs, rfl, hsubs⟩ := h
  exact ⟨_, rfl, update_related hsubs (s.subIndex key)
    ((hsubs (s.subIndex key)).set s.maxSubSize key value value' ttl ttl' now now')⟩

theorem Shard.SameKeys.lookup_isSome {s other : Shard} (h : s.SameKeys other)
    (key : Bytes) : (s.lookup key).isSome = (other.lookup key).isSome := by
  obtain ⟨subs, rfl, hsubs⟩ := h
  exact (hsubs (s.subIndex key)).lookup_isSome key

def ShardTable.SameKeys (t other : ShardTable) : Prop :=
  ∃ shards, other = { t with shards := shards } ∧ ∀ i, (t.shards i).SameKeys (shards i)

namespace ShardTable.SameKeys

variable {t other : ShardTable}

theorem refl (t : ShardTable) : t.SameKeys t := ⟨t.shards, rfl, fun i => .refl (t.shards i)⟩

theorem set (h : t.SameKeys other) (key value value' : Bytes) (ttl ttl' now now' : ℤ) :
    (t.set key value ttl now).SameKeys (other.set key value' ttl' now') := by
  obtain ⟨shards, rfl, hshards⟩ := h
  exact ⟨_, rfl, update_related hshards (t.index key)
    ((hshards (t.index key)).set key value value' ttl ttl' now now')⟩

theorem insertItems (h : t.SameKeys other) (clock : Clock) (items : List Item) :
    (t.insertItems clock items).SameKeys (other.insertItems clock items) := by
  induction items generalizing t other with
  | nil => exact h
  | cons item rest ih => exact ih (h.set _ _ _ _ _ _ _)

theorem lookup_isSome (h : t.SameKeys other) (key : Bytes) :
    (t.lookup key).isSome = (other.lookup key).isSome := by
  obtain ⟨shards, rfl, hshards⟩ := h
  exact (hshards (t.index key)).lookup_isSome key

end ShardTable.SameKeys

theorem ShardTable.set_lookup_or (t : ShardTable) (stored value : Bytes)
    (ttl now : ℤ) (key : Bytes) :
    (t.set stored value ttl now).lookup key = none ∨ (t.set stored value ttl now).lookup key =
        if key = stored then some (newEntry now value ttl) else t.lookup key := by
  rw [t.lookup_set]
  split
  · exact .inl rfl
  · exact .inr rfl

def ShardTable.Evicts (clock : Clock) (key : Bytes) : ShardTable → List Item → Prop
  | _, [] => False
  | t, item :: rest =>
    (t.Beside key item.key ∧ key ∈ t.evictedBy item.key item.value item.ttl
        (clock .store item.key)) ∨
      Evicts clock key (t.set item.key item.value item.ttl (clock .store item.key)) rest

theorem ShardTable.insertItems_lookup_eq_none_iff (t : ShardTable) (clock : Clock)
    (hkey : ∀ item ∈ items, item.key ≠ key) :
    (t.insertItems clock items).lookup key = none ↔
      t.lookup key = none ∨ t.Evicts clock key items := by
  induction items generalizing t with
  | nil => exact (or_iff_left id).symm
  | cons item rest ih =>
    have hne := (hkey item List.mem_cons_self).symm
    refine (ih _ fun other hother => hkey other (List.mem_cons_of_mem _ hother)).trans ?_
    rw [ShardTable.Evicts, t.lookup_set, if_neg hne]
    by_cases hevicted : t.Beside key item.key ∧
        key ∈ t.evictedBy item.key item.value item.ttl (clock .store item.key)
    · rw [if_pos hevicted]
      exact iff_of_true (.inl rfl) (.inr (.inl hevicted))
    · rw [if_neg hevicted, or_iff_right hevicted]

theorem ShardTable.insertItems_lookup_cases (t : ShardTable) (clock : Clock)
    (items : List Item) (key : Bytes) :
    (t.insertItems clock items).lookup key = none ∨
      (t.insertItems clock items).lookup key = t.lookup key ∨
      ∃ item ∈ items, item.key = key ∧
        (t.insertItems clock items).lookup key = some (item.entry clock) := by
  induction items generalizing t with
  | nil => exact .inr (.inl rfl)
  | cons item rest ih =>
    have hhead := t.set_lookup_or item.key item.value item.ttl (clock .store item.key) key
    rcases ih (t.set item.key item.value item.ttl (clock .store item.key)) with
      hgone | hsame | ⟨other, hother, hkey, hstored⟩
    · exact .inl hgone
    · rcases hhead with hgone | hhead
      · exact .inl (hsame.trans hgone)
      · split_ifs at hhead with hkey
        · exact .inr (.inr ⟨item, List.mem_cons_self, hkey.symm, hsame.trans hhead⟩)
        · exact .inr (.inl (hsame.trans hhead))
    · exact .inr (.inr ⟨other, List.mem_cons_of_mem _ hother, hkey, hstored⟩)

theorem ShardTable.insertItems_lookup_or (t : ShardTable) (clock : Clock)
    (hkey : ∀ item ∈ items, item.key ≠ key) :
    (t.insertItems clock items).lookup key = none ∨
      (t.insertItems clock items).lookup key = t.lookup key := by
  rcases t.insertItems_lookup_cases clock items key with
    hgone | hsame | ⟨item, hitem, hsame, -⟩
  · exact .inl hgone
  · exact .inr hsame
  · exact absurd hsame (hkey item hitem)

namespace Migration

variable {order : MapOrder} {clock : Clock}
variable {items : List Item}

def MadeOf (clock : Clock) (entries : Bytes → Option CacheEntry) (items : List Item) :
    Prop :=
  ∀ item ∈ items, ∃ e, entries item.key = some e ∧ Item.of clock ⟨item.key, e⟩ = some item

theorem MadeOf.mono {entries more : Bytes → Option CacheEntry} (h : MadeOf clock entries items)
    (hmore : ∀ key e, entries key = some e → more key = some e) :
    MadeOf clock more items := by
  intro item hitem
  rcases h item hitem with ⟨e, he, hof⟩
  exact ⟨e, hmore _ e he, hof⟩

theorem MadeOf.append {entries : Bytes → Option CacheEntry} {more : List Item}
    (h : MadeOf clock entries items) (hmore : MadeOf clock entries more) :
    MadeOf clock entries (items ++ more) := by
  intro item hitem
  rcases List.mem_append.mp hitem with hitem | hitem
  · exact h item hitem
  · exact hmore item hitem

theorem extractN_madeOf {s : Shard} {route : Bytes → Prop} (hrouted : s.Each Routed route)
    {n : ℕ} {result : Shard × List Item}
    (hresult : s.extractN order clock n = some result) :
    MadeOf clock s.lookup result.2 ∧
      ∀ key e, result.1.lookup key = some e → s.lookup key = some e := by
  rcases Shard.extractFrom_taken hrouted hresult with ⟨taken, hitems, hextracted⟩
  refine ⟨fun item hitem => ?_, fun key e he => ((hextracted.left key e).mp he).1⟩
  rw [hitems, List.nil_append] at hitem
  rcases List.mem_filterMap.mp hitem with ⟨entry, hentry, hof⟩
  rcases Option.map_eq_some_iff.mp hof with ⟨ttl, -, rfl⟩
  exact ⟨entry.2, hextracted.found entry hentry, hof⟩

theorem drained_madeOf {fuel : ℕ} {s : Shard} {route : Bytes → Prop}
    (hrouted : s.Each Routed route) {result : Shard × List Item}
    (hresult : drained order clock fuel s = some result) :
    MadeOf clock s.lookup result.2 := by
  induction fuel generalizing s result with
  | zero =>
    cases hresult
    exact nofun
  | succ fuel ih =>
    rcases Option.bind_eq_some_iff.mp hresult with ⟨first, hfirst, hrest⟩
    rcases extractN_madeOf hrouted hfirst with ⟨hmade, hleft⟩
    split_ifs at hrest
    · cases hrest
      exact nofun
    · rcases Option.map_eq_some_iff.mp hrest with ⟨rest, hmore, rfl⟩
      have hroutedNext := routed_invariant.removals.extractFrom hrouted hfirst
      exact hmade.append ((ih hroutedNext hmore).mono hleft)

theorem shard_lookup_routed {old : ShardTable} (hrouted : old.Each Routed)
    (i : Fin (2 ^ old.bits)) (key : Bytes) (e : CacheEntry)
    (he : (old.shards i).lookup key = some e) : old.lookup key = some e :=
  (ShardTable.shard_lookup_of_index (Shard.route_of_lookup (hrouted i) he)).symm.trans he

theorem drainedAll_madeOf {old : ShardTable} (hrouted : old.Each Routed)
    {shards : List (Fin (2 ^ old.bits))}
    (hitems : drainedAll order clock old shards = some items) :
    MadeOf clock old.lookup items := by
  induction shards generalizing items with
  | nil =>
    cases hitems
    exact nofun
  | cons i rest ih =>
    rcases Option.bind_eq_some_iff.mp hitems with ⟨first, hfirst, hrest⟩
    rcases Option.map_eq_some_iff.mp hrest with ⟨more, hmore, rfl⟩
    have hmade := (drained_madeOf (hrouted i) hfirst).mono (shard_lookup_routed hrouted i)
    exact hmade.append (ih hmore)

theorem moved_madeOf {m : Migration} (hrouted : m.old.Each Routed) {kind : RehasherKind}
    {result : Option Migration × List Item}
    (hresult : m.moved kind order clock = some result) :
    MadeOf clock m.old.lookup result.2 ∧ ∀ later, result.1 = some later →
      ∀ key e, later.old.lookup key = some e → m.old.lookup key = some e := by
  cases kind with
  | incremental =>
    simp only [moved] at hresult
    split at hresult
    case isFalse => cases hresult
    rename_i hidx
    rcases Option.map_eq_some_iff.mp hresult with ⟨taken, htaken, rfl⟩
    rcases extractN_madeOf (hrouted ⟨m.rehashIdx, hidx⟩) htaken with ⟨hmade, hleft⟩
    have hmade := hmade.mono (shard_lookup_routed hrouted ⟨m.rehashIdx, hidx⟩)
    have hold : ∀ key e, (m.old.withShard ⟨m.rehashIdx, hidx⟩ taken.1).lookup key =
        some e → m.old.lookup key = some e := by
      intro key e he
      rw [ShardTable.lookup_withShard] at he
      split_ifs at he with hindex
      · exact shard_lookup_routed hrouted _ key e (hleft key e he)
      · exact he
    split_ifs
    · refine ⟨hmade, fun later hlater => ?_⟩
      cases hlater
    · refine ⟨hmade, ?_⟩
      rintro _ ⟨⟩
      exact hold
    · refine ⟨hmade, ?_⟩
      rintro _ ⟨⟩
      exact hold
  | batch =>
    rcases Option.map_eq_some_iff.mp hresult with ⟨items, hitems, rfl⟩
    refine ⟨drainedAll_madeOf hrouted hitems, fun later hlater => ?_⟩
    cases hlater
  | noop =>
    cases hresult
    refine ⟨fun item hitem => absurd hitem List.not_mem_nil, ?_⟩
    rintro _ ⟨⟩ key e he
    exact he

end Migration

theorem ShardTable.stored_or (t : ShardTable) (clock : Clock) (value : Bytes)
    (ttl now : ℤ) (hitems : ∀ item ∈ items, item.key ≠ key) :
    ((t.set key value ttl now).insertItems clock items).lookup key = none ∨
      ((t.set key value ttl now).insertItems clock items).lookup key =
        some (newEntry now value ttl) := by
  rcases (t.set key value ttl now).insertItems_lookup_or clock hitems with
    hgone | hsame
  · exact .inl hgone
  · rcases t.set_lookup_or key value ttl now key with hgone | hstored
    · exact .inl (hsame.trans hgone)
    · rw [if_pos rfl] at hstored
      exact .inr (hsame.trans hstored)

theorem ShardTable.stored_twice (t : ShardTable) (clock : Clock) (value : Bytes)
    (ttl ttl' now : ℤ) (hitems : ∀ item ∈ items, item.key ≠ key) :
    let first := (t.set key value ttl now).insertItems clock items
    let second := (t.set key value ttl' now).insertItems clock items
    first.lookup key = none ∧ second.lookup key = none ∨
      first.lookup key = some (newEntry now value ttl) ∧
        second.lookup key = some (newEntry now value ttl') := by
  intro first second
  have hkeys : (first.lookup key).isSome = (second.lookup key).isSome :=
    (((SameKeys.refl t).set key value value ttl ttl' now now).insertItems clock
      items).lookup_isSome key
  rcases t.stored_or clock value ttl now hitems with hfirst | hfirst <;>
    rcases t.stored_or clock value ttl' now hitems with hsecond | hsecond
  · exact .inl ⟨hfirst, hsecond⟩
  · simp [first, second, hfirst, hsecond] at hkeys
  · simp [first, second, hfirst, hsecond] at hkeys
  · exact .inr ⟨hfirst, hsecond⟩

theorem Migration.moved_del_lacks {m : Migration} (hrouted : m.old.Each Routed)
    {kind : RehasherKind} {order : MapOrder} {clock : Clock}
    {result : Option Migration × List Item}
    (hmoved : ({ m with old := m.old.del key } : Migration).moved kind order clock =
      some result) : ∀ item ∈ result.2, item.key ≠ key := by
  rintro item hitem rfl
  have hdeleted := routed_invariant.removals.table_del hrouted item.key
  rcases (Migration.moved_madeOf hdeleted hmoved).1 item hitem with ⟨e, he, -⟩
  rw [ShardTable.del_lookup, Function.update_self] at he
  cases he

theorem Cache.set_twice {c : Cache} (hrouted : c.Each (fun _ => True) Routed)
    (hopen : c.closed = false) (order : MapOrder) (clock : Clock) (hkey : key ≠ [])
    (value : Bytes) (ttl ttl' : ℤ) :
    (c.set order clock key (some value) (some ttl) = none ∧
      c.set order clock key (some value) (some ttl') = none) ∨
    ∃ next next', c.set order clock key (some value) (some ttl) = some (next, .ok ()) ∧
      c.set order clock key (some value) (some ttl') = some (next', .ok ()) ∧
      (next.table.lookup key = none ∧ next'.table.lookup key = none ∨
        next.table.lookup key = some (newEntry (clock .current key) value (max ttl 0)) ∧
          next'.table.lookup key = some (newEntry (clock .current key) value (max ttl' 0))) := by
  simp only [Cache.set, hopen, hkey, if_false, Bool.false_eq_true,
    Cache.ttlOrDefault, Cache.delOld, Cache.step]
  cases hmigration : c.migration with
  | none =>
    have hnone : ∀ item ∈ ([] : List Item), item.key ≠ key := by simp
    refine .inr ⟨_, _, rfl, rfl, ?_⟩
    exact c.table.stored_twice clock value _ _ _ hnone
  | some m =>
    simp only [Option.map_some, Migration.step_eq]
    cases hmoved : ({ m with old := m.old.del key } : Migration).moved c.rehasher order clock with
    | none => exact .inl ⟨rfl, rfl⟩
    | some moved =>
      refine .inr ⟨_, _, rfl, rfl, ?_⟩
      exact c.table.stored_twice clock value _ _ _
        (Migration.moved_del_lacks (hrouted.old m hmigration) hmoved)

end MCache.Store
