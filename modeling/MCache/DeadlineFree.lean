import MCache.UntimedTables

/-!
# Tables without deadlines

Like `UntimedTables`, for tables of any capacity and with any policy: when no
entry has a deadline and none is given one, neither the clock nor the order of
a map has an influence.  A read leaves the table as it is, its policies
included, and so does a cleanup.
-/

namespace MCache.Store

def SubShard.NoDeadlines (sub : SubShard) : Prop :=
  ∀ key e, sub.entries.lookup key = some e → e.expiresAt = 0

def Shard.NoDeadlines (s : Shard) : Prop := ∀ j, (s.subs j).NoDeadlines

def ShardTable.NoDeadlines (t : ShardTable) : Prop := ∀ i, (t.shards i).NoDeadlines

theorem newEntry_zero (now : ℤ) (value : Bytes) : newEntry now value 0 = ⟨value, 0⟩ :=
  rfl

theorem CacheEntry.isExpired_zero {e : CacheEntry} (hzero : e.expiresAt = 0)
    (now : ℤ) : e.isExpired now = false := by
  simp [CacheEntry.isExpired, hzero]

namespace SubShard

variable {sub : SubShard}

theorem NoDeadlines.set (hsub : sub.NoDeadlines) (cap : ℕ) (key value : Bytes) (now : ℤ) :
    (sub.set cap key value 0 now).1.NoDeadlines := by
  intro other e hlookup
  rw [SubShard.lookup_set] at hlookup
  split_ifs at hlookup
  · rw [← Option.some.inj hlookup, newEntry_zero]
  · exact hsub other e hlookup

theorem set_zero_clock (sub : SubShard) (cap : ℕ) (key value : Bytes)
    (now later : ℤ) : sub.set cap key value 0 now = sub.set cap key value 0 later := by
  unfold SubShard.set
  rw [newEntry_zero, newEntry_zero]

theorem NoDeadlines.del (hsub : sub.NoDeadlines) (key : Bytes) : (sub.del key).NoDeadlines := by
  intro other e hlookup
  rw [SubShard.del_entries] at hlookup
  by_cases hother : other = key
  · subst other
    rw [AList.lookup_erase] at hlookup
    cases hlookup
  · rw [AList.lookup_erase_ne hother] at hlookup
    exact hsub other e hlookup

theorem NoDeadlines.mem (hsub : sub.NoDeadlines)
    {entry : Sigma fun _ : Bytes => CacheEntry} (hentry : entry ∈ sub.entries.entries)
    (now : ℤ) : entry.2.isExpired now = false :=
  CacheEntry.isExpired_zero (hsub entry.1 entry.2 (AList.mem_lookup_iff.mpr hentry)) now

theorem NoDeadlines.cleanup (hsub : sub.NoDeadlines) (now : Bytes → ℤ) : sub.cleanup now = sub := by
  unfold SubShard.cleanup
  have hkept : ∀ (entries : EntryList),
      (∀ entry ∈ entries, entry.2.isExpired (now entry.1) = false) →
      entries.foldl (fun sub entry =>
        if entry.2.isExpired (now entry.1) then sub.remove entry.1 else sub) sub =
        sub := by
    intro entries
    induction entries with
    | nil => exact fun _ => rfl
    | cons entry rest ih =>
      intro hlive
      rw [List.foldl_cons, hlive entry List.mem_cons_self, if_neg (by simp)]
      exact ih fun other hother => hlive other (List.mem_cons_of_mem _ hother)
  exact hkept _ fun entry hentry => hsub.mem hentry _

end SubShard

section Tables

variable {t : ShardTable}

theorem newTable_noDeadlines (bits : ℕ) (kind : PolicyKind) (perShardMax : ℕ) :
    (newTable bits kind perShardMax).NoDeadlines := by
  intro i j key e hlookup
  cases hlookup

theorem ShardTable.NoDeadlines.lookup (ht : t.NoDeadlines) {key : Bytes}
    {e : CacheEntry} (hlookup : t.lookup key = some e) : e.expiresAt = 0 :=
  ht _ _ key e hlookup

theorem ShardTable.NoDeadlines.withShard (ht : t.NoDeadlines)
    (i : Fin (2 ^ t.bits)) {s : Shard} (hs : s.NoDeadlines) :
    (t.withShard i s).NoDeadlines := by
  have heach : t.Each fun _ _ sub => sub.NoDeadlines := ht
  exact heach.withShard i hs

theorem Shard.NoDeadlines.withSub {s : Shard} (hs : s.NoDeadlines)
    (j : Fin s.numSubs) {sub : SubShard} (hsub : sub.NoDeadlines) :
    (s.withSub j sub).NoDeadlines := by
  have heach : s.Each (fun _ _ sub => sub.NoDeadlines) fun _ => True := hs
  exact heach.withSub j hsub

theorem ShardTable.NoDeadlines.set (ht : t.NoDeadlines) (key value : Bytes)
    (now : ℤ) : (t.set key value 0 now).NoDeadlines :=
  ht.withShard _ ((ht _).withSub _ ((ht _ _).set _ key value now))

theorem ShardTable.NoDeadlines.del (ht : t.NoDeadlines) (key : Bytes) : (t.del key).NoDeadlines :=
  ht.withShard _ ((ht _).withSub _ ((ht _ _).del key))

theorem ShardTable.NoDeadlines.get (ht : t.NoDeadlines) (key : Bytes)
    (now again : ℤ) : t.get key now again = (t, t.read key) := by
  apply ShardTable.get_of_live
  intro e hlookup
  exact CacheEntry.isExpired_zero (ht.lookup hlookup) now

theorem ShardTable.NoDeadlines.cleanup (ht : t.NoDeadlines) (now : Bytes → ℤ) :
    t.cleanup now = t := by
  have hshards : ∀ i, (t.shards i).cleanup now = t.shards i := by
    intro i
    unfold Shard.cleanup
    simp only [(ht i _).cleanup now]
  unfold ShardTable.cleanup
  simp only [hshards]

theorem Shard.set_zero_clock (s : Shard) (key value : Bytes) (now later : ℤ) :
    s.set key value 0 now = s.set key value 0 later := by
  unfold Shard.set
  rw [SubShard.set_zero_clock _ _ _ _ now later]

theorem ShardTable.set_zero_clock (t : ShardTable) (key value : Bytes)
    (now later : ℤ) : t.set key value 0 now = t.set key value 0 later := by
  unfold ShardTable.set
  rw [Shard.set_zero_clock _ _ _ now later]

end Tables

end MCache.Store
