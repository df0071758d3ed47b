import MCache.MigrationSteps

/-!
# Commands outside of a migration

What the commands of the cache do on a closed cache or with an empty key, and
what is left of them while no rehash is in progress.
-/

namespace MCache.Store

section Commands

variable {c : Cache} {key : Bytes}

theorem Cache.onShard_refused {α : Type} (hrefused : c.closed = true ∨ key = [])
    (f : Shard → Shard × α) : ∃ e, c.onShard key f = (c, .error e) := by
  unfold Cache.onShard
  split_ifs with hclosed hkey
  case pos => exact ⟨_, rfl⟩
  case pos => exact ⟨_, rfl⟩
  case neg => exact (hrefused.elim hclosed hkey).elim

theorem Cache.get_refused (hrefused : c.closed = true ∨ key = []) :
    ∃ e, ∀ order clock, c.get order clock key = some (c, .error e) := by
  unfold Cache.get
  split_ifs with hclosed hkey
  case pos => exact ⟨_, fun _ _ => rfl⟩
  case pos => exact ⟨_, fun _ _ => rfl⟩
  case neg => exact (hrefused.elim hclosed hkey).elim

theorem Cache.set_refused {value : Option Bytes}
    (hrefused : c.closed = true ∨ key = [] ∨ value = none) :
    ∃ e, ∀ order clock ttl, c.set order clock key value ttl = some (c, .error e) := by
  unfold Cache.set
  split_ifs with hclosed hkey
  case pos => exact ⟨_, fun _ _ _ => rfl⟩
  case pos => exact ⟨_, fun _ _ _ => rfl⟩
  case neg =>
      rcases hrefused with h | h | rfl
      · exact absurd h hclosed
      · exact absurd h hkey
      · exact ⟨_, fun _ _ _ => rfl⟩

theorem Cache.del_refused (hrefused : c.closed = true ∨ key = []) :
    ∃ e, ∀ order clock, c.del order clock key = some (c, .error e) := by
  unfold Cache.del
  split_ifs with hclosed hkey
  case pos => exact ⟨_, fun _ _ => rfl⟩
  case pos => exact ⟨_, fun _ _ => rfl⟩
  case neg => exact (hrefused.elim hclosed hkey).elim

theorem Cache.onShard_open {α : Type} (hopen : c.closed = false)
    (hkey : key ≠ []) (f : Shard → Shard × α) :
    c.onShard key f =
      ({ c with
          table := c.table.withShard (c.table.index key)
            (f (c.table.shard key)).1 }, .ok (f (c.table.shard key)).2) := by
  rw [Cache.onShard, hopen, if_neg (by simp), if_neg hkey]

theorem Cache.get_ok_open {order : MapOrder} {clock : Clock} {next : Cache}
    {value : Bytes} (hget : c.get order clock key = some (next, .ok value)) :
    c.closed = false ∧ key ≠ [] := by
  by_contra hnot
  rw [not_and_or, not_not, Bool.not_eq_false] at hnot
  rcases Cache.get_refused hnot with ⟨e, he⟩
  rw [he] at hget
  cases hget

theorem Cache.set_ok_open {order : MapOrder} {clock : Clock} {next : Cache}
    {value : Option Bytes} {ttl : Option ℤ}
    (hset : c.set order clock key value ttl = some (next, .ok ())) :
    c.closed = false ∧ key ≠ [] := by
  by_contra hnot
  rw [not_and_or, not_not, Bool.not_eq_false] at hnot
  rcases Cache.set_refused (or_assoc.mp (.inl hnot)) with ⟨e, he⟩
  rw [he] at hset
  cases hset

theorem Cache.set_of_idle (hopen : c.closed = false) (hidle : c.migration = none)
    (order : MapOrder) (clock : Clock) (hkey : key ≠ []) (value : Bytes)
    (ttl : Option ℤ) :
    c.set order clock key (some value) ttl =
      some ({ c with
        table := c.table.set key value (c.ttlOrDefault ttl) (clock .current key) },
        .ok ()) := by
  simp [Cache.set, hopen, hkey, Cache.delOld, Cache.step, hidle]

theorem Cache.del_of_idle (hopen : c.closed = false) (hidle : c.migration = none)
    (order : MapOrder) (clock : Clock) (hkey : key ≠ []) :
    c.del order clock key = some ({ c with table := c.table.del key }, .ok ()) := by
  simp [Cache.del, hopen, hkey, Cache.delOld, Cache.step, hidle]

theorem Cache.get_of_idle (hidle : c.migration = none) (order : MapOrder) (clock : Clock) :
    ∃ result, c.get order clock key = some result ∧ (result.1 = c ∨ result.1 =
        { c with
          table := (c.table.get key (clock .current key) (clock .currentAgain key)).1 }) := by
  unfold Cache.get
  split_ifs
  case pos => exact ⟨_, rfl, .inl rfl⟩
  case pos => exact ⟨_, rfl, .inl rfl⟩
  case neg =>
      dsimp only
      split
      · simp only [Cache.step, hidle]
        exact ⟨_, rfl, .inr rfl⟩
      · exact ⟨_, rfl, .inr rfl⟩
      · next hmigration =>
          rw [hidle] at hmigration
          cases hmigration

theorem Cache.onShard_unchanged {α : Type} {f : Shard → Shard × α}
    (hf : (f (c.table.shard key)).1 = c.table.shard key) :
    (c.onShard key f).1 = c := by
  unfold Cache.onShard
  split_ifs
  case pos => rfl
  case pos => rfl
  case neg =>
      dsimp only
      rw [hf, ShardTable.shard, ShardTable.withShard_self]

theorem Cache.expireTarget_past {clock : Clock} {target : ℤ} (htarget : target ≤ clock .until key) :
    (c.expireTarget clock key target).1 = c := by
  apply Cache.onShard_unchanged
  have hpast : saturated (target - clock .until key) ≤ 0 := by
    unfold saturated
    omega
  simp only [hpast, if_true]

theorem Cache.expireTarget_future (c : Cache) (key : Bytes) {target now : ℤ}
    (htarget : 0 < saturated (target - now)) :
    c.expireTarget (still now) key target = c.onShard key fun s =>
      s.expire key (saturated (target - now)) now now := by
  have hfuture : ¬ saturated (target - now) ≤ 0 := not_le.mpr htarget
  simp only [Cache.expireTarget, still, hfuture, if_false]

end Commands

end MCache.Store
