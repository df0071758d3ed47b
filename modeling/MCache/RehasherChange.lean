import MCache.ReadYourWrites

/-!
# A change of the rehasher

`SetRehasher` stops the rehasher, which drops its old shards.  What was not
migrated is gone: the call keeps the readable keys and the number of entries
exactly if no entry of the old table is live.
-/

namespace MCache.Store

section Reads

variable {c : Cache} {order : MapOrder} {clock : Clock} {key value : Bytes}

def ShardTable.Holds (t : ShardTable) (key value : Bytes) (now : ℤ) : Prop :=
  ∃ e, t.lookup key = some e ∧ e.value = value ∧ e.isExpired now = false

theorem ShardTable.get_some_iff (t : ShardTable) (now again : ℤ) :
    (t.get key now again).2 = some value ↔ t.Holds key value now := by
  rw [t.get_value]
  unfold ShardTable.Holds
  cases t.lookup key with
  | none => simp
  | some e => simp [Option.filter_some, and_comm]

theorem Cache.get_ok_holds {later : Cache}
    (hget : c.get order clock key = some (later, .ok value)) :
    c.table.Holds key value (clock .current key) ∨
      ∃ m, c.migration = some m ∧ m.old.Holds key value (clock .old key) := by
  rcases Cache.get_ok_open hget with ⟨hopen, hkey⟩
  unfold Cache.get at hget
  rw [hopen, if_neg (by simp), if_neg hkey] at hget
  dsimp only at hget
  split at hget
  · rename_i hread
    rcases Option.map_eq_some_iff.mp hget with ⟨stepped, -, hresult⟩
    cases hresult
    exact .inl ((c.table.get_some_iff _ _).mp hread)
  · cases hget
  · rename_i m _ hm
    rcases Option.map_eq_some_iff.mp hget with ⟨stepped, -, hresult⟩
    simp only [Prod.mk.injEq] at hresult
    split at hresult
    · rename_i hread
      cases hresult.2
      exact .inr ⟨m, hm, (m.old.get_some_iff _ _).mp hread⟩
    · cases hresult.2

theorem ShardTable.len_eq_zero_iff {t : ShardTable} (hrouted : t.Each Routed) (now : ℤ) :
    (t.len fun _ => now) = 0 ↔ ∀ key e, t.lookup key = some e → e.isExpired now = true := by
  rw [← t.card_liveKeys hrouted, Finset.card_eq_zero, Finset.eq_empty_iff_forall_notMem]
  simp only [t.mem_liveKeys hrouted, not_exists, not_and, Bool.not_eq_false]

end Reads

theorem Cache.len_open {c : Cache} (hopen : c.closed = false) (now : Bytes → ℤ) :
    c.len now = c.table.len now + (c.migration.map fun m => m.old.len now).getD 0 := by
  rw [Cache.len, hopen, if_neg (by simp)]

theorem setRehasher_keeps_iff {c : Cache} (hreach : store.Reachable c) {name : String}
    {kind : RehasherKind} (hname : getRehasherFactory name = some kind) (now : ℤ) :
    ((∀ order key value later, c.get order (still now) key = some (later, .ok value) →
        ∀ order', ∃ later',
          (c.setRehasher name).1.get order' (still now) key = some (later', .ok value)) ∧
      ((c.setRehasher name).1.len fun _ => now) = c.len fun _ => now) ↔
    (c.closed = false → ∀ m, c.migration = some m →
      ∀ key e, m.old.lookup key = some e → e.isExpired now = true) := by
  have hrouted := store_routed hreach
  unfold Cache.setRehasher
  rw [hname]
  by_cases hclosed : c.closed = true
  · simp only [hclosed, if_true]
    refine iff_of_true ⟨fun order key value later hget => ?_, trivial⟩ nofun
    have hopen := (Cache.get_ok_open hget).1
    rw [hclosed] at hopen
    cases hopen
  · simp only [hclosed, Bool.false_eq_true, if_false]
    rw [Bool.not_eq_true] at hclosed
    rw [Cache.len_open hclosed, Cache.len_open (by rfl)]
    constructor
    · rintro ⟨-, hsame⟩ - m hm
      rw [hm, Option.map_some, Option.getD_some] at hsame
      exact (m.old.len_eq_zero_iff (hrouted.old m hm) now).mp (Nat.left_eq_add.mp hsame)
    · intro hexpired
      refine ⟨fun order key value later hget order' => ?_, ?_⟩
      · refine (Cache.get_idle rfl rfl (Cache.get_ok_open hget).2 order' _ value).mpr ?_
        rcases Cache.get_ok_holds hget with hholds | ⟨m, hm, e, hlookup, -, hlive⟩
        · exact hholds
        · have hdead := hexpired trivial m hm key e hlookup
          rw [still, hdead] at hlive
          cases hlive
      · cases hm : c.migration with
        | none => rfl
        | some m =>
          rw [Option.map_some, Option.getD_some,
            (m.old.len_eq_zero_iff (hrouted.old m hm) now).mpr (hexpired trivial m hm)]
          rfl

def storedThenResized : List CacheAction :=
  [⟨.set [97] (some [1]) (some 98), .asStored, still 1⟩, ⟨.resize 32, .asStored, still 1⟩]

theorem setRehasher_keeps_iff_expired : ∃ c, store.Reachable c ∧ c.migration.isSome = true ∧
      ((c.setRehasher "batch").1.len fun _ => 99) = c.len fun _ => 99 := by
  have hrun : (store.runBy (fun _ _ => True) .ofDefaults storedThenResized).map
      (fun c => (c.migration.isSome, c.closed, c.len fun _ => 99)) =
      some (true, false, 0) := by
    decide +kernel
  rcases TransitionSystem.exists_reachableBy store_init_ofDefaults hrun with
    ⟨c, hreach, hfacts⟩
  simp only [Prod.mk.injEq] at hfacts
  rcases hfacts with ⟨hsome, hopen, hlen⟩
  refine ⟨c, hreach, hsome, ((setRehasher_keeps_iff hreach rfl 99).mpr ?_).2⟩
  intro _ m hm
  rw [Cache.len_open hopen, hm, Option.map_some, Option.getD_some] at hlen
  exact (m.old.len_eq_zero_iff ((store_routed hreach).old m hm) 99).mp (by omega)

theorem setRehasher_loses_key : ∃ c, store.Reachable c ∧
      (c.get .asStored (still 1) [97]).map Prod.snd = some (.ok [1]) ∧
      ((c.setRehasher "batch").1.get .asStored (still 1) [97]).map Prod.snd =
        some (.error .keyNotFound) ∧
      (c.len fun _ => 1) = 1 ∧ ((c.setRehasher "batch").1.len fun _ => 1) = 0 := by
  have hrun : (store.runBy (fun _ _ => True) .ofDefaults storedThenResized).map
      (fun c => ((c.get .asStored (still 1) [97]).map Prod.snd,
        ((c.setRehasher "batch").1.get .asStored (still 1) [97]).map Prod.snd,
        (c.len fun _ => 1), ((c.setRehasher "batch").1.len fun _ => 1))) =
      some (some (.ok [1]), some (.error .keyNotFound), 1, 0) := by
    decide +kernel
  rcases TransitionSystem.exists_reachableBy store_init_ofDefaults hrun with
    ⟨c, hreach, hfacts⟩
  simp only [Prod.mk.injEq] at hfacts
  exact ⟨c, hreach, hfacts⟩

end MCache.Store
