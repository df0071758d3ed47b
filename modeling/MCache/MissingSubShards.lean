import MCache.CacheCapacity

/-!
# Missing sub-shards

A shard with a limit below 16 makes fewer than eight sub-shards and leaves the
other slots of its array nil.  `ExtractN` walks over all eight slots, unless it
has enough items before it comes to a nil one.  The operations that move a
migration on panic therefore exactly if the old table has such a limit and the
shard at the cursor has too few entries left; `BatchRehasher` always comes to
the end of a shard.
-/

namespace MCache.Store

def SubShard.handsOn (clock : Clock) (entry : Sigma fun _ : Bytes => CacheEntry) : Bool :=
  (SubShard.remaining clock entry.1 entry.2).isSome

def SubShard.handedOn (sub : SubShard) (clock : Clock) : ℕ :=
  sub.entries.entries.countP (SubShard.handsOn clock)

namespace Shard

def sumFrom (s : Shard) (f : SubShard → ℕ) (i : ℕ) : ℕ :=
  ∑ j : Fin s.numSubs, if i ≤ j.val then f (s.subs j) else 0

def handedOn (s : Shard) (clock : Clock) : ℕ := s.sumFrom (fun sub => sub.handedOn clock) 0

end Shard

section Extraction

variable {s : Shard} {clock : Clock} {order : MapOrder} {n i : ℕ} {items : List Item}
variable {slots : ℕ} {result : Shard × List Item}

theorem SubShard.length_extractLoop (clock : Clock) (sub : SubShard) (entries : EntryList)
    (hitems : items.length < n) :
    (sub.extractLoop clock n entries items).2.length =
      min n (items.length + entries.countP (SubShard.handsOn clock)) := by
  induction entries generalizing sub items with
  | nil => rw [SubShard.extractLoop, List.countP_nil, add_zero, min_eq_right hitems.le]
  | cons entry rest ih =>
    rcases entry with ⟨key, e⟩
    unfold SubShard.extractLoop
    cases hremaining : SubShard.remaining clock key e with
    | none =>
      rw [List.countP_cons_of_neg (by simp [SubShard.handsOn, hremaining])]
      exact ih _ hitems
    | some ttl =>
      rw [List.countP_cons_of_pos (by simp [SubShard.handsOn, hremaining])]
      dsimp only
      split_ifs with hfull
      · simp only [List.length_append, List.length_singleton] at hfull ⊢
        omega
      · rw [ih _ (not_le.mp hfull), List.length_append, List.length_singleton]
        omega

section Sums

variable {f : SubShard → ℕ}

theorem Shard.sumFrom_of_le (hi : s.numSubs ≤ i) : s.sumFrom f i = 0 := by
  refine Finset.sum_eq_zero fun j _ => if_neg ?_
  have := j.isLt
  omega

theorem Shard.sumFrom_succ (hi : i < s.numSubs) :
    s.sumFrom f i = f (s.subs ⟨i, hi⟩) + s.sumFrom f (i + 1) := by
  unfold Shard.sumFrom
  rw [← Finset.add_sum_erase _ _ (Finset.mem_univ (⟨i, hi⟩ : Fin s.numSubs)),
    ← Finset.add_sum_erase Finset.univ
      (fun j : Fin s.numSubs => if i + 1 ≤ j.val then f (s.subs j) else 0)
      (Finset.mem_univ (⟨i, hi⟩ : Fin s.numSubs)), if_pos (le_refl i), if_neg (by simp),
    zero_add]
  congr 1
  refine Finset.sum_congr rfl fun j hj => ?_
  have hne : j.val ≠ i := fun heq => Finset.ne_of_mem_erase hj (Fin.ext heq)
  simp only [Nat.lt_iff_le_and_ne, Nat.succ_le_iff, ne_eq, hne.symm, not_false_eq_true, and_true]

theorem Shard.sumFrom_withSub (hi : i < s.numSubs) (sub : SubShard) :
    (s.withSub ⟨i, hi⟩ sub).sumFrom f (i + 1) = s.sumFrom f (i + 1) := by
  change (∑ j : Fin s.numSubs, if i + 1 ≤ j.val then
    f (Function.update s.subs ⟨i, hi⟩ sub j) else 0) = _
  refine Finset.sum_congr rfl fun j _ => ?_
  split_ifs with hj
  · have hne : j ≠ ⟨i, hi⟩ := by
      rintro rfl
      simp at hj
    rw [Function.update_of_ne hne]
  · rfl

end Sums

theorem Shard.extractFrom_eq_none_iff (hi : i ≤ s.numSubs) :
    s.extractFrom order clock n slots i items = none ↔ s.numSubs < i + slots ∧
        items.length + s.sumFrom (fun sub => sub.handedOn clock) i < n := by
  induction slots generalizing s i items with
  | zero =>
    rw [Shard.extractFrom, add_zero]
    exact iff_of_false (Option.some_ne_none _) fun h => absurd h.1 (not_lt.mpr hi)
  | succ slots ih =>
    unfold Shard.extractFrom
    split_ifs with hfull hslot
    · exact iff_of_false not_false (by omega)
    · have hcount : (order.arrange (s.subs ⟨i, hslot⟩).entries.entries).countP
          (SubShard.handsOn clock) = (s.subs ⟨i, hslot⟩).handedOn clock :=
        (order.perm _).countP_eq _
      have hlength := (s.subs ⟨i, hslot⟩).length_extractLoop clock
        (order.arrange (s.subs ⟨i, hslot⟩).entries.entries) (not_le.mp hfull)
      dsimp only
      rw [ih (i := i + 1) (s := s.withSub ⟨i, hslot⟩ _) hslot, hlength, hcount,
        sumFrom_withSub, sumFrom_succ hslot]
      change s.numSubs < _ ∧ _ ↔ _
      omega
    · rw [sumFrom_of_le (not_lt.mp hslot)]
      exact iff_of_true rfl (by omega)

theorem Shard.extractFrom_full (hi : i ≤ s.numSubs) (hmissing : s.numSubs < i + slots)
    (hresult : s.extractFrom order clock n slots i items = some result) :
    n ≤ result.2.length := by
  induction slots generalizing s i items with
  | zero => exact absurd hmissing (not_lt.mpr hi)
  | succ slots ih =>
    unfold Shard.extractFrom at hresult
    split_ifs at hresult with hfull hslot
    · cases hresult
      exact hfull
    · refine ih (i := i + 1) (s := s.withSub ⟨i, hslot⟩ _) hslot ?_ hresult
      change s.numSubs < _
      omega

theorem Shard.extractN_eq_none_iff : s.extractN order clock n = none ↔
      s.numSubs < subShardsPerShard ∧ s.handedOn clock < n := by
  rw [Shard.extractN, Shard.extractFrom_eq_none_iff (Nat.zero_le _), Nat.zero_add,
    List.length_nil, Nat.zero_add, Shard.handedOn]

theorem SubShard.size_extractLoop (sub : SubShard) (order : MapOrder) (clock : Clock)
    (n : ℕ) (items : List Item) {result : SubShard × List Item}
    (hresult : sub.extractLoop clock n (order.arrange sub.entries.entries) items = result) :
    items.length ≤ result.2.length ∧ result.1.entries.keys.length + result.2.length ≤
        sub.entries.keys.length + items.length ∧
      (result.2.length < n → result.1.entries.keys.length = 0) := by
  subst hresult
  rcases SubShard.extractLoop_spec clock n (order.arrange sub.entries.entries) sub items with
    ⟨taken, rest, hsplit, hentries, hitems, hstop⟩
  have hperm : (taken ++ rest).Perm sub.entries.entries := hsplit ▸ order.perm _
  have hnodup : (taken ++ rest).NodupKeys := (List.perm_nodupKeys hperm).mpr sub.entries.nodupKeys
  have hlength := length_eraseAll sub.entries
    (hnodup.sublist (List.sublist_append_left _ _)) fun entry hentry =>
      List.mem_keys_of_mem (hperm.subset (List.mem_append_left _ hentry))
  have hcount : taken.length + rest.length = sub.entries.keys.length := by
    rw [← List.length_append, hperm.length_eq]
    exact (List.length_map _).symm
  have hfilter := List.length_filterMap_le (Item.of clock) taken
  rw [hentries]
  refine ⟨?_, ?_, fun hlt => ?_⟩
  · rw [hitems, List.length_append]
    omega
  · rw [hitems, List.length_append]
    omega
  · rcases hstop with rfl | hfull
    · rw [List.length_nil] at hcount
      omega
    · omega

theorem Shard.extractFrom_size (hslots : s.numSubs ≤ i + slots)
    (hresult : s.extractFrom order clock n slots i items = some result) :
    items.length ≤ result.2.length ∧ result.1.size + result.2.length ≤ s.size + items.length ∧
      (result.2.length < n →
        result.1.size + s.sumFrom (fun sub => sub.entries.keys.length) i = s.size) := by
  induction slots generalizing s i items with
  | zero =>
    cases hresult
    rw [add_zero] at hslots
    rw [Shard.sumFrom_of_le hslots]
    exact ⟨le_refl _, le_refl _, fun _ => rfl⟩
  | succ slots ih =>
    unfold Shard.extractFrom at hresult
    split_ifs at hresult with hfull hslot
    · cases hresult
      exact ⟨le_refl _, le_refl _, fun hlt => absurd hfull (not_le.mpr hlt)⟩
    · dsimp only at hresult
      rcases SubShard.size_extractLoop (s.subs ⟨i, hslot⟩) order clock n items rfl with
        ⟨hgrows, hle, hemptied⟩
      generalize SubShard.extractLoop clock n
        (order.arrange (s.subs ⟨i, hslot⟩).entries.entries) (s.subs ⟨i, hslot⟩) items =
          taken at hresult hgrows hle hemptied
      have hsize := s.size_withSub ⟨i, hslot⟩ taken.1
      have hnum : (s.withSub ⟨i, hslot⟩ taken.1).numSubs ≤ i + 1 + slots := by
        change s.numSubs ≤ _
        omega
      rcases ih hnum hresult with ⟨hmore, hrest, hall⟩
      rw [Shard.sumFrom_withSub] at hall
      rw [Shard.sumFrom_succ hslot]
      refine ⟨by omega, by omega, fun hlt => ?_⟩
      have hothers := hall hlt
      have hslotEmptied := hemptied (by omega)
      omega

theorem Shard.extractN_size (hsubs : s.numSubs ≤ subShardsPerShard)
    (hresult : s.extractN order clock n = some result) :
    result.1.size + result.2.length ≤ s.size ∧ (result.2.length < n → result.1.size = 0) := by
  have hall : s.sumFrom (fun sub => sub.entries.keys.length) 0 = s.size := by
    simp [Shard.sumFrom, Shard.size]
  rcases Shard.extractFrom_size (by omega) hresult with ⟨-, hle, hemptied⟩
  rw [hall] at hemptied
  refine ⟨hle, fun hlt => ?_⟩
  have hnothing := hemptied hlt
  omega

end Extraction

section Steps

variable {clock : Clock} {order : MapOrder}

theorem Migration.drained_eq_none_iff {s : Shard} {route : Bytes → Prop} {fuel : ℕ}
    (hrouted : s.Each Routed route) (hfuel : s.size < fuel) :
    Migration.drained order clock fuel s = none ↔ s.numSubs < subShardsPerShard := by
  induction fuel generalizing s with
  | zero => exact absurd hfuel (Nat.not_lt_zero _)
  | succ fuel ih =>
    unfold Migration.drained
    cases hextract : s.extractN order clock 1000 with
    | none => exact iff_of_true rfl (Shard.extractN_eq_none_iff.mp hextract).1
    | some result =>
      rcases Shard.extractFrom_taken hrouted hextract with ⟨taken, hitems, hextracted⟩
      rw [Option.bind_some]
      split_ifs with hempty
      · refine iff_of_false not_false fun hmissing => ?_
        have hfull := Shard.extractFrom_full (Nat.zero_le _) (by omega) hextract
        rw [hempty] at hfull
        simp at hfull
      · -- a round that hands on an item takes an entry out, so the fuel lasts
        have hsize := hextracted.size
        have htaken : taken ≠ [] := by
          rintro rfl
          exact hempty hitems
        have hlength := List.length_pos_of_ne_nil htaken
        rw [Option.map_eq_none_iff, ← hextracted.numSubs]
        exact ih (routed_invariant.removals.extractFrom hrouted hextract) (by omega)

theorem Migration.drainedAll_eq_none_iff {old : ShardTable} (hrouted : old.Each Routed)
    (shards : List (Fin (2 ^ old.bits))) :
    Migration.drainedAll order clock old shards = none ↔
      ∃ i ∈ shards, (old.shards i).numSubs < subShardsPerShard := by
  induction shards with
  | nil => simp [Migration.drainedAll]
  | cons i rest ih =>
    have hhead : Migration.drained order clock ((old.shards i).size + 1) (old.shards i) =
        none ↔ (old.shards i).numSubs < subShardsPerShard :=
      Migration.drained_eq_none_iff (hrouted i) (Nat.lt_succ_self _)
    unfold Migration.drainedAll
    rw [List.exists_mem_cons_iff, ← ih, ← hhead]
    cases Migration.drained order clock ((old.shards i).size + 1) (old.shards i) with
    | none => simp
    | some result => simp

def Migration.handedOn (m : Migration) (clock : Clock) : ℕ :=
  if hidx : m.rehashIdx < 2 ^ m.old.bits then
    (m.old.shards ⟨m.rehashIdx, hidx⟩).handedOn clock
  else 0

def Migration.MeetsNil (m : Migration) (kind : RehasherKind) (clock : Clock) : Prop :=
  kind = .batch ∨ kind = .incremental ∧ m.handedOn clock < batchSize

theorem Migration.moved_eq_none_iff {m : Migration} {kind : RehasherKind} {subs : ℕ}
    (hrouted : m.old.Each Routed) (hcursor : m.rehashIdx < 2 ^ m.old.bits)
    (hsubs : ∀ i, (m.old.shards i).numSubs = subs) :
    m.moved kind order clock = none ↔ subs < subShardsPerShard ∧ m.MeetsNil kind clock := by
  cases kind with
  | incremental =>
    simp only [Migration.moved, Migration.MeetsNil, Migration.handedOn, hcursor, dite_true,
      Option.map_eq_none_iff, Shard.extractN_eq_none_iff, hsubs, reduceCtorEq, false_or,
      true_and]
  | batch =>
    simp only [Migration.moved, Migration.MeetsNil, Option.map_eq_none_iff, hsubs,
      Migration.drainedAll_eq_none_iff hrouted, List.mem_finRange, true_and, true_or,
      and_true]
    constructor
    · rintro ⟨-, hlt⟩
      exact hlt
    · intro hlt
      exact ⟨⟨_, hcursor⟩, hlt⟩
  | noop => simp [Migration.moved, Migration.MeetsNil]

end Steps

def Cache.stepping (c : Cache) (a : CacheAction) : Option Migration :=
  match a.command with
  | .set key value _ =>
    if c.closed = true ∨ key = [] ∨ value = none then none
    else (c.delOld key).migration
  | .get key =>
    if c.closed = true ∨ key = [] then none
    else
      match (c.table.get key (a.clock .current key) (a.clock .currentAgain key)).2 with
      | some _ => c.migration
      | none => c.migration.map fun m =>
        { m with old := (m.old.get key (a.clock .old key) (a.clock .oldAgain key)).1 }
  | .del key =>
    if c.closed = true ∨ key = [] then none else (c.delOld key).migration
  | .step => c.migration
  | _ => none

section Commands

variable {c : Cache} {a : CacheAction}
variable {order : MapOrder} {clock : Clock} {key : Bytes}

theorem Cache.step_eq_none_iff : c.step order clock = none ↔
      ∃ m, c.migration = some m ∧ m.moved c.rehasher order clock = none := by
  unfold Cache.step
  cases hm : c.migration with
  | none => simp
  | some m => simp [Migration.step_eq]

theorem Cache.set_eq_none_iff {value : Option Bytes} {ttl : Option ℤ} :
    c.set order clock key value ttl = none ↔ ¬ (c.closed = true ∨ key = [] ∨ value = none) ∧
        ∃ m, (c.delOld key).migration = some m ∧ m.moved c.rehasher order clock = none := by
  unfold Cache.set
  split_ifs with hclosed hkey
  · simp [hclosed]
  · simp [hkey]
  · cases value with
    | none => simp
    | some value =>
      rw [Option.map_eq_none_iff, Cache.step_eq_none_iff]
      exact (and_iff_right (by simp [hclosed, hkey])).symm

theorem Cache.get_eq_none_iff : c.get order clock key = none ↔ ¬ (c.closed = true ∨ key = []) ∧
        ∃ m, (match (c.table.get key (clock .current key) (clock .currentAgain key)).2 with
          | some _ => c.migration
          | none => c.migration.map fun m =>
            { m with old := (m.old.get key (clock .old key) (clock .oldAgain key)).1 }) =
          some m ∧ m.moved c.rehasher order clock = none := by
  unfold Cache.get
  split_ifs with hclosed hkey
  · simp [hclosed]
  · simp [hkey]
  · rw [and_iff_right (by simp [hclosed, hkey])]
    dsimp only
    cases (c.table.get key (clock .current key) (clock .currentAgain key)).2 with
    | some value => rw [Option.map_eq_none_iff, Cache.step_eq_none_iff]
    | none =>
      cases hm : c.migration with
      | none => simp
      | some m =>
        dsimp only
        rw [Option.map_eq_none_iff, Cache.step_eq_none_iff]
        rfl

theorem Cache.del_eq_none_iff : c.del order clock key = none ↔ ¬ (c.closed = true ∨ key = []) ∧
        ∃ m, (c.delOld key).migration = some m ∧ m.moved c.rehasher order clock = none := by
  unfold Cache.del
  split_ifs with hclosed hkey
  · simp [hclosed]
  · simp [hkey]
  · rw [Option.map_eq_none_iff, Cache.step_eq_none_iff]
    exact (and_iff_right (by simp [hclosed, hkey])).symm

theorem Cache.apply_eq_none_iff : c.apply a = none ↔
      ∃ m, c.stepping a = some m ∧ m.moved c.rehasher a.order a.clock = none := by
  unfold Cache.apply Cache.stepping
  cases a.command with
  | set key value ttl =>
    simp only [Option.map_eq_none_iff, Cache.set_eq_none_iff]
    split_ifs with hrefused
    · simp [hrefused]
    · simp [hrefused]
  | get key =>
    simp only [Option.map_eq_none_iff, Cache.get_eq_none_iff]
    split_ifs with hrefused
    · simp [hrefused]
    · rw [and_iff_right hrefused]
  | del key =>
    simp only [Option.map_eq_none_iff, Cache.del_eq_none_iff]
    split_ifs with hrefused
    · simp [hrefused]
    · simp [hrefused]
  | step => exact Cache.step_eq_none_iff
  | _ => simp

theorem Cache.stepping_cases {m : Migration} (hstepping : c.stepping a = some m) :
    ∃ start, c.migration = some start ∧
      (m = start ∨ (∃ key, m = { start with old := start.old.del key }) ∨
        ∃ key now again, m = { start with old := (start.old.get key now again).1 }) := by
  unfold Cache.stepping at hstepping
  split at hstepping
  case h_1 =>
    split_ifs at hstepping
    rcases Option.map_eq_some_iff.mp hstepping with ⟨start, hstart, rfl⟩
    exact ⟨start, hstart, .inr (.inl ⟨_, rfl⟩)⟩
  case h_2 =>
    split_ifs at hstepping
    split at hstepping
    · exact ⟨m, hstepping, .inl rfl⟩
    · rcases Option.map_eq_some_iff.mp hstepping with ⟨start, hstart, rfl⟩
      exact ⟨start, hstart, .inr (.inr ⟨_, _, _, rfl⟩)⟩
  case h_3 =>
    split_ifs at hstepping
    rcases Option.map_eq_some_iff.mp hstepping with ⟨start, hstart, rfl⟩
    exact ⟨start, hstart, .inr (.inl ⟨_, rfl⟩)⟩
  case h_4 => exact ⟨m, hstepping, .inl rfl⟩
  case h_5 => cases hstepping

end Commands

theorem Shard.extractFrom_sameDivision {s : Shard} {order : MapOrder} {clock : Clock}
    {n slots i : ℕ} {items : List Item} {result : Shard × List Item}
    (hresult : s.extractFrom order clock n slots i items = some result) :
    s.SameDivision result.1 :=
  Shard.extractFrom_relates sameDivision_relation.refl sameDivision_relation.trans
    (fun _ _ _ => ⟨rfl, rfl⟩) hresult

theorem sameDivision_old : OldRelation Shard.SameDivision where
  refl := sameDivision_relation.refl
  trans := sameDivision_relation.trans
  get := sameDivision_relation.get
  del := fun s key => sameDivision_relation.del s key trivial
  cleanup := sameDivision_relation.cleanup
  swapPolicy := sameDivision_relation.swapPolicy
  extract := fun hresult => Shard.extractFrom_sameDivision hresult

theorem ShardTable.Divided.changes {t later : ShardTable} {maxSize : ℕ}
    (h : t.Divided (perShardMax maxSize (2 ^ t.bits)))
    (hchanges : t.Changes Shard.SameDivision later) :
    later.Divided (perShardMax maxSize (2 ^ later.bits)) := by
  rcases hchanges with ⟨shards, rfl, hshards⟩
  intro i
  exact ⟨(hshards i).1.trans (h i).1, (hshards i).2.trans (h i).2⟩

structure Cache.WellDivided (c : Cache) : Prop where
  table : c.table.Divided (perShardMax c.maxSize (2 ^ c.table.bits))
  old : ∀ m, c.migration = some m → m.old.Divided (perShardMax c.maxSize (2 ^ m.old.bits))
  cursor : ∀ m, c.migration = some m → m.rehashIdx < 2 ^ m.old.bits

theorem store_wellDivided {c : Cache} (hreach : store.Reachable c) : c.WellDivided := by
  apply hreach.invariant
  · rintro c ⟨opts, hnew⟩
    rcases Cache.new_ok hnew with ⟨hvalid, -, hc⟩
    rw [hc]
    exact ⟨newTable_divided_of_valid hvalid _ _, nofun, nofun⟩
  · intro c a next h _ hstep
    have hmax := Cache.apply_maxSize hstep
    rcases sameDivision_old.effect (Cache.apply_effect hstep) with hchanges | ⟨-, hmigration, -⟩
    · refine ⟨Cache.divided_apply h.table hstep, fun m hm => ?_, fun m hm => ?_⟩
      · rcases hchanges m hm with ⟨start, hstart, hold⟩
        rw [hmax]
        exact (h.old start hstart).changes hold.old
      · rcases hchanges m hm with ⟨start, hstart, hold⟩
        exact hold.cursor (h.cursor start hstart)
    · refine ⟨Cache.divided_apply h.table hstep, fun m hm => ?_, fun m hm => ?_⟩
      · obtain rfl : ⟨c.table, 0⟩ = m := Option.some.inj (hmigration.symm.trans hm)
        rw [hmax]
        exact h.table
      · obtain rfl : ⟨c.table, 0⟩ = m := Option.some.inj (hmigration.symm.trans hm)
        exact Nat.two_pow_pos _

theorem effectiveSubShards_lt_iff {maxSize shardCount : ℕ} :
    effectiveSubShards (perShardMax maxSize shardCount) < subShardsPerShard ↔
      0 < maxSize ∧ maxSize / shardCount < 16 := by
  unfold perShardMax effectiveSubShards subShardsPerShard
  generalize maxSize / shardCount = share
  by_cases hmax : 0 < maxSize
  · by_cases hshare : share < 1
    · refine iff_of_true ?_ ⟨hmax, by omega⟩
      rw [if_pos hmax, if_pos hshare]
      decide
    · simp only [if_pos hmax, if_neg hshare]
      split_ifs <;> omega
  · simp [hmax]

def Cache.Panics (c : Cache) (a : CacheAction) : Prop :=
  ∃ m, c.stepping a = some m ∧ (0 < c.maxSize ∧ c.maxSize / 2 ^ m.old.bits < 16) ∧
    m.MeetsNil c.rehasher a.clock

theorem Cache.panics_iff {c : Cache} (hreach : store.Reachable c) (a : CacheAction) :
    c.apply a = none ↔ c.Panics a := by
  have hdivided := store_wellDivided hreach
  have hrouted := store_routed hreach
  rw [Cache.apply_eq_none_iff]
  refine exists_congr fun m => and_congr_right fun hstepping => ?_
  rcases Cache.stepping_cases hstepping with ⟨start, hstart, hm⟩
  have hkept : m.old.Each Routed ∧ start.Changes Shard.SameDivision m := by
    have hold := hrouted.old start hstart
    rcases hm with rfl | ⟨key, rfl⟩ | ⟨key, now, again, rfl⟩
    · exact ⟨hold, sameDivision_old.same _⟩
    · exact ⟨routed_invariant.removals.table_del hold key, sameDivision_old.old_del key _, id⟩
    · exact ⟨routed_invariant.removals.table_get hold key now again,
        sameDivision_old.old_get key now again _, id⟩
  have hshares := (hdivided.old start hstart).changes hkept.2.old
  rw [Migration.moved_eq_none_iff hkept.1 (hkept.2.cursor (hdivided.cursor start hstart))
    fun i => (hshares i).1, effectiveSubShards_lt_iff]

theorem apply_panics_iff {c : Cache} (hreach : store.Reachable c) (a : CacheAction) :
    c.apply a = none ↔
      ∃ m, c.stepping a = some m ∧ (0 < c.maxSize ∧ c.maxSize / 2 ^ m.old.bits < 16) ∧
        m.MeetsNil c.rehasher a.clock :=
  Cache.panics_iff hreach a

def tinyCache : Cache :=
  { Cache.ofDefaults with table := newTable 4 .lru 1, maxSize := 16 }

theorem tinyCache_resized :
    ∃ c, store.Reachable c ∧ ((c.apply ⟨.get [97], .asStored, fun _ _ => 1⟩).isNone,
      c.maxSize, c.rehasher) = (true, 16, .incremental) := by
  have hinit : store.init tinyCache := ⟨{ newOptions with maxSize := 16 }, rfl⟩
  have hrun : (store.runBy (fun _ _ => True) tinyCache [⟨.resize 32, .asStored, fun _ _ => 1⟩]).map
        (fun c => ((c.apply ⟨.get [97], .asStored, fun _ _ => 1⟩).isNone,
          c.maxSize, c.rehasher)) = some (true, 16, .incremental) := by
    decide +kernel
  exact TransitionSystem.exists_reachableBy hinit hrun

theorem apply_panics_iff_tinyCache : ∃ c m, store.Reachable c ∧
      c.stepping ⟨.get [97], .asStored, fun _ _ => 1⟩ = some m ∧
      16 / 2 ^ m.old.bits < 16 ∧ m.handedOn (fun _ _ => 1) < 16 := by
  rcases tinyCache_resized with ⟨c, hreach, hfacts⟩
  simp only [Prod.mk.injEq, Option.isNone_iff_eq_none] at hfacts
  rcases hfacts with ⟨hnone, hmax, hkind⟩
  rcases (apply_panics_iff hreach _).mp hnone with ⟨m, hstepping, hshare, hnil⟩
  rw [hmax] at hshare
  rw [Migration.MeetsNil, hkind] at hnil
  exact ⟨c, m, hreach, hstepping, hshare.2, (hnil.resolve_left nofun).2⟩

theorem get_panics_after_resize : ∃ c, store.Reachable c ∧
      c.apply ⟨.get [97], .asStored, fun _ _ => 1⟩ = none := by
  rcases tinyCache_resized with ⟨c, hreach, hfacts⟩
  simp only [Prod.mk.injEq, Option.isNone_iff_eq_none] at hfacts
  exact ⟨c, hreach, hfacts.1⟩

end MCache.Store
