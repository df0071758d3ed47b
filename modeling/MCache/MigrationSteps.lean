import MCache.SplitMap
import MCache.TableContents

/-!
# Migration steps on the contents of two tables

With a clock that stands still during the step, `ExtractN` followed by the
stores into the new table moves entries unchanged: the remaining time that an
item carries leads back to the same deadline.  Both rehashers are therefore
migrations in the sense of split maps, and the batch one empties the old table.
-/

namespace MCache.Store

def still (now : ℤ) : Clock := fun _ _ => now

namespace CacheEntry

def Bounded (e : CacheEntry) : Prop := 0 ≤ e.expiresAt ∧ e.expiresAt < 2 ^ 63

def DeadAt (now : ℤ) (e : CacheEntry) : Prop := e.isExpired now = true

theorem isExpired_iff {e : CacheEntry} {now : ℤ} :
    e.isExpired now = true ↔ e.expiresAt ≠ 0 ∧ e.expiresAt ≤ now := by
  simp [isExpired]

theorem isExpired_eq_false_iff {e : CacheEntry} {now : ℤ} :
    e.isExpired now = false ↔ e.expiresAt = 0 ∨ now < e.expiresAt := by
  rw [← Bool.not_eq_true, isExpired_iff]
  omega

end CacheEntry

def Item.entry (clock : Clock) (item : Item) : CacheEntry :=
  newEntry (clock .store item.key) item.value item.ttl

theorem remaining_still {now : ℤ} (hnow : 0 < now) (key : Bytes)
    {e : CacheEntry} (hbounded : e.Bounded) :
    SubShard.remaining (still now) key e =
      if e.isExpired now then none
      else some (if e.expiresAt = 0 then 0 else e.expiresAt - now) := by
  rcases hbounded with ⟨hlow, hhigh⟩
  unfold SubShard.remaining still
  dsimp only
  cases hexpired : e.isExpired now with
  | true =>
    rcases CacheEntry.isExpired_iff.mp hexpired with ⟨hne, hle⟩
    have hpos : 0 < e.expiresAt := by omega
    simp [hpos, hle]
  | false =>
    rcases CacheEntry.isExpired_eq_false_iff.mp hexpired with hzero | hlater
    · simp [hzero]
    · have hpos : 0 < e.expiresAt := by omega
      have hsaturated : saturated (e.expiresAt - now) = e.expiresAt - now :=
        saturated_of_bounds (by omega) (by omega)
      simp [hpos, hpos.ne', hlater, hsaturated]

theorem Item.of_still {now : ℤ} (hnow : 0 < now)
    {entry : Sigma fun _ : Bytes => CacheEntry} (hbounded : entry.2.Bounded) :
    Item.of (still now) entry = none ∧ entry.2.DeadAt now ∨
    ∃ item, Item.of (still now) entry = some item ∧ item.key = entry.1 ∧
      item.entry (still now) = entry.2 := by
  rcases entry with ⟨key, ⟨value, expiresAt⟩⟩
  unfold Item.of CacheEntry.DeadAt
  rw [remaining_still hnow key hbounded]
  split_ifs with hexpired hzero
  · exact .inl ⟨rfl, hexpired⟩
  · right
    refine ⟨_, rfl, rfl, ?_⟩
    have hzero : expiresAt = 0 := hzero
    simp [Item.entry, newEntry, hzero]
  · right
    refine ⟨_, rfl, rfl, ?_⟩
    have hlater : now < expiresAt := by
      rcases CacheEntry.isExpired_eq_false_iff.mp (Bool.not_eq_true _ ▸ hexpired) with h | h
      · exact absurd h hzero
      · exact h
    have hhigh : expiresAt < 2 ^ 63 := hbounded.2
    have hdeadline : int64 (now + (expiresAt - now)) = expiresAt := by
      rw [add_sub_cancel]
      exact int64_of_bounds (by omega) hhigh
    simp only [Item.entry, newEntry, still, sub_pos, hlater, if_true, hdeadline]

structure ShardTable.Plain (t : ShardTable) : Prop where
  unbounded : ∀ i, (t.shards i).Unbounded
  routed : t.Each Routed
  bounded : ∀ key e, t.lookup key = some e → e.Bounded

section Unbounded

variable {t : ShardTable}

variable (ht : ∀ i, (t.shards i).Unbounded)
include ht

theorem ShardTable.withShard_unbounded (i : Fin (2 ^ t.bits)) {s : Shard} (hs : s.Unbounded) :
    ∀ k, ((t.withShard i s).shards k).Unbounded := by
  change ∀ k : Fin (2 ^ t.bits), (Function.update t.shards i s k).Unbounded
  intro k
  by_cases hk : k = i
  · subst k
    rw [Function.update_self]
    exact hs
  · rw [Function.update_of_ne hk]
    exact ht k

theorem ShardTable.set_unbounded (key value : Bytes) (ttl now : ℤ) :
    ∀ i, ((t.set key value ttl now).shards i).Unbounded :=
  t.withShard_unbounded ht _ (ht (t.index key))

theorem ShardTable.insertItems_unbounded (clock : Clock) (items : List Item) :
    ∀ i, ((t.insertItems clock items).shards i).Unbounded := by
  induction items generalizing t with
  | nil => exact ht
  | cons item rest ih => exact ih (t.set_unbounded ht _ _ _ _)

theorem ShardTable.insertItems_lookup (clock : Clock) (items : List Item) (key : Bytes) :
    (∃ item ∈ items, item.key = key ∧
      (t.insertItems clock items).lookup key = some (item.entry clock)) ∨
    ((∀ item ∈ items, item.key ≠ key) ∧ (t.insertItems clock items).lookup key = t.lookup key) := by
  induction items generalizing t with
  | nil => exact .inr ⟨by simp, rfl⟩
  | cons first rest ih =>
    have hfirst := t.set_lookup (ht (t.index first.key)).2 first.value first.ttl
      (clock .store first.key)
    rcases ih (t.set_unbounded ht first.key first.value first.ttl
      (clock .store first.key)) with ⟨item, hitem, hkey, hlookup⟩ | ⟨hfresh, hlookup⟩
    · exact .inl ⟨item, List.mem_cons_of_mem _ hitem, hkey, hlookup⟩
    · by_cases hkey : first.key = key
      · left
        refine ⟨first, List.mem_cons_self, hkey, ?_⟩
        subst key
        exact hlookup.trans (by rw [hfirst, Function.update_self]; rfl)
      · right
        refine ⟨List.forall_mem_cons.mpr ⟨hkey, hfresh⟩, ?_⟩
        exact hlookup.trans (by rw [hfirst, Function.update_of_ne (Ne.symm hkey)])

end Unbounded

section Extraction

variable {now : ℤ} {t : ShardTable} {s later : Shard} {taken : EntryList}

theorem Shard.Extracted.migrates (h : s.Extracted later taken) (hnow : 0 < now)
    (ht : ∀ i, (t.shards i).Unbounded) (hapart : Apart t.lookup s.lookup)
    (hbounded : ∀ key e, s.lookup key = some e → e.Bounded) :
    Migrates (CacheEntry.DeadAt now) t.lookup s.lookup (t.insertItems (still now)
        (taken.filterMap (Item.of (still now)))).lookup later.lookup := by
  -- an item for a key comes from the one entry that the shard has for it
  have hsource : ∀ item ∈ taken.filterMap (Item.of (still now)), ∃ e, s.lookup item.key = some e ∧
        Item.of (still now) ⟨item.key, e⟩ = some item ∧
        item.entry (still now) = e ∧ item.key ∈ taken.keys := by
    intro item hitem
    rcases List.mem_filterMap.mp hitem with ⟨entry, hentry, hof⟩
    have hfound := h.found entry hentry
    rcases Item.of_still hnow (hbounded _ _ hfound) with
      ⟨hnone, -⟩ | ⟨item', hsome, hkey, hback⟩
    · rw [hnone] at hof
      cases hof
    · rw [hsome] at hof
      cases hof
      rw [hkey]
      exact ⟨entry.2, hfound, hsome, hback, List.mem_keys_of_mem hentry⟩
  intro key
  have hinsert := t.insertItems_lookup ht (still now) (taken.filterMap (Item.of (still now))) key
  by_cases hkey : key ∈ taken.keys
  · rcases List.mem_map.mp hkey with ⟨entry, hentry, rfl⟩
    have hfound := h.found entry hentry
    have hgone : later.lookup entry.1 = none := by
      by_contra hsome
      rcases Option.ne_none_iff_exists'.mp hsome with ⟨e, he⟩
      exact ((h.left _ _).mp he).2 hkey
    have hfree : t.lookup entry.1 = none := by
      rcases hapart entry.1 with hfree | hnone
      · exact hfree
      · rw [hfound] at hnone
        cases hnone
    rcases hinsert with ⟨item, hitem, heq, hlookup⟩ | ⟨hfresh, hlookup⟩
    · rcases hsource item hitem with ⟨e, he, -, hback, -⟩
      right; left
      refine ⟨hgone, hfree, ?_⟩
      rw [hlookup, hback, ← he, heq]
    · right; right
      refine ⟨hgone, hlookup, ?_⟩
      intro e he
      rw [hfound] at he
      cases he
      rcases Item.of_still hnow (hbounded _ _ hfound) with
        ⟨-, hdead⟩ | ⟨item, hsome, heq, -⟩
      · exact hdead
      · exact absurd heq (hfresh item (List.mem_filterMap.mpr ⟨entry, hentry, hsome⟩))
  · left
    constructor
    · rcases hinsert with ⟨item, hitem, heq, -⟩ | ⟨-, hlookup⟩
      · rcases hsource item hitem with ⟨-, -, -, -, hin⟩
        exact absurd (heq ▸ hin) hkey
      · exact hlookup
    · apply Option.ext
      intro e
      rw [h.left, and_iff_left hkey]

theorem Shard.route_of_lookup {route : Bytes → Prop}
    (hrouted : s.Each Routed route) {key : Bytes} {e : CacheEntry}
    (hlookup : s.lookup key = some e) : route key := by
  refine (hrouted (s.subIndex key) key ?_).1
  rw [← AList.lookup_isSome, ← Shard.lookup, hlookup]
  rfl

end Extraction

structure Shard.Plain (route : Bytes → Prop) (s : Shard) : Prop where
  unbounded : s.Unbounded
  routed : s.Each Routed route
  bounded : ∀ key e, s.lookup key = some e → e.Bounded

structure Shard.Moved (now : ℤ) (route : Bytes → Prop) (n : ℕ) (s later : Shard)
    (items : List Item) (table : ShardTable) : Prop where
  plain : later.Plain route
  stored : (table.insertItems (still now) items).Plain
  migrates : Migrates (CacheEntry.DeadAt now) table.lookup s.lookup
      (table.insertItems (still now) items).lookup later.lookup
  emptied : items.length < n → ∀ key, later.lookup key = none
  smaller : items ≠ [] → later.size < s.size

theorem Shard.Plain.extractN {now : ℤ} {route : Bytes → Prop} {s : Shard}
    {table : ShardTable} (hs : s.Plain route) (htable : table.Plain)
    (hapart : Apart table.lookup s.lookup) (hnow : 0 < now) (order : MapOrder)
    (n : ℕ) :
    ∃ later items, s.extractN order (still now) n = some (later, items) ∧
      s.Moved now route n later items table := by
  rcases Shard.extractFrom_spec hs.routed
      (hs.unbounded.1.trans (Nat.zero_add _).symm) order (still now) n [] with
    ⟨later, taken, hextract, hextracted, hdone⟩
  rw [List.nil_append] at hextract hdone
  have hmigrates := hextracted.migrates hnow htable.unbounded hapart hs.bounded
  refine ⟨later, taken.filterMap (Item.of (still now)), hextract, ?_⟩
  constructor
  case plain =>
    constructor
    case unbounded =>
      exact ⟨hextracted.numSubs.trans hs.unbounded.1, hextracted.maxSubSize.trans hs.unbounded.2⟩
    case routed => exact routed_invariant.removals.extractFrom hs.routed hextract
    case bounded =>
      intro key e he
      exact hs.bounded key e ((hextracted.left key e).mp he).1
  case stored =>
    exact ⟨table.insertItems_unbounded htable.unbounded _ _,
      routed_invariant.insertItems htable.routed _ _,
      hmigrates.forall_new htable.bounded hs.bounded⟩
  case migrates => exact hmigrates
  case emptied => exact fun hlt key => hdone hlt key (Nat.zero_le _)
  case smaller =>
    intro hne
    have hpos : 0 < taken.length := by
      apply List.length_pos_of_ne_nil
      rintro rfl
      exact hne rfl
    have := hextracted.size
    omega

structure Migration.Sound (m : Migration) : Prop where
  plain : m.old.Plain
  inRange : m.rehashIdx < 2 ^ m.old.bits
  swept : ∀ key, (m.old.index key).val < m.rehashIdx → m.old.lookup key = none

def oldLookup : Option Migration → Bytes → Option CacheEntry
  | none => fun _ => none
  | some m => m.old.lookup

section Shards

variable {old table : ShardTable}

theorem ShardTable.shard_lookup_of_index {i : Fin (2 ^ old.bits)} {key : Bytes}
    (hkey : old.index key = i) : (old.shards i).lookup key = old.lookup key := by
  subst i
  rfl

theorem ShardTable.shard_lookup_of_ne (hrouted : old.Each Routed)
    {i : Fin (2 ^ old.bits)} {key : Bytes} (hkey : old.index key ≠ i) :
    (old.shards i).lookup key = none := by
  by_contra hsome
  rcases Option.ne_none_iff_exists'.mp hsome with ⟨e, he⟩
  exact hkey (Shard.route_of_lookup (hrouted i) he)

theorem ShardTable.Plain.shard (hold : old.Plain) (i : Fin (2 ^ old.bits)) :
    (old.shards i).Plain fun key => old.index key = i := by
  constructor
  case unbounded => exact hold.unbounded i
  case routed => exact hold.routed i
  case bounded =>
    intro key e he
    apply hold.bounded key e
    rwa [← ShardTable.shard_lookup_of_index (Shard.route_of_lookup (hold.routed i) he)]

theorem ShardTable.Plain.apart_shard (hold : old.Plain)
    (hapart : Apart table.lookup old.lookup) (i : Fin (2 ^ old.bits)) :
    Apart table.lookup (old.shards i).lookup := by
  intro key
  by_cases hkey : old.index key = i
  · rw [ShardTable.shard_lookup_of_index hkey]
    exact hapart key
  · exact .inr (ShardTable.shard_lookup_of_ne hold.routed hkey)

theorem ShardTable.Plain.withShard (hold : old.Plain) (i : Fin (2 ^ old.bits))
    {s : Shard} (hs : s.Plain fun key => old.index key = i) :
    (old.withShard i s).Plain := by
  constructor
  case unbounded => exact old.withShard_unbounded hold.unbounded i hs.unbounded
  case routed => exact hold.routed.withShard i hs.routed
  case bounded =>
    intro key e he
    rw [ShardTable.lookup_withShard] at he
    split_ifs at he
    · exact hs.bounded key e he
    · exact hold.bounded key e he

end Shards

section Steps

variable {now : ℤ} {table : ShardTable} {m : Migration}

theorem Migration.stepIncremental_spec (hm : m.Sound) (htable : table.Plain)
    (hapart : Apart table.lookup m.old.lookup) (hnow : 0 < now)
    (order : MapOrder) :
    ∃ result, m.stepIncremental order (still now) table = some result ∧
      result.2.Plain ∧ (∀ later, result.1 = some later → later.Sound) ∧
      Migrates (CacheEntry.DeadAt now) table.lookup m.old.lookup
        result.2.lookup (oldLookup result.1) := by
  have hidx := hm.inRange
  rcases (hm.plain.shard ⟨m.rehashIdx, hidx⟩).extractN htable
      (hm.plain.apart_shard hapart _) hnow order batchSize with
    ⟨later, items, hextract, hmoved⟩
  have hmigrates : Migrates (CacheEntry.DeadAt now) table.lookup m.old.lookup
        (table.insertItems (still now) items).lookup
        (m.old.withShard ⟨m.rehashIdx, hidx⟩ later).lookup := by
    apply hmoved.migrates.within fun key => m.old.index key = ⟨m.rehashIdx, hidx⟩
    · intro key hkey
      rw [ShardTable.lookup_withShard, if_pos hkey, ShardTable.shard_lookup_of_index hkey]
      exact ⟨rfl, rfl⟩
    · intro key hkey
      rw [ShardTable.lookup_withShard, if_neg hkey]
      exact ⟨ShardTable.shard_lookup_of_ne hm.plain.routed hkey, rfl⟩
  have hplain := hm.plain.withShard ⟨m.rehashIdx, hidx⟩ hmoved.plain
  have hswept : ∀ key, (m.old.index key).val < m.rehashIdx →
      (m.old.withShard ⟨m.rehashIdx, hidx⟩ later).lookup key = none := by
    intro key hkey
    rw [ShardTable.lookup_withShard, if_neg]
    · exact hm.swept key hkey
    · intro heq
      rw [heq] at hkey
      exact lt_irrefl _ hkey
  unfold Migration.stepIncremental
  rw [dif_pos hidx, hextract, Option.map_some]
  refine ⟨_, rfl, ?_⟩
  dsimp only
  by_cases hempty : items = []
  · -- the shard under the cursor is empty now
    have hsweptNext : ∀ key, (m.old.index key).val < m.rehashIdx + 1 →
        (m.old.withShard ⟨m.rehashIdx, hidx⟩ later).lookup key = none := by
      intro key hkey
      rcases Nat.lt_succ_iff_lt_or_eq.mp hkey with hlt | heq
      · exact hswept key hlt
      · rw [ShardTable.lookup_withShard, if_pos (Fin.ext heq)]
        apply hmoved.emptied
        rw [hempty]
        exact Nat.zero_lt_succ _
    rw [if_pos hempty]
    split_ifs with hlast
    · have hnone : (m.old.withShard ⟨m.rehashIdx, hidx⟩ later).lookup = fun _ => none := by
        funext key
        exact hsweptNext key ((m.old.index key).isLt.trans_le hlast)
      rw [hnone] at hmigrates
      exact ⟨hmoved.stored, nofun, hmigrates⟩
    · refine ⟨hmoved.stored, ?_, hmigrates⟩
      rintro _ ⟨⟩
      exact ⟨hplain, not_le.mp hlast, hsweptNext⟩
  · rw [if_neg hempty]
    refine ⟨hmoved.stored, ?_, hmigrates⟩
    rintro _ ⟨⟩
    exact ⟨hplain, hidx, hswept⟩

theorem Migration.drainShard_spec {route : Bytes → Prop} {fuel : ℕ} {s : Shard}
    (hs : s.Plain route) (htable : table.Plain)
    (hapart : Apart table.lookup s.lookup) (hnow : 0 < now) (order : MapOrder)
    (hfuel : s.size < fuel) :
    ∃ result, Migration.drainShard order (still now) fuel s table = some result ∧ result.2.Plain ∧
      Migrates (CacheEntry.DeadAt now) table.lookup s.lookup result.2.lookup (fun _ => none) := by
  induction fuel generalizing s table with
  | zero => exact absurd hfuel (Nat.not_lt_zero _)
  | succ fuel ih =>
    rcases hs.extractN htable hapart hnow order 1000 with
      ⟨later, items, hextract, hmoved⟩
    unfold Migration.drainShard
    rw [hextract, Option.bind_some]
    dsimp only
    split_ifs with hempty
    · subst items
      have hnone : later.lookup = fun _ => none := by
        funext key
        exact hmoved.emptied (by decide) key
      exact ⟨_, rfl, htable, hnone ▸ hmoved.migrates⟩
    · have hsmaller := hmoved.smaller hempty
      rcases ih hmoved.plain hmoved.stored (hmoved.migrates.apart hapart) (by omega) with
        ⟨result, hresult, hplain, hmigrates⟩
      exact ⟨result, hresult, hplain, hmoved.migrates.trans hmigrates⟩

def ShardTable.lookupIn (old : ShardTable) (shards : List (Fin (2 ^ old.bits)))
    (key : Bytes) : Option CacheEntry :=
  if old.index key ∈ shards then old.lookup key else none

theorem Migration.drainShards_spec {old : ShardTable} (hold : old.Plain)
    {shards : List (Fin (2 ^ old.bits))} (hnodup : shards.Nodup)
    (htable : table.Plain) (hapart : Apart table.lookup (old.lookupIn shards))
    (hnow : 0 < now) (order : MapOrder) :
    ∃ result, Migration.drainShards order (still now) old shards table = some result ∧
      result.Plain ∧
      Migrates (CacheEntry.DeadAt now) table.lookup (old.lookupIn shards)
        result.lookup (fun _ => none) := by
  induction shards generalizing table with
  | nil => exact ⟨table, rfl, htable, .refl _ _ _⟩
  | cons i rest ih =>
    rcases List.nodup_cons.mp hnodup with ⟨hfresh, hnodup⟩
    have hapartShard : Apart table.lookup (old.shards i).lookup := by
      intro key
      by_cases hkey : old.index key = i
      · have hin := hapart key
        rwa [ShardTable.lookupIn, if_pos (hkey ▸ List.mem_cons_self),
          ← ShardTable.shard_lookup_of_index hkey] at hin
      · exact .inr (ShardTable.shard_lookup_of_ne hold.routed hkey)
    rcases Migration.drainShard_spec (hold.shard i) htable hapartShard hnow
        order (Nat.lt_succ_self _) with
      ⟨drained, hdrained, hplain, hmoves⟩
    have hmigrates : Migrates (CacheEntry.DeadAt now) table.lookup
          (old.lookupIn (i :: rest)) drained.2.lookup (old.lookupIn rest) := by
      apply hmoves.within fun key => old.index key = i
      · intro key hkey
        unfold ShardTable.lookupIn
        rw [if_pos (hkey ▸ List.mem_cons_self), if_neg (hkey ▸ hfresh),
          ShardTable.shard_lookup_of_index hkey]
        exact ⟨rfl, rfl⟩
      · intro key hkey
        simp only [ShardTable.lookupIn, List.mem_cons, hkey, false_or]
        exact ⟨ShardTable.shard_lookup_of_ne hold.routed hkey, trivial⟩
    rcases ih hnodup hplain (hmigrates.apart hapart) with
      ⟨result, hresult, hplain, hrest⟩
    refine ⟨result, ?_, hplain, hmigrates.trans hrest⟩
    unfold Migration.drainShards
    rw [hdrained, Option.bind_some]
    exact hresult

theorem Migration.stepBatch_spec (hm : m.Sound) (htable : table.Plain)
    (hapart : Apart table.lookup m.old.lookup) (hnow : 0 < now)
    (order : MapOrder) :
    ∃ result, m.stepBatch order (still now) table = some (none, result) ∧ result.Plain ∧
      Migrates (CacheEntry.DeadAt now) table.lookup m.old.lookup result.lookup (fun _ => none) := by
  have hall : m.old.lookupIn (List.finRange _) = m.old.lookup := by
    funext key
    exact if_pos (List.mem_finRange _)
  rcases Migration.drainShards_spec hm.plain (List.nodup_finRange _) htable
      (hall ▸ hapart) hnow order with
    ⟨result, hresult, hplain, hmigrates⟩
  refine ⟨result, ?_, hplain, hall ▸ hmigrates⟩
  rw [Migration.stepBatch, hresult, Option.map_some]

theorem Migration.step_spec (hm : m.Sound) (htable : table.Plain)
    (hapart : Apart table.lookup m.old.lookup) (hnow : 0 < now)
    {kind : RehasherKind} (hkind : kind ≠ .noop) (order : MapOrder) :
    ∃ result, m.step kind order (still now) table = some result ∧
      result.2.Plain ∧ (∀ later, result.1 = some later → later.Sound) ∧
      Migrates (CacheEntry.DeadAt now) table.lookup m.old.lookup
        result.2.lookup (oldLookup result.1) := by
  cases kind with
  | incremental => exact Migration.stepIncremental_spec hm htable hapart hnow order
  | batch =>
    rcases Migration.stepBatch_spec hm htable hapart hnow order with
      ⟨result, hresult, hplain, hmigrates⟩
    exact ⟨(none, result), hresult, hplain, nofun, hmigrates⟩
  | noop => exact absurd rfl hkind

end Steps

end MCache.Store
