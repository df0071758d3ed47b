import MCache.ConcurrentCache
import MCache.MigrationSteps

/-!
# Tables without times to live

When no entry has a deadline, the clock plays no part: a read changes nothing,
and an item that `ExtractN` takes out carries the value and no time to live.
The single steps of concurrent calls are described here by their effect on
what a table reads.
-/

namespace MCache.Store

structure ShardTable.Untimed (t : ShardTable) : Prop where
  unbounded : ∀ i, (t.shards i).Unbounded
  routed : t.Each Routed
  untimed : ∀ key e, t.lookup key = some e → e.expiresAt = 0

def ShardTable.read (t : ShardTable) (key : Bytes) : Option Bytes :=
  (t.lookup key).map CacheEntry.value

section Tables

variable {t : ShardTable}
variable {later : ShardTable} {key : Bytes}

theorem newTable_untimed (bits : ℕ) (kind : PolicyKind) : (newTable bits kind 0).Untimed := by
  constructor
  case unbounded => exact fun _ => newShard_unbounded kind
  case routed => exact routed_invariant.newTable trivial bits 0
  case untimed => nofun

theorem newTable_read (bits : ℕ) (kind : PolicyKind) (key : Bytes) :
    (newTable bits kind 0).read key = none :=
  rfl

theorem ShardTable.read_of_update {o : Option CacheEntry}
    (hlookup : later.lookup = Function.update t.lookup key o) :
    later.read = Function.update t.read key (o.map CacheEntry.value) := by
  funext other
  unfold ShardTable.read
  rw [hlookup]
  by_cases hother : other = key
  · subst other
    simp only [Function.update_self]
  · simp only [Function.update_of_ne hother]

theorem ShardTable.Untimed.update {o : Option CacheEntry} (ht : t.Untimed)
    (hunbounded : ∀ i, (later.shards i).Unbounded) (hrouted : later.Each Routed)
    (hlookup : later.lookup = Function.update t.lookup key o)
    (ho : ∀ e, o = some e → e.expiresAt = 0) : later.Untimed := by
  constructor
  case unbounded => exact hunbounded
  case routed => exact hrouted
  case untimed =>
    intro other e he
    rw [hlookup] at he
    by_cases hother : other = key
    · subst other
      rw [Function.update_self] at he
      exact ho e he
    · rw [Function.update_of_ne hother] at he
      exact ht.untimed other e he

theorem Shard.withSub_self (s : Shard) (i : Fin s.numSubs) : s.withSub i (s.subs i) = s := by
  unfold Shard.withSub
  rw [Function.update_eq_self]

theorem ShardTable.Untimed.set (ht : t.Untimed) (key value : Bytes) (now : ℤ) :
    (t.set key value 0 now).Untimed ∧
      (t.set key value 0 now).read = Function.update t.read key (some value) := by
  have hlookup := t.set_lookup (ht.unbounded (t.index key)).2 value 0 now
  constructor
  · apply ht.update (t.set_unbounded ht.unbounded _ _ _ _)
      (routed_invariant.table_set ht.routed _ _ _ _) hlookup
    rintro _ ⟨⟩
    rfl
  · exact t.read_of_update hlookup

theorem ShardTable.Untimed.del (ht : t.Untimed) (key : Bytes) :
    (t.del key).Untimed ∧ (t.del key).read = Function.update t.read key none := by
  have hlookup := t.del_lookup key
  constructor
  · exact ht.update (t.withShard_unbounded ht.unbounded _ (ht.unbounded (t.index key)))
      (routed_invariant.removals.table_del ht.routed key) hlookup nofun
  · exact t.read_of_update hlookup

theorem ShardTable.get_of_live {now : ℤ}
    (hlive : ∀ e, t.lookup key = some e → e.isExpired now = false) (again : ℤ) :
    t.get key now again = (t, t.read key) := by
  have hsub : ((t.shard key).subs ((t.shard key).subIndex key)).get key now again =
      ((t.shard key).subs ((t.shard key).subIndex key), t.read key) := by
    unfold SubShard.get ShardTable.read ShardTable.lookup Shard.lookup
    cases hlookup : ((t.shard key).subs ((t.shard key).subIndex key)).entries.lookup key with
    | none => rfl
    | some e =>
      have hlive : ¬ e.isExpired now = true := by simp [hlive e hlookup]
      simp only [hlive, Bool.false_eq_true, if_false]
      rfl
  unfold ShardTable.get Shard.get
  rw [hsub]
  dsimp only
  rw [Shard.withSub_self, ShardTable.shard, ShardTable.withShard_self]

theorem ShardTable.Untimed.get (ht : t.Untimed) (key : Bytes) (now again : ℤ) :
    t.get key now again = (t, t.read key) := by
  apply ShardTable.get_of_live
  intro e hlookup
  simp [CacheEntry.isExpired, ht.untimed key e hlookup]

theorem ShardTable.setAt_index (t : ShardTable) (item : Item) (now : ℤ) :
    t.setAt (t.index item.key).val item now = some (t.set item.key item.value item.ttl now) := by
  unfold ShardTable.setAt
  rw [dif_pos (t.index item.key).isLt]
  rfl

theorem Item.of_untimed (clock : Clock)
    {entry : Sigma fun _ : Bytes => CacheEntry} (hentry : entry.2.expiresAt = 0) :
    Item.of clock entry = some ⟨entry.1, entry.2.value, 0⟩ := by
  simp [Item.of, SubShard.remaining, hentry]

structure ShardTable.Extracts (t later : ShardTable) (i : ℕ) (items : List Item) : Prop where
  untimed : later.Untimed
  bits : later.bits = t.bits
  ttl : ∀ item ∈ items, item.ttl = 0
  found : ∀ item ∈ items, t.read item.key = some item.value
  nodup : (items.map Item.key).Nodup
  left : ∀ key v, later.read key = some v ↔ t.read key = some v ∧ ∀ item ∈ items, item.key ≠ key
  emptied : items = [] → ∀ key, (t.index key).val = i → later.read key = none

theorem ShardTable.Extracts.shrinks {i : ℕ} {items : List Item}
    (h : t.Extracts later i items) (key : Bytes) :
    later.read key = t.read key ∨ later.read key = none := by
  cases hread : later.read key with
  | none => exact .inr rfl
  | some value => exact .inl ((h.left key value).mp hread).1.symm

theorem ShardTable.read_eq_some {value : Bytes} : t.read key = some value ↔
      ∃ e, t.lookup key = some e ∧ e.value = value := by
  simp [ShardTable.read]

theorem ShardTable.Untimed.extractAt (ht : t.Untimed) {i : ℕ}
    (hi : i < 2 ^ t.bits) (order : MapOrder) (clock : Clock) :
    ∃ later items, t.extractAt i order clock = some (later, items) ∧ t.Extracts later i items := by
  rcases Shard.extractFrom_spec (ht.routed ⟨i, hi⟩)
      ((ht.unbounded ⟨i, hi⟩).1.trans (Nat.zero_add _).symm) order clock
      batchSize [] with
    ⟨shard, taken, hextract, hextracted, hdone⟩
  rw [List.nil_append] at hextract hdone
  have hfound : ∀ entry ∈ taken, t.index entry.1 = ⟨i, hi⟩ ∧ t.lookup entry.1 = some entry.2 := by
    intro entry hentry
    have hlookup := hextracted.found entry hentry
    have hindex := Shard.route_of_lookup (ht.routed ⟨i, hi⟩) hlookup
    exact ⟨hindex, by rw [← ShardTable.shard_lookup_of_index hindex, hlookup]⟩
  have hitems : taken.filterMap (Item.of clock) =
      taken.map fun entry => ⟨entry.1, entry.2.value, 0⟩ := by
    rw [← List.filterMap_eq_map]
    apply List.filterMap_congr
    intro entry hentry
    exact Item.of_untimed clock (ht.untimed _ _ (hfound entry hentry).2)
  have hleft : ∀ key e, (t.withShard ⟨i, hi⟩ shard).lookup key = some e ↔
      t.lookup key = some e ∧ key ∉ taken.keys := by
    intro key e
    rw [ShardTable.lookup_withShard]
    split_ifs with hindex
    · rw [hextracted.left, ShardTable.shard_lookup_of_index hindex]
    · have hfresh : key ∉ taken.keys := by
        intro hkey
        rcases List.mem_map.mp hkey with ⟨entry, hentry, rfl⟩
        exact hindex (hfound entry hentry).1
      simp [hfresh]
  have hkeys : ∀ key, key ∉ taken.keys ↔
      ∀ item ∈ taken.filterMap (Item.of clock), item.key ≠ key := by
    intro key
    rw [hitems, List.keys]
    simp only [List.mem_map, not_exists, not_and]
    constructor
    · rintro h _ ⟨entry, hentry, rfl⟩
      exact h entry hentry
    · intro h entry hentry
      exact h _ ⟨entry, hentry, rfl⟩
  refine ⟨t.withShard ⟨i, hi⟩ shard, taken.filterMap (Item.of clock), ?_, ?_⟩
  · unfold ShardTable.extractAt Shard.extractN
    rw [dif_pos hi, hextract]
    rfl
  constructor
  case untimed =>
    constructor
    case unbounded =>
      exact t.withShard_unbounded ht.unbounded _ ⟨hextracted.numSubs.trans (ht.unbounded _).1,
          hextracted.maxSubSize.trans (ht.unbounded _).2⟩
    case routed =>
      exact ht.routed.withShard _ (routed_invariant.removals.extractFrom (ht.routed _) hextract)
    case untimed =>
      intro key e he
      exact ht.untimed key e ((hleft key e).mp he).1
  case bits => rfl
  case ttl =>
    rw [hitems]
    intro item hitem
    rcases List.mem_map.mp hitem with ⟨entry, -, rfl⟩
    rfl
  case found =>
    rw [hitems]
    intro item hitem
    rcases List.mem_map.mp hitem with ⟨entry, hentry, rfl⟩
    exact ShardTable.read_eq_some.mpr ⟨entry.2, (hfound entry hentry).2, rfl⟩
  case nodup =>
    rw [hitems, List.map_map]
    exact hextracted.nodup
  case left =>
    intro key v
    simp only [ShardTable.read_eq_some, hleft, hkeys]
    constructor
    · rintro ⟨e, ⟨he, hfresh⟩, hv⟩
      exact ⟨⟨e, he, hv⟩, hfresh⟩
    · rintro ⟨⟨e, he, hv⟩, hfresh⟩
      exact ⟨e, ⟨he, hfresh⟩, hv⟩
  case emptied =>
    intro hnil key hkey
    unfold ShardTable.read
    rw [ShardTable.lookup_withShard, if_pos (Fin.ext hkey),
      hdone (by rw [hnil]; decide) key (Nat.zero_le _)]
    rfl

end Tables

end MCache.Store
