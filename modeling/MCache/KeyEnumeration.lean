import MCache.CollectionInvariants

/-!
# Enumeration of the keys

`Keys` lists the live strings of every sub-shard and the names of the sets,
hashes and lists of every shard, each of them by itself.  With the pattern `*`
it names a key as often as there are stores that hold it, and a key with a
separator not at all.
-/

namespace MCache.Store

section Counting

variable {V : Type} {n : ℕ}

theorem count_flatMap_single {f : Fin n → List Bytes} {key : Bytes} (i : Fin n)
    (hother : ∀ j, j ≠ i → key ∉ f j) :
    ((List.finRange n).flatMap f).count key = (f i).count key := by
  rw [List.count_flatMap]
  calc ((List.finRange n).map (List.count key ∘ f)).sum
      = ∑ j, (f j).count key := (Fin.sum_univ_def _).symm
    _ = (f i).count key :=
        Finset.sum_eq_single i (fun j _ hj => List.count_eq_zero.mpr (hother j hj))
          fun hi => absurd (Finset.mem_univ i) hi

theorem KeyOrder.count_filter (order : KeyOrder) (m : AList fun _ : Bytes => V)
    (p : Bytes → Bool) (key : Bytes) :
    ((order.arrange m.keys).filter p).count key = if p key ∧ key ∈ m then 1 else 0 := by
  have hcount : (order.arrange m.keys).count key = if key ∈ m then 1 else 0 := by
    rw [(order.perm m.keys).count_eq, m.keys_nodup.count]
    simp only [AList.mem_keys]
  by_cases hp : p key = true
  · rw [List.count_filter hp, hcount]
    simp [hp]
  · rw [List.count_eq_zero.mpr fun hmem => hp (List.mem_filter.mp hmem).2]
    simp [hp]

end Counting

def Shard.holders (s : Shard) (key : Bytes) (now : ℤ) : ℕ :=
  (s.holdsString key now).toNat + (decide (key ∈ s.collections.sets)).toNat +
    (decide (key ∈ s.collections.hashes)).toNat +
    (decide (key ∈ s.collections.lists)).toNat

section Shards

variable {s : Shard} {key : Bytes} {route : Bytes → Prop}

theorem Shard.keyExists_iff_holders (now : ℤ) :
    s.keyExists key now = true ↔ 0 < s.holders key now := by
  unfold Shard.keyExists Shard.holders
  cases s.holdsString key now <;> by_cases hset : key ∈ s.collections.sets <;>
    by_cases hhash : key ∈ s.collections.hashes <;>
    by_cases hlist : key ∈ s.collections.lists <;> simp [hset, hhash, hlist]

theorem Shard.strings_count (hrouted : s.Each Routed route) (order : KeyOrder)
    (clock : Clock) (pattern : Bytes) :
    ((List.finRange s.numSubs).flatMap fun i =>
      (order.arrange (s.subs i).entries.keys).filter fun key =>
        ((s.subs i).entries.lookup key).any (fun e => !e.isExpired (clock .current key)) &&
        Glob.pathMatch pattern key).count key =
      if Glob.pathMatch pattern key then
        (s.holdsString key (clock .current key)).toNat else 0 := by
  rw [count_flatMap_single (s.subIndex key), KeyOrder.count_filter]
  · unfold Shard.holdsString Shard.lookup
    simp only [← AList.lookup_isSome]
    cases (s.subs (s.subIndex key)).entries.lookup key with
    | none => simp
    | some e =>
      rw [Option.any_some]
      cases e.isExpired (clock .current key) <;> simp
  · intro j hj hmem
    have hkey : key ∈ (s.subs j).entries :=
      AList.mem_keys.mp ((order.perm _).mem_iff.mp (List.mem_filter.mp hmem).1)
    exact hj (hrouted j key hkey).2.symm

theorem Shard.matchKeys_count (hrouted : s.Each Routed route) (order : KeyOrder)
    (clock : Clock) (pattern : Bytes) :
    (s.matchKeys order clock pattern).count key =
      if Glob.pathMatch pattern key then s.holders key (clock .current key) else 0 := by
  unfold Shard.matchKeys Shard.holders
  rw [List.count_append, List.count_append, List.count_append,
    Shard.strings_count hrouted, KeyOrder.count_filter, KeyOrder.count_filter,
    KeyOrder.count_filter]
  cases Glob.pathMatch pattern key <;> by_cases hset : key ∈ s.collections.sets <;>
    by_cases hhash : key ∈ s.collections.hashes <;>
    by_cases hlist : key ∈ s.collections.lists <;> simp [hset, hhash, hlist]

end Shards

def Cache.listed (c : Cache) (order : KeyOrder) (clock : Clock) (pattern : Bytes) : List Bytes :=
  match c.keys order clock pattern with
  | .ok found => found
  | .error _ => []

section Keys

variable {c : Cache} {key : Bytes}

theorem ShardTable.holders_of_ne (hrouted : c.table.Each Routed)
    (hstores : c.table.EachStores fun route s => ∀ key, s.Has key → route key)
    {i : Fin (2 ^ c.table.bits)} (hi : i ≠ c.table.index key) (now : ℤ) :
    (c.table.shards i).holders key now = 0 := by
  by_contra hpos
  have hexists := (Shard.keyExists_iff_holders now).mpr (Nat.pos_of_ne_zero hpos)
  have hindex : c.table.index key = i := by
    unfold Shard.keyExists Shard.holdsString at hexists
    simp only [Bool.or_eq_true, decide_eq_true_eq] at hexists
    rcases hexists with ((hstring | hset) | hhash) | hlist
    · obtain ⟨e, he, -⟩ := (Option.any_eq_true _ _).mp hstring
      exact Shard.route_of_lookup (hrouted i) he
    · exact (hstores i key (.inl hset)).1
    · exact (hstores i key (.inr (.inl hhash))).1
    · exact (hstores i key (.inr (.inr hlist))).1
  exact hi hindex.symm

theorem Cache.keys_count (hreach : store.Reachable c) (hopen : c.closed = false)
    (order : KeyOrder) (clock : Clock) (pattern : Bytes) :
    (c.listed order clock pattern).count key =
      if Glob.pathMatch pattern key then
        (c.table.shard key).holders key (clock .current key) else 0 := by
  have hrouted := (store_routed hreach).table
  have hstores := store_eachStores keys_routed hreach
  have hkeys : c.listed order clock pattern = (List.finRange (2 ^ c.table.bits)).flatMap
      fun i => (c.table.shards i).matchKeys order clock pattern := by
    simp [Cache.listed, Cache.keys, hopen]
  rw [hkeys, count_flatMap_single (c.table.index key),
    Shard.matchKeys_count (hrouted (c.table.index key))]
  · rfl
  · intro i hi
    rw [← List.count_eq_zero, Shard.matchKeys_count (hrouted i),
      ShardTable.holders_of_ne hrouted hstores hi, ite_self]

theorem Cache.holders_empty (hreach : store.Reachable c) (now : ℤ) :
    (c.table.shard []).holders [] now = 0 := by
  by_contra hpos
  have hexists := (Shard.keyExists_iff_holders now).mpr (Nat.pos_of_ne_zero hpos)
  have hstores := store_eachStores keys_routed hreach (c.table.index [])
  unfold Shard.keyExists Shard.holdsString at hexists
  simp only [Bool.or_eq_true, decide_eq_true_eq] at hexists
  rcases hexists with ((hstring | hset) | hhash) | hlist
  · obtain ⟨e, he, -⟩ := (Option.any_eq_true _ _).mp hstring
    exact (store_no_empty_key hreach).table e he
  · exact (hstores [] (.inl hset)).2 rfl
  · exact (hstores [] (.inr (.inl hhash))).2 rfl
  · exact (hstores [] (.inr (.inr hlist))).2 rfl

theorem Cache.keyExists_iff (hreach : store.Reachable c) (hopen : c.closed = false)
    (clock : Clock) :
    c.keyExists clock key = .ok true ↔
      0 < (c.table.shard key).holders key (clock .current key) := by
  by_cases hkey : key = []
  · subst hkey
    have hrefused : c.keyExists clock [] = .error .keyEmpty := by
      simp [Cache.keyExists, Cache.readShard, Cache.onShard, hopen]
    rw [hrefused, Cache.holders_empty hreach]
    simp
  · rw [Cache.keyExists, Cache.readShard_open hopen hkey, Except.ok.injEq,
      Shard.keyExists_iff_holders]

end Keys

theorem Glob.pathMatch_star (key : Bytes) :
    Glob.pathMatch [Glob.star] key = decide (Glob.separator ∉ key) := rfl

def Cache.KeysExact (c : Cache) (clock : Clock) : Prop :=
  ∀ order key, (c.listed order clock [Glob.star]).count key =
    if c.keyExists clock key = .ok true then 1 else 0

theorem keys_exact_iff {c : Cache} (hreach : store.Reachable c) (clock : Clock) :
    c.KeysExact clock ↔ ∀ key, c.keyExists clock key = .ok true → Glob.separator ∉ key ∧
        (c.table.shard key).holders key (clock .current key) = 1 := by
  by_cases hopen : c.closed = false
  · refine ⟨fun hexact key hexists => ?_, fun hkeys order key => ?_⟩
    · have hcount := hexact .asStored key
      rw [if_pos hexists, Cache.keys_count hreach hopen, Glob.pathMatch_star] at hcount
      split_ifs at hcount with hmatch
      exact ⟨of_decide_eq_true hmatch, hcount⟩
    · rw [Cache.keys_count hreach hopen, Glob.pathMatch_star]
      by_cases hexists : c.keyExists clock key = .ok true
      · obtain ⟨hseparator, hone⟩ := hkeys key hexists
        rw [if_pos hexists, if_pos (decide_eq_true hseparator), hone]
      · have hnone := mt (Cache.keyExists_iff hreach hopen clock).mpr hexists
        rw [if_neg hexists, Nat.eq_zero_of_not_pos hnone, ite_self]
  · rw [Bool.not_eq_false] at hopen
    have hrefused (key : Bytes) : c.keyExists clock key = .error .cacheClosed := by
      simp [Cache.keyExists, Cache.readShard, Cache.onShard, hopen]
    refine iff_of_true (fun order key => ?_) fun key hexists => ?_
    · rw [hrefused key]
      simp [Cache.listed, Cache.keys, hopen]
    · rw [hrefused key] at hexists
      cases hexists

theorem Cache.collection_lookup (c : Cache) (key : Bytes) (cmd : CollectionCommand) :
    (c.collection key cmd).1.table.lookup = c.table.lookup := by
  unfold Cache.collection Cache.onShard
  split_ifs
  · rfl
  · rfl
  · funext other
    rw [ShardTable.lookup_withShard]
    split_ifs with hindex
    · change (c.table.shards (c.table.index key)).lookup other =
        (c.table.shards (c.table.index other)).lookup other
      rw [hindex]
    · rfl

def threeKeys : Cache :=
  let c := { Cache.ofDefaults with table := Cache.ofDefaults.table.set [97] [1] 0 1 }
  ((c.collection [98] (.sAdd [[1]])).1.collection [99] (.rPush [[1]])).1

theorem threeKeys_reachable : store.Reachable threeKeys := ((reachable_ofDefaults.next
    (a := ⟨.set [97] (some [1]) none, .asStored, still 1⟩) rfl).next
    (a := ⟨.collection [98] (.sAdd [[1]]), .asStored, still 1⟩) rfl).next
    (a := ⟨.collection [99] (.rPush [[1]]), .asStored, still 1⟩) rfl

theorem threeKeys_holders {key : Bytes} (hkey : key ∉ [[97], [98], [99]]) (now : ℤ) :
    (threeKeys.table.shard key).holders key now = 0 := by
  simp only [List.mem_cons, List.not_mem_nil, or_false, not_or] at hkey
  have hlookup : threeKeys.table.lookup key = none := by
    rw [threeKeys, Cache.collection_lookup, Cache.collection_lookup,
      ShardTable.set_lookup _ rfl, Function.update_of_ne hkey.1]
    rfl
  have hcontent : threeKeys.table.content key = (none, none, none) := by
    rw [threeKeys, Cache.collection_content_ne hkey.2.2, Cache.collection_content_ne hkey.2.1]
    have havoids : (Command.set [97] (some [1]) none).avoids key = true := decide_eq_true hkey.1
    exact (Cache.content_apply (c := .ofDefaults) (a := ⟨_, .asStored, still 1⟩) havoids
      rfl).elim id id
  have hnone := mt (Collections.has_iff_content _ key).mp (not_not_intro hcontent)
  simp only [Collections.Has, not_or] at hnone
  change (threeKeys.table.shard key).lookup key = none at hlookup
  simp [Shard.holders, Shard.holdsString, hlookup, hnone]

theorem keys_exact_iff_threeKeys : threeKeys.KeysExact (still 1) := by
  refine (keys_exact_iff threeKeys_reachable (still 1)).mpr fun key hexists => ?_
  by_cases hkey : key ∈ [[97], [98], [99]]
  · simp only [List.mem_cons, List.not_mem_nil, or_false] at hkey
    rcases hkey with rfl | rfl | rfl
    all_goals exact ⟨by decide, by decide +kernel⟩
  · rw [Cache.keyExists_iff threeKeys_reachable rfl, threeKeys_holders hkey] at hexists
    exact absurd hexists (by decide)

def keysAfter (commands : List CacheAction) (key : Bytes) :
    Option (Bool × Except CacheError Bool × List Bytes) :=
  (store.runFrom oneShard commands).map fun c =>
    (c.migration.isNone, c.keyExists (still 1) key, c.listed .asStored (still 1) [Glob.star])

theorem keys_twice_and_missing : keysAfter [⟨.set [97] (some [1]) none, .asStored, still 1⟩,
        ⟨.collection [97] (.sAdd [[1]]), .asStored, still 1⟩] [97] =
      some (true, .ok true, [[97], [97]]) ∧
    keysAfter [⟨.set [97, 47, 98] (some [1]) none, .asStored, still 1⟩] [97, 47, 98] =
      some (true, .ok true, []) := by
  decide +kernel

end MCache.Store
