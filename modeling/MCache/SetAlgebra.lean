import MCache.CollectionInvariants

/-!
# Union, intersection and difference of sets

`SUnion`, `SInter` and `SDiff` look for the set of a key in all shards, while
`SMembers` looks in the shard of the key.  A key has its set in no other shard,
so the three agree with `SMembers`.  `Inter` passes over the smallest set by its
address, which changes nothing: the elements it goes through are in that set.
-/

namespace MCache.Store

section Pointers

variable {P : Type}

end Pointers

namespace Cache

end Cache

theorem findSome?_single {β : Type} {n : ℕ} {f : Fin n → Option β} (i : Fin n)
    (hother : ∀ j, j ≠ i → f j = none) : (List.finRange n).findSome? f = f i := by
  cases hi : f i with
  | none =>
    rw [List.findSome?_eq_none_iff]
    intro j _
    by_cases hj : j = i
    · rw [hj, hi]
    · exact hother j hj
  | some b =>
    rw [List.findSome?_eq_some_iff]
    obtain ⟨before, after, hsplit⟩ := List.append_of_mem (List.mem_finRange i)
    refine ⟨before, i, after, hsplit, hi, fun j hj => hother j ?_⟩
    rintro rfl
    have hnodup := List.nodup_finRange n
    rw [hsplit] at hnodup
    exact (List.nodup_append.mp hnodup).2.2 j hj j List.mem_cons_self rfl

section Members

variable {c : Cache}

def Cache.members (c : Cache) (key : Bytes) : List Bytes :=
  (c.table.shard key).collections.sMembers key

theorem Cache.sMembers_open (hopen : c.closed = false) {key : Bytes} (hkey : key ≠ []) :
    c.sMembers key = .ok (c.members key) := by
  rw [Cache.sMembers, Cache.onShard_open hopen hkey]
  rfl

theorem Cache.findSet_eq (hreach : store.Reachable c) (key : Bytes) :
    c.findSet key = (c.table.shard key).collections.sets.lookup key := by
  apply findSome?_single (c.table.index key)
  intro i hi
  rw [AList.lookup_eq_none]
  intro hmem
  exact hi (store_eachStores keys_routed hreach i key (.inl hmem)).1.symm

theorem Cache.members_nodup (hreach : store.Reachable c) (key : Bytes) : (c.members key).Nodup :=
  (store_eachStores sets_nodup hreach (c.table.index key)).getD_nodup key

end Members

section Results

theorem mem_setAdd {s elems : List Bytes} {e : Bytes} : e ∈ setAdd s elems ↔ e ∈ s ∨ e ∈ elems := by
  unfold setAdd
  induction elems generalizing s with
  | nil => simp
  | cons first rest ih =>
    rw [List.foldl_cons, ih, List.mem_cons]
    split_ifs with hmem
    · constructor
      · rintro (hs | hrest)
        · exact .inl hs
        · exact .inr (.inr hrest)
      · rintro (hs | rfl | hrest)
        · exact .inl hs
        · exact .inl hmem
        · exact .inr hrest
    · rw [List.mem_append, List.mem_singleton, or_assoc]

theorem setUnion_nodup (sets : List (List Bytes)) : (setUnion sets).Nodup := by
  have hfold (s : List Bytes) (hs : s.Nodup) : (sets.foldl setAdd s).Nodup := by
    induction sets generalizing s with
    | nil => exact hs
    | cons first rest ih => exact ih _ (setAdd_nodup hs first)
  exact hfold [] List.nodup_nil

theorem mem_setUnion {sets : List (List Bytes)} {e : Bytes} :
    e ∈ setUnion sets ↔ ∃ s ∈ sets, e ∈ s := by
  have hfold (s : List Bytes) : e ∈ sets.foldl setAdd s ↔ e ∈ s ∨ ∃ s ∈ sets, e ∈ s := by
    induction sets generalizing s with
    | nil => simp
    | cons first rest ih => simp [ih, mem_setAdd, or_assoc]
  rw [setUnion, hfold]
  simp

theorem smallest_mem (least : List Bytes) (rest : List (List Bytes)) :
    smallest least rest ∈ least :: rest := by
  induction rest generalizing least with
  | nil => exact List.mem_singleton_self least
  | cons s rest ih =>
    have htail := ih (if s.length < least.length then s else least)
    rw [smallest]
    split_ifs at htail ⊢ <;> simp at htail ⊢ <;> tauto

theorem mem_setInter {s : List Bytes} {rest : List (List Bytes)} {e : Bytes} :
    e ∈ setInter (s :: rest) ↔ ∀ other ∈ s :: rest, e ∈ other := by
  rw [setInter, List.mem_filter, decide_eq_true_iff]
  exact ⟨fun h => h.2, fun h => ⟨h _ (smallest_mem s rest), h⟩⟩

theorem setInter_nodup {sets : List (List Bytes)} (hsets : ∀ s ∈ sets, s.Nodup) :
    (setInter sets).Nodup := by
  cases sets with
  | nil => exact List.nodup_nil
  | cons s rest => exact (hsets _ (smallest_mem s rest)).filter _

theorem mem_setDiff {s : List Bytes} {rest : List (List Bytes)} {e : Bytes} :
    e ∈ setDiff (s :: rest) ↔ e ∈ s ∧ ∀ other ∈ rest, e ∉ other := by
  rw [setDiff, List.mem_filter, decide_eq_true_iff]

end Results

structure Cache.SetAlgebraExact (c : Cache) (key : Bytes) (keys : List Bytes) : Prop where
  members : ∀ k ∈ key :: keys, c.sMembers k = .ok (c.members k)
  union : ∃ found, c.sUnion (key :: keys) = .ok found ∧ found.Nodup ∧
    ∀ e, e ∈ found ↔ ∃ k ∈ key :: keys, e ∈ c.members k
  inter : ∃ found, c.sInter (key :: keys) = .ok found ∧ found.Nodup ∧
    ∀ e, e ∈ found ↔ ∀ k ∈ key :: keys, e ∈ c.members k
  diff : ∃ found, c.sDiff (key :: keys) = .ok found ∧ found.Nodup ∧
    ∀ e, e ∈ found ↔ e ∈ c.members key ∧ ∀ k ∈ keys, e ∉ c.members k

section Exact

variable {c : Cache}

variable (hreach : store.Reachable c)
include hreach

theorem Cache.mem_union_iff (keys : List Bytes) (e : Bytes) :
    e ∈ setUnion (keys.filterMap c.findSet) ↔ ∃ k ∈ keys, e ∈ c.members k := by
  rw [mem_setUnion]
  simp only [List.mem_filterMap, c.findSet_eq hreach]
  constructor
  · rintro ⟨s, ⟨k, hk, hs⟩, he⟩
    refine ⟨k, hk, ?_⟩
    rw [Cache.members, Collections.sMembers, hs]
    exact he
  · rintro ⟨k, hk, he⟩
    rw [Cache.members, Collections.sMembers] at he
    cases hs : (c.table.shard k).collections.sets.lookup k with
    | none => simp [hs] at he
    | some s =>
      rw [hs] at he
      exact ⟨s, ⟨k, hk, hs⟩, he⟩

theorem Cache.mapM_findSet (keys : List Bytes) : keys.mapM c.findSet = some (keys.map c.members) ∨
      keys.mapM c.findSet = none ∧ ∃ k ∈ keys, c.members k = [] := by
  induction keys with
  | nil => exact .inl rfl
  | cons key rest ih =>
    rw [List.mapM_cons, c.findSet_eq hreach]
    cases hs : (c.table.shard key).collections.sets.lookup key with
    | none =>
      refine .inr ⟨rfl, key, List.mem_cons_self, ?_⟩
      rw [Cache.members, Collections.sMembers, hs]
      rfl
    | some s =>
      have hmembers : c.members key = s := by
        rw [Cache.members, Collections.sMembers, hs]
        rfl
      rcases ih with hsome | ⟨hnone, k, hk, hempty⟩
      · refine .inl ?_
        rw [hsome, List.map_cons, hmembers]
        rfl
      · refine .inr ⟨?_, k, List.mem_cons_of_mem key hk, hempty⟩
        rw [hnone]
        rfl

theorem Cache.inter_exact (key : Bytes) (keys : List Bytes) :
    ((((key :: keys).mapM c.findSet).map setInter).getD []).Nodup ∧
      ∀ e, e ∈ (((key :: keys).mapM c.findSet).map setInter).getD [] ↔
        ∀ k ∈ key :: keys, e ∈ c.members k := by
  rcases c.mapM_findSet hreach (key :: keys) with hsome | ⟨hnone, k, hk, hempty⟩
  · rw [hsome, Option.map_some, Option.getD_some, List.map_cons]
    refine ⟨setInter_nodup ?_, fun e => ?_⟩
    · rw [← List.map_cons]
      intro s hs
      obtain ⟨k, -, rfl⟩ := List.mem_map.mp hs
      exact c.members_nodup hreach k
    · rw [mem_setInter, ← List.map_cons, List.forall_mem_map]
  · rw [hnone]
    refine ⟨List.nodup_nil, fun e => iff_of_false List.not_mem_nil fun hall => ?_⟩
    have he := hall k hk
    rw [hempty] at he
    exact List.not_mem_nil he

theorem Cache.setAlgebraExact_of_open (hopen : c.closed = false)
    {key : Bytes} {keys : List Bytes} (hkeys : ∀ k ∈ key :: keys, k ≠ []) :
    c.SetAlgebraExact key keys where
  members := fun k hk => Cache.sMembers_open hopen (hkeys k hk)
  union := by
    refine ⟨_, if_neg (by simp [hopen]), setUnion_nodup _, ?_⟩
    exact c.mem_union_iff hreach (key :: keys)
  inter := ⟨_, if_neg (by simp [hopen]), c.inter_exact hreach key keys⟩
  diff := by
    have hmembers : ((key :: keys).map fun k => (c.findSet k).getD []) =
        c.members key :: keys.map c.members := by
      simp only [c.findSet_eq hreach]
      rfl
    refine ⟨_, if_neg (by simp [hopen]), ?_, fun e => ?_⟩
    · rw [hmembers]
      exact (c.members_nodup hreach key).filter _
    · rw [hmembers, mem_setDiff, List.forall_mem_map]

end Exact

theorem set_algebra_exact {c : Cache} (hreach : store.Reachable c) {key : Bytes}
    {keys : List Bytes} (hkeys : ∀ k ∈ key :: keys, k ≠ []) :
    c.SetAlgebraExact key keys ∨
      c.closed = true ∧ (∀ k ∈ key :: keys, c.sMembers k = .error .cacheClosed) ∧
        c.sUnion (key :: keys) = .error .cacheClosed ∧
        c.sInter (key :: keys) = .error .cacheClosed ∧
        c.sDiff (key :: keys) = .error .cacheClosed := by
  cases hclosed : c.closed with
  | false => exact .inl (Cache.setAlgebraExact_of_open hreach hclosed hkeys)
  | true =>
    refine .inr ⟨rfl, fun k _ => ?_, if_pos hclosed, if_pos hclosed, if_pos hclosed⟩
    rw [Cache.sMembers, Cache.onShard, if_pos hclosed]

theorem set_algebra_exact_migrating : ∃ c, store.Reachable c ∧ c.migration.isSome = true ∧
      c.members [97] = [[1], [2], [3]] ∧ c.members [98] = [[3], [2]] ∧
      c.SetAlgebraExact [97] [[98], [97], [99]] := by
  have hrun : (store.runBy (fun _ _ => True) oneShard
      [⟨.set [97] (some [1]) none, .asStored, still 1⟩, ⟨.resize 2, .asStored, still 1⟩,
        ⟨.collection [97] (.sAdd [[1], [2], [3], [1]]), .asStored, still 1⟩,
        ⟨.collection [98] (.sAdd [[3], [2]]), .asStored, still 1⟩]).map (fun c =>
        (c.migration.isSome, c.closed, c.members [97], c.members [98])) =
      some (true, false, [[1], [2], [3]], [[3], [2]]) := by
    decide +kernel
  rcases TransitionSystem.exists_reachableBy oneShard_init hrun with ⟨c, hreach, hfacts⟩
  simp only [Prod.mk.injEq] at hfacts
  obtain ⟨hmigrating, hopen, hfirst, hsecond⟩ := hfacts
  refine ⟨c, hreach, hmigrating, hfirst, hsecond, ?_⟩
  rcases set_algebra_exact hreach (show ∀ k ∈ [[97], [98], [97], [99]], k ≠ [] by decide)
    with hexact | ⟨hclosed, -⟩
  · exact hexact
  · rw [hopen] at hclosed
    cases hclosed

end MCache.Store
