import MCache.SubShardInvariant

/-!
# The contents of a table

`lookup` is what a table holds under a key.  On unbounded tables every
operation is described by its effect on `lookup`: a store and a deletion
update it at one point, a read and a cleanup drop expired entries, and
`ExtractN` takes out some entries of one shard.
-/

namespace MCache.Store

variable {sub : SubShard} {key : Bytes} {s : Shard} {taken : EntryList}
    {route : Bytes → Prop} {slots i : ℕ}

def Routed : SubShardProperty := fun route _ sub =>
  ∀ key, key ∈ sub.entries → route key

theorem SubShard.lookup_evictLoop (cap fuel : ℕ) (sub : SubShard) (key : Bytes) :
    (SubShard.evictLoop cap fuel sub).1.entries.lookup key =
      if key ∈ (SubShard.evictLoop cap fuel sub).2 then none
      else sub.entries.lookup key := by
  induction fuel generalizing sub with
  | zero => rfl
  | succ fuel ih =>
    rw [SubShard.evictLoop]
    by_cases hover : 0 < cap ∧ cap < sub.entries.keys.length
    · rw [if_pos hover]
      split
      · rfl
      · next policy victim _ =>
          dsimp only
          rw [ih]
          by_cases hvictim : key = victim
          · subst hvictim
            rw [if_pos List.mem_cons_self, AList.lookup_erase, ite_self]
          · simp only [List.mem_cons, hvictim, false_or, AList.lookup_erase_ne hvictim]
    · rw [if_neg hover]
      rfl

theorem SubShard.lookup_set (sub : SubShard) (cap : ℕ) (stored value : Bytes)
    (ttl now : ℤ) (key : Bytes) :
    (sub.set cap stored value ttl now).1.entries.lookup key =
      if key ∈ (sub.set cap stored value ttl now).2 then none
      else if key = stored then some (newEntry now value ttl)
      else sub.entries.lookup key := by
  have hinsert : (sub.entries.insert stored (newEntry now value ttl)).lookup key =
      if key = stored then some (newEntry now value ttl)
      else sub.entries.lookup key := by
    split_ifs with hkey
    · subst hkey
      exact AList.lookup_insert _
    · exact AList.lookup_insert_ne hkey
  rw [← hinsert, SubShard.set]
  by_cases hmem : stored ∈ sub.entries
  · rw [if_pos hmem]
    rfl
  · rw [if_neg hmem]
    exact SubShard.lookup_evictLoop cap _ _ key

theorem SubShard.mem_of_mem_set {cap : ℕ} {value other : Bytes} {ttl now : ℤ}
    (hmem : other ∈ (sub.set cap key value ttl now).1.entries) :
    other = key ∨ other ∈ sub.entries := by
  rw [← AList.lookup_isSome, SubShard.lookup_set] at hmem
  split_ifs at hmem with hevicted hkey
  · cases hmem
  · exact .inl hkey
  · exact .inr (AList.lookup_isSome.mp hmem)

theorem routed_invariant : SubShardInvariant (fun _ => True) Routed where
  new := fun _ _ _ _ _ hmem => absurd hmem (AList.notMem_empty _)
  set := by
    intro route cap sub key value ttl now h hroute other hmem
    rcases SubShard.mem_of_mem_set hmem with rfl | hold
    · exact hroute
    · exact h other hold
  remove := fun _ h other hmem => h other (AList.mem_erase.mp hmem).2
  update := by
    intro route cap sub key e h hkey other hmem
    rcases (AList.mem_insert _).mp hmem with rfl | hold
    · exact h other hkey
    · exact h other hold
  swapPolicy := fun _ _ _ h => h

theorem store_each {c : Cache} {Q : SubShardProperty}
    (hQ : SubShardInvariant (fun _ => True) Q) (hreach : store.Reachable c) :
    c.Each (fun _ => True) Q := by
  apply hreach.invariant
  · rintro c ⟨opts, hnew⟩
    exact hQ.new_each hnew trivial
  · intro c a next h _ hstep
    apply hQ.apply_each h _ hstep
    cases a.command <;> simp [Command.Uses]

theorem store_routed {c : Cache} (hreach : store.Reachable c) : c.Each (fun _ => True) Routed :=
  store_each routed_invariant hreach

def Shard.lookup (s : Shard) (key : Bytes) : Option CacheEntry :=
  (s.subs (s.subIndex key)).entries.lookup key

def Cache.tables (c : Cache) : List ShardTable := c.table :: (c.migration.map Migration.old).toList

def ShardTable.lookup (t : ShardTable) (key : Bytes) : Option CacheEntry := (t.shard key).lookup key

theorem Shard.lookup_withSub (s : Shard) (j : Fin s.numSubs) (sub : SubShard) (key : Bytes) :
    (s.withSub j sub).lookup key =
      if s.subIndex key = j then sub.entries.lookup key else s.lookup key := by
  change (Function.update s.subs j sub (s.subIndex key)).entries.lookup key = _
  split_ifs with hj
  · subst j
    rw [Function.update_self]
  · rw [Function.update_of_ne hj]
    rfl

theorem ShardTable.lookup_withShard (t : ShardTable) (i : Fin (2 ^ t.bits))
    (s : Shard) (key : Bytes) :
    (t.withShard i s).lookup key =
      if t.index key = i then s.lookup key else t.lookup key := by
  change (Function.update t.shards i s (t.index key)).lookup key = _
  split_ifs with hi
  · subst i
    rw [Function.update_self]
  · rw [Function.update_of_ne hi]
    rfl

theorem ShardTable.lookup_withShard_self (t : ShardTable) (key : Bytes)
    (s : Shard) : (t.withShard (t.index key) s).lookup key = s.lookup key := by
  rw [ShardTable.lookup_withShard, if_pos rfl]

theorem ShardTable.shard_withShard (t : ShardTable) (key : Bytes) (s : Shard) :
    (t.withShard (t.index key) s).shard key = s :=
  Function.update_self _ _ _

theorem Shard.lookup_withSub_key (s : Shard) {o : Option CacheEntry}
    (hself : sub.entries.lookup key = o)
    (hother : ∀ other, other ≠ key → sub.entries.lookup other =
      (s.subs (s.subIndex key)).entries.lookup other) :
    (s.withSub (s.subIndex key) sub).lookup = Function.update s.lookup key o := by
  funext other
  rw [Shard.lookup_withSub]
  by_cases hne : other = key
  · subst other
    rw [if_pos rfl, Function.update_self, hself]
  · rw [Function.update_of_ne hne]
    split_ifs with hsub
    · rw [hother other hne, Shard.lookup, hsub]
    · rfl

theorem ShardTable.lookup_withShard_key (t : ShardTable) {o : Option CacheEntry}
    (hs : s.lookup = Function.update (t.shard key).lookup key o) :
    (t.withShard (t.index key) s).lookup = Function.update t.lookup key o := by
  funext other
  rw [ShardTable.lookup_withShard, hs]
  by_cases hne : other = key
  · subst other
    rw [if_pos rfl, Function.update_self, Function.update_self]
  · rw [Function.update_of_ne hne, Function.update_of_ne hne]
    split_ifs with hi
    · rw [ShardTable.lookup, ShardTable.shard, ShardTable.shard, hi]
    · rfl

def Shard.Unbounded (s : Shard) : Prop := s.numSubs = subShardsPerShard ∧ s.maxSubSize = 0

theorem newShard_unbounded (kind : PolicyKind) : (newShard kind 0).Unbounded := ⟨rfl, rfl⟩

theorem SubShard.del_entries (sub : SubShard) (key : Bytes) :
    (sub.del key).entries = sub.entries.erase key := by
  unfold SubShard.del
  split_ifs with hmem
  · rfl
  · apply AList.ext
    symm
    exact List.kerase_of_notMem_keys hmem

abbrev ShardTable.Beside (t : ShardTable) (key other : Bytes) : Prop :=
  t.index key = t.index other ∧ (t.shard other).subIndex key = (t.shard other).subIndex other

def ShardTable.evictedBy (t : ShardTable) (key value : Bytes) (ttl now : ℤ) : List Bytes :=
  ((t.shard key).set key value ttl now).2

theorem ShardTable.lookup_set (t : ShardTable) (stored value : Bytes) (ttl now : ℤ) (key : Bytes) :
    (t.set stored value ttl now).lookup key =
      if t.Beside key stored ∧ key ∈ t.evictedBy stored value ttl now then none
      else if key = stored then some (newEntry now value ttl)
      else t.lookup key := by
  unfold ShardTable.set ShardTable.evictedBy
  rw [ShardTable.lookup_withShard]
  by_cases hshard : t.index key = t.index stored
  · have hsame : t.shard key = t.shard stored := by
      rw [ShardTable.shard, ShardTable.shard, hshard]
    rw [if_pos hshard, Shard.set, Shard.lookup_withSub, ShardTable.lookup, hsame, Shard.lookup]
    by_cases hsub : (t.shard stored).subIndex key = (t.shard stored).subIndex stored
    · simp only [SubShard.lookup_set, ShardTable.Beside, hshard, hsub, if_true, and_self, true_and]
    · have hkey : key ≠ stored := fun hkey => hsub (hkey ▸ rfl)
      rw [if_neg hsub, if_neg (fun h => hsub h.1.2), if_neg hkey]
  · have hkey : key ≠ stored := fun hkey => hshard (hkey ▸ rfl)
    rw [if_neg hshard, if_neg (fun h => hshard h.1.1), if_neg hkey]

theorem ShardTable.evictedBy_unbounded (t : ShardTable)
    (hcap : (t.shard key).maxSubSize = 0) (value : Bytes) (ttl now : ℤ) :
    t.evictedBy key value ttl now = [] := by
  unfold ShardTable.evictedBy Shard.set SubShard.set
  rw [hcap]
  split_ifs
  · rfl
  · simp [SubShard.evictLoop]

theorem ShardTable.set_lookup (t : ShardTable) (hcap : (t.shard key).maxSubSize = 0)
    (value : Bytes) (ttl now : ℤ) :
    (t.set key value ttl now).lookup =
      Function.update t.lookup key (some (newEntry now value ttl)) := by
  funext other
  simp only [t.lookup_set, t.evictedBy_unbounded hcap, List.not_mem_nil, and_false,
    if_false, Function.update_apply]

theorem ShardTable.del_lookup (t : ShardTable) (key : Bytes) :
    (t.del key).lookup = Function.update t.lookup key none := by
  apply t.lookup_withShard_key
  apply Shard.lookup_withSub_key
  · rw [SubShard.del_entries, AList.lookup_erase]
  · intro other hne
    rw [SubShard.del_entries, AList.lookup_erase_ne hne]

theorem ShardTable.get_value (t : ShardTable) (key : Bytes) (now again : ℤ) :
    (t.get key now again).2 = ((t.lookup key).filter fun e => !e.isExpired now).map
        CacheEntry.value := by
  change (((t.shard key).subs ((t.shard key).subIndex key)).get key now again).2 = _
  unfold SubShard.get ShardTable.lookup Shard.lookup
  cases ((t.shard key).subs ((t.shard key).subIndex key)).entries.lookup key with
  | none => rfl
  | some e =>
    dsimp only
    split_ifs with hexpired <;> simp [Option.filter, hexpired]

theorem ShardTable.get_lookup_readings (t : ShardTable) (key : Bytes) (now again : ℤ) :
    (t.get key now again).1.lookup = Function.update t.lookup key ((t.lookup key).filter fun e =>
          !(e.isExpired now && e.isExpired again)) := by
  apply t.lookup_withShard_key
  apply Shard.lookup_withSub_key
  · unfold SubShard.get ShardTable.lookup Shard.lookup
    cases hlookup : ((t.shard key).subs ((t.shard key).subIndex key)).entries.lookup key with
    | none => exact hlookup
    | some e =>
      dsimp only
      split_ifs with hexpired hagain
      · simp [Option.filter, hexpired, hagain, SubShard.remove]
      · simp [Option.filter, hexpired, hagain, hlookup]
      · simp [Option.filter, hexpired, hlookup]
  · intro other hne
    unfold SubShard.get
    split
    · rfl
    · split_ifs
      · exact AList.lookup_erase_ne hne
      · rfl
      · rfl

theorem ShardTable.get_lookup (t : ShardTable) (key : Bytes) (now : ℤ) :
    (t.get key now now).1.lookup = Function.update t.lookup key
        ((t.lookup key).filter fun e => !e.isExpired now) := by
  simp only [t.get_lookup_readings, Bool.and_self]

theorem SubShard.cleanup_loop_lookup (now : Bytes → ℤ) (entries : EntryList)
    (sub : SubShard) (key : Bytes) (e : CacheEntry) :
    (entries.foldl (fun sub entry =>
          if entry.2.isExpired (now entry.1) then sub.remove entry.1
          else sub) sub).entries.lookup key = some e ↔
      sub.entries.lookup key = some e ∧ ∀ entry ∈ entries, entry.1 = key →
          entry.2.isExpired (now key) = false := by
  induction entries generalizing sub with
  | nil => simp
  | cons entry rest ih =>
    rw [List.foldl_cons, ih, List.forall_mem_cons]
    by_cases hkey : entry.1 = key
    · subst key
      cases hexpired : entry.2.isExpired (now entry.1) with
      | true => simp [SubShard.remove]
      | false => simp
    · have hsub : (if entry.2.isExpired (now entry.1) then sub.remove entry.1
            else sub).entries.lookup key = sub.entries.lookup key := by
        split_ifs
        · exact AList.lookup_erase_ne (Ne.symm hkey)
        · rfl
      rw [hsub]
      simp [hkey]

theorem SubShard.cleanup_lookup (sub : SubShard) (now : Bytes → ℤ) (key : Bytes) (e : CacheEntry) :
    (sub.cleanup now).entries.lookup key = some e ↔
      sub.entries.lookup key = some e ∧ e.isExpired (now key) = false := by
  unfold SubShard.cleanup
  rw [SubShard.cleanup_loop_lookup]
  apply and_congr_right
  intro hlookup
  constructor
  · intro hlive
    exact hlive ⟨key, e⟩ (AList.mem_lookup_iff.mp hlookup) rfl
  · rintro hlive ⟨other, e'⟩ hmem rfl
    have hsome : sub.entries.lookup other = some e' := AList.mem_lookup_iff.mpr hmem
    rw [hlookup] at hsome
    cases hsome
    exact hlive

theorem ShardTable.cleanup_lookup (t : ShardTable) (now : Bytes → ℤ)
    (key : Bytes) (e : CacheEntry) :
    (t.cleanup now).lookup key = some e ↔ t.lookup key = some e ∧ e.isExpired (now key) = false :=
  SubShard.cleanup_lookup _ now key e

def Item.of (clock : Clock) (entry : Sigma fun _ : Bytes => CacheEntry) : Option Item :=
  (SubShard.remaining clock entry.1 entry.2).map fun ttl =>
    ⟨entry.1, entry.2.value, ttl⟩

theorem length_keys_erase {K V : Type} [DecidableEq K]
    (m : AList fun _ : K => V) {key : K} (hmem : key ∈ m) :
    (m.erase key).keys.length + 1 = m.keys.length := by
  rw [AList.keys_erase]
  exact List.length_erase_add_one hmem

def eraseAll (m : EntryMap) (taken : EntryList) : EntryMap :=
  taken.foldl (fun m entry => m.erase entry.1) m

theorem lookup_eraseAll (m : EntryMap) (taken : EntryList) (key : Bytes) (e : CacheEntry) :
    (eraseAll m taken).lookup key = some e ↔ m.lookup key = some e ∧ key ∉ taken.keys := by
  unfold eraseAll
  induction taken generalizing m with
  | nil => simp
  | cons entry rest ih =>
    rw [List.foldl_cons, ih, List.keys_cons, List.mem_cons, not_or]
    by_cases hkey : key = entry.1
    · subst key
      simp
    · simp [AList.lookup_erase_ne hkey, hkey]

theorem length_eraseAll (m : EntryMap) (hnodup : taken.NodupKeys)
    (hmem : ∀ entry ∈ taken, entry.1 ∈ m) :
    (eraseAll m taken).keys.length + taken.length = m.keys.length := by
  unfold eraseAll
  induction taken generalizing m with
  | nil => rfl
  | cons entry rest ih =>
    rcases List.nodupKeys_cons.mp hnodup with ⟨hfresh, hnodup⟩
    rcases List.forall_mem_cons.mp hmem with ⟨hentry, hmem⟩
    have hrest : ∀ other ∈ rest, other.1 ∈ m.erase entry.1 := by
      intro other hother
      rw [AList.mem_erase]
      refine ⟨?_, hmem other hother⟩
      intro heq
      exact hfresh (heq ▸ List.mem_keys_of_mem hother)
    have herase := length_keys_erase m hentry
    have := ih (m.erase entry.1) hnodup hrest
    rw [List.foldl_cons, List.length_cons]
    omega

theorem SubShard.extractLoop_spec (clock : Clock) (n : ℕ) (entries : EntryList)
    (sub : SubShard) (items : List Item) :
    ∃ taken rest, entries = taken ++ rest ∧ (sub.extractLoop clock n entries items).1.entries =
        eraseAll sub.entries taken ∧
      (sub.extractLoop clock n entries items).2 = items ++ taken.filterMap (Item.of clock) ∧
      (rest = [] ∨ n ≤ (sub.extractLoop clock n entries items).2.length) := by
  induction entries generalizing sub items with
  | nil => exact ⟨[], [], by simp [SubShard.extractLoop, eraseAll]⟩
  | cons entry rest ih =>
    rcases entry with ⟨key, e⟩
    unfold SubShard.extractLoop
    cases hremaining : SubShard.remaining clock key e with
    | none =>
      rcases ih (sub.remove key) items with
        ⟨taken, left, hsplit, hentries, hitems, hstop⟩
      refine ⟨⟨key, e⟩ :: taken, left, by rw [hsplit]; rfl, hentries, ?_, hstop⟩
      rw [List.filterMap_cons_none]
      · exact hitems
      · simp [Item.of, hremaining]
    | some ttl =>
      have hitem : Item.of clock ⟨key, e⟩ = some ⟨key, e.value, ttl⟩ := by
        simp [Item.of, hremaining]
      dsimp only
      split_ifs with hfull
      · exact ⟨[⟨key, e⟩], rest, rfl, rfl, by simp [hitem], .inr hfull⟩
      · rcases ih (sub.remove key) (items ++ [⟨key, e.value, ttl⟩]) with
          ⟨taken, left, hsplit, hentries, hitems, hstop⟩
        refine ⟨⟨key, e⟩ :: taken, left, by rw [hsplit]; rfl, hentries, ?_, hstop⟩
        rw [hitems, List.filterMap_cons_some hitem]
        simp

structure Shard.Extracted (s later : Shard) (taken : EntryList) : Prop where
  numSubs : later.numSubs = s.numSubs
  maxSubSize : later.maxSubSize = s.maxSubSize
  nodup : taken.NodupKeys
  found : ∀ entry ∈ taken, s.lookup entry.1 = some entry.2
  left : ∀ key e, later.lookup key = some e ↔ s.lookup key = some e ∧ key ∉ taken.keys
  size : later.size + taken.length = s.size

theorem Shard.Extracted.refl (s : Shard) : s.Extracted s [] :=
  ⟨rfl, rfl, List.nodup_nil, by simp, by simp, rfl⟩

theorem Shard.Extracted.trans {later last : Shard} {more : EntryList}
    (h : s.Extracted later taken) (h' : later.Extracted last more) :
    s.Extracted last (taken ++ more) := by
  constructor
  case numSubs => exact h'.numSubs.trans h.numSubs
  case maxSubSize => exact h'.maxSubSize.trans h.maxSubSize
  case nodup =>
    rw [List.NodupKeys, List.keys, List.map_append]
    apply h.nodup.append h'.nodup
    intro key hkey hkey'
    rcases List.mem_map.mp hkey' with ⟨entry, hentry, rfl⟩
    exact ((h.left _ _).mp (h'.found entry hentry)).2 hkey
  case found =>
    intro entry hentry
    rcases List.mem_append.mp hentry with hentry | hentry
    · exact h.found entry hentry
    · exact ((h.left _ _).mp (h'.found entry hentry)).1
  case left =>
    intro key e
    rw [h'.left, h.left, List.keys, List.map_append, List.mem_append, not_or, and_assoc]
  case size =>
    have := h.size
    have := h'.size
    rw [List.length_append]
    omega

theorem Shard.size_withSub (s : Shard) (i : Fin s.numSubs) (sub : SubShard) :
    (s.withSub i sub).size + (s.subs i).entries.keys.length = s.size + sub.entries.keys.length := by
  have hlater : (s.withSub i sub).size =
      ∑ j, (Function.update s.subs i sub j).entries.keys.length := rfl
  have hrest : ∑ j ∈ Finset.univ.erase i, (Function.update s.subs i sub j).entries.keys.length =
        ∑ j ∈ Finset.univ.erase i, (s.subs j).entries.keys.length := by
    apply Finset.sum_congr rfl
    intro j hj
    rw [Function.update_of_ne (Finset.ne_of_mem_erase hj)]
  rw [hlater, Shard.size, ← Finset.add_sum_erase _ _ (Finset.mem_univ i), hrest,
    Function.update_self, ← Finset.add_sum_erase Finset.univ
      (fun j => (s.subs j).entries.keys.length) (Finset.mem_univ i)]
  omega

theorem Shard.extracted_withSub (hrouted : s.Each Routed route) (i : Fin s.numSubs)
    {rest : EntryList} (hperm : (taken ++ rest).Perm (s.subs i).entries.entries)
    (hsub : sub.entries = eraseAll (s.subs i).entries taken) :
    s.Extracted (s.withSub i sub) taken := by
  have hnodup : taken.NodupKeys := by
    have hall : (taken ++ rest).NodupKeys :=
      (List.perm_nodupKeys hperm).mpr (s.subs i).entries.nodupKeys
    exact hall.sublist (List.sublist_append_left _ _)
  have hmem : ∀ entry ∈ taken, (s.subs i).entries.lookup entry.1 = some entry.2 := by
    intro entry hentry
    exact AList.mem_lookup_iff.mpr (hperm.subset (List.mem_append_left _ hentry))
  have hindex : ∀ entry ∈ taken, s.subIndex entry.1 = i := by
    intro entry hentry
    have hin : entry.1 ∈ (s.subs i).entries := by
      rw [← AList.lookup_isSome, hmem entry hentry]
      rfl
    exact (hrouted i entry.1 hin).2
  constructor
  case numSubs => rfl
  case maxSubSize => rfl
  case nodup => exact hnodup
  case found =>
    intro entry hentry
    rw [Shard.lookup, hindex entry hentry]
    exact hmem entry hentry
  case left =>
    intro key e
    rw [Shard.lookup_withSub]
    split_ifs with hkey
    · rw [hsub, lookup_eraseAll, Shard.lookup, hkey]
    · have hfresh : key ∉ taken.keys := by
        intro hin
        rcases List.mem_map.mp hin with ⟨entry, hentry, rfl⟩
        exact hkey (hindex entry hentry)
      simp [hfresh]
  case size =>
    have hlength := length_eraseAll (s.subs i).entries hnodup (by
      intro entry hentry
      rw [← AList.lookup_isSome, hmem entry hentry]
      rfl)
    have hsize := s.size_withSub i sub
    rw [hsub] at hsize
    omega

theorem Shard.extractFrom_relates {R : Shard → Shard → Prop} (hrefl : ∀ s, R s s)
    (htrans : ∀ {s mid later}, R s mid → R mid later → R s later)
    (hsub : ∀ (s : Shard) i sub, R s (s.withSub i sub)) {n : ℕ} {order : MapOrder}
    {clock : Clock} {items : List Item} {result : Shard × List Item}
    (hresult : s.extractFrom order clock n slots i items = some result) :
    R s result.1 := by
  induction slots generalizing s i items with
  | zero =>
    cases hresult
    exact hrefl s
  | succ slots ih =>
    unfold Shard.extractFrom at hresult
    split_ifs at hresult with hfull hslot
    · cases hresult
      exact hrefl s
    · exact htrans (hsub s ⟨i, hslot⟩ _) (ih hresult)

theorem Shard.extractSlot_spec (hrouted : s.Each Routed route) (i : Fin s.numSubs)
    (order : MapOrder) (clock : Clock) (n : ℕ) (items : List Item)
    {result : SubShard × List Item}
    (hresult : (s.subs i).extractLoop clock n
      (order.arrange (s.subs i).entries.entries) items = result) :
    ∃ taken rest, (taken ++ rest).Perm (s.subs i).entries.entries ∧
      s.Extracted (s.withSub i result.1) taken ∧
      (s.withSub i result.1).Each Routed route ∧
      result.2 = items ++ taken.filterMap (Item.of clock) ∧
      (rest = [] ∨ n ≤ result.2.length) := by
  subst hresult
  rcases SubShard.extractLoop_spec clock n
      (order.arrange (s.subs i).entries.entries) (s.subs i) items with
    ⟨taken, rest, hsplit, hentries, hitems, hstop⟩
  have hperm : (taken ++ rest).Perm (s.subs i).entries.entries := hsplit ▸ order.perm _
  refine ⟨taken, rest, hperm, s.extracted_withSub hrouted i hperm hentries, ?_, hitems, hstop⟩
  exact hrouted.withSub i (routed_invariant.removals.extractLoop (hrouted i) clock n _ items)

theorem Shard.extractFrom_taken {n : ℕ} {order : MapOrder} {clock : Clock}
    {items : List Item} {result : Shard × List Item} (hrouted : s.Each Routed route)
    (hresult : s.extractFrom order clock n slots i items = some result) :
    ∃ taken, result.2 = items ++ taken.filterMap (Item.of clock) ∧ s.Extracted result.1 taken := by
  induction slots generalizing s i items with
  | zero =>
    cases hresult
    exact ⟨[], by simp, .refl s⟩
  | succ slots ih =>
    unfold Shard.extractFrom at hresult
    split_ifs at hresult with hfull hslot
    · cases hresult
      exact ⟨[], by simp, .refl s⟩
    · rcases Shard.extractSlot_spec hrouted ⟨i, hslot⟩ order clock n items rfl with
        ⟨taken, rest, -, hextracted, hroutedNext, hitems, -⟩
      rcases ih hroutedNext hresult with ⟨more, hmore, hlater⟩
      refine ⟨taken ++ more, ?_, hextracted.trans hlater⟩
      rw [hmore, hitems, List.filterMap_append, List.append_assoc]

theorem Shard.extractFrom_spec (hrouted : s.Each Routed route)
    (hnum : s.numSubs = i + slots) (order : MapOrder) (clock : Clock) (n : ℕ)
    (items : List Item) :
    ∃ later taken, s.extractFrom order clock n slots i items =
        some (later, items ++ taken.filterMap (Item.of clock)) ∧
      s.Extracted later taken ∧
      ((items ++ taken.filterMap (Item.of clock)).length < n →
        ∀ key, i ≤ (s.subIndex key).val → later.lookup key = none) := by
  induction slots generalizing s i items with
  | zero =>
    refine ⟨s, [], by simp [Shard.extractFrom], .refl s, ?_⟩
    intro _ key hkey
    have := (s.subIndex key).isLt
    omega
  | succ slots ih =>
    unfold Shard.extractFrom
    split_ifs with hfull hslot
    · refine ⟨s, [], by simp, .refl s, ?_⟩
      intro hlt
      simp only [List.filterMap_nil, List.append_nil] at hlt
      omega
    case neg => omega
    rcases Shard.extractSlot_spec hrouted ⟨i, hslot⟩ order clock n items rfl with
      ⟨taken, rest, hperm, hextracted, hroutedNext, hitems, hstop⟩
    have hnumNext : s.numSubs = i + 1 + slots := by omega
    rcases ih hroutedNext hnumNext (items ++ taken.filterMap (Item.of clock)) with
      ⟨later, more, hlater, hmore, hdone⟩
    have hall := hextracted.trans hmore
    rw [List.append_assoc, ← List.filterMap_append] at hlater hdone
    refine ⟨later, taken ++ more, ?_, hall, ?_⟩
    · dsimp only
      rw [hitems, hlater]
    intro hlt key hkey
    rcases Nat.eq_or_lt_of_le hkey with heq | hnext
    · -- the slot of the key was emptied, as the loop did not stop in it
      have hrest : rest = [] := by
        rcases hstop with hrest | hstop
        · exact hrest
        · rw [hitems] at hstop
          rw [List.filterMap_append] at hlt
          simp only [List.length_append] at hlt hstop
          omega
      by_contra hsome
      rcases Option.ne_none_iff_exists'.mp hsome with ⟨e, hlookup⟩
      rcases (hall.left key e).mp hlookup with ⟨hfound, hfresh⟩
      apply hfresh
      have hin : (⟨key, e⟩ : Sigma fun _ : Bytes => CacheEntry) ∈
          (s.subs ⟨i, hslot⟩).entries.entries := by
        apply AList.mem_lookup_iff.mp
        have hindex : s.subIndex key = ⟨i, hslot⟩ := Fin.ext heq.symm
        rwa [Shard.lookup, hindex] at hfound
      have htaken := hperm.symm.subset hin
      rw [hrest, List.append_nil] at htaken
      exact List.mem_keys_of_mem (List.mem_append_left _ htaken)
    · exact hdone hlt key hnext

def SubShard.liveKeys (sub : SubShard) (now : Bytes → ℤ) : Finset Bytes :=
  (sub.entries.entries.filter fun entry =>
    !entry.2.isExpired (now entry.1)).keys.toFinset

theorem SubShard.card_liveKeys (sub : SubShard) (now : Bytes → ℤ) :
    (sub.liveKeys now).card = sub.len now := by
  unfold SubShard.liveKeys SubShard.len
  rw [List.toFinset_card_of_nodup, List.keys, List.length_map, List.countP_eq_length_filter]
  have hnodup := sub.entries.nodupKeys.sublist (List.filter_sublist
    (p := fun entry => !entry.2.isExpired (now entry.1)))
  exact hnodup

theorem SubShard.mem_liveKeys {now : Bytes → ℤ} : key ∈ sub.liveKeys now ↔
      ∃ e, sub.entries.lookup key = some e ∧ e.isExpired (now key) = false := by
  unfold SubShard.liveKeys
  simp only [List.mem_toFinset, List.keys, List.mem_map, List.mem_filter,
    Bool.not_eq_true', ← Option.mem_def, AList.mem_lookup_iff]
  constructor
  · rintro ⟨⟨_, e⟩, ⟨hmem, hlive⟩, rfl⟩
    exact ⟨e, hmem, hlive⟩
  · rintro ⟨e, hmem, hlive⟩
    exact ⟨⟨key, e⟩, ⟨hmem, hlive⟩, rfl⟩

def ShardTable.liveKeys (t : ShardTable) (now : Bytes → ℤ) : Finset Bytes :=
  Finset.univ.biUnion fun i =>
    Finset.univ.biUnion fun j => ((t.shards i).subs j).liveKeys now

section Routed

variable {t : ShardTable} (hrouted : t.Each Routed)

include hrouted

theorem ShardTable.lookup_eq_some_iff {key : Bytes} {e : CacheEntry} : t.lookup key = some e ↔
      ∃ i j, ((t.shards i).subs j).entries.lookup key = some e := by
  constructor
  · exact fun hlookup => ⟨_, _, hlookup⟩
  · rintro ⟨i, j, hlookup⟩
    have hmem : key ∈ ((t.shards i).subs j).entries := by
      rw [← AList.lookup_isSome, hlookup]
      rfl
    rcases hrouted i j key hmem with ⟨hi, hj⟩
    subst hi
    subst hj
    exact hlookup

theorem ShardTable.mem_liveKeys {now : Bytes → ℤ} {key : Bytes} : key ∈ t.liveKeys now ↔
      ∃ e, t.lookup key = some e ∧ e.isExpired (now key) = false := by
  simp only [ShardTable.liveKeys, Finset.mem_biUnion, Finset.mem_univ,
    true_and, SubShard.mem_liveKeys, t.lookup_eq_some_iff hrouted]
  constructor
  · rintro ⟨i, j, e, hlookup, hlive⟩
    exact ⟨e, ⟨i, j, hlookup⟩, hlive⟩
  · rintro ⟨e, ⟨i, j, hlookup⟩, hlive⟩
    exact ⟨i, j, e, hlookup, hlive⟩

theorem ShardTable.card_liveKeys (now : Bytes → ℤ) : (t.liveKeys now).card = t.len now := by
  have hroute : ∀ {i j key}, key ∈ ((t.shards i).subs j).liveKeys now →
      t.index key = i ∧ (t.shards i).subIndex key = j := by
    intro i j key hkey
    rcases SubShard.mem_liveKeys.mp hkey with ⟨e, hlookup, -⟩
    apply hrouted i j key
    rw [← AList.lookup_isSome, hlookup]
    rfl
  unfold ShardTable.liveKeys ShardTable.len
  rw [Finset.card_biUnion]
  · apply Finset.sum_congr rfl
    intro i _
    rw [Finset.card_biUnion]
    · exact Finset.sum_congr rfl fun j _ => SubShard.card_liveKeys _ now
    · intro j _ k _ hne
      apply Finset.disjoint_left.mpr
      intro key hj hk
      exact hne ((hroute hj).2.symm.trans (hroute hk).2)
  · intro i _ k _ hne
    apply Finset.disjoint_left.mpr
    intro key hi hk
    simp only [Finset.mem_biUnion, Finset.mem_univ, true_and] at hi hk
    rcases hi with ⟨j, hj⟩
    rcases hk with ⟨l, hl⟩
    exact hne ((hroute hj).1.symm.trans (hroute hl).1)

end Routed

end MCache.Store
