import MCache.CollectionQueries
import MCache.CollectionsResize
import MCache.ExpiryRules

/-!
# Empty collections

A command that takes the last element out of a collection removes the key.
The commands that add elements make the collection first and then fill it, so
one that is given no elements leaves an empty collection behind.
-/

namespace MCache.Store

variable {l kept : List Bytes} {c : Cache}

section Values

variable {K V : Type} [DecidableEq K] {P : V → Prop}
variable {m : AList fun _ : K => V}

def AllValues (P : V → Prop) (m : AList fun _ : K => V) : Prop :=
  ∀ key value, m.lookup key = some value → P value

theorem AllValues.erase (hm : AllValues P m) (key : K) : AllValues P (m.erase key) := by
  intro other value hlookup
  by_cases hkey : other = key
  · subst hkey
    rw [AList.lookup_erase] at hlookup
    cases hlookup
  · rw [AList.lookup_erase_ne hkey] at hlookup
    exact hm other value hlookup

theorem AllValues.alter_iff (hm : AllValues P m) (key : K) (f : Option V → Option V) :
    AllValues P (alter m key f) ↔ ∀ value, f (m.lookup key) = some value → P value := by
  unfold alter
  cases hf : f (m.lookup key) with
  | none => exact iff_of_true (hm.erase key) nofun
  | some new =>
    simp only [Option.some.injEq, forall_eq']
    constructor
    · intro hall
      exact hall key new (AList.lookup_insert m)
    · intro hnew other value hlookup
      by_cases hkey : other = key
      · subst hkey
        rw [AList.lookup_insert, Option.some.injEq] at hlookup
        exact hlookup ▸ hnew
      · rw [AList.lookup_insert_ne hkey] at hlookup
        exact hm other value hlookup

theorem AllValues.getD_iff {E : V → Prop} (hm : AllValues (fun v => ¬ E v) m) {d : V}
    (hd : E d) {key : K} : E ((m.lookup key).getD d) ↔ key ∉ m := by
  rw [← AList.lookup_eq_none]
  cases hlookup : m.lookup key with
  | none => exact iff_of_true hd rfl
  | some v => exact iff_of_false (hm key v hlookup) nofun

end Values

structure Collections.Filled (c : Collections) : Prop where
  sets : AllValues (· ≠ []) c.sets
  hashes : AllValues (fun h : HashValue => h.keys ≠ []) c.hashes
  lists : AllValues (· ≠ []) c.lists

theorem unlessNil_ne_nil (h : unlessNil l = some kept) : kept ≠ [] := by
  unfold unlessNil at h
  split_ifs at h with hnil
  cases h
  exact hnil

theorem bind_unlessNil_ne_nil {o : Option (List Bytes)} {f : List Bytes → List Bytes}
    (h : (o.bind fun l => unlessNil (f l)) = some kept) : kept ≠ [] := by
  rcases Option.bind_eq_some_iff.mp h with ⟨prev, -, hkept⟩
  exact unlessNil_ne_nil hkept

theorem AllValues.popped_ne_nil {m : AList fun _ : Bytes => List Bytes}
    (hm : AllValues (· ≠ []) m) {key : Bytes} {f : List Bytes → List Bytes}
    (h : ((m.lookup key).bind fun l => if l = [] then some l else unlessNil (f l)) =
      some kept) : kept ≠ [] := by
  rcases Option.bind_eq_some_iff.mp h with ⟨prev, hprev, hkept⟩
  rw [if_neg (hm key prev hprev)] at hkept
  exact unlessNil_ne_nil hkept

theorem setAdd_eq_nil_iff {s elems : List Bytes} : setAdd s elems = [] ↔ s = [] ∧ elems = [] := by
  unfold setAdd
  induction elems generalizing s with
  | nil => simp
  | cons e rest ih =>
    rw [List.foldl_cons, ih]
    split_ifs with hmem
    · have : s ≠ [] := List.ne_nil_of_mem hmem
      simp [this]
    · simp

theorem hashMSet_keys_eq_nil_iff (h : HashValue) (fvPairs : List Bytes) :
    (hashMSet h fvPairs).keys = [] ↔ h.keys = [] ∧ fvPairs.length < 2 := by
  fun_induction hashMSet h fvPairs with
  | case1 h field value rest ih =>
    rw [ih]
    simp
  | case2 fvPairs h hshort =>
    match fvPairs, hshort with
    | [], _ => simp
    | [_], _ => simp
    | field :: value :: rest, hshort => exact absurd rfl (hshort field value rest)

theorem getD_ne_nil {new : Option (List Bytes)} (hl : l ≠ [])
    (hnew : ∀ l', new = some l' → l' ≠ []) : new.getD l ≠ [] := by
  cases new with
  | none => exact hl
  | some l' => exact hnew l' rfl

theorem listLSet_ne_nil {new : List Bytes} {index : ℤ} {value : Bytes} (hl : l ≠ [])
    (h : listLSet l index value = some new) : new ≠ [] := by
  unfold listLSet at h
  dsimp only at h
  split_ifs at h
  all_goals
    cases h
    simp [hl]

theorem listLInsert_ne_nil {before : Bool} {pivot value : Bytes} {new : List Bytes}
    (h : listLInsert before pivot value l = some new) : new ≠ [] := by
  cases l with
  | nil => cases h
  | cons e rest =>
    unfold listLInsert at h
    split_ifs at h with hpivot hbefore
    · cases h
      simp
    · cases h
      simp
    · rcases Option.map_eq_some_iff.mp h with ⟨more, -, rfl⟩
      simp

def CollectionCommand.createsEmpty (c : Collections) (key : Bytes) : CollectionCommand → Bool
  | .sAdd elems => decide (key ∉ c.sets ∧ elems = [])
  | .hmSet fvPairs => decide (key ∉ c.hashes ∧ fvPairs.length < 2)
  | .lPush elems => decide (key ∉ c.lists ∧ elems = [])
  | .rPush elems => decide (key ∉ c.lists ∧ elems = [])
  | _ => false

namespace Collections.Filled

variable {c : Collections} {key : Bytes}

theorem alterSet_iff (h : c.Filled) (f : Option (List Bytes) → Option (List Bytes)) :
    (c.alterSet key f).Filled ↔ ∀ s, f (c.sets.lookup key) = some s → s ≠ [] := by
  rw [← h.sets.alter_iff key f]
  exact ⟨fun hfilled => hfilled.sets, fun hsets => ⟨hsets, h.hashes, h.lists⟩⟩

theorem alterHash_iff (h : c.Filled) (f : Option HashValue → Option HashValue) :
    (c.alterHash key f).Filled ↔ ∀ v, f (c.hashes.lookup key) = some v → v.keys ≠ [] := by
  rw [← h.hashes.alter_iff key f]
  exact ⟨fun hfilled => hfilled.hashes, fun hhashes => ⟨h.sets, hhashes, h.lists⟩⟩

theorem alterList_iff (h : c.Filled) (f : Option (List Bytes) → Option (List Bytes)) :
    (c.alterList key f).Filled ↔ ∀ l, f (c.lists.lookup key) = some l → l ≠ [] := by
  rw [← h.lists.alter_iff key f]
  exact ⟨fun hfilled => hfilled.lists, fun hlists => ⟨h.sets, h.hashes, hlists⟩⟩

theorem run_iff (h : c.Filled) (cmd : CollectionCommand) :
    (c.run key cmd).Filled ↔ cmd.createsEmpty c key = false := by
  cases cmd with
  | sAdd elems =>
    rw [Collections.run, h.alterSet_iff]
    simp only [Option.some.injEq, forall_eq', ne_eq, setAdd_eq_nil_iff,
      h.sets.getD_iff rfl, CollectionCommand.createsEmpty, decide_eq_false_iff_not]
  | sRem elems =>
    rw [Collections.run, h.alterSet_iff]
    exact iff_of_true (fun _ => bind_unlessNil_ne_nil) rfl
  | sPop choice =>
    rw [Collections.run, h.alterSet_iff]
    exact iff_of_true (fun _ => h.sets.popped_ne_nil) rfl
  | hSet field value =>
    rw [Collections.run, h.alterHash_iff]
    refine iff_of_true ?_ rfl
    rintro _ ⟨⟩
    simp
  | hSetNX field value =>
    rw [Collections.run, h.alterHash_iff]
    refine iff_of_true ?_ rfl
    rintro _ ⟨⟩
    split_ifs with hfield
    · exact List.ne_nil_of_mem (AList.mem_keys.mp hfield)
    · simp
  | hDel fields =>
    rw [Collections.run, h.alterHash_iff]
    refine iff_of_true (fun v hv => ?_) rfl
    rcases Option.bind_eq_some_iff.mp hv with ⟨prev, -, hkept⟩
    dsimp only at hkept
    split_ifs at hkept with hnil
    cases hkept
    exact hnil
  | hmSet fvPairs =>
    rw [Collections.run, h.alterHash_iff]
    simp only [Option.some.injEq, forall_eq', ne_eq, hashMSet_keys_eq_nil_iff,
      h.hashes.getD_iff (d := ∅) rfl, CollectionCommand.createsEmpty,
      decide_eq_false_iff_not]
  | lPush elems =>
    rw [Collections.run, h.alterList_iff]
    simp only [Option.some.injEq, forall_eq', ne_eq, listLPush,
      List.foldl_flip_cons_eq_append', List.append_eq_nil_iff, List.reverse_eq_nil_iff,
      h.lists.getD_iff rfl, CollectionCommand.createsEmpty, decide_eq_false_iff_not,
      and_comm]
  | rPush elems =>
    rw [Collections.run, h.alterList_iff]
    simp only [Option.some.injEq, forall_eq', ne_eq, List.append_eq_nil_iff,
      h.lists.getD_iff rfl, CollectionCommand.createsEmpty, decide_eq_false_iff_not]
  | lPop =>
    rw [Collections.run, h.alterList_iff]
    exact iff_of_true (fun _ => h.lists.popped_ne_nil) rfl
  | rPop =>
    rw [Collections.run, h.alterList_iff]
    exact iff_of_true (fun _ => h.lists.popped_ne_nil) rfl
  | lSet index value =>
    rw [Collections.run, h.alterList_iff]
    refine iff_of_true (fun l hl => ?_) rfl
    rcases Option.map_eq_some_iff.mp hl with ⟨prev, hprev, rfl⟩
    have hprev := h.lists key prev hprev
    exact getD_ne_nil hprev fun new hnew => listLSet_ne_nil hprev hnew
  | lRem count value =>
    rw [Collections.run, h.alterList_iff]
    exact iff_of_true (fun _ => bind_unlessNil_ne_nil) rfl
  | lTrim start stop =>
    rw [Collections.run, h.alterList_iff]
    exact iff_of_true (fun _ => bind_unlessNil_ne_nil) rfl
  | lInsert before pivot value =>
    rw [Collections.run, h.alterList_iff]
    refine iff_of_true (fun l hl => ?_) rfl
    rcases Option.map_eq_some_iff.mp hl with ⟨prev, hprev, rfl⟩
    exact getD_ne_nil (h.lists key prev hprev) fun new hnew => listLInsert_ne_nil hnew

end Collections.Filled

theorem Collections.Filled.del {c : Collections} (h : c.Filled) (key : Bytes) :
    (c.del key).Filled :=
  ⟨h.sets.erase key, h.hashes.erase key, h.lists.erase key⟩

theorem Collections.empty_filled : Collections.empty.Filled := ⟨nofun, nofun, nofun⟩

theorem Collections.Filled.increment {c : Collections} (h : c.Filled) {α : Type}
    (key field : Bytes) (function : ParseFunction)
    (parse : Bytes → Except Strconv.NumError α) (add : α → α) (delta : α)
    (format : α → Bytes) :
    (c.increment key field function parse add delta format).1.Filled := by
  unfold Collections.increment
  split
  · exact (h.run_iff (.hSet field _)).mpr rfl
  · split
    · exact h
    · exact (h.run_iff (.hSet field _)).mpr rfl

def Shard.Filled (s : Shard) : Prop := s.collections.Filled

def ShardTable.Filled (t : ShardTable) : Prop := ∀ i, (t.shards i).Filled

structure Cache.Filled (c : Cache) : Prop where
  table : c.table.Filled
  old : ∀ m, c.migration = some m → m.old.Filled

theorem ShardTable.Filled.withShard_iff {t : ShardTable} (h : t.Filled)
    (i : Fin (2 ^ t.bits)) (s : Shard) : (t.withShard i s).Filled ↔ s.Filled := by
  constructor
  · intro hfilled
    have hi : (Function.update t.shards i s i).Filled := hfilled i
    rwa [Function.update_self] at hi
  · intro hs (k : Fin (2 ^ t.bits))
    change (Function.update t.shards i s k).Filled
    by_cases hk : k = i
    · subst hk
      rwa [Function.update_self]
    · rw [Function.update_of_ne hk]
      exact h k

theorem newTable_filled (bits : ℕ) (kind : PolicyKind) (cap : ℕ) :
    (newTable bits kind cap).Filled :=
  fun _ => Collections.empty_filled

def Shard.SameStores (s later : Shard) : Prop := later.collections = s.collections

theorem sameStores_relation : ShardRelation (fun _ => False) Shard.SameStores where
  refl := fun _ => rfl
  trans := fun hfirst hsecond => hsecond.trans hfirst
  set := fun _ _ _ _ _ => rfl
  get := fun _ _ _ _ => rfl
  del := nofun
  cleanup := fun _ _ => rfl
  swapPolicy := fun _ _ _ => rfl
  expire := fun _ _ _ _ _ => rfl
  persist := fun _ _ _ => rfl
  collection := fun _ _ _ => nofun

theorem filled_oldRelation : OldRelation fun s later => s.Filled → later.Filled where
  refl := fun _ h => h
  get := fun _ _ _ _ h => h
  del := fun _ key h => Collections.Filled.del h key
  cleanup := fun _ _ h => h
  swapPolicy := fun _ _ _ h => h
  extract := fun hresult h =>
    Shard.extractFrom_relates (R := fun s later => s.Filled → later.Filled)
      (fun _ h => h) (fun hfirst hsecond h => hsecond (hfirst h)) (fun _ _ _ h => h)
      hresult h
  trans := fun hfirst hsecond h => hsecond (hfirst h)

section Commands

variable {c next : Cache} {key : Bytes}

theorem ShardTable.Changes.filled {t later : ShardTable} (ht : t.Filled)
    (hchanges : t.Changes Shard.SameStores later) : later.Filled := by
  rcases hchanges with ⟨shards, rfl, hshards⟩
  intro i
  rw [Shard.Filled, hshards i]
  exact ht i

theorem Cache.Filled.old_apply (h : c.Filled) {a : CacheAction}
    (hstep : c.apply a = some next) : ∀ m, next.migration = some m → m.old.Filled := by
  intro later hlater
  rcases filled_oldRelation.effect (Cache.apply_effect hstep) with hchanges | ⟨-, hstarted, -⟩
  · rcases hchanges later hlater with ⟨m, hm, hrelated⟩
    rcases hrelated.old with ⟨shards, hold, hshards⟩
    rw [hold]
    exact fun i => hshards i (h.old m hm i)
  · cases hstarted.symm.trans hlater
    exact h.table

theorem Cache.Filled.del (h : c.Filled) {order : MapOrder} {clock : Clock}
    {result : Cache × Except CacheError Unit}
    (hdel : c.del order clock key = some result) : result.1.table.Filled := by
  unfold Cache.del at hdel
  split_ifs at hdel
  · cases hdel
    exact h.table
  · cases hdel
    exact h.table
  · rcases Option.map_eq_some_iff.mp hdel with ⟨stepped, hstep, rfl⟩
    refine (sameStores_relation.step hstep).table.filled ?_
    exact (h.table.withShard_iff _ _).mpr (Collections.Filled.del (h.table _) key)

theorem Cache.Filled.apply_other (h : c.Filled) {a : CacheAction}
    (hstep : c.apply a = some next) (hother : a.command.Touches fun _ => False) :
    next.Filled := by
  refine ⟨?_, h.old_apply hstep⟩
  rcases sameStores_relation.effect hother (Cache.apply_effect hstep) with
    hchanges | ⟨shardCount, kind, -, -, -, htable⟩
  · exact hchanges.table.filled h.table
  · rw [htable]
    exact newTable_filled _ _ _

theorem Cache.Filled.onShard_iff {α : Type} (h : c.Filled) (f : Shard → Shard × α) :
    (c.onShard key f).1.Filled ↔
      (c.closed = false → key ≠ [] → (f (c.table.shard key)).1.Filled) := by
  by_cases hclosed : c.closed = true
  · rw [Cache.onShard, if_pos hclosed]
    simp [h, hclosed]
  · by_cases hkey : key = []
    · rw [Cache.onShard, if_neg hclosed, if_pos hkey]
      simp [h, hkey]
    · rw [Bool.not_eq_true] at hclosed
      rw [Cache.onShard_open hclosed hkey]
      simp only [hclosed, hkey, ne_eq, not_false_eq_true, true_implies]
      rw [← h.table.withShard_iff (c.table.index key)]
      exact ⟨fun hfilled => hfilled.table, fun htable => ⟨htable, h.old⟩⟩

end Commands

inductive StoreCommand where
  | action (a : CacheAction)
  | hIncrBy (key field : Bytes) (delta : ℤ)
  | hIncrByFloat (key field : Bytes) (delta : UInt64)

def storeWithIncrements (prims : Strconv.Primitives) : TransitionSystem Cache StoreCommand where
  init := store.init
  step := fun c cmd =>
    match cmd with
    | .action a => c.apply a
    | .hIncrBy key field delta => some (c.hIncrBy key field delta).1
    | .hIncrByFloat key field delta => some (c.hIncrByFloat prims key field delta).1

def Cache.fills (c : Cache) : StoreCommand → Bool
  | .action ⟨.collection key cmd, _, _⟩ =>
    c.closed || decide (key = []) || !cmd.createsEmpty (c.table.shard key).collections key
  | _ => true

theorem Cache.Filled.step_iff {prims : Strconv.Primitives} {next : Cache}
    {cmd : StoreCommand} (h : c.Filled)
    (hstep : (storeWithIncrements prims).step c cmd = some next) :
    next.Filled ↔ c.fills cmd = true := by
  cases cmd with
  | hIncrBy key field delta =>
    cases hstep
    refine iff_of_true ((h.onShard_iff _).mpr fun _ _ => ?_) rfl
    exact (h.table _).increment key field _ _ _ _ _
  | hIncrByFloat key field delta =>
    cases hstep
    refine iff_of_true ((h.onShard_iff _).mpr fun _ _ => ?_) rfl
    exact (h.table _).increment key field _ _ _ _ _
  | action a =>
    have happly : c.apply a = some next := hstep
    rcases a with ⟨command, order, clock⟩
    cases command with
    | collection key cmd =>
      have hfilled : (c.table.shard key).collections.Filled := h.table _
      cases hstep
      rw [Cache.collection, h.onShard_iff]
      simp only [Cache.fills, Bool.or_eq_true, decide_eq_true_eq, Bool.not_eq_true']
      rw [← hfilled.run_iff]
      cases c.closed with
      | true => simp
      | false =>
        simp only [true_implies, Bool.false_eq_true, false_or]
        exact or_iff_not_imp_left.symm
    | del key =>
      rcases Option.map_eq_some_iff.mp happly with ⟨result, hdel, rfl⟩
      exact iff_of_true ⟨h.del hdel, h.old_apply happly⟩ rfl
    | _ => exact iff_of_true (h.apply_other happly trivial) rfl

theorem newCache_filled (hinit : store.init c) : c.Filled := by
  rcases hinit with ⟨opts, hnew⟩
  rcases Cache.new_ok hnew with ⟨-, -, hc⟩
  rw [hc]
  exact ⟨newTable_filled _ _ _, nofun⟩

theorem AllValues.exists_of_mem {V : Type} {P : V → Prop}
    {m : AList fun _ : Bytes => V} (hm : AllValues P m) {key : Bytes} (hkey : key ∈ m) :
    ∃ value, m.lookup key = some value ∧ P value := by
  rcases Option.isSome_iff_exists.mp (AList.lookup_isSome.mpr hkey) with ⟨value, hvalue⟩
  exact ⟨value, hvalue, hm key value hvalue⟩

def Cache.Counted (c : Cache) : Prop :=
  ∀ key now, c.keyExists (still now) key = .ok true → ¬ c.InTable key now →
    (∃ n, c.sCard key = .ok n ∧ 0 < n) ∨ (∃ n, c.hLen key = .ok n ∧ 0 < n) ∨
      ∃ n, c.lLen key = .ok n ∧ 0 < n

theorem Cache.Filled.counted (h : c.Filled) : c.Counted := by
  intro key now hexists hstring
  have hfilled : (c.table.shard key).collections.Filled := h.table _
  rw [Cache.keyExists, Cache.readShard_eq_ok_iff] at hexists
  rcases hexists with ⟨hopen, hkey, hexists⟩
  rw [Cache.inTable_iff] at hstring
  simp only [Shard.keyExists, still, Bool.not_eq_true] at hexists hstring
  simp only [hstring, Bool.false_or, Bool.or_eq_true, decide_eq_true_eq] at hexists
  rcases hexists with (hset | hhash) | hlist
  · left
    rcases hfilled.sets.exists_of_mem hset with ⟨s, hs, hne⟩
    refine ⟨_, Cache.readShard_open hopen hkey _, ?_⟩
    simpa [Collections.sMembers, hs, List.length_pos_iff] using hne
  · right
    left
    rcases hfilled.hashes.exists_of_mem hhash with ⟨v, hv, hne⟩
    refine ⟨_, Cache.readShard_open hopen hkey _, ?_⟩
    simpa [Collections.hGetAll, hv, List.length_pos_iff] using hne
  · right
    right
    rcases hfilled.lists.exists_of_mem hlist with ⟨l, hl, hne⟩
    refine ⟨_, Cache.readShard_open hopen hkey _, ?_⟩
    simpa [hl, List.length_pos_iff] using hne

theorem collections_filled_iff {prims : Strconv.Primitives} {c final : Cache}
    {cmds : List StoreCommand} (hinit : (storeWithIncrements prims).init c)
    (hrun : (storeWithIncrements prims).runFrom c cmds = some final) :
    (∀ before, before <+: cmds → ∀ s,
        (storeWithIncrements prims).runFrom c before = some s → s.Filled ∧ s.Counted) ↔
      (storeWithIncrements prims).runBy (fun s cmd => s.fills cmd = true) c cmds = some final := by
  have hiff := TransitionSystem.along_iff (T := storeWithIncrements prims)
    (fun s cmd next h hstep => h.step_iff hstep) (newCache_filled hinit) hrun
  rw [← hiff]
  constructor
  · intro hall before hbefore s hs
    exact (hall before hbefore s hs).1
  · intro hall before hbefore s hs
    have hfilled := hall before hbefore s hs
    exact ⟨hfilled, hfilled.counted⟩

def noFloats : Strconv.Primitives := ⟨fun _ => .error .invalidSyntax, fun _ => [], fun a _ => a, id⟩

def mixedRun : List StoreCommand :=
  [.action ⟨.collection [97] (.sAdd [[1], [2]]), .asStored, still 1⟩,
    .action ⟨.collection [97] (.sRem [[1]]), .asStored, still 1⟩,
    .hIncrBy [98] [3] 5,
    .action ⟨.collection [97] (.sAdd []), .asStored, still 1⟩,
    .action ⟨.collection [99] (.rPush [[4]]), .asStored, still 1⟩,
    .action ⟨.collection [99] .lPop, .asStored, still 1⟩]

theorem collections_filled_iff_mixedRun :
    ∃ final, (storeWithIncrements noFloats).runFrom .ofDefaults mixedRun = some final ∧
      final.Filled ∧ final.Counted := by
  have hsome : ((storeWithIncrements noFloats).runBy
      (fun s cmd => s.fills cmd = true) .ofDefaults mixedRun).isSome = true := by
    decide +kernel
  rcases Option.isSome_iff_exists.mp hsome with ⟨final, hallowed⟩
  have hrun := TransitionSystem.runFrom_of_runBy hallowed
  exact ⟨final, hrun, (collections_filled_iff store_init_ofDefaults hrun).mpr hallowed _
    (List.prefix_refl _) final hrun⟩

def viewAfter (cmd : CollectionCommand) :
    Option (Except CacheError Bool × Except CacheError ℤ × Except CacheError ℤ ×
      Except CacheError ℤ) :=
  (store.runFrom .ofDefaults [⟨.collection [97] cmd, .asStored, still 1⟩]).map fun c =>
    (c.keyExists (still 1) [97], c.sCard [97], c.hLen [97], c.lLen [97])

theorem empty_collection_exists :
    [CollectionCommand.sAdd [], .hmSet [], .hmSet [[1]], .lPush [], .rPush []].all
      (fun cmd => viewAfter cmd = some (.ok true, .ok 0, .ok 0, .ok 0)) = true := by
  decide +kernel

end MCache.Store
