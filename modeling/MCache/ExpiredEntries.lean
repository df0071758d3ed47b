import MCache.ExpiryRules
import MCache.RehasherChange

/-!
# Expired entries

Nothing but `Set` makes a key readable again that `Get` does not find, with
two exceptions, both in a migration.  `ExtractN` takes a negative deadline for
none, and it turns a deadline into a duration at one reading of the clock,
which is added to a later one when the entry is stored.
-/

namespace MCache.Store

def SubShard.retime (sub : SubShard) (key : Bytes) (now : ℤ)
    (f : CacheEntry → CacheEntry) : SubShard :=
  match sub.entries.lookup key with
  | none => sub
  | some e =>
    if e.isExpired now then sub
    else { sub with entries := sub.entries.insert key (f e) }

theorem SubShard.expire_eq (sub : SubShard) (key : Bytes) (ttl now again : ℤ) :
    (sub.expire key ttl now again).1 =
      sub.retime key now fun e => { e with expiresAt := int64 (again + ttl) } := by
  unfold SubShard.expire SubShard.retime
  cases sub.entries.lookup key with
  | none => rfl
  | some e =>
    dsimp only
    split_ifs <;> rfl

theorem SubShard.persist_eq (sub : SubShard) (key : Bytes) (now : ℤ) :
    (sub.persist key now).1 = sub.retime key now fun e => { e with expiresAt := 0 } := by
  unfold SubShard.persist SubShard.retime
  cases sub.entries.lookup key with
  | none => rfl
  | some e =>
    dsimp only
    split_ifs <;> rfl

section NewDeadlines

variable (t : ShardTable) (key : Bytes) (now : ℤ)

theorem ShardTable.retime_lookup (f : CacheEntry → CacheEntry) :
    (t.withShard (t.index key) ((t.shard key).withSub ((t.shard key).subIndex key)
      (((t.shard key).subs ((t.shard key).subIndex key)).retime key now f))).lookup =
      Function.update t.lookup key
        ((t.lookup key).map fun e => if e.isExpired now then e else f e) := by
  apply t.lookup_withShard_key
  apply Shard.lookup_withSub_key
  · unfold SubShard.retime ShardTable.lookup Shard.lookup
    cases hlookup : ((t.shard key).subs ((t.shard key).subIndex key)).entries.lookup key with
    | none => exact hlookup
    | some e =>
      dsimp only
      split_ifs with hexpired
      · simp [hlookup, hexpired]
      · simp [hexpired]
  · intro other hne
    unfold SubShard.retime
    split
    · rfl
    · split_ifs
      · rfl
      · exact AList.lookup_insert_ne hne

theorem ShardTable.expire_lookup (ttl again : ℤ) :
    (t.withShard (t.index key) ((t.shard key).expire key ttl now again).1).lookup =
      Function.update t.lookup key ((t.lookup key).map fun e =>
        if e.isExpired now then e
        else { e with expiresAt := int64 (again + ttl) }) := by
  rw [Shard.expire, SubShard.expire_eq]
  exact t.retime_lookup key now _

theorem ShardTable.persist_lookup :
    (t.withShard (t.index key) ((t.shard key).persist key now).1).lookup =
      Function.update t.lookup key ((t.lookup key).map fun e =>
        if e.isExpired now then e else { e with expiresAt := 0 }) := by
  rw [Shard.persist, SubShard.persist_eq]
  exact t.retime_lookup key now _

end NewDeadlines

def ShardTable.AllAt (t : ShardTable) (key : Bytes) (P : CacheEntry → Prop) : Prop :=
  ∀ e, t.lookup key = some e → P e

namespace ShardTable.AllAt

variable {t : ShardTable} {key : Bytes} {P : CacheEntry → Prop}

theorem update {later : ShardTable} {other : Bytes} {entry : Option CacheEntry}
    (h : t.AllAt key P) (hlater : later.lookup = Function.update t.lookup other entry)
    (hentry : key = other → ∀ e, entry = some e → P e) : later.AllAt key P := by
  intro e he
  rw [hlater] at he
  by_cases hkey : key = other
  · subst hkey
    rw [Function.update_self] at he
    exact hentry rfl e he
  · rw [Function.update_of_ne hkey] at he
    exact h e he

variable (h : t.AllAt key P)
include h

theorem del (other : Bytes) : (t.del other).AllAt key P :=
  h.update (t.del_lookup other) fun _ _ => nofun

theorem get (other : Bytes) (now again : ℤ) : (t.get other now again).1.AllAt key P := by
  apply h.update (t.get_lookup_readings other now again)
  rintro rfl e he
  exact h e (Option.filter_eq_some_iff.mp he).1

theorem cleanup (now : Bytes → ℤ) : (t.cleanup now).AllAt key P :=
  fun e he => h e ((t.cleanup_lookup now key e).mp he).1

theorem set_other {other : Bytes} (hother : key ≠ other)
    (value : Bytes) (ttl now : ℤ) : (t.set other value ttl now).AllAt key P := by
  intro e he
  rcases t.set_lookup_or other value ttl now key with hgone | hsame
  · rw [hgone] at he
    cases he
  · rw [if_neg hother] at hsame
    exact h e (hsame.symm.trans he)

theorem insertItems {clock : Clock} {items : List Item}
    (hitems : ∀ item ∈ items, item.key = key → P (item.entry clock)) :
    (t.insertItems clock items).AllAt key P := by
  intro e he
  rcases t.insertItems_lookup_cases clock items key with
    hgone | hsame | ⟨item, hitem, hkey, hstored⟩
  · rw [hgone] at he
    cases he
  · exact h e (hsame.symm.trans he)
  · cases hstored.symm.trans he
    exact hitems item hitem hkey

theorem retime {later : ShardTable} {other : Bytes} {now : ℤ}
    {f : CacheEntry → CacheEntry}
    (hlater : later.lookup = Function.update t.lookup other
      ((t.lookup other).map fun e => if e.isExpired now then e else f e))
    (hexpired : key = other → ∀ e, P e → e.isExpired now = true) :
    later.AllAt key P := by
  apply h.update hlater
  rintro rfl e he
  rcases Option.map_eq_some_iff.mp he with ⟨prev, hprev, rfl⟩
  rw [if_pos (hexpired rfl prev (h prev hprev))]
  exact h prev hprev

end ShardTable.AllAt

structure Cache.AllAt (c : Cache) (key : Bytes) (P Q : CacheEntry → Prop) : Prop where
  table : c.table.AllAt key P
  old : ∀ m, c.migration = some m → m.old.AllAt key Q

namespace Cache.AllAt

variable {c next : Cache} {order : MapOrder} {clock : Clock} {key : Bytes}
  {P Q : CacheEntry → Prop}

section Steps

variable (hmoved : ∀ e, Q e → ∀ item, Item.of clock ⟨key, e⟩ = some item → P (item.entry clock))

include hmoved

theorem step (h : c.AllAt key P Q) (hrouted : ∀ m, c.migration = some m → m.old.Each Routed)
    (hstep : c.step order clock = some next) : next.AllAt key P Q := by
  unfold Cache.step at hstep
  split at hstep
  · cases hstep
    exact h
  · rename_i m hm
    rcases Option.map_eq_some_iff.mp hstep with ⟨result, hresult, rfl⟩
    rw [Migration.step_eq] at hresult
    rcases Option.map_eq_some_iff.mp hresult with ⟨moved, hitems, rfl⟩
    rcases Migration.moved_madeOf (hrouted m hm) hitems with ⟨hmade, hleft⟩
    constructor
    case table =>
      apply h.table.insertItems
      rintro item hitem rfl
      rcases hmade item hitem with ⟨e, he, hof⟩
      exact hmoved e (h.old m hm e he) item hof
    case old =>
      intro later hlater e he
      exact h.old m hm e (hleft later hlater key e he)

end Steps

theorem map_old (h : c.AllAt key P Q) {f : ShardTable → ShardTable}
    (hf : ∀ {t : ShardTable}, t.AllAt key Q → (f t).AllAt key Q) :
    ∀ m, (c.migration.map fun m => { m with old := f m.old }) = some m → m.old.AllAt key Q := by
  intro later hlater
  rcases Option.map_eq_some_iff.mp hlater with ⟨m, hm, rfl⟩
  exact hf (h.old m hm)

end Cache.AllAt

def Command.Sets (key : Bytes) : Command → Prop
  | .set other value _ => other = key ∧ value ≠ none
  | _ => False

theorem Cache.AllAt.beforeStep {c mid : Cache} {a : CacheAction} {key : Bytes}
    {P Q : CacheEntry → Prop} (h : c.AllAt key P Q) (hset : ¬ a.command.Sets key)
    (hmid : c.BeforeStep a mid) : mid.AllAt key P Q := by
  have hdeleted : ∀ other, ∀ m, (c.delOld other).migration = some m → m.old.AllAt key Q :=
    fun other => h.map_old fun ht => ht.del other
  cases hmid with
  | step => exact h
  | set hcommand =>
    refine ⟨h.table.set_other ?_ _ _ _, hdeleted _⟩
    rintro rfl
    rw [hcommand] at hset
    exact hset ⟨rfl, by simp⟩
  | get => exact ⟨h.table.get _ _ _, h.old⟩
  | getOld _ hm =>
    refine ⟨h.table.get _ _ _, ?_⟩
    rintro later ⟨⟩
    exact (h.old _ hm).get _ _ _
  | del => exact ⟨h.table.del _, hdeleted _⟩

theorem Cache.AllAt.apply {c next : Cache} {a : CacheAction} {key : Bytes}
    {P Q : CacheEntry → Prop} (h : c.AllAt key P Q)
    (hrouted : c.Each (fun _ => True) Routed) (hQ : ∀ e, Q e → P e)
    (hmoved : ∀ e, Q e → ∀ item, Item.of a.clock ⟨key, e⟩ = some item → P (item.entry a.clock))
    (hset : ¬ a.command.Sets key)
    (hexpired : a.command.Retimes key → ∀ e, P e → e.isExpired (a.clock .current key) = true)
    (hstep : c.apply a = some next) : next.AllAt key P P := by
  have hweaken : ∀ {later : Cache}, later.AllAt key P Q → later.AllAt key P P :=
    fun hlater => ⟨hlater.table, fun m hm e he => hQ e (hlater.old m hm e he)⟩
  have hnone : ∀ m : Migration, none = some m → m.old.AllAt key P := by
    intro m hm
    cases hm
  have hretimed : ∀ other, a.command.Retimes other → key = other → ∀ e, P e →
      e.isExpired (a.clock .current other) = true := by
    rintro other hcommand rfl
    exact hexpired hcommand
  cases Cache.apply_effect hstep with
  | same => exact hweaken h
  | stepped hmid hstep =>
    have hold := (routed_invariant.beforeStep_each hrouted hmid).old
    exact hweaken ((h.beforeStep hset hmid).step hmoved hold hstep)
  | cleanup => exact hweaken ⟨h.table.cleanup _, h.map_old fun ht => ht.cleanup _⟩
  | resize =>
    constructor
    case table =>
      intro e he
      cases he
    case old =>
      intro m hm
      dsimp only at hm
      split_ifs at hm
      cases hm
      exact h.table
  | expire hcommand =>
    exact hweaken ⟨h.table.retime (c.table.expire_lookup _ _ _ _) (hretimed _ hcommand), h.old⟩
  | persist hcommand =>
    exact hweaken ⟨h.table.retime (c.table.persist_lookup _ _) (hretimed _ hcommand), h.old⟩
  | collection =>
    refine hweaken ⟨fun e he => ?_, h.old⟩
    rw [ShardTable.lookup_withShard] at he
    split_ifs at he with hindex
    · refine h.table e ?_
      rw [ShardTable.lookup, ShardTable.shard, hindex]
      exact he
    · exact h.table e he
  | setEvictionPolicy =>
    exact hweaken ⟨h.table, h.map_old (f := fun t => t.swapPolicy _ _) fun ht => ht⟩
  | setRehasher => exact ⟨h.table, hnone⟩
  | close => exact ⟨h.table, hnone⟩

def Cache.Lapsed (c : Cache) (key : Bytes) (t : ℤ) : Prop :=
  c.AllAt key (CacheEntry.DeadAt t) (CacheEntry.DeadAt t)

section Lapsed

variable {c : Cache} {order : MapOrder} {clock : Clock} {key : Bytes} {t : ℤ}

theorem ShardTable.get_none_iff (table : ShardTable) (now again : ℤ) :
    (table.get key now again).2 = none ↔ table.AllAt key (CacheEntry.DeadAt now) := by
  rw [table.get_value]
  unfold ShardTable.AllAt CacheEntry.DeadAt
  cases table.lookup key with
  | none => simp
  | some e => simp [Option.filter_some]

theorem Cache.lapsed_of_get {later : Cache}
    (hget : c.get order (still t) key = some (later, .error .keyNotFound)) :
    c.Lapsed key t := by
  unfold Cache.get at hget
  split_ifs at hget
  · cases hget
  · cases hget
  · dsimp only at hget
    split at hget
    · rcases Option.map_eq_some_iff.mp hget with ⟨stepped, -, hresult⟩
      cases hresult
    · rename_i hread hm
      have hidle : c.migration = none := hm
      refine ⟨(c.table.get_none_iff _ _).mp hread, fun m hm => ?_⟩
      rw [hidle] at hm
      cases hm
    · rename_i m hread hm
      have hmigrating : c.migration = some m := hm
      rcases Option.map_eq_some_iff.mp hget with ⟨stepped, -, hresult⟩
      simp only [Prod.mk.injEq] at hresult
      refine ⟨(c.table.get_none_iff _ _).mp hread, fun m' hm' => ?_⟩
      cases hmigrating.symm.trans hm'
      split at hresult
      · cases hresult.2
      · rename_i hold
        exact (m.old.get_none_iff _ _).mp hold

theorem CacheEntry.DeadAt.later {e : CacheEntry} (hdead : e.DeadAt t) {t' : ℤ}
    (hlater : t ≤ t') : e.DeadAt t' := by
  rw [CacheEntry.DeadAt, CacheEntry.isExpired_iff] at hdead ⊢
  exact ⟨hdead.1, hdead.2.trans hlater⟩

theorem Cache.Lapsed.get_ne (h : c.Lapsed key t) {t' : ℤ} (hlater : t ≤ t')
    (order : MapOrder) (next : Cache) (value : Bytes) :
    c.get order (still t') key ≠ some (next, .ok value) := by
  intro hget
  rcases Cache.get_ok_holds hget with ⟨e, hlookup, -, hlive⟩ | ⟨m, hm, e, hlookup, -, hlive⟩
  · have hdead := (h.table e hlookup).later hlater
    exact Bool.false_ne_true (hlive.symm.trans hdead)
  · have hdead := (h.old m hm e hlookup).later hlater
    exact Bool.false_ne_true (hlive.symm.trans hdead)

theorem CacheEntry.DeadAt.dropped {e : CacheEntry} (hdead : e.DeadAt t) (hnonneg : 0 ≤ e.expiresAt)
    (hscan : t ≤ clock .scan key) : Item.of clock ⟨key, e⟩ = none := by
  rw [CacheEntry.DeadAt, CacheEntry.isExpired_iff] at hdead
  have hpos : 0 < e.expiresAt := by omega
  rw [Item.of, SubShard.remaining, if_pos ⟨hpos, hdead.2.trans hscan⟩]
  rfl

theorem CacheEntry.DeadAt.entry {e : CacheEntry} {item : Item} (hdead : e.DeadAt t)
    (ht : t < 2 ^ 63) (hpos : 0 < e.expiresAt)
    (hsame : clock .until key = clock .store key)
    (hnear : e.expiresAt - clock .until key < 2 ^ 63)
    (hof : Item.of clock ⟨key, e⟩ = some item) : (item.entry clock).DeadAt t := by
  rw [CacheEntry.DeadAt, CacheEntry.isExpired_iff] at hdead ⊢
  rw [Item.of, SubShard.remaining, if_pos hpos] at hof
  dsimp only at hof
  split_ifs at hof with hscan hgone
  · cases hof
  · cases hof
  · cases hof
    have hleft : saturated (e.expiresAt - clock .until key) = e.expiresAt - clock .store key := by
      unfold saturated at hgone ⊢
      omega
    have hdeadline : int64 (clock .store key + (e.expiresAt - clock .store key)) = e.expiresAt := by
      rw [add_sub_cancel]
      exact int64_of_bounds (by omega) (by omega)
    simp only [Item.entry, newEntry]
    rw [hleft] at hgone ⊢
    rw [if_pos (not_le.mp hgone), hdeadline]
    exact hdead

end Lapsed

structure TimedCache where
  cache : Cache
  now : ℤ

structure TimedAction where
  action : CacheAction
  finish : ℤ

def timedStore : TransitionSystem TimedCache TimedAction where
  init := fun s => store.init s.cache
  step := fun s a => (s.cache.apply a.action).map fun next => ⟨next, a.finish⟩

def TimedCache.Admits (s : TimedCache) (a : TimedAction) : Prop := ∀ reading key,
    s.now ≤ a.action.clock reading key ∧ a.action.clock reading key ≤ a.finish

def Cache.NoNegativeDeadline (c : Cache) (key : Bytes) : Prop :=
  ∀ m, c.migration = some m → m.old.AllAt key fun e => 0 ≤ e.expiresAt

def Cache.MigratesExactly (c : Cache) (clock : Clock) (key : Bytes) : Prop :=
  ∀ m, c.migration = some m → m.old.AllAt key fun e => 0 ≤ e.expiresAt ∧
    (0 < e.expiresAt → clock .until key = clock .store key ∧
      e.expiresAt - clock .until key < 2 ^ 63)

section Runs

variable {c next : Cache} {a : CacheAction} {key : Bytes} {t : ℤ}

theorem Cache.Lapsed.apply (h : c.Lapsed key t) (hreach : store.Reachable c)
    (hset : ¬ a.command.Sets key)
    (hretimes : a.command.Retimes key → t ≤ a.clock .current key)
    (hmoved : ∀ m, c.migration = some m → m.old.AllAt key fun e => ∀ item,
      Item.of a.clock ⟨key, e⟩ = some item → (item.entry a.clock).DeadAt t)
    (hstep : c.apply a = some next) : next.Lapsed key t := by
  have hboth : c.AllAt key (CacheEntry.DeadAt t) fun e => e.DeadAt t ∧ ∀ item,
      Item.of a.clock ⟨key, e⟩ = some item → (item.entry a.clock).DeadAt t :=
    ⟨h.table, fun m hm e he => ⟨h.old m hm e he, hmoved m hm e he⟩⟩
  refine hboth.apply (store_routed hreach) (fun e he => he.1) (fun e he => he.2) hset ?_ hstep
  intro htimes e he
  exact he.later (hretimes htimes)

theorem Cache.Lapsed.apply_inTime (h : c.Lapsed key t) (hreach : store.Reachable c)
    (hset : ¬ a.command.Sets key) (hnonneg : c.NoNegativeDeadline key)
    (hclock : ∀ reading, t ≤ a.clock reading key) (hstep : c.apply a = some next) :
    next.Lapsed key t := by
  refine h.apply hreach hset (fun _ => hclock _) ?_ hstep
  intro m hm e he item hof
  rw [(h.old m hm e he).dropped (hnonneg m hm e he) (hclock _)] at hof
  cases hof

theorem Cache.Lapsed.apply_exactly (h : c.Lapsed key t) (hreach : store.Reachable c)
    (ht : t < 2 ^ 63) (hset : ¬ a.command.Sets key)
    (hretimes : a.command.Retimes key → t ≤ a.clock .current key)
    (hexact : c.MigratesExactly a.clock key) (hstep : c.apply a = some next) :
    next.Lapsed key t := by
  refine h.apply hreach hset hretimes ?_ hstep
  intro m hm e he item hof
  have hdead := h.old m hm e he
  rcases hexact m hm e he with ⟨hnonneg, hreadings⟩
  have hpos := lt_of_le_of_ne hnonneg (CacheEntry.isExpired_iff.mp hdead).1.symm
  exact hdead.entry ht hpos (hreadings hpos).1 (hreadings hpos).2 hof

end Runs

theorem expired_stays_expired {c : Cache} (hreach : store.Reachable c) {order : MapOrder}
    {key : Bytes} {t : ℤ} {later : Cache}
    (hmiss : c.get order (still t) key = some (later, .error .keyNotFound)) :
    (∀ last, (timedStore.startingIn ⟨c, t⟩).ReachableBy (fun s a => s.Admits a ∧
        ¬ a.action.command.Sets key ∧ s.cache.NoNegativeDeadline key) last →
      ∀ order' t', last.now ≤ t' → ∀ next value,
        last.cache.get order' (still t') key ≠ some (next, .ok value)) ∧
    (t < 2 ^ 63 → ∀ last, (store.startingIn c).ReachableBy (fun c a =>
        ¬ a.command.Sets key ∧ (a.command.Retimes key → t ≤ a.clock .current key) ∧
        c.MigratesExactly a.clock key) last →
      ∀ order' t', t ≤ t' → ∀ next value,
        last.get order' (still t') key ≠ some (next, .ok value)) := by
  have hlapsed := Cache.lapsed_of_get hmiss
  constructor
  · intro last hrun order' t' ht'
    have hlast : store.Reachable last.cache ∧ last.cache.Lapsed key t ∧ t ≤ last.now := by
      apply hrun.invariant
        fun s : TimedCache => store.Reachable s.cache ∧ s.cache.Lapsed key t ∧ t ≤ s.now
      · rintro _ rfl
        exact ⟨hreach, hlapsed, le_rfl⟩
      · rintro s a next ⟨hs, hgone, hnow⟩ ⟨hclock, hset, hnonneg⟩ hstep
        rcases Option.map_eq_some_iff.mp hstep with ⟨cache, happly, rfl⟩
        refine ⟨hs.next happly, ?_, ?_⟩
        · exact hgone.apply_inTime hs hset hnonneg
            (fun reading => hnow.trans (hclock reading key).1) happly
        · exact hnow.trans ((hclock .current key).1.trans (hclock .current key).2)
    exact hlast.2.1.get_ne (hlast.2.2.trans ht') order'
  · intro ht last hrun order' t' ht'
    have hlast : store.Reachable last ∧ last.Lapsed key t := by
      apply hrun.invariant fun s => store.Reachable s ∧ s.Lapsed key t
      · rintro _ rfl
        exact ⟨hreach, hlapsed⟩
      · rintro s a next ⟨hs, hgone⟩ ⟨hset, hretimes, hexact⟩ hstep
        exact ⟨hs.next hstep, hgone.apply_exactly hs ht hset hretimes hexact hstep⟩
    exact hlast.2.get_ne ht' order'

def oneShard : Cache := { Cache.ofDefaults with table := newTable 0 .lru 0 }

theorem oneShard_init : store.init oneShard := ⟨{ newOptions with shardCount := 1 }, rfl⟩

theorem expired_stays_expired_waiting :
    ∃ c next next', store.Reachable c ∧ c.migration.isSome = true ∧
      (c.get .asStored (still 100) [97]).map Prod.snd = some (.error .keyNotFound) ∧
      c.step .asStored (still 100) = some next ∧ c.step .asStored (still 50) = some next' ∧
      ∀ t value last, 100 ≤ t →
        next.get .asStored (still t) [97] ≠ some (last, .ok value) ∧
        next'.get .asStored (still t) [97] ≠ some (last, .ok value) := by
  have hrun : (store.runBy (fun _ _ => True) oneShard
      [⟨.set [97] (some [1]) (some 98), .asStored, still 1⟩,
        ⟨.resize 2, .asStored, still 1⟩]).map (fun c =>
        (c.migration.map fun m => m.old.lookup [97],
          (c.get .asStored (still 100) [97]).map Prod.snd,
          (c.step .asStored (still 100)).isSome && (c.step .asStored (still 50)).isSome)) =
      some (some (some ⟨[1], 99⟩), some (.error .keyNotFound), true) := by
    decide +kernel
  rcases TransitionSystem.exists_reachableBy oneShard_init hrun with ⟨c, hreach, hfacts⟩
  simp only [Prod.mk.injEq, Bool.and_eq_true, Option.isSome_iff_exists] at hfacts
  rcases hfacts with ⟨hwaits, hmiss, ⟨next, hnext⟩, ⟨next', hnext'⟩⟩
  rcases Option.map_eq_some_iff.mp hwaits with ⟨m, hm, hold⟩
  rcases Option.map_eq_some_iff.mp hmiss with ⟨⟨later, reply⟩, hget, rfl⟩
  have hentry : ∀ m' e, c.migration = some m' → m'.old.lookup [97] = some e → e.expiresAt = 99 := by
    intro m' e hm' he
    cases hm.symm.trans hm'
    cases hold.symm.trans he
    rfl
  refine ⟨c, next, next', hreach, by simp [hm], hmiss, hnext, hnext',
    fun t value last ht => ⟨?_, ?_⟩⟩
  · refine (expired_stays_expired hreach hget).1 ⟨next, 100⟩ ?_ .asStored t ht last value
    refine .step (a := ⟨⟨.step, .asStored, still 100⟩, 100⟩) (.init rfl)
      ⟨fun _ _ => ⟨le_rfl, le_rfl⟩, id, fun m' hm' e he => ?_⟩
      (Option.map_eq_some_iff.mpr ⟨next, hnext, rfl⟩)
    dsimp only
    rw [hentry m' e hm' he]
    decide
  · refine (expired_stays_expired hreach hget).2 (by decide) next' ?_ .asStored t ht last value
    refine .step (a := ⟨.step, .asStored, still 50⟩) (.init rfl)
      ⟨id, nofun, fun m' hm' e he => ?_⟩ hnext'
    dsimp only
    rw [hentry m' e hm' he]
    decide

def foundAround (start commands : List CacheAction) (t : ℤ) :
    Option (Option (Except CacheError Bytes) × Option (Except CacheError Bytes)) :=
  (store.runFrom oneShard start).bind fun c =>
    (store.runFrom c commands).map fun next =>
      ((c.get .asStored (still t) [97]).map Prod.snd,
        (next.get .asStored (still t) [97]).map Prod.snd)

theorem expired_key_returns : store.init oneShard ∧ foundAround
      [⟨.set [97] (some [1]) none, .asStored, still (17 * 10 ^ 17)⟩,
        ⟨.expire [97] (-2 * 10 ^ 9), .asStored, still (17 * 10 ^ 17)⟩]
      [⟨.resize 2, .asStored, still (17 * 10 ^ 17)⟩,
        ⟨.step, .asStored, still (17 * 10 ^ 17)⟩] (17 * 10 ^ 17) =
      some (some (.error .keyNotFound), some (.ok [1])) ∧
    foundAround [⟨.set [97] (some [1]) (some 98), .asStored, still 1⟩,
        ⟨.resize 2, .asStored, still 1⟩]
      [⟨.step, .asStored, fun reading _ => if reading = .store then 98 else 50⟩] 99 =
      some (some (.error .keyNotFound), some (.ok [1])) := by
  refine ⟨oneShard_init, ?_, ?_⟩
  · decide +kernel
  · decide +kernel

end MCache.Store
