import MCache.KeyManagement
import MCache.ReadYourWrites
import MCache.SameKeys

/-!
# The rules of expiry

A deadline is one 64-bit number of nanoseconds.  `Set` and the expiry commands
compute it with a sum that wraps around, and 0 stands for no deadline.  `Get`
compares with 0, while `TTL` and `PTTL` take everything up to 0 for no
deadline.
-/

namespace MCache.Store

def ReadableUntil (key : Bytes) (e : CacheEntry) (start : ℤ) (deadline : Option ℤ) : Prop :=
  ∀ later : Cache, later.migration = none → later.closed = false →
    later.table.lookup key = some e → ∀ order t, start ≤ t → t < 2 ^ 63 →
      ((∃ next, later.get order (still t) key = some (next, .ok e.value)) ↔
        ∀ limit ∈ deadline, t < limit)

section Readable

variable {key : Bytes} {e : CacheEntry} {start : ℤ}

theorem readableUntil_iff {c : Cache} (hidle : c.migration = none)
    (hopen : c.closed = false) (hkey : key ≠ [])
    (hlookup : c.table.lookup key = some e) (deadline : Option ℤ) :
    ReadableUntil key e start deadline ↔ ∀ t, start ≤ t → t < 2 ^ 63 →
      (e.isExpired t = false ↔ ∀ limit ∈ deadline, t < limit) := by
  have hget : ∀ {later : Cache}, later.migration = none → later.closed = false →
      later.table.lookup key = some e → ∀ order t,
        ((∃ next, later.get order (still t) key = some (next, .ok e.value)) ↔
          e.isExpired t = false) := by
    intro later hidle hopen hlookup order t
    rw [Cache.get_idle hidle hopen hkey, hlookup]
    simp [still]
  constructor
  · intro hreadable t hstart ht
    rw [← hreadable c hidle hopen hlookup .asStored t hstart ht]
    exact (hget hidle hopen hlookup .asStored t).symm
  · intro hlive later hidle hopen hlookup order t hstart ht
    rw [hget hidle hopen hlookup, hlive t hstart ht]

theorem live_until_iff {limit : ℤ} (hlimit : start < limit)
    (hstart : start < 2 ^ 63) (hstored : e.expiresAt < 2 ^ 63) :
    (∀ t, start ≤ t → t < 2 ^ 63 → (e.isExpired t = false ↔ t < limit)) ↔
      (e.expiresAt = limit ∧ limit ≠ 0) ∨ (e.expiresAt = 0 ∧ 2 ^ 63 ≤ limit) := by
  simp only [CacheEntry.isExpired_eq_false_iff]
  constructor
  · intro hlive
    have hfirst := hlive start le_rfl hstart
    have hlast := hlive (2 ^ 63 - 1) (by omega) (by omega)
    by_cases hzero : e.expiresAt = 0
    · right
      omega
    · left
      have hdeadline := hlive e.expiresAt (by omega) hstored
      by_cases hbefore : limit < 2 ^ 63
      · have hend := hlive limit (by omega) hbefore
        omega
      · omega
  · rintro (⟨hsame, hlimit⟩ | ⟨hzero, hlimit⟩) t hstart ht
    · omega
    · omega

variable {c : Cache} (hidle : c.migration = none) (hopen : c.closed = false)
  (hkey : key ≠ []) (hlookup : c.table.lookup key = some e)

include hidle hopen hkey hlookup

theorem readableUntil_some_iff {limit : ℤ} (hlimit : start < limit)
    (hstart : start < 2 ^ 63) (hstored : e.expiresAt < 2 ^ 63) :
    ReadableUntil key e start (some limit) ↔
      (e.expiresAt = limit ∧ limit ≠ 0) ∨ (e.expiresAt = 0 ∧ 2 ^ 63 ≤ limit) := by
  rw [readableUntil_iff hidle hopen hkey hlookup]
  simp only [Option.mem_some_iff, forall_eq']
  exact live_until_iff hlimit hstart hstored

theorem readableUntil_none_iff (hstart : start < 2 ^ 63) (hstored : e.expiresAt < 2 ^ 63) :
    ReadableUntil key e start none ↔ e.expiresAt = 0 := by
  rw [readableUntil_iff hidle hopen hkey hlookup]
  simp only [Option.not_mem_none, false_implies, implies_true, iff_true,
    CacheEntry.isExpired_eq_false_iff]
  constructor
  · intro hlive
    have hlast := hlive (2 ^ 63 - 1) (by omega) (by omega)
    omega
  · intro hzero t _ _
    exact .inl hzero

end Readable

def documentedTTL (defaultTTL : ℤ) (ttl : Option ℤ) : Option ℤ :=
  let asked := ttl.getD 0
  if 0 < asked then some asked
  else if asked = 0 ∧ 0 < defaultTTL then some defaultTTL
  else none

theorem documentedTTL_eq (c : Cache) (ttl : Option ℤ) : documentedTTL c.defaultTTL ttl =
      if 0 < c.ttlOrDefault ttl then some (c.ttlOrDefault ttl)
      else if ttl = some 0 ∧ 0 < c.defaultTTL then some c.defaultTTL
      else none := by
  unfold documentedTTL Cache.ttlOrDefault
  cases ttl with
  | none => simp
  | some asked =>
    simp only [Option.getD_some, Option.some.injEq]
    rcases lt_or_ge 0 asked with hpos | hneg
    · rw [if_pos hpos, max_eq_left hpos.le, if_pos hpos]
    · rw [if_neg (not_lt.mpr hneg), max_eq_right hneg, if_neg (lt_irrefl 0)]

theorem set_writes {c next : Cache} {order : MapOrder} {key value : Bytes}
    {ttl : Option ℤ} {s : ℤ} {e : CacheEntry} (hidle : c.migration = none)
    (hset : c.set order (still s) key (some value) ttl = some (next, .ok ()))
    (hwritten : next.table.lookup key = some e) :
    next.migration = none ∧ next.closed = false ∧ key ≠ [] ∧
      e = newEntry s value (c.ttlOrDefault ttl) := by
  rcases Cache.set_idle hidle hset with ⟨hopen, hkey, rfl⟩
  refine ⟨hidle, hopen, hkey, ?_⟩
  rcases c.table.set_lookup_or key value (c.ttlOrDefault ttl) s key with
    hgone | hstored
  · rw [still] at hwritten
    rw [hgone] at hwritten
    cases hwritten
  · rw [if_pos rfl] at hstored
    exact Option.some.inj (hwritten.symm.trans hstored)

theorem set_readable_iff {c next : Cache} {order : MapOrder} {key value : Bytes}
    {ttl : Option ℤ} {s : ℤ} {e : CacheEntry} (hidle : c.migration = none)
    (hdefault : c.defaultTTL < 2 ^ 63) (httl : ∀ asked ∈ ttl, asked < 2 ^ 63)
    (hsmin : -2 ^ 63 ≤ s) (hsmax : s < 2 ^ 63)
    (hset : c.set order (still s) key (some value) ttl = some (next, .ok ()))
    (hwritten : next.table.lookup key = some e) :
    (e.value = value ∧ ReadableUntil key e s ((documentedTTL c.defaultTTL ttl).map (s + ·))) ↔
    (ttl = some 0 → 0 < c.defaultTTL → 2 ^ 63 ≤ s + c.defaultTTL) ∧ (0 < c.ttlOrDefault ttl →
        s + c.ttlOrDefault ttl < 2 ^ 63 ∧ s + c.ttlOrDefault ttl ≠ 0) := by
  rcases set_writes hidle hset hwritten with ⟨hidle', hopen, hkey, rfl⟩
  have hvalue : (newEntry s value (c.ttlOrDefault ttl)).value = value := rfl
  rw [and_iff_right hvalue, documentedTTL_eq]
  by_cases hpos : 0 < c.ttlOrDefault ttl
  · have hexplicit : ttl ≠ some 0 := by
      rintro rfl
      exact lt_irrefl 0 hpos
    have hbound : c.ttlOrDefault ttl < 2 ^ 63 := by
      cases ttl with
      | none => exact hdefault
      | some asked => exact max_lt (httl asked rfl) (by norm_num)
    have hstored : (newEntry s value (c.ttlOrDefault ttl)).expiresAt =
        int64 (s + c.ttlOrDefault ttl) := if_pos hpos
    rw [if_pos hpos, Option.map_some, readableUntil_some_iff hidle' hopen hkey hwritten
      (by omega) hsmax (hstored.trans_lt (int64_lt _)), hstored,
      and_iff_right fun h => absurd h hexplicit, forall_prop_of_true hpos]
    by_cases hfits : s + c.ttlOrDefault ttl < 2 ^ 63
    · rw [int64_of_bounds (by omega) hfits]
      omega
    · rw [int64_of_overflow (by omega) (by omega)]
      omega
  · have hstored : (newEntry s value (c.ttlOrDefault ttl)).expiresAt = 0 := if_neg hpos
    have hstoredBound := hstored.trans_lt (by norm_num : (0 : ℤ) < 2 ^ 63)
    rw [if_neg hpos, and_iff_left fun h => absurd h hpos]
    by_cases hzero : ttl = some 0 ∧ 0 < c.defaultTTL
    · -- no clock shows a time at which the default would have ended the entry
      rw [if_pos hzero, Option.map_some, readableUntil_some_iff hidle' hopen hkey
        hwritten (by omega) hsmax hstoredBound, hstored]
      constructor
      · rintro (⟨hsame, hne⟩ | ⟨-, hlimit⟩) _ _
        · exact absurd hsame.symm hne
        · exact hlimit
      · intro hlimit
        exact .inr ⟨rfl, hlimit hzero.1 hzero.2⟩
    · rw [if_neg hzero, Option.map_none, readableUntil_none_iff hidle' hopen hkey
        hwritten hsmax hstoredBound]
      exact iff_of_true hstored fun hexplicit hdefault =>
        absurd ⟨hexplicit, hdefault⟩ hzero

def briefCache : Cache := { Cache.ofDefaults with defaultTTL := 10 }

theorem briefCache_init : store.init briefCache := ⟨{ newOptions with defaultTTL := 10 }, rfl⟩

def Cache.setThenGet (c : Cache) (s : ℤ) (ttl : Option ℤ) (t : ℤ) :
    Option (Except CacheError Bytes) :=
  (c.set .asStored (still s) [97] (some [1]) ttl).bind fun written =>
    (written.1.get .asStored (still t) [97]).map Prod.snd

theorem set_readable_iff_briefCache :
    ∃ next e, briefCache.set .asStored (still 5) [97] (some [1]) none = some (next, .ok ()) ∧
      next.table.lookup [97] = some e ∧ e.value = [1] ∧
      ReadableUntil [97] e 5 (some 15) := by
  have hset := @Cache.set_of_idle briefCache [97] rfl rfl .asStored (still 5) (by decide) [1] none
  have hwritten : (briefCache.table.set [97] [1] 10 5).lookup [97] = some ⟨[1], 15⟩ := by
    decide +kernel
  exact ⟨_, _, hset, hwritten, (set_readable_iff rfl (by decide) (by simp) (by decide)
    (by decide) hset hwritten).mpr ⟨nofun, by decide⟩⟩

theorem set_ignores_default :
    store.Reachable briefCache ∧ documentedTTL briefCache.defaultTTL (some 0) = some 10 ∧
      briefCache.setThenGet 5 (some 0) 15 = some (.ok [1]) ∧
      briefCache.setThenGet 5 (some (2 ^ 63 - 1)) 5 = some (.error .keyNotFound) := by
  refine ⟨.init briefCache_init, by decide, ?_, ?_⟩
  · decide +kernel
  · decide +kernel

inductive ExpiryCommand where
  | expire
  | pExpire
  | expireAt
  | pExpireAt
  deriving DecidableEq

namespace ExpiryCommand

def run (cmd : ExpiryCommand) (c : Cache) (clock : Clock) (key : Bytes)
    (arg : ℤ) : Cache × Except CacheError Bool :=
  match cmd with
  | expire => c.expire clock key arg
  | pExpire => c.pExpire clock key arg
  | expireAt => c.expireAt clock key arg
  | pExpireAt => c.pExpireAt clock key arg

def target (cmd : ExpiryCommand) (s arg : ℤ) : ℤ :=
  match cmd with
  | expire => s + arg * 10 ^ 9
  | pExpire => s + arg * 10 ^ 6
  | expireAt => arg * 10 ^ 9
  | pExpireAt => arg * 10 ^ 6

def duration (cmd : ExpiryCommand) (s arg : ℤ) : ℤ :=
  match cmd with
  | expire => int64 (arg * 10 ^ 9)
  | pExpire => int64 (arg * 10 ^ 6)
  | expireAt => saturated (unixNano arg - s)
  | pExpireAt => saturated (int64 (arg * 10 ^ 6) - s)

def absolute : ExpiryCommand → Bool
  | expire => false
  | pExpire => false
  | expireAt => true
  | pExpireAt => true

variable {cmd : ExpiryCommand} {s arg : ℤ}

theorem int64_duration_relative (hrelative : cmd.absolute = false) :
    int64 (s + cmd.duration s arg) = int64 (cmd.target s arg) := by
  cases cmd with
  | expire => exact int64_add_int64 _ _
  | pExpire => exact int64_add_int64 _ _
  | expireAt => cases hrelative
  | pExpireAt => cases hrelative

theorem duration_absolute (habsolute : cmd.absolute = true) (hsmin : -2 ^ 63 ≤ s)
    (htarget : s < cmd.target s arg) (hfits : cmd.target s arg < 2 ^ 63) :
    cmd.duration s arg = saturated (cmd.target s arg - s) := by
  cases cmd with
  | expire => cases habsolute
  | pExpire => cases habsolute
  | expireAt =>
    simp only [target] at htarget hfits
    simp only [duration, target]
    rw [unixNano_of_bounds (by omega) (by omega)]
  | pExpireAt =>
    simp only [target] at htarget hfits
    simp only [duration, target]
    rw [int64_of_bounds (by omega) hfits]

theorem deadline_iff (hsmin : -2 ^ 63 ≤ s) (hsmax : s < 2 ^ 63) (htarget : s < cmd.target s arg) :
    ((cmd.absolute = true → 0 < cmd.duration s arg) ∧
      ((int64 (s + cmd.duration s arg) = cmd.target s arg ∧ cmd.target s arg ≠ 0) ∨
        (int64 (s + cmd.duration s arg) = 0 ∧ 2 ^ 63 ≤ cmd.target s arg))) ↔
    (cmd.target s arg < 2 ^ 63 ∧ cmd.target s arg ≠ 0 ∧
        (cmd.absolute = true → cmd.target s arg - s < 2 ^ 63)) ∨
      (2 ^ 63 ≤ cmd.target s arg ∧ int64 (s + cmd.duration s arg) = 0 ∧
        (cmd.absolute = true → 0 < cmd.duration s arg)) := by
  by_cases hfits : cmd.target s arg < 2 ^ 63
  · cases hkind : cmd.absolute with
    | false =>
      rw [int64_duration_relative hkind, int64_of_bounds (by omega) hfits]
      simp only [Bool.false_eq_true, false_implies, true_and, and_true]
      omega
    | true =>
      have hduration := duration_absolute hkind hsmin htarget hfits
      rw [hduration]
      simp only [true_implies]
      by_cases hnear : cmd.target s arg - s < 2 ^ 63
      · rw [saturated_of_bounds (by omega) hnear, add_sub_cancel, int64_of_bounds (by omega) hfits]
        omega
      · -- `time.Until` ends at the largest duration, which falls short of the target
        have hcapped : saturated (cmd.target s arg - s) = 2 ^ 63 - 1 := by
          unfold saturated
          omega
        rw [hcapped, int64_of_bounds (by omega) (by omega)]
        omega
  · have hbelow := int64_lt (s + cmd.duration s arg)
    constructor
    · rintro ⟨htrue, ⟨hsame, -⟩ | ⟨hzero, hbeyond⟩⟩
      · omega
      · exact .inr ⟨hbeyond, hzero, htrue⟩
    · rintro (⟨hlt, -⟩ | ⟨hbeyond, hzero, htrue⟩)
      · exact absurd hlt hfits
      · exact ⟨htrue, .inr ⟨hzero, hbeyond⟩⟩

theorem run_eq (cmd : ExpiryCommand) (c : Cache) (key : Bytes) (s arg : ℤ) :
    cmd.run c (still s) key arg = c.onShard key fun shard =>
      if cmd.absolute = true ∧ cmd.duration s arg ≤ 0 then (shard, false)
      else shard.expire key (cmd.duration s arg) s s := by
  cases cmd with
  | expire => simp [run, absolute, duration, Cache.expire, still]
  | pExpire => simp [run, absolute, duration, Cache.pExpire, still]
  | expireAt =>
    simp only [run, absolute, duration, Cache.expireAt, Cache.expireTarget, still, true_and]
    congr
  | pExpireAt =>
    simp only [run, absolute, duration, Cache.pExpireAt, Cache.expireTarget, still, true_and]
    congr

section Live

variable {c : Cache} {key : Bytes} {e : CacheEntry} (hopen : c.closed = false) (hkey : key ≠ [])

include hopen hkey

theorem run_refused (hpast : cmd.absolute = true ∧ cmd.duration s arg ≤ 0) :
    (cmd.run c (still s) key arg).2 = .ok false := by
  rw [run_eq, Cache.onShard_open hopen hkey, if_pos hpast]

theorem run_stores (hfuture : ¬ (cmd.absolute = true ∧ cmd.duration s arg ≤ 0))
    (hlookup : c.table.lookup key = some e) (hlive : e.isExpired s = false) :
    (cmd.run c (still s) key arg).2 = .ok true ∧
      (cmd.run c (still s) key arg).1.migration = c.migration ∧
      (cmd.run c (still s) key arg).1.closed = false ∧
      (cmd.run c (still s) key arg).1.table.lookup key =
        some { e with expiresAt := int64 (s + cmd.duration s arg) } := by
  rcases Shard.expire_live hlookup hlive (cmd.duration s arg) s with ⟨htrue, hstored⟩
  rw [run_eq, Cache.onShard_open hopen hkey, if_neg hfuture]
  refine ⟨congrArg Except.ok htrue, rfl, hopen, ?_⟩
  exact (ShardTable.lookup_withShard_self _ _ _).trans hstored

end Live

end ExpiryCommand

theorem expiry_command_iff (cmd : ExpiryCommand) {c next : Cache} {order : MapOrder}
    {key value : Bytes} {s arg : ℤ} (hidle : c.migration = none)
    (hsmin : -2 ^ 63 ≤ s) (hsmax : s < 2 ^ 63)
    (hget : c.get order (still s) key = some (next, .ok value))
    (htarget : s < cmd.target s arg) :
    ((cmd.run c (still s) key arg).2 = .ok true ∧
      ∃ e, (cmd.run c (still s) key arg).1.table.lookup key = some e ∧
        e.value = value ∧ ReadableUntil key e s (some (cmd.target s arg))) ↔
    (cmd.target s arg < 2 ^ 63 ∧ cmd.target s arg ≠ 0 ∧
        (cmd.absolute = true → cmd.target s arg - s < 2 ^ 63)) ∨
      (2 ^ 63 ≤ cmd.target s arg ∧ int64 (s + cmd.duration s arg) = 0 ∧
        (cmd.absolute = true → 0 < cmd.duration s arg)) := by
  rcases Cache.get_ok_open hget with ⟨hopen, hkey⟩
  rcases (Cache.get_idle hidle hopen hkey order (still s) value).mp ⟨next, hget⟩ with
    ⟨e, hlookup, hvalue, hlive⟩
  rw [← ExpiryCommand.deadline_iff hsmin hsmax htarget]
  by_cases hpast : cmd.absolute = true ∧ cmd.duration s arg ≤ 0
  · rw [ExpiryCommand.run_refused hopen hkey hpast]
    refine iff_of_false (fun h => ?_) fun h => ?_
    · cases h.1
    · exact absurd (h.1 hpast.1) (not_lt.mpr hpast.2)
  · rcases ExpiryCommand.run_stores hopen hkey hpast hlookup hlive with
      ⟨htrue, hidle', hopen', hstored⟩
    have hfuture : cmd.absolute = true → 0 < cmd.duration s arg :=
      fun habsolute => not_le.mp fun hle => hpast ⟨habsolute, hle⟩
    have hreadable := @readableUntil_some_iff key _ s _ (hidle'.trans hidle) hopen' hkey
      hstored _ htarget hsmax (int64_lt _)
    rw [and_iff_right htrue, and_iff_right hfuture, hstored, ← hreadable]
    simp [hvalue]

theorem oneKey_reached : ∃ c next, store.Reachable c ∧ c.migration = none ∧ c.closed = false ∧
      c.get .asStored (still 1) [97] = some (next, .ok [1]) ∧
      c.table.lookup [97] = some ⟨[1], 0⟩ := by
  have hrun : (store.runBy (fun _ _ => True) .ofDefaults [setAction [97] [1]]).map
      (fun c => (c.migration.isSome, c.closed, c.table.lookup [97])) =
      some (false, false, some ⟨[1], 0⟩) := by
    decide +kernel
  rcases TransitionSystem.exists_reachableBy store_init_ofDefaults hrun with
    ⟨c, hreach, hfacts⟩
  simp only [Prod.mk.injEq, Option.isSome_eq_false_iff, Option.isNone_iff_eq_none] at hfacts
  rcases hfacts with ⟨hidle, hopen, hlookup⟩
  rcases (Cache.get_idle hidle hopen (by decide) .asStored (still 1) [1]).mpr
    ⟨_, hlookup, rfl, rfl⟩ with ⟨next, hget⟩
  exact ⟨c, next, hreach, hidle, hopen, hget, hlookup⟩

theorem expiry_command_iff_expireAt :
    ∃ c e, store.Reachable c ∧ (c.expireAt (still 1) [97] 3).2 = .ok true ∧
      (c.expireAt (still 1) [97] 3).1.table.lookup [97] = some e ∧
      e.value = [1] ∧ ReadableUntil [97] e 1 (some (3 * 10 ^ 9)) := by
  rcases oneKey_reached with ⟨c, next, hreach, hidle, -, hget, -⟩
  rcases (expiry_command_iff .expireAt hidle (by decide) (by decide) hget
    (by decide : (1 : ℤ) < 3 * 10 ^ 9)).mpr (by decide) with ⟨htrue, e, hexpiring⟩
  exact ⟨c, e, hreach, htrue, hexpiring⟩

theorem expire_ends_key_at_once : ∃ c, store.Reachable c ∧ c.migration = none ∧
      (∃ next, c.get .asStored (still 1) [97] = some (next, .ok [1])) ∧
      (c.expire (still 1) [97] 9223372037).2 = .ok true ∧
      ¬ ∃ next value, (c.expire (still 1) [97] 9223372037).1.get .asStored (still 1)
        [97] = some (next, .ok value) := by
  rcases oneKey_reached with ⟨c, next, hreach, hidle, hopen, hget, hlookup⟩
  rcases ExpiryCommand.run_stores hopen (by decide : ([97] : Bytes) ≠ [])
    (by decide : ¬ (ExpiryCommand.expire.absolute = true ∧
      ExpiryCommand.expire.duration 1 9223372037 ≤ 0)) hlookup
    (by decide : (⟨[1], 0⟩ : CacheEntry).isExpired 1 = false) with
    ⟨htrue, hidle', hopen', hstored⟩
  refine ⟨c, hreach, hidle, ⟨next, hget⟩, htrue, ?_⟩
  rintro ⟨later, value, hread⟩
  rcases (Cache.get_idle (hidle'.trans hidle) hopen' (by decide) .asStored (still 1)
    value).mp ⟨later, hread⟩ with ⟨e, hlookup', -, hlive⟩
  cases hstored.symm.trans hlookup'
  revert hlive
  decide

def Cache.Readable (c : Cache) (key : Bytes) (now : ℤ) : Prop :=
  ∃ order next value, c.get order (still now) key = some (next, .ok value)

structure Cache.ViewsAgree (c : Cache) (key : Bytes) (now : ℤ) : Prop where
  keyExists : c.keyExists (still now) key = .ok true ↔ c.Readable key now
  keyType : c.keyType (still now) key = .ok keyTypeString ↔ c.Readable key now
  ttl : (∃ left, c.ttl (still now) key = .ok left ∧ left ≠ -2) ↔ c.Readable key now
  pTTL : (∃ left, c.pTTL (still now) key = .ok left ∧ left ≠ -2) ↔ c.Readable key now
  ttl_forever : c.ttl (still now) key = .ok (-1) ↔ ∀ t, now ≤ t → c.Readable key t
  pTTL_forever : c.pTTL (still now) key = .ok (-1) ↔ ∀ t, now ≤ t → c.Readable key t
  otherwise : ∀ left, c.pTTL (still now) key = .ok left → left ≠ -2 → left ≠ -1 →
    0 ≤ left ∧ c.ttl (still now) key = .ok (left / 1000)

section Views

variable {c : Cache} {key : Bytes} {now : ℤ}
variable {unit : ℤ} {entry : Option CacheEntry}

theorem Cache.readable_iff (hidle : c.migration = none) :
    c.Readable key now ↔ c.closed = false ∧ key ≠ [] ∧ c.InTable key now := by
  constructor
  · rintro ⟨order, next, value, hget⟩
    rcases Cache.get_ok_open hget with ⟨hopen, hkey⟩
    rcases (Cache.get_idle hidle hopen hkey order (still now) value).mp ⟨next, hget⟩
      with ⟨e, hlookup, -, hlive⟩
    exact ⟨hopen, hkey, e, hlookup, hlive⟩
  · rintro ⟨hopen, hkey, e, hlookup, hlive⟩
    rcases (Cache.get_idle hidle hopen hkey .asStored (still now) e.value).mpr
      ⟨e, hlookup, rfl, hlive⟩ with ⟨next, hget⟩
    exact ⟨.asStored, next, e.value, hget⟩

theorem Cache.readShard_eq_ok_iff {α : Type} {f : Shard → α} {a : α} : c.readShard key f = .ok a ↔
      c.closed = false ∧ key ≠ [] ∧ f (c.table.shard key) = a := by
  unfold Cache.readShard Cache.onShard
  cases c.closed with
  | true => simp
  | false => by_cases hkey : key = [] <;> simp [hkey]

theorem timeLeft_eq_neg_one_iff (hunit : 0 < unit) :
    timeLeft unit entry now = -1 ↔ ∃ e, entry = some e ∧ e.expiresAt ≤ 0 := by
  cases entry with
  | none => simp [timeLeft]
  | some e =>
    simp only [timeLeft, Option.some.injEq, exists_eq_left']
    split_ifs with hnone hgone
    · simp [hnone]
    · simp [hnone]
    · have := Int.ediv_nonneg (not_le.mp hgone).le hunit.le
      simp only [hnone, iff_false]
      omega

theorem timeLeft_ne_neg_two_iff (hunit : 0 < unit)
    (hnonneg : ∀ e, entry = some e → 0 ≤ e.expiresAt) :
    timeLeft unit entry now ≠ -2 ↔ ∃ e, entry = some e ∧ e.isExpired now = false := by
  constructor
  · intro hleft
    cases entry with
    | none => exact absurd rfl hleft
    | some e =>
      refine ⟨e, rfl, CacheEntry.isExpired_eq_false_iff.mpr ?_⟩
      have := hnonneg e rfl
      by_contra hexpired
      refine hleft ?_
      have hgone : saturated (e.expiresAt - now) ≤ 0 := by
        unfold saturated
        omega
      simp only [timeLeft]
      rw [if_neg (by omega), if_pos hgone]
  · rintro ⟨e, rfl, hlive⟩
    exact timeLeft_live hlive hunit

theorem timeLeft_otherwise (hentry : timeLeft (10 ^ 6) entry now ≠ -2)
    (hends : timeLeft (10 ^ 6) entry now ≠ -1) :
    0 ≤ timeLeft (10 ^ 6) entry now ∧
      timeLeft (10 ^ 9) entry now = timeLeft (10 ^ 6) entry now / 1000 := by
  cases entry with
  | none => exact absurd rfl hentry
  | some e =>
    simp only [timeLeft] at hentry hends ⊢
    split_ifs at hentry hends ⊢ with hnone hgone
    · exact absurd rfl hends
    · exact absurd rfl hentry
    · omega

theorem Cache.keyExists_eq_ok_iff (hnone : c.NoCollection key) :
    c.keyExists (still now) key = .ok true ↔ c.closed = false ∧ key ≠ [] ∧ c.InTable key now := by
  rw [Cache.keyExists, Cache.readShard_eq_ok_iff, hnone.keyExists_eq, Cache.inTable_iff, still]

theorem Cache.keyType_eq_ok_iff (hnone : c.NoCollection key) :
    c.keyType (still now) key = .ok keyTypeString ↔
      c.closed = false ∧ key ≠ [] ∧ c.InTable key now := by
  rw [Cache.keyType, Cache.readShard_eq_ok_iff, Cache.inTable_iff, still]
  simp only [Shard.keyType, hnone.1, hnone.2.1, hnone.2.2, if_false]
  cases (c.table.shard key).holdsString key now with
  | true => simp
  | false => simp [keyTypeNone, keyTypeString]

theorem Cache.readable_forever_iff (hidle : c.migration = none) :
    (∀ t, now ≤ t → c.Readable key t) ↔ c.closed = false ∧ key ≠ [] ∧
      ∃ e, c.table.lookup key = some e ∧ e.expiresAt = 0 := by
  simp only [Cache.readable_iff hidle]
  constructor
  · intro hreadable
    rcases hreadable now le_rfl with ⟨hopen, hkey, e, hlookup, -⟩
    rcases hreadable (max now e.expiresAt) (le_max_left _ _) with
      ⟨-, -, e', hlookup', hlive⟩
    cases hlookup.symm.trans hlookup'
    refine ⟨hopen, hkey, e, hlookup, ?_⟩
    rcases CacheEntry.isExpired_eq_false_iff.mp hlive with hzero | hlater
    · exact hzero
    · exact absurd (le_max_right now e.expiresAt) (not_le.mpr hlater)
  · rintro ⟨hopen, hkey, e, hlookup, hzero⟩ t _
    exact ⟨hopen, hkey, e, hlookup, CacheEntry.isExpired_eq_false_iff.mpr (.inl hzero)⟩

theorem Cache.timeLeft_agrees (hidle : c.migration = none) (hnonneg : c.closed = false → key ≠ [] →
      ∀ e, c.table.lookup key = some e → 0 ≤ e.expiresAt) (hunit : 0 < unit)
    {view : Except CacheError ℤ}
    (hview : view = c.readShard key fun s => timeLeft unit (s.lookup key) now) :
    ((∃ left, view = .ok left ∧ left ≠ -2) ↔ c.Readable key now) ∧
      (view = .ok (-1) ↔ ∀ t, now ≤ t → c.Readable key t) := by
  subst hview
  simp only [Cache.readShard_eq_ok_iff]
  constructor
  · rw [Cache.readable_iff hidle]
    constructor
    · rintro ⟨left, ⟨hopen, hkey, rfl⟩, hleft⟩
      exact ⟨hopen, hkey, (timeLeft_ne_neg_two_iff hunit (hnonneg hopen hkey)).mp hleft⟩
    · rintro ⟨hopen, hkey, hlive⟩
      exact ⟨_, ⟨hopen, hkey, rfl⟩, (timeLeft_ne_neg_two_iff hunit (hnonneg hopen hkey)).mpr hlive⟩
  · rw [Cache.readable_forever_iff hidle]
    refine and_congr_right fun hopen => and_congr_right fun hkey => ?_
    rw [timeLeft_eq_neg_one_iff hunit]
    refine exists_congr fun e => and_congr_right fun hlookup => ?_
    have := hnonneg hopen hkey e hlookup
    omega

end Views

theorem views_agree_iff {c : Cache} {key : Bytes} (now : ℤ) (hidle : c.migration = none)
    (hnone : c.NoCollection key) :
    c.ViewsAgree key now ↔ (c.closed = false → key ≠ [] →
      ∀ e, c.table.lookup key = some e → 0 ≤ e.expiresAt) := by
  constructor
  · intro hagree hopen hkey e hlookup
    by_contra hnegative
    have hnever : c.ttl (still now) key = .ok (-1) := by
      rw [Cache.ttl, Cache.readShard_eq_ok_iff]
      exact ⟨hopen, hkey, (timeLeft_eq_neg_one_iff (by norm_num)).mpr
        ⟨e, hlookup, (not_le.mp hnegative).le⟩⟩
    rcases (Cache.readable_forever_iff hidle).mp (hagree.ttl_forever.mp hnever) with
      ⟨-, -, e', hlookup', hzero⟩
    cases hlookup.symm.trans hlookup'
    exact hnegative hzero.ge
  · intro hnonneg
    rcases Cache.timeLeft_agrees hidle hnonneg (by norm_num : (0 : ℤ) < 10 ^ 9) rfl with
      ⟨httl, httlForever⟩
    rcases Cache.timeLeft_agrees hidle hnonneg (by norm_num : (0 : ℤ) < 10 ^ 6) rfl with
      ⟨hpTTL, hpTTLForever⟩
    constructor
    case keyExists => rw [Cache.readable_iff hidle, Cache.keyExists_eq_ok_iff hnone]
    case keyType => rw [Cache.readable_iff hidle, Cache.keyType_eq_ok_iff hnone]
    case ttl => exact httl
    case pTTL => exact hpTTL
    case ttl_forever => exact httlForever
    case pTTL_forever => exact hpTTLForever
    case otherwise =>
      intro left hleft hentry hends
      rw [Cache.pTTL, Cache.readShard_eq_ok_iff] at hleft
      rcases hleft with ⟨hopen, hkey, rfl⟩
      rcases timeLeft_otherwise hentry hends with ⟨hleft, hseconds⟩
      refine ⟨hleft, ?_⟩
      rw [Cache.ttl, Cache.readShard_eq_ok_iff]
      exact ⟨hopen, hkey, hseconds⟩

theorem views_agree_iff_setAndExpire : ∃ c, store.Reachable c ∧ c.ViewsAgree [97] 1 ∧
      c.pTTL (still 1) [97] = .ok 5000 := by
  have hrun : (store.runBy (fun _ _ => True) .ofDefaults
      [setAction [97] [1], ⟨.expire [97] 5, .asStored, still 1⟩]).map
      (fun c => (c.migration.isSome, decide (c.NoCollection [97]),
        c.table.lookup [97], c.pTTL (still 1) [97])) =
      some (false, true, some ⟨[1], 5000000001⟩, .ok 5000) := by
    decide +kernel
  rcases TransitionSystem.exists_reachableBy store_init_ofDefaults hrun with
    ⟨c, hreach, hfacts⟩
  simp only [Prod.mk.injEq, Option.isSome_eq_false_iff, Option.isNone_iff_eq_none,
    decide_eq_true_eq] at hfacts
  rcases hfacts with ⟨hidle, hnone, hlookup, hleft⟩
  refine ⟨c, hreach, (views_agree_iff 1 hidle hnone).mpr fun _ _ e he => ?_, hleft⟩
  cases hlookup.symm.trans he
  decide

theorem views_disagree : ∃ c, store.Reachable c ∧ c.migration = none ∧ c.NoCollection [97] ∧
      (c.get .asStored (still (17 * 10 ^ 17)) [97]).map Prod.snd = some (.error .keyNotFound) ∧
      c.ttl (still (17 * 10 ^ 17)) [97] = .ok (-1) := by
  have hrun : (store.runBy (fun _ _ => True) .ofDefaults
      [⟨.set [97] (some [1]) none, .asStored, still (17 * 10 ^ 17)⟩,
        ⟨.expire [97] (-2 * 10 ^ 9), .asStored, still (17 * 10 ^ 17)⟩]).map
      (fun c => (decide (c.migration.isNone = true ∧ c.NoCollection [97]),
        (c.get .asStored (still (17 * 10 ^ 17)) [97]).map Prod.snd,
        c.ttl (still (17 * 10 ^ 17)) [97])) =
      some (true, some (.error .keyNotFound), .ok (-1)) := by
    decide +kernel
  rcases TransitionSystem.exists_reachableBy store_init_ofDefaults hrun with
    ⟨c, hreach, hfacts⟩
  simp only [Prod.mk.injEq, Option.isNone_iff_eq_none, decide_eq_true_eq] at hfacts
  rcases hfacts with ⟨⟨hidle, hnone⟩, hget, hleft⟩
  exact ⟨c, hreach, hidle, hnone, hget, hleft⟩

end MCache.Store
