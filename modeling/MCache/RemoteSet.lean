import MCache.ConnectionHandler
import MCache.MissingSubShards
import MCache.ReadYourWrites
import MCache.RequestRoundTrip
import MCache.SameKeys

/-!
# A remote `SET` against a local one

`clientConn.set` sends the time to live in whole milliseconds, the decoder
turns an empty value into a nil one, and the server calls `Set` of its cache.
The result is compared with `Set` called directly.
-/

namespace MCache.Net

open MCache.Store

def clientSet (key value : Bytes) (ttl : ℤ) : Request where
  cmd := Cmd.set.code
  key := key
  value := some value
  ttl := if 0 < ttl then ttl.tdiv (10 ^ 6) else 0

def servePayload (env : Env) (c : Cache) (p : Slice) : Option (Cache × Response) :=
  match decodeRequestPayload p with
  | .ok req => process env c req
  | .error (.error _) => some (c, .err (ascii "invalid request"))
  | .error .panic => none

def remoteSet (env : Env) (c : Cache) (stale key value : Bytes) (ttl : ℤ) : Option (Cache × Bool) :=
  (servePayload env c (.of (clientSet key value ttl).encodePayload stale)).map
    fun result => (result.1, decide (result.2.status = statusOK))

def localSet (env : Env) (c : Cache) (key value : Bytes) (ttl : ℤ) : Option (Cache × Bool) :=
  (c.set env.order env.clock key (some value) (some ttl)).map
    fun result => (result.1, result.2.isOk)

def wholeMillis (ttl : ℤ) : ℤ := ttl - ttl % 10 ^ 6

theorem setTTL_clientSet (key value : Bytes) {ttl : ℤ} (hlow : 0 ≤ ttl) (hhigh : ttl < 2 ^ 63) :
    setTTL (clientSet key value ttl).ttl = wholeMillis ttl := by
  have hdiv : ttl.tdiv (10 ^ 6) = ttl / 10 ^ 6 := Int.tdiv_eq_ediv_of_nonneg hlow
  have hwhole : ttl / 10 ^ 6 * 10 ^ 6 = wholeMillis ttl := by
    unfold wholeMillis
    omega
  have hfits : int64 (ttl / 10 ^ 6 * 10 ^ 6) = ttl / 10 ^ 6 * 10 ^ 6 := by
    apply int64_of_bounds <;> omega
  simp only [clientSet, setTTL, hdiv]
  by_cases hpos : 0 < ttl
  · rw [if_pos hpos]
    by_cases hmillis : 0 < ttl / 10 ^ 6
    · rw [if_pos hmillis, hfits, hwhole]
    · rw [if_neg hmillis, ← hwhole]
      omega
  · rw [if_neg hpos, if_neg (by omega), ← hwhole]
    omega

def EntriesAgree : Option CacheEntry → Option CacheEntry → Prop
  | none, none => True
  | some e, some e' =>
    e.value = e'.value ∧ (e.expiresAt ≠ 0 ↔ e'.expiresAt ≠ 0) ∧ (e.expiresAt ≠ 0 →
        e'.expiresAt ≤ e.expiresAt ∧ e.expiresAt ≤ e'.expiresAt + 10 ^ 6)
  | _, _ => False

def CallsAgree (key : Bytes) : Option (Cache × Bool) → Option (Cache × Bool) → Prop
  | none, none => True
  | some (c, ok), some (c', ok') =>
    ok = ok' ∧ EntriesAgree (c.table.lookup key) (c'.table.lookup key)
  | _, _ => False

def HasDeadline (now ttl : ℤ) : Prop := 0 < ttl ∧ now + ttl ≠ 0

theorem EntriesAgree.refl (e : Option CacheEntry) : EntriesAgree e e := by
  cases e with
  | none => exact trivial
  | some e => exact ⟨rfl, Iff.rfl, fun _ => ⟨le_rfl, by omega⟩⟩

section Comparison

variable {env : Env} {c : Cache} {key value : Bytes} {ttl : ℤ}

theorem clientSet_ttl_bounds (key value : Bytes) (hlow : 0 ≤ ttl) :
    0 ≤ (clientSet key value ttl).ttl ∧ (clientSet key value ttl).ttl ≤ ttl := by
  have hdiv : ttl.tdiv (10 ^ 6) = ttl / 10 ^ 6 := Int.tdiv_eq_ediv_of_nonneg hlow
  simp only [clientSet, hdiv]
  split_ifs <;> omega

theorem servePayload_clientSet (stale : Bytes) (hkeyLen : key.length < 2 ^ 16)
    (hvalLen : value.length < 2 ^ 32) (hlow : 0 ≤ ttl) (hhigh : ttl < 2 ^ 63) :
    servePayload env c (.of (clientSet key value ttl).encodePayload stale) =
      (c.set env.order env.clock key (if value = [] then none else some value)
        (some (wholeMillis ttl))).map
        fun result => (result.1, Response.done result.2) := by
  have hmillis := clientSet_ttl_bounds key value hlow
  have hdecode : decodeRequestPayload (.of (clientSet key value ttl).encodePayload stale) =
        .ok { clientSet key value ttl with
          value := if value = [] then none else some value } := by
    have hread := decodeRequestPayload_layout
      (Slice.rest_of (clientSet key value ttl).encodePayload stale) hkeyLen hvalLen
    rwa [int64_of_bounds (by omega) (by omega)] at hread
  have httl := setTTL_clientSet key value hlow hhigh
  unfold servePayload
  rw [hdecode, ← httl]
  rfl

theorem done_isOk (result : Except CacheError Unit) :
    decide ((Response.done result).status = statusOK) = result.isOk := by
  cases result <;> rfl

theorem remoteSet_nil (stale : Bytes) (hkeyLen : key.length < 2 ^ 16) (hlow : 0 ≤ ttl)
    (hhigh : ttl < 2 ^ 63) :
    remoteSet env c stale key [] ttl = some (c, false) := by
  unfold remoteSet
  rw [servePayload_clientSet stale hkeyLen (by simp) hlow hhigh, if_pos rfl]
  obtain ⟨e, he⟩ := Cache.set_refused (.inr (.inr rfl) :
    c.closed = true ∨ key = [] ∨ (none : Option Bytes) = none)
  rw [he]
  rfl

theorem remoteSet_eq (stale : Bytes) (hkeyLen : key.length < 2 ^ 16) (hvalue : value ≠ [])
    (hvalLen : value.length < 2 ^ 32) (hlow : 0 ≤ ttl) (hhigh : ttl < 2 ^ 63) :
    remoteSet env c stale key value ttl = localSet env c key value (wholeMillis ttl) := by
  unfold remoteSet localSet
  rw [servePayload_clientSet stale hkeyLen hvalLen hlow hhigh, if_neg hvalue, Option.map_map]
  simp only [Function.comp_def, done_isOk]

theorem newEntry_expiresAt (value : Bytes) {now : ℤ} (hlow : 0 ≤ ttl)
    (hnow : -2 ^ 63 ≤ now) (hsum : now + ttl < 2 ^ 63) :
    (newEntry now value (max ttl 0)).expiresAt =
      if 0 < ttl then now + ttl else 0 := by
  rw [max_eq_left hlow]
  simp only [newEntry]
  split_ifs
  · exact int64_of_bounds (by omega) hsum
  · rfl

theorem newEntry_agree_iff (value : Bytes) {now : ℤ} (hlow : 0 ≤ ttl)
    (hnow : -2 ^ 63 ≤ now) (hsum : now + ttl < 2 ^ 63) :
    EntriesAgree (some (newEntry now value (max ttl 0)))
        (some (newEntry now value (max (wholeMillis ttl) 0))) ↔
      (HasDeadline now ttl ↔ HasDeadline now (wholeMillis ttl)) := by
  have hwhole : 0 ≤ wholeMillis ttl ∧ wholeMillis ttl ≤ ttl ∧ ttl < wholeMillis ttl + 10 ^ 6 := by
    unfold wholeMillis
    omega
  have hexact := newEntry_expiresAt value hlow hnow hsum
  have hrounded := newEntry_expiresAt value hwhole.1 hnow
    (show now + wholeMillis ttl < 2 ^ 63 by omega)
  unfold EntriesAgree HasDeadline
  simp only [hexact, hrounded]
  constructor
  · rintro ⟨-, hdeadline, -⟩
    split_ifs at hdeadline <;> omega
  · intro hdeadline
    refine ⟨rfl, ?_, ?_⟩
    · split_ifs <;> omega
    · split_ifs <;> omega

end Comparison

structure StoresEntry (env : Env) (c : Cache) (key value : Bytes) (ttl : ℤ) : Prop where
  returns : ¬ c.Panics ⟨.set key (some value) (some ttl), env.order, env.clock⟩
  kept : c.dropsNew key = false
  moved : ∀ m moved, c.migration = some m →
    ({ m with old := m.old.del key } : Migration).moved c.rehasher env.order env.clock =
      some moved →
    ¬ (c.table.set key value (max ttl 0) (env.clock .current key)).Evicts env.clock key moved.2

theorem storesEntry_iff {env : Env} {c : Cache} {key value : Bytes} {ttl : ℤ}
    (hreach : store.Reachable c) (hopen : c.closed = false) (hkey : key ≠ []) :
    StoresEntry env c key value ttl ↔ ∃ next ok,
      localSet env c key value ttl = some (next, ok) ∧ next.table.lookup key ≠ none := by
  have hself : (c.table.set key value (max ttl 0) (env.clock .current key)).lookup key =
      none ↔ ¬ c.dropsNew key = false := by
    rw [ShardTable.set_lookup_self ((store_each consistent_invariant hreach).table
      (c.table.index key) ((c.table.shard key).subIndex key)), ← Cache.dropsNew]
    cases c.dropsNew key <;> simp
  have hreturns : (¬ c.Panics ⟨.set key (some value) (some ttl), env.order, env.clock⟩) ↔
      c.set env.order env.clock key (some value) (some ttl) ≠ none :=
    (not_congr (Cache.panics_iff hreach _).symm).trans (not_congr Option.map_eq_none_iff)
  have hfields : StoresEntry env c key value ttl ↔ _ ∧ _ ∧ _ :=
    ⟨fun h => ⟨h.returns, h.kept, h.moved⟩, fun h => ⟨h.1, h.2.1, h.2.2⟩⟩
  rw [hfields, hreturns, localSet]
  simp only [Cache.set, hopen, hkey, if_false, Bool.false_eq_true, Cache.ttlOrDefault,
    Cache.delOld, Cache.step]
  cases hmigration : c.migration with
  | none => simp [hself]
  | some m =>
    simp only [Option.map_some, Migration.step_eq]
    cases hmoved : ({ m with old := m.old.del key } : Migration).moved c.rehasher
        env.order env.clock with
    | none => simp
    | some moved =>
      have hlacks := Migration.moved_del_lacks ((store_routed hreach).old m hmigration) hmoved
      have hmoves : (∀ m' result, some m = some m' →
          ({ m' with old := m'.old.del key } : Migration).moved c.rehasher env.order
            env.clock = some result →
          ¬ (c.table.set key value (max ttl 0) (env.clock .current key)).Evicts
            env.clock key result.2) ↔
          ¬ (c.table.set key value (max ttl 0) (env.clock .current key)).Evicts
            env.clock key moved.2 := by
        refine ⟨fun h => h m moved rfl hmoved, ?_⟩
        rintro h _ result ⟨⟩ hsame
        cases hmoved.symm.trans hsame
        exact h
      rw [hmoves]
      simp [ShardTable.insertItems_lookup_eq_none_iff _ _ hlacks, hself]

theorem remoteSet_agrees_iff {c : Cache} (hreach : store.Reachable c) (env : Env)
    (stale key value : Bytes) (ttl : ℤ) (hkey : key ≠ [])
    (hkeyLen : key.length ≤ 65535)
    (hframe : (clientSet key value ttl).encodePayload.length ≤ maxPayloadSize)
    (hlow : 0 ≤ ttl) (hhigh : ttl < 2 ^ 63)
    (hnow : -2 ^ 63 ≤ env.clock .current key)
    (hsum : env.clock .current key + ttl < 2 ^ 63) :
    CallsAgree key (localSet env c key value ttl) (remoteSet env c stale key value ttl) ↔
      c.closed = true ∨ value ≠ [] ∧ (StoresEntry env c key value ttl →
          (HasDeadline (env.clock .current key) ttl ↔
            HasDeadline (env.clock .current key) (wholeMillis ttl))) := by
  have hkeyShort : key.length < 2 ^ 16 := by omega
  have hvalShort : value.length < 2 ^ 32 := by
    simp [clientSet, Request.encodePayload, maxPayloadSize] at hframe
    omega
  by_cases hclosed : c.closed = true
  · refine iff_of_true ?_ (.inl hclosed)
    have hrefused : ∀ value : Option Bytes,
        c.closed = true ∨ key = [] ∨ value = none := fun _ => .inl hclosed
    obtain ⟨e, he⟩ := Cache.set_refused (hrefused (some value))
    obtain ⟨e', he'⟩ := Cache.set_refused (hrefused (if value = [] then none else some value))
    unfold localSet remoteSet
    rw [servePayload_clientSet stale hkeyShort hvalShort hlow hhigh, he, he']
    exact ⟨rfl, .refl _⟩
  have hopen : c.closed = false := by simpa using hclosed
  by_cases hvalue : value = []
  · subst hvalue
    rw [remoteSet_nil stale hkeyShort hlow hhigh]
    refine iff_of_false ?_ (by simp [hclosed])
    unfold localSet
    rcases Cache.set_twice (store_routed hreach) hopen env.order env.clock hkey
        [] ttl ttl with ⟨hnone, -⟩ | ⟨next, -, hnext, -, -⟩
    · rw [hnone]
      exact id
    · rw [hnext]
      exact fun h => Bool.noConfusion h.1
  · rw [remoteSet_eq stale hkeyShort hvalue hvalShort hlow hhigh]
    simp only [hopen, Bool.false_eq_true, false_or, ne_eq, hvalue, not_false_eq_true, true_and]
    rw [storesEntry_iff hreach hopen hkey]
    unfold localSet
    rcases Cache.set_twice (store_routed hreach) hopen env.order env.clock hkey
        value ttl (wholeMillis ttl) with
      ⟨hnone, hnone'⟩ | ⟨next, next', hnext, hnext', hentry⟩
    · rw [hnone, hnone']
      refine iff_of_true trivial ?_
      rintro ⟨_, _, hstored, -⟩
      cases hstored
    · rw [hnext, hnext']
      rcases hentry with ⟨hgone, hgone'⟩ | ⟨hstored, hstored'⟩
      · refine iff_of_true ⟨rfl, ?_⟩ ?_
        · rw [hgone, hgone']
          exact trivial
        · rintro ⟨_, _, hresult, hfound⟩
          cases hresult
          exact absurd hgone hfound
      · have hagree := newEntry_agree_iff value hlow hnow hsum
        rw [← hstored, ← hstored'] at hagree
        constructor
        · intro h _
          exact hagree.mp h.2
        · intro h
          refine ⟨rfl, hagree.mpr (h ⟨next, true, rfl, ?_⟩)⟩
          rw [hstored]
          simp

theorem remoteSet_agrees_iff_millis : (1500000 : ℤ) % 10 ^ 6 ≠ 0 ∧
      CallsAgree [107] (localSet (.still 1) .ofDefaults [107] [120] 1500000)
        (remoteSet (.still 1) .ofDefaults [] [107] [120] 1500000) :=
  ⟨by decide, (remoteSet_agrees_iff (.init ⟨newOptions, rfl⟩) (.still 1) [] [107]
    [120] 1500000 (by decide) (by decide) (by decide) (by decide) (by decide)
    (by decide) (by decide)).mpr (.inr ⟨by decide, fun _ => by
      constructor <;> exact fun _ => ⟨by decide, by decide⟩⟩)⟩

theorem remoteSet_differs : ¬ CallsAgree [107] (localSet (.still 1) .ofDefaults [107] [] 0)
        (remoteSet (.still 1) .ofDefaults [] [107] [] 0) ∧
      ¬ CallsAgree [107] (localSet (.still 1) .ofDefaults [107] [120] 500000)
        (remoteSet (.still 1) .ofDefaults [] [107] [120] 500000) := by
  constructor
  · rw [remoteSet_nil [] (by decide) (by decide) (by decide)]
    exact fun h => Bool.noConfusion h.1
  · rw [remoteSet_eq [] (by decide) (by decide) (by decide) (by decide) (by decide)]
    intro h
    have hdeadline := h.2.2.1
    exact absurd hdeadline (by decide +kernel)

end MCache.Net
