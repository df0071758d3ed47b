import MCache.UntimedTables

/-!
# An invariant of concurrent calls

A migration step takes entries out of the old table, carries them, and stores
them into the current one.  The invariant below says where the value of a key
can be, and what a call that is halfway through its accesses may rely on.  It
is kept by every step that does not get in the way of another call; which
steps these are is the contract `Advance`.
-/

namespace MCache.Store

variable {r : Running} {key : Bytes}

/-! ## Where calls are -/

namespace Pc

variable {pc : Pc}

def accessing : Pc → Bool
  | .access _ | .checkOld | .oldShard | .accessOld _ => true
  | _ => false

def halfway : Pc → Bool
  | .checkOld | .oldShard | .accessOld _ => true
  | _ => false

def after : Pc → Bool
  | .checkStep | .loadStep | .beginStep _ | .extract .. | .pickShard ..
  | .putItem .. | .endStep .. | .done => true
  | _ => false

def migrating : Pc → Bool
  | .beginStep _ | .extract .. | .pickShard .. | .putItem .. | .endStep .. => true
  | _ => false

def resizing : Pc → Bool
  | .start | .swap => true
  | _ => false

def idle (pc : Pc) : Bool := !pc.accessing && !pc.migrating

def flight : Pc → List Item
  | .pickShard _ _ item rest | .putItem _ _ _ item rest => item :: rest
  | _ => []

theorem accessing_of_halfway (h : pc.halfway = true) : pc.accessing = true := by
  cases pc <;> first | rfl | cases h

theorem idle_iff : pc.idle = true ↔ pc.accessing = false ∧ pc.migrating = false := by
  simp [idle]

theorem not_accessing_of_flight {item : Item} (h : item ∈ pc.flight) : pc.accessing = false := by
  cases pc <;> first | rfl | cases h

theorem migrating_of_flight {item : Item} (h : item ∈ pc.flight) : pc.migrating = true := by
  cases pc <;> first | rfl | cases h

end Pc

theorem Running.key_of_writesKey (h : r.writesKey key = true) : r.call.op.key = some key := by
  unfold Running.writesKey Op.writes at h
  cases hop : r.call.op <;> rw [hop] at h <;> simp [Op.key] at h ⊢
  · exact h
  · exact h

theorem Running.writesKey_iff :
    r.writesKey key = true ↔ ∃ value, r.call.op.writes = some (key, value) := by
  unfold Running.writesKey
  cases hwrites : r.call.op.writes with
  | none => simp
  | some written => simp [Prod.ext_iff]

theorem Running.writesKey_iff_of_writes {other : Bytes} {value : Option Bytes}
    (hwrites : r.call.op.writes = some (key, value)) :
    r.writesKey other = true ↔ other = key := by
  rw [Running.writesKey_iff, hwrites]
  simp [eq_comm]

theorem Running.writesKey_of_op {r' : Running} (hop : r'.call.op = r.call.op)
    (key : Bytes) : r'.writesKey key = r.writesKey key := by
  unfold Running.writesKey
  rw [hop]

/-! ## What the shared state holds -/

namespace Shared

def cur (sh : Shared) : Bytes → Option Bytes := (sh.tables sh.current).read

def oldRead (sh : Shared) (key : Bytes) : Option Bytes :=
  match sh.old with
  | none => none
  | some old => (sh.tables old).read key

def Stale (sh : Shared) (id : ℕ) : Prop := id ≠ sh.current ∧ (sh.old = some id ∨ sh.old = none)

structure Sound (sh : Shared) : Prop where
  untimed : ∀ id, (sh.tables id).Untimed
  current : sh.current < sh.fresh
  retired : ∀ id, id ≠ sh.current → sh.old ≠ some id → ∀ key, (sh.tables id).read key = none
  swept : ∀ old, sh.old = some old → sh.rehashIdx < 2 ^ (sh.tables old).bits ∧
      ∀ key, ((sh.tables old).index key).val < sh.rehashIdx → (sh.tables old).read key = none

variable {sh : Shared}

theorem oldRead_of_none (hold : sh.old = none) (key : Bytes) : sh.oldRead key = none := by
  rw [oldRead, hold]

theorem oldRead_of_some {id : ℕ} (hold : sh.old = some id) (key : Bytes) :
    sh.oldRead key = (sh.tables id).read key := by
  rw [oldRead, hold]

theorem Sound.read_stale (hsh : sh.Sound) {id : ℕ} (hid : sh.Stale id)
    (key : Bytes) : (sh.tables id).read key = sh.oldRead key := by
  rcases hid with ⟨hne, hold | hold⟩
  · rw [oldRead_of_some hold]
  · rw [oldRead_of_none hold]
    exact hsh.retired id hne (by rw [hold]; nofun) key

end Shared

/-! ## The invariant -/

namespace Concurrent

variable {n : ℕ}

def Flies (s : Concurrent n) (key value : Bytes) : Prop :=
  ∃ p r item, s.threads p = some r ∧ item ∈ r.call.pc.flight ∧ item.key = key ∧ item.value = value

def Present (s : Concurrent n) (key value : Bytes) : Prop :=
  s.shared.cur key = some value ∨ s.shared.oldRead key = some value ∨ s.Flies key value

def Holds (s : Concurrent n) (key : Bytes) (o : Option Bytes) : Prop :=
  ∀ value, s.Present key value ↔ o = some value

end Concurrent

def Pc.Fits (sh : Shared) : Pc → Prop
  | .access id | .beginStep id | .pickShard id _ _ _ => id = sh.current
  | .accessOld id => sh.Stale id
  | .extract id old idx =>
    id = sh.current ∧ sh.Stale old ∧ idx < 2 ^ (sh.tables old).bits
  | .putItem id _ shard item _ =>
    id = sh.current ∧ shard = ((sh.tables sh.current).index item.key).val
  | .endStep idx moved =>
    moved = false → ∀ old, sh.old = some old → ∀ key,
      ((sh.tables old).index key).val = idx → sh.oldRead key = none
  | _ => True

theorem Pc.fits_of_idle {sh : Shared} {pc : Pc} (h : pc.idle = true) : pc.Fits sh := by
  cases pc <;> trivial

structure Running.Knows {n : ℕ} (s : Concurrent n) (r : Running) : Prop where
  readHalf : ∀ key, r.call.op = .get key → r.call.pc.halfway = true →
      r.call.result = none ∧ (r.expected ≠ none → s.shared.cur key = none)
  writeHalf : ∀ key value, r.call.op.writes = some (key, value) →
      r.call.pc.halfway = true → r.alone = true → s.shared.cur key = value
  readAfter : ∀ key o, r.call.op = .get key → r.call.pc.after = true →
      r.expected = some o → r.call.result = o
  writeAfter : ∀ key value, r.call.op.writes = some (key, value) →
      r.call.pc.after = true → r.alone = true → s.Holds key value
  resizes : r.call.pc = .lock ∨ r.call.pc.resizing = true → r.call.op.key = none

theorem Running.knows_of_key {n : ℕ} {s : Concurrent n} (hkey : r.call.op.key = none) :
    r.Knows s := by
  have hget : ∀ key, r.call.op ≠ .get key := by
    intro key hop
    rw [hop] at hkey
    cases hkey
  have hwrites : ∀ written, r.call.op.writes ≠ some written := by
    intro written hop
    have hsome := Running.key_of_writesKey (Running.writesKey_iff.mpr ⟨written.2, hop⟩)
    rw [hkey] at hsome
    cases hsome
  constructor
  case readHalf => exact fun key hop => absurd hop (hget key)
  case writeHalf => exact fun key value hop => absurd hop (hwrites _)
  case readAfter => exact fun key o hop => absurd hop (hget key)
  case writeAfter => exact fun key value hop => absurd hop (hwrites _)
  case resizes => exact fun _ => hkey

theorem Running.Knows.idle {n : ℕ} {s s' : Concurrent n} (hknows : r.Knows s)
    (hidle : r.call.pc.idle = true)
    (hpresent : ∀ key value, s'.Present key value ↔ s.Present key value) :
    r.Knows s' := by
  have hhalf : r.call.pc.halfway ≠ true := by
    intro hhalf
    have haccessing := Pc.accessing_of_halfway hhalf
    rw [(Pc.idle_iff.mp hidle).1] at haccessing
    cases haccessing
  constructor
  case readHalf => exact fun _ _ h => absurd h hhalf
  case writeHalf => exact fun _ _ _ h => absurd h hhalf
  case readAfter => exact hknows.readAfter
  case writeAfter =>
    intro key value hop hafter halone v
    rw [hpresent]
    exact hknows.writeAfter key value hop hafter halone v
  case resizes => exact hknows.resizes

structure Concurrent.Coordinated {n : ℕ} (s : Concurrent n) : Prop where
  mutex : ∀ p r, s.threads p = some r → r.call.pc.resizing = true → s.shared.locked = true ∧
      ∀ q r', s.threads q = some r' → r'.call.pc.resizing = true → q = p
  starting : ∀ p r, s.threads p = some r → r.call.pc = .start → s.shared.old = none
  window : ∀ p r, s.threads p = some r → r.call.pc = .swap → s.shared.old = some s.shared.current ∧
      ∀ q r', s.threads q = some r' → r'.call.pc.idle = true
  noWindow : s.shared.old = some s.shared.current → ∃ p r, s.threads p = some r ∧ r.call.pc = .swap

structure Concurrent.Placed {n : ℕ} (s : Concurrent n) : Prop where
  shared : s.shared.Sound
  apart : ∀ key, s.shared.cur key ≠ none → s.shared.oldRead key ≠ none →
      s.shared.old = some s.shared.current ∨
      ∃ p r, s.threads p = some r ∧ r.call.pc.halfway = true ∧ r.writesKey key = true
  flight : ∀ p r item, s.threads p = some r → item ∈ r.call.pc.flight →
      item.ttl = 0 ∧ s.shared.cur item.key = none ∧
      s.shared.oldRead item.key = none ∧
      ∀ q r', s.threads q = some r' → r'.call.pc.accessing = true → r'.call.op.key ≠ some item.key
  distinct : ∀ p r, s.threads p = some r → (r.call.pc.flight.map Item.key).Nodup ∧
      ∀ q r', q ≠ p → s.threads q = some r' →
        ∀ item ∈ r.call.pc.flight, ∀ item' ∈ r'.call.pc.flight, item.key ≠ item'.key
  fits : ∀ p r, s.threads p = some r → r.call.pc.Fits s.shared
  knows : ∀ p r, s.threads p = some r → r.Knows s

structure Concurrent.Recorded {n : ℕ} (s : Concurrent n) : Prop where
  settled : ∀ key o, s.settled key = some o →
      (∀ p r, s.threads p = some r → r.writesKey key = false) ∧ s.Holds key o
  alone : ∀ p r, s.threads p = some r → r.alone = true → ∀ key, r.writesKey key = true →
        ∀ q r', s.threads q = some r' → r'.writesKey key = true → q = p
  expected : ∀ p r, s.threads p = some r → ∀ o, r.expected = some o →
      ∃ key, r.call.op = .get key ∧ s.settled key = some o

structure Concurrent.Sound {n : ℕ} (s : Concurrent n) : Prop extends
    s.Coordinated, s.Placed, s.Recorded

/-! ## Steps that stay out of the way -/

namespace Concurrent

variable {n : ℕ}
variable {s : Concurrent n} {p : Fin n} {r : Running}

def moved (s : Concurrent n) (p : Fin n) (r : Running) (sh : Shared) : Concurrent n :=
  { s with shared := sh, threads := Function.update s.threads p (some r) }

theorem moved_threads {q : Fin n} {r' : Running} {sh : Shared} :
    (s.moved p r sh).threads q = some r' ↔ q = p ∧ r' = r ∨ q ≠ p ∧ s.threads q = some r' := by
  unfold moved
  by_cases hq : q = p
  · subst q
    simp [eq_comm]
  · simp [hq]

theorem flies_moved {sh : Shared} {key value : Bytes} : (s.moved p r sh).Flies key value ↔
      (∃ item ∈ r.call.pc.flight, item.key = key ∧ item.value = value) ∨
      ∃ q r' item, q ≠ p ∧ s.threads q = some r' ∧ item ∈ r'.call.pc.flight ∧
        item.key = key ∧ item.value = value := by
  unfold Flies
  constructor
  · rintro ⟨q, r', item, hq, hitem, hkey, hvalue⟩
    rcases moved_threads.mp hq with ⟨rfl, rfl⟩ | ⟨hne, hq⟩
    · exact .inl ⟨item, hitem, hkey, hvalue⟩
    · exact .inr ⟨q, r', item, hne, hq, hitem, hkey, hvalue⟩
  · rintro (⟨item, hitem, hkey, hvalue⟩ | ⟨q, r', item, hne, hq, hitem, hkey, hvalue⟩)
    · exact ⟨p, r, item, moved_threads.mpr (.inl ⟨rfl, rfl⟩), hitem, hkey, hvalue⟩
    · exact ⟨q, r', item, moved_threads.mpr (.inr ⟨hne, hq⟩), hitem, hkey, hvalue⟩

theorem moved_self (hp : s.threads p = some r) : s.moved p r s.shared = s := by
  unfold moved
  rw [← hp, Function.update_eq_self]

theorem flies_split (hp : s.threads p = some r) {key value : Bytes} : s.Flies key value ↔
      (∃ item ∈ r.call.pc.flight, item.key = key ∧ item.value = value) ∨
      ∃ q r' item, q ≠ p ∧ s.threads q = some r' ∧ item ∈ r'.call.pc.flight ∧
        item.key = key ∧ item.value = value := by
  rw [← flies_moved, moved_self hp]

structure Advance (s : Concurrent n) (p : Fin n) (r r' : Running) (sh : Shared) : Prop where
  running : s.threads p = some r
  op : r'.call.op = r.call.op
  alone : r'.alone = r.alone
  expected : r'.expected = r.expected
  sound : sh.Sound
  current : sh.current = s.shared.current
  old : sh.old = s.shared.old ∨ sh.old = none ∧ r.call.pc.migrating = true
  bits : ∀ id, (sh.tables id).bits = (s.shared.tables id).bits
  oldShrinks : ∀ key, sh.oldRead key = s.shared.oldRead key ∨ sh.oldRead key = none
  curKept : ∀ key, sh.cur key = s.shared.cur key ∨
      r.call.pc.accessing = true ∧ r.writesKey key = true ∨
      ∃ item ∈ r.call.pc.flight, item.key = key
  present : ∀ key value, r.call.pc.accessing = false ∨ r.writesKey key = false →
      ((s.moved p r' sh).Present key value ↔ s.Present key value)
  accesses : r'.call.pc.accessing = true → r.call.pc.accessing = true ∨
      ∀ q other, s.threads q = some other → other.call.pc ≠ .swap ∧
        ∀ item ∈ other.call.pc.flight, r.call.op.key ≠ some item.key
  migrates : r'.call.pc.migrating = true → r.call.pc.migrating = true ∨
      ∀ q other, s.threads q = some other → other.call.pc ≠ .swap
  apart : ∀ key, sh.cur key ≠ none → sh.oldRead key ≠ none →
      r'.call.pc.halfway = true ∧ r'.writesKey key = true ∨
      s.shared.cur key ≠ none ∧ ¬ (r.call.pc.halfway = true ∧ r.writesKey key = true)
  flight : ∀ item ∈ r'.call.pc.flight,
      item.ttl = 0 ∧ sh.cur item.key = none ∧ sh.oldRead item.key = none ∧
      ∀ q other, q ≠ p → s.threads q = some other →
        (other.call.pc.accessing = true → other.call.op.key ≠ some item.key) ∧
        ∀ item' ∈ other.call.pc.flight, item.key ≠ item'.key
  distinct : (r'.call.pc.flight.map Item.key).Nodup
  fits : r'.call.pc.Fits sh
  knows : r'.Knows (s.moved p r' sh)

end Concurrent

section Advance

variable {n : ℕ} {s : Concurrent n} {p : Fin n} {r r' : Running} {sh : Shared}

theorem ShardTable.index_val_of_bits {t later : ShardTable}
    (hbits : later.bits = t.bits) (key : Bytes) :
    (later.index key).val = (t.index key).val := by
  change (fnv32a key &&& later.mask).toNat = (fnv32a key &&& t.mask).toNat
  rw [ShardTable.mask, ShardTable.mask, hbits]

theorem Concurrent.Recorded.moved (hs : s.Recorded) (hrunning : s.threads p = some r)
    (hop' : r'.call.op = r.call.op) (halone' : r'.alone = r.alone)
    (hexpected' : r'.expected = r.expected)
    (hpresent : ∀ key value, r.writesKey key = false →
      ((s.moved p r' sh).Present key value ↔ s.Present key value)) :
    (s.moved p r' sh).Recorded := by
  have hwritesKey := Running.writesKey_of_op hop'
  constructor
  case settled =>
    intro key o hsettled
    rcases hs.settled key o hsettled with ⟨hidle, hholds⟩
    constructor
    · intro q other hq
      rcases moved_threads.mp hq with ⟨-, rfl⟩ | ⟨-, hrun⟩
      · rw [hwritesKey]
        exact hidle p r hrunning
      · exact hidle q other hrun
    · intro value
      rw [hpresent key value (hidle p r hrunning)]
      exact hholds value
  case alone =>
    intro q other hq halone key hwrites q' other' hq' hwrites'
    have hbefore : ∃ old, s.threads q = some old ∧ old.alone = true ∧ old.writesKey key = true := by
      rcases moved_threads.mp hq with ⟨rfl, rfl⟩ | ⟨-, hrun⟩
      · exact ⟨r, hrunning, by rw [← halone']; exact halone,
          by rw [← hwritesKey]; exact hwrites⟩
      · exact ⟨other, hrun, halone, hwrites⟩
    have hbefore' : ∃ old, s.threads q' = some old ∧ old.writesKey key = true := by
      rcases moved_threads.mp hq' with ⟨rfl, rfl⟩ | ⟨-, hq'⟩
      · exact ⟨r, hrunning, by rw [← hwritesKey]; exact hwrites'⟩
      · exact ⟨other', hq', hwrites'⟩
    rcases hbefore with ⟨old, hold, holdAlone, holdWrites⟩
    rcases hbefore' with ⟨old', hold', holdWrites'⟩
    exact hs.alone q old hold holdAlone key holdWrites q' old' hold' holdWrites'
  case expected =>
    intro q other hq o hexpected
    rcases moved_threads.mp hq with ⟨-, rfl⟩ | ⟨-, hrun⟩
    · rw [hexpected'] at hexpected
      rw [hop']
      exact hs.expected p r hrunning o hexpected
    · exact hs.expected q other hrun o hexpected

variable (h : s.Advance p r r' sh)
include h

theorem Concurrent.Advance.fits_other {pc : Pc} (hfits : pc.Fits s.shared) : pc.Fits sh := by
  have hstale : ∀ id, s.shared.Stale id → sh.Stale id := by
    rintro id ⟨hne, hold⟩
    refine ⟨by rw [h.current]; exact hne, ?_⟩
    rcases h.old with hsame | ⟨hnone, -⟩
    · rw [hsame]
      exact hold
    · exact .inr hnone
  cases pc with
  | access id => exact hfits.trans h.current.symm
  | beginStep id => exact hfits.trans h.current.symm
  | pickShard id idx item rest => exact Eq.trans hfits h.current.symm
  | accessOld id => exact hstale id hfits
  | extract id old idx =>
    rcases hfits with ⟨hid, hold, hidx⟩
    exact ⟨hid.trans h.current.symm, hstale old hold, by rw [h.bits]; exact hidx⟩
  | putItem id idx shard item rest =>
    rcases hfits with ⟨hid, hshard⟩
    refine ⟨hid.trans h.current.symm, ?_⟩
    rw [hshard, h.current]
    exact (ShardTable.index_val_of_bits (h.bits _) _).symm
  | endStep idx moved =>
    intro hmoved old hold key hkey
    rcases h.old with hsame | ⟨hnone, -⟩
    · have hread := hfits hmoved old (hsame ▸ hold) key
        (by rw [← ShardTable.index_val_of_bits (h.bits old)]; exact hkey)
      rcases h.oldShrinks key with heq | hnone
      · rw [heq, hread]
      · exact hnone
    · rw [hnone] at hold
      cases hold
  | _ => trivial

theorem Concurrent.Advance.cur_other (hs : s.Sound)
    {q : Fin n} {other : Running} (hq : s.threads q = some other)
    (haccessing : other.call.pc.accessing = true) {key : Bytes}
    (hkey : other.call.op.key = some key) (hwrites : r.writesKey key = false) :
    sh.cur key = s.shared.cur key := by
  rcases h.curKept key with hsame | ⟨-, hwrite⟩ | ⟨item, hitem, rfl⟩
  · exact hsame
  · rw [hwrites] at hwrite
    cases hwrite
  · exact absurd hkey ((hs.flight p r item h.running hitem).2.2.2 q other hq haccessing)

theorem Concurrent.Advance.knows_other (hs : s.Sound)
    {q : Fin n} {other : Running} (hne : q ≠ p) (hq : s.threads q = some other) :
    other.Knows (s.moved p r' sh) := by
  have hknows := hs.knows q other hq
  have hidle : ∀ key, other.alone = true → other.writesKey key = true →
      r.writesKey key = false := by
    intro key halone hwrites
    by_contra hwrite
    exact hne (hs.alone q other hq halone key hwrites p r h.running (by simpa using hwrite)).symm
  constructor
  case readHalf =>
    intro key hop hhalf
    refine ⟨(hknows.readHalf key hop hhalf).1, ?_⟩
    intro hexpected
    have hnone := (hknows.readHalf key hop hhalf).2 hexpected
    rcases Option.ne_none_iff_exists'.mp hexpected with ⟨o, ho⟩
    rcases hs.expected q other hq o ho with ⟨key', hop', hsettled⟩
    rw [hop] at hop'
    cases hop'
    have hwrites := (hs.settled key o hsettled).1 p r h.running
    rw [← hnone]
    exact h.cur_other hs hq (Pc.accessing_of_halfway hhalf) (by rw [hop]; rfl) hwrites
  case writeHalf =>
    intro key value hop hhalf halone
    have hwrites : other.writesKey key = true := Running.writesKey_iff.mpr ⟨value, hop⟩
    rw [← hknows.writeHalf key value hop hhalf halone]
    exact h.cur_other hs hq (Pc.accessing_of_halfway hhalf)
      (Running.key_of_writesKey hwrites) (hidle key halone hwrites)
  case readAfter => exact hknows.readAfter
  case writeAfter =>
    intro key value hop hafter halone v
    have hwrites : other.writesKey key = true := Running.writesKey_iff.mpr ⟨value, hop⟩
    rw [h.present key v (.inr (hidle key halone hwrites))]
    exact hknows.writeAfter key value hop hafter halone v
  case resizes => exact hknows.resizes

theorem Concurrent.Advance.coordinated (hs : s.Coordinated) (hlocked : sh.locked = s.shared.locked)
    (hnoResize : r.call.pc.resizing = false ∧ r'.call.pc.resizing = false) :
    (s.moved p r' sh).Coordinated := by
  constructor
  case mutex =>
    intro q other hq hresizing
    rcases moved_threads.mp hq with ⟨-, rfl⟩ | ⟨hne, hrun⟩
    · rw [hnoResize.2] at hresizing
      cases hresizing
    · rcases hs.mutex q other hrun hresizing with ⟨hheld, hunique⟩
      refine ⟨hlocked.trans hheld, ?_⟩
      intro q' other' hq' hresizing'
      rcases moved_threads.mp hq' with ⟨-, rfl⟩ | ⟨-, hq'⟩
      · rw [hnoResize.2] at hresizing'
        cases hresizing'
      · exact hunique q' other' hq' hresizing'
  case starting =>
    intro q other hq hstart
    rcases moved_threads.mp hq with ⟨-, rfl⟩ | ⟨-, hrun⟩
    · have hfalse := hnoResize.2
      rw [hstart] at hfalse
      cases hfalse
    · rcases h.old with hsame | ⟨hnone, -⟩
      · exact hsame.trans (hs.starting q other hrun hstart)
      · exact hnone
  case window =>
    intro q other hq hswap
    rcases moved_threads.mp hq with ⟨-, rfl⟩ | ⟨-, hrun⟩
    · have hfalse := hnoResize.2
      rw [hswap] at hfalse
      cases hfalse
    · rcases hs.window q other hrun hswap with ⟨hold, hquiet⟩
      rcases Pc.idle_iff.mp (hquiet p r h.running) with ⟨hnotAccessing, hnotMigrating⟩
      constructor
      · rcases h.old with hsame | ⟨-, hmigrating⟩
        · exact hsame.trans (hold.trans (congrArg some h.current.symm))
        · rw [hnotMigrating] at hmigrating
          cases hmigrating
      · intro q' other' hq'
        rcases moved_threads.mp hq' with ⟨-, rfl⟩ | ⟨-, hq'⟩
        · rw [Pc.idle_iff]
          constructor
          · by_contra haccessing
            rcases h.accesses (by simpa using haccessing) with hbefore | hfree
            · rw [hnotAccessing] at hbefore
              cases hbefore
            · exact (hfree q other hrun).1 hswap
          · by_contra hmigrating
            rcases h.migrates (by simpa using hmigrating) with hbefore | hfree
            · rw [hnotMigrating] at hbefore
              cases hbefore
            · exact hfree q other hrun hswap
        · exact hquiet q' other' hq'
  case noWindow =>
    intro hold
    have hbefore : s.shared.old = some s.shared.current := by
      rcases h.old with hsame | ⟨hnone, -⟩
      · rw [← hsame, ← h.current]
        exact hold
      · change sh.old = _ at hold
        rw [hnone] at hold
        cases hold
    rcases hs.noWindow hbefore with ⟨q, other, hq, hswap⟩
    refine ⟨q, other, moved_threads.mpr (.inr ⟨?_, hq⟩), hswap⟩
    rintro rfl
    have hfalse := hnoResize.1
    rw [h.running] at hq
    cases hq
    rw [hswap] at hfalse
    cases hfalse

theorem Concurrent.Advance.placed (hs : s.Sound) : (s.moved p r' sh).Placed := by
  constructor
  case shared => exact h.sound
  case apart =>
    intro key hcur hold
    rcases h.apart key hcur hold with hhalf | ⟨hcurBefore, hnotHalf⟩
    · exact .inr ⟨p, r', moved_threads.mpr (.inl ⟨rfl, rfl⟩), hhalf⟩
    · have holdBefore : s.shared.oldRead key ≠ none := by
        rcases h.oldShrinks key with hsame | hnone
        · rw [← hsame]
          exact hold
        · exact absurd hnone hold
      rcases hs.apart key hcurBefore holdBefore with hwindow | ⟨q, other, hq, hhalf⟩
      · left
        rcases h.old with hsame | ⟨hnone, -⟩
        · exact hsame.trans (hwindow.trans (congrArg some h.current.symm))
        · exact absurd (Shared.oldRead_of_none hnone key) hold
      · right
        refine ⟨q, other, moved_threads.mpr (.inr ⟨?_, hq⟩), hhalf⟩
        rintro rfl
        rw [h.running] at hq
        cases hq
        exact hnotHalf hhalf
  case flight =>
    intro q other item hq hitem
    rcases moved_threads.mp hq with ⟨-, rfl⟩ | ⟨hne, hrun⟩
    · rcases h.flight item hitem with ⟨httl, hcur, hold, hothers⟩
      refine ⟨httl, hcur, hold, ?_⟩
      intro q' other' hq' haccessing
      rcases moved_threads.mp hq' with ⟨-, rfl⟩ | ⟨hne', hq'⟩
      · rw [Pc.not_accessing_of_flight hitem] at haccessing
        cases haccessing
      · exact (hothers q' other' hne' hq').1 haccessing
    · rcases hs.flight q other item hrun hitem with ⟨httl, hcur, hold, hothers⟩
      refine ⟨httl, ?_, ?_, ?_⟩
      · rcases h.curKept item.key with hsame | ⟨haccessing, hwrites⟩ | ⟨item', hitem', hkey⟩
        · exact hsame.trans hcur
        · exact absurd (Running.key_of_writesKey hwrites) (hothers p r h.running haccessing)
        · exact absurd hkey.symm
            ((hs.distinct q other hrun).2 p r hne.symm h.running item hitem item' hitem')
      · rcases h.oldShrinks item.key with hsame | hnone
        · exact hsame.trans hold
        · exact hnone
      · intro q' other' hq' haccessing
        rcases moved_threads.mp hq' with ⟨-, rfl⟩ | ⟨-, hq'⟩
        · rw [h.op]
          rcases h.accesses haccessing with hbefore | hfree
          · exact hothers p r h.running hbefore
          · exact (hfree q other hrun).2 item hitem
        · exact hothers q' other' hq' haccessing
  case distinct =>
    intro q other hq
    rcases moved_threads.mp hq with ⟨rfl, rfl⟩ | ⟨hne, hrun⟩
    · refine ⟨h.distinct, ?_⟩
      intro q' other' hne' hq' item hitem item' hitem'
      rcases moved_threads.mp hq' with ⟨heq, -⟩ | ⟨-, hq'⟩
      · exact absurd heq hne'
      · exact ((h.flight item hitem).2.2.2 q' other' hne' hq').2 item' hitem'
    · refine ⟨(hs.distinct q other hrun).1, ?_⟩
      intro q' other' hne' hq' item hitem item' hitem'
      rcases moved_threads.mp hq' with ⟨rfl, rfl⟩ | ⟨-, hq'⟩
      · exact (((h.flight item' hitem').2.2.2 q other hne hrun).2 item hitem).symm
      · exact (hs.distinct q other hrun).2 q' other' hne' hq' item hitem item' hitem'
  case fits =>
    intro q other hq
    rcases moved_threads.mp hq with ⟨-, rfl⟩ | ⟨-, hrun⟩
    · exact h.fits
    · exact h.fits_other (hs.fits q other hrun)
  case knows =>
    intro q other hq
    rcases moved_threads.mp hq with ⟨-, rfl⟩ | ⟨hne, hrun⟩
    · exact h.knows
    · exact h.knows_other hs hne hrun

theorem Concurrent.Advance.sound_moved (hs : s.Sound) (hlocked : sh.locked = s.shared.locked)
    (hnoResize : r.call.pc.resizing = false ∧ r'.call.pc.resizing = false) :
    (s.moved p r' sh).Sound where
  toCoordinated := h.coordinated hs.toCoordinated hlocked hnoResize
  toPlaced := h.placed hs
  toRecorded := hs.toRecorded.moved h.running h.op h.alone h.expected
    fun key value hwrites => h.present key value (.inr hwrites)

end Advance

/-! ## Resizing while no call is at the tables -/

section Quiet

variable {n : ℕ} {s : Concurrent n} {p : Fin n} {r r' : Running} {sh : Shared}

theorem Concurrent.Present.congr {s' : Concurrent n} {key value : Bytes}
    (hshared : s'.shared.cur key = some value ∨ s'.shared.oldRead key = some value ↔
      s.shared.cur key = some value ∨ s.shared.oldRead key = some value)
    (hflies : s'.Flies key value ↔ s.Flies key value) :
    s'.Present key value ↔ s.Present key value := by
  unfold Present
  rw [← or_assoc, ← or_assoc, hshared, hflies]

theorem Concurrent.flies_moved_of_flight (hp : s.threads p = some r)
    (hflight : r'.call.pc.flight = r.call.pc.flight) {key value : Bytes} :
    (s.moved p r' sh).Flies key value ↔ s.Flies key value := by
  rw [flies_moved, flies_split hp, hflight]

theorem Concurrent.Sound.moved_quiet (hs : s.Sound) (hp : s.threads p = some r)
    (hop : r'.call.op = r.call.op) (halone : r'.alone = r.alone)
    (hexpected : r'.expected = r.expected) (hkey : r.call.op.key = none)
    (hquiet : ∀ q other, s.threads q = some other → other.call.pc.idle = true)
    (hidle : r'.call.pc.idle = true) (hsound : sh.Sound)
    (hsame : ∀ key value, sh.cur key = some value ∨ sh.oldRead key = some value ↔
        s.shared.cur key = some value ∨ s.shared.oldRead key = some value)
    (hapart : ∀ key, sh.cur key ≠ none → sh.oldRead key ≠ none → sh.old = some sh.current)
    (hcoordinated : (s.moved p r' sh).Coordinated) : (s.moved p r' sh).Sound := by
  have hno : ∀ {pc : Pc} {item : Item}, pc.idle = true → item ∉ pc.flight := by
    intro pc item hpc hitem
    have hmigrating := Pc.migrating_of_flight hitem
    rw [(Pc.idle_iff.mp hpc).2] at hmigrating
    cases hmigrating
  have hnil : ∀ {pc : Pc}, pc.idle = true → pc.flight = [] := by
    intro pc hpc
    exact List.eq_nil_iff_forall_not_mem.mpr fun item => hno hpc
  have hpresent : ∀ key value, (s.moved p r' sh).Present key value ↔ s.Present key value := by
    intro key value
    apply Present.congr (hsame key value)
    apply flies_moved_of_flight hp
    rw [hnil hidle, hnil (hquiet p r hp)]
  have hidles : ∀ q other, (s.moved p r' sh).threads q = some other →
      other.call.pc.idle = true := by
    intro q other hq
    rcases moved_threads.mp hq with ⟨-, rfl⟩ | ⟨-, hq⟩
    · exact hidle
    · exact hquiet q other hq
  constructor
  case toCoordinated => exact hcoordinated
  case toPlaced =>
    constructor
    case shared => exact hsound
    case apart => exact fun key hcur hold => .inl (hapart key hcur hold)
    case flight =>
      exact fun q other item hq hitem => absurd hitem (hno (hidles q other hq))
    case distinct =>
      intro q other hq
      rw [hnil (hidles q other hq)]
      exact ⟨List.nodup_nil, fun _ _ _ _ _ hitem => absurd hitem List.not_mem_nil⟩
    case fits => exact fun q other hq => Pc.fits_of_idle (hidles q other hq)
    case knows =>
      intro q other hq
      rcases moved_threads.mp hq with ⟨-, rfl⟩ | ⟨-, hrun⟩
      · exact Running.knows_of_key (by rw [hop]; exact hkey)
      · exact (hs.knows q other hrun).idle (hquiet q other hrun) hpresent
  case toRecorded =>
    exact hs.toRecorded.moved hp hop halone hexpected fun key value _ =>
      hpresent key value

end Quiet

/-! ## Calls that begin or return -/

def Pc.outside (pc : Pc) : Bool := pc.idle && !pc.resizing

theorem Pc.outside_iff {pc : Pc} : pc.outside = true ↔ pc.idle = true ∧ pc.resizing = false := by
  simp [outside]

structure Concurrent.Carries {n : ℕ} (s s' : Concurrent n) : Prop where
  shared : s'.shared = s.shared
  back : ∀ q r', s'.threads q = some r' → (∃ r, s.threads q = some r ∧ r'.call = r.call ∧
        (r'.alone = true → r.alone = true) ∧
        ∀ o, r'.expected = some o → r.expected = some o) ∨
      r'.call.pc.outside = true ∧ r'.Knows s'
  forth : ∀ q r, s.threads q = some r →
      r.call.pc.outside = true ∨ ∃ r', s'.threads q = some r' ∧ r'.call = r.call

section Carries

variable {n : ℕ} {s s' : Concurrent n}
variable {r r' : Running} {pc : Pc}

theorem Running.writesKey_of_call (hcall : r'.call = r.call) (key : Bytes) :
    r'.writesKey key = r.writesKey key :=
  Running.writesKey_of_op (congrArg Call.op hcall) key

theorem Concurrent.Carries.before (h : s.Carries s') {q : Fin n}
    (hq : s'.threads q = some r') (hinside : r'.call.pc.outside = false) :
    ∃ r, s.threads q = some r ∧ r'.call = r.call := by
  rcases h.back q r' hq with ⟨r, hr, hcall, -⟩ | ⟨houtside, -⟩
  · exact ⟨r, hr, hcall⟩
  · rw [hinside] at houtside
    cases houtside

theorem Concurrent.Carries.later (h : s.Carries s') {q : Fin n}
    (hq : s.threads q = some r) (hinside : r.call.pc.outside = false) :
    ∃ r', s'.threads q = some r' ∧ r'.call = r.call := by
  rcases h.forth q r hq with houtside | hlater
  · rw [hinside] at houtside
    cases houtside
  · exact hlater

theorem Pc.inside_of_flight {item : Item} (h : item ∈ pc.flight) : pc.outside = false := by
  cases pc <;> first | rfl | cases h

theorem Pc.inside_of_accessing (h : pc.accessing = true) : pc.outside = false := by
  cases pc <;> first | rfl | cases h

theorem Pc.inside_of_resizing (h : pc.resizing = true) : pc.outside = false := by
  cases pc <;> first | rfl | cases h

variable (h : s.Carries s')
include h

theorem Concurrent.Carries.flies {key value : Bytes} : s'.Flies key value ↔ s.Flies key value := by
  constructor
  · rintro ⟨q, r', item, hq, hitem, hkey⟩
    rcases h.before hq (Pc.inside_of_flight hitem) with ⟨r, hr, hcall⟩
    exact ⟨q, r, item, hr, hcall ▸ hitem, hkey⟩
  · rintro ⟨q, r, item, hq, hitem, hkey⟩
    rcases h.later hq (Pc.inside_of_flight hitem) with ⟨r', hr', hcall⟩
    exact ⟨q, r', item, hr', hcall ▸ hitem, hkey⟩

theorem Concurrent.Carries.present (key value : Bytes) :
    s'.Present key value ↔ s.Present key value := by
  apply Present.congr
  · rw [h.shared]
  · exact h.flies

theorem Concurrent.Carries.coordinated (hs : s.Coordinated) : s'.Coordinated := by
  constructor
  case mutex =>
    intro q r' hq hresizing
    rcases h.before hq (Pc.inside_of_resizing hresizing) with ⟨r, hr, hcall⟩
    rw [hcall] at hresizing
    rcases hs.mutex q r hr hresizing with ⟨hlocked, hunique⟩
    refine ⟨by rw [h.shared]; exact hlocked, ?_⟩
    intro q' other' hq' hresizing'
    rcases h.before hq' (Pc.inside_of_resizing hresizing') with ⟨other, hother, hcall'⟩
    rw [hcall'] at hresizing'
    exact hunique q' other hother hresizing'
  case starting =>
    intro q r' hq hstart
    rcases h.before hq (by rw [hstart]; rfl) with ⟨r, hr, hcall⟩
    rw [hcall] at hstart
    rw [h.shared]
    exact hs.starting q r hr hstart
  case window =>
    intro q r' hq hswap
    rcases h.before hq (by rw [hswap]; rfl) with ⟨r, hr, hcall⟩
    rw [hcall] at hswap
    rcases hs.window q r hr hswap with ⟨hold, hquiet⟩
    refine ⟨by rw [h.shared]; exact hold, ?_⟩
    intro q' other' hq'
    rcases h.back q' other' hq' with ⟨other, hother, hcall', -⟩ | ⟨houtside, -⟩
    · rw [hcall']
      exact hquiet q' other hother
    · exact (Pc.outside_iff.mp houtside).1
  case noWindow =>
    intro hold
    rw [h.shared] at hold
    rcases hs.noWindow hold with ⟨q, r, hq, hswap⟩
    rcases h.later hq (by rw [hswap]; rfl) with ⟨r', hr', hcall⟩
    exact ⟨q, r', hr', by rw [hcall]; exact hswap⟩

theorem Concurrent.Carries.knows (hknows : r.Knows s)
    (hcall : r'.call = r.call) (halone : r'.alone = true → r.alone = true)
    (hexpected : ∀ o, r'.expected = some o → r.expected = some o) : r'.Knows s' := by
  constructor
  case readHalf =>
    rw [hcall, h.shared]
    intro key hop hhalf
    refine ⟨(hknows.readHalf key hop hhalf).1, ?_⟩
    intro hne
    rcases Option.ne_none_iff_exists'.mp hne with ⟨o, ho⟩
    exact (hknows.readHalf key hop hhalf).2 (by rw [hexpected o ho]; nofun)
  case writeHalf =>
    rw [hcall, h.shared]
    exact fun key value hop hhalf hr' =>
      hknows.writeHalf key value hop hhalf (halone hr')
  case readAfter =>
    rw [hcall]
    exact fun key o hop hafter ho =>
      hknows.readAfter key o hop hafter (hexpected o ho)
  case writeAfter =>
    rw [hcall]
    intro key value hop hafter hr' v
    rw [h.present]
    exact hknows.writeAfter key value hop hafter (halone hr') v
  case resizes =>
    rw [hcall]
    exact hknows.resizes

theorem Concurrent.Carries.placed (hs : s.Placed) : s'.Placed := by
  constructor
  case shared =>
    rw [h.shared]
    exact hs.shared
  case apart =>
    intro key hcur hold
    rw [h.shared] at hcur hold ⊢
    rcases hs.apart key hcur hold with hwindow | ⟨q, r, hq, hhalf, hwrites⟩
    · exact .inl hwindow
    · rcases h.later hq (Pc.inside_of_accessing (Pc.accessing_of_halfway hhalf)) with
        ⟨r', hr', hcall⟩
      exact .inr ⟨q, r', hr', by rw [hcall]; exact hhalf,
        by rw [Running.writesKey_of_call hcall]; exact hwrites⟩
  case flight =>
    intro q r' item hq hitem
    rcases h.before hq (Pc.inside_of_flight hitem) with ⟨r, hr, hcall⟩
    rw [hcall] at hitem
    rcases hs.flight q r item hr hitem with ⟨httl, hcur, hold, hothers⟩
    rw [h.shared]
    refine ⟨httl, hcur, hold, ?_⟩
    intro q' other' hq' haccessing
    rcases h.before hq' (Pc.inside_of_accessing haccessing) with ⟨other, hother, hcall'⟩
    rw [hcall'] at haccessing ⊢
    exact hothers q' other hother haccessing
  case distinct =>
    intro q r' hq
    constructor
    · rcases h.back q r' hq with ⟨r, hr, hcall, -⟩ | ⟨houtside, -⟩
      · rw [hcall]
        exact (hs.distinct q r hr).1
      · have hnil : r'.call.pc.flight = [] := by
          apply List.eq_nil_iff_forall_not_mem.mpr
          intro item hitem
          rw [Pc.inside_of_flight hitem] at houtside
          cases houtside
        rw [hnil]
        exact List.nodup_nil
    · intro q' other' hne hq' item hitem item' hitem'
      rcases h.before hq (Pc.inside_of_flight hitem) with ⟨r, hr, hcall⟩
      rcases h.before hq' (Pc.inside_of_flight hitem') with ⟨other, hother, hcall'⟩
      rw [hcall] at hitem
      rw [hcall'] at hitem'
      exact (hs.distinct q r hr).2 q' other hne hother item hitem item' hitem'
  case fits =>
    intro q r' hq
    rcases h.back q r' hq with ⟨r, hr, hcall, -⟩ | ⟨houtside, -⟩
    · rw [hcall, h.shared]
      exact hs.fits q r hr
    · exact Pc.fits_of_idle (Pc.outside_iff.mp houtside).1
  case knows =>
    intro q r' hq
    rcases h.back q r' hq with ⟨r, hr, hcall, halone, hexpected⟩ | ⟨-, hknows⟩
    · exact h.knows (hs.knows q r hr) hcall halone hexpected
    · exact hknows

theorem Concurrent.Carries.sound (hs : s.Sound) (hrecorded : s'.Recorded) : s'.Sound where
  toCoordinated := h.coordinated hs.toCoordinated
  toPlaced := h.placed hs.toPlaced
  toRecorded := hrecorded

end Carries

end MCache.Store
