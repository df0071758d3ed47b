import MCache.ConcurrentInvariant

/-!
# The steps of concurrent calls

Each step of `Set`, `Del`, `Get`, `Step` and `Resize` keeps the invariant.
Most are instances of `Advance`; the conditions under which they keep out of
the way of other calls are hypotheses here.
-/

namespace MCache.Store

/-! ## Tables of the shared state -/

namespace Shared

variable {sh : Shared} {id : ℕ} {t : ShardTable}

theorem withTable_self (sh : Shared) (id : ℕ) : sh.withTable id (sh.tables id) = sh := by
  unfold withTable
  rw [Function.update_eq_self]

theorem tables_withTable (other : ℕ) :
    (sh.withTable id t).tables other = if other = id then t else sh.tables other :=
  Function.update_apply _ _ _ _

theorem cur_withTable_current : (sh.withTable sh.current t).cur = t.read := by
  change ((sh.withTable sh.current t).tables sh.current).read = t.read
  rw [tables_withTable, if_pos rfl]

theorem cur_withTable_of_ne (hid : id ≠ sh.current) : (sh.withTable id t).cur = sh.cur := by
  change ((sh.withTable id t).tables sh.current).read = _
  rw [tables_withTable, if_neg hid.symm]
  rfl

theorem oldRead_withTable_of_ne (hold : sh.old ≠ some id) (key : Bytes) :
    (sh.withTable id t).oldRead key = sh.oldRead key := by
  cases hsome : sh.old with
  | none =>
    have hlater : (sh.withTable id t).old = none := hsome
    rw [oldRead_of_none hsome, oldRead_of_none hlater]
  | some old =>
    have hlater : (sh.withTable id t).old = some old := hsome
    have hne : old ≠ id := fun heq => hold (by rw [hsome, heq])
    rw [oldRead_of_some hsome, oldRead_of_some hlater, tables_withTable, if_neg hne]

theorem oldRead_withTable_old (hold : sh.old = some id) (key : Bytes) :
    (sh.withTable id t).oldRead key = t.read key := by
  have hlater : (sh.withTable id t).old = some id := hold
  rw [oldRead_of_some hlater, tables_withTable, if_pos rfl]

theorem Sound.oldRead_withTable_stale (hsh : sh.Sound) (hid : sh.Stale id)
    (hshrinks : ∀ key, t.read key = (sh.tables id).read key ∨ t.read key = none)
    (key : Bytes) : (sh.withTable id t).oldRead key = t.read key := by
  rcases hid.2 with hold | hold
  · exact oldRead_withTable_old hold key
  · rw [oldRead_withTable_of_ne (by rw [hold]; nofun), ← hsh.read_stale hid]
    rcases hshrinks key with hsame | hnone
    · exact hsame.symm
    · rw [hnone, hsh.read_stale hid, oldRead_of_none hold]

theorem bits_withTable (hbits : t.bits = (sh.tables id).bits) (other : ℕ) :
    ((sh.withTable id t).tables other).bits = (sh.tables other).bits := by
  rw [tables_withTable]
  split_ifs with hother
  · rw [hbits, hother]
  · rfl

theorem Sound.untimed_withTable (hsh : sh.Sound) (ht : t.Untimed) (other : ℕ) :
    ((sh.withTable id t).tables other).Untimed := by
  rw [tables_withTable]
  split_ifs
  · exact ht
  · exact hsh.untimed other

theorem Sound.withTable_current (hsh : sh.Sound)
    (hold : sh.old ≠ some sh.current) (ht : t.Untimed) :
    (sh.withTable sh.current t).Sound := by
  constructor
  case untimed => exact hsh.untimed_withTable ht
  case current => exact hsh.current
  case retired =>
    intro other hne hother key
    change other ≠ sh.current at hne
    rw [tables_withTable, if_neg hne]
    exact hsh.retired other hne hother key
  case swept =>
    intro old hsome
    have hne : old ≠ sh.current := fun heq => hold (by rw [← heq]; exact hsome)
    rw [tables_withTable, if_neg hne]
    exact hsh.swept old hsome

theorem Sound.withTable_shrunk (hsh : sh.Sound) (ht : t.Untimed)
    (hbits : t.bits = (sh.tables id).bits)
    (hshrinks : ∀ key, t.read key = (sh.tables id).read key ∨ t.read key = none) :
    (sh.withTable id t).Sound := by
  have hnone : ∀ other key, (sh.tables other).read key = none →
      ((sh.withTable id t).tables other).read key = none := by
    intro other key hread
    rw [tables_withTable]
    split_ifs with hother
    · rcases hshrinks key with hsame | hnone
      · rw [hsame, ← hother, hread]
      · exact hnone
    · exact hread
  constructor
  case untimed => exact hsh.untimed_withTable ht
  case current => exact hsh.current
  case retired =>
    exact fun other hne hother key => hnone other key (hsh.retired other hne hother key)
  case swept =>
    intro old hold
    have hbitsOld := bits_withTable hbits old
    refine ⟨by rw [hbitsOld]; exact (hsh.swept old hold).1, ?_⟩
    intro key hkey
    rw [ShardTable.index_val_of_bits hbitsOld] at hkey
    exact hnone old key ((hsh.swept old hold).2 key hkey)

def withLock (sh : Shared) (locked : Bool) : Shared :=
  { sh with locked := locked }

theorem Sound.withLock (hsh : sh.Sound) (locked : Bool) : (sh.withLock locked).Sound :=
  { hsh with }

end Shared

/-! ## What calls know -/

section Knows

variable {n : ℕ} {s s' : Concurrent n} {r r' : Running}
variable {pc : Pc}

theorem Pc.of_after (h : pc.after = true) : pc.halfway = false ∧ pc ≠ .lock ∧ pc.resizing = false ∧
      pc.accessing = false := by
  cases pc <;> simp [after, Pc.halfway, resizing, accessing] at h ⊢

theorem Pc.of_halfway (h : pc.halfway = true) :
    pc.after = false ∧ pc ≠ .lock ∧ pc.resizing = false ∧ pc.migrating = false := by
  cases pc <;> simp [after, Pc.halfway, resizing, migrating] at h ⊢

theorem Pc.flight_of_accessing (h : pc.accessing = true) : pc.flight = [] := by
  cases pc <;> first | rfl | cases h

theorem Pc.flight_of_not_migrating (h : pc.migrating = false) : pc.flight = [] := by
  cases pc <;> first | rfl | cases h

theorem Pc.fits_of_after {sh : Shared} (hafter : pc.after = true)
    (h : pc.migrating = false) : pc.Fits sh := by
  cases pc <;> trivial

theorem Running.knows_after (hafter : r.call.pc.after = true)
    (hread : ∀ key o, r.call.op = .get key → r.expected = some o → r.call.result = o)
    (hwrite : ∀ key value, r.call.op.writes = some (key, value) →
      r.alone = true → s.Holds key value) : r.Knows s := by
  have hpc := Pc.of_after hafter
  constructor
  case readHalf =>
    intro key _ hhalf
    rw [hpc.1] at hhalf
    cases hhalf
  case writeHalf =>
    intro key value _ hhalf
    rw [hpc.1] at hhalf
    cases hhalf
  case readAfter => exact fun key o hop _ ho => hread key o hop ho
  case writeAfter => exact fun key value hop _ halone => hwrite key value hop halone
  case resizes =>
    rintro (hlock | hresizing)
    · exact absurd hlock hpc.2.1
    · rw [hpc.2.2.1] at hresizing
      cases hresizing

theorem Running.knows_before
    (hpc : r.call.pc = .load ∨ ∃ id, r.call.pc = .access id) : r.Knows s := by
  rcases hpc with hpc | ⟨id, hpc⟩ <;> constructor <;> rw [hpc] <;> nofun

theorem Running.Knows.stays (h : r.Knows s) (hop : r'.call.op = r.call.op)
    (hresult : r'.call.result = r.call.result) (halone : r'.alone = r.alone)
    (hexpected : r'.expected = r.expected) (hafter : r.call.pc.after = true)
    (hafter' : r'.call.pc.after = true)
    (hpresent : ∀ key value, s'.Present key value ↔ s.Present key value) :
    r'.Knows s' := by
  apply Running.knows_after hafter'
  · intro key o hget ho
    rw [hop] at hget
    rw [hexpected] at ho
    rw [hresult]
    exact h.readAfter key o hget hafter ho
  · intro key value hwrites hr' v
    rw [hop] at hwrites
    rw [halone] at hr'
    rw [hpresent]
    exact h.writeAfter key value hwrites hafter hr' v

theorem Running.Knows.halfway (h : r.Knows s) (hop : r'.call.op = r.call.op)
    (hresult : r'.call.result = r.call.result) (halone : r'.alone = r.alone)
    (hexpected : r'.expected = r.expected) (hhalf : r.call.pc.halfway = true)
    (hhalf' : r'.call.pc.halfway = true) (hcur : s'.shared.cur = s.shared.cur) :
    r'.Knows s' := by
  have hafter := Pc.of_halfway hhalf'
  constructor
  case readHalf =>
    rw [hop, hresult, hexpected, hcur]
    exact fun key hget _ => h.readHalf key hget hhalf
  case writeHalf =>
    rw [hop, halone, hcur]
    exact fun key value hwrites _ => h.writeHalf key value hwrites hhalf
  case readAfter =>
    intro key o _ htrue
    rw [hafter.1] at htrue
    cases htrue
  case writeAfter =>
    intro key value _ htrue
    rw [hafter.1] at htrue
    cases htrue
  case resizes =>
    rintro (hlock | hresizing)
    · exact absurd hlock hafter.2.1
    · rw [hafter.2.2.1] at hresizing
      cases hresizing

end Knows

/-! ## Consequences of the invariant -/

section Consequences

variable {n : ℕ} {s : Concurrent n} {p : Fin n} {r r' : Running} {sh : Shared}
variable {key : Bytes} {o : Option Bytes}

theorem Concurrent.Sound.fits_at (hs : s.Sound) (hp : s.threads p = some r)
    {pc : Pc} (hpc : r.call.pc = pc) : pc.Fits s.shared :=
  hpc ▸ hs.fits p r hp

theorem Concurrent.Sound.old_ne_current (hs : s.Sound) (hp : s.threads p = some r)
    (hbusy : r.call.pc.idle = false) : s.shared.old ≠ some s.shared.current := by
  intro hold
  rcases hs.noWindow hold with ⟨q, other, hq, hswap⟩
  have hidle := (hs.window q other hq hswap).2 p r hp
  rw [hbusy] at hidle
  cases hidle

theorem Concurrent.Sound.stale_of_old (hs : s.Sound) (hp : s.threads p = some r)
    (hbusy : r.call.pc.idle = false) {id : ℕ} (hold : s.shared.old = some id) :
    s.shared.Stale id := by
  refine ⟨?_, .inl hold⟩
  rintro rfl
  exact hs.old_ne_current hp hbusy hold

theorem Concurrent.Sound.not_flies (hs : s.Sound) (hp : s.threads p = some r)
    (haccessing : r.call.pc.accessing = true) (hkey : r.call.op.key = some key)
    (value : Bytes) : ¬ s.Flies key value := by
  rintro ⟨q, other, item, hq, hitem, rfl, -⟩
  exact (hs.flight q other item hq hitem).2.2.2 p r hp haccessing hkey

theorem Concurrent.holds_of_cur (hcur : s.shared.cur key = o)
    (hold : s.shared.oldRead key = none) (hflies : ∀ value, ¬ s.Flies key value) :
    s.Holds key o := by
  intro value
  unfold Present
  rw [hcur, hold]
  simp [hflies value]

theorem Concurrent.Sound.holds_of_expected (hs : s.Sound) (hp : s.threads p = some r)
    (hop : r.call.op = .get key) (ho : r.expected = some o) : s.Holds key o := by
  rcases hs.expected p r hp o ho with ⟨key', hop', hsettled⟩
  rw [hop] at hop'
  cases hop'
  exact (hs.settled key o hsettled).2

theorem Concurrent.Sound.expected_of_miss (hs : s.Sound) (hp : s.threads p = some r)
    (hhalf : r.call.pc.halfway = true) (hop : r.call.op = .get key)
    (ho : r.expected = some o) (hold : s.shared.oldRead key = none) : none = o := by
  have hcur := ((hs.knows p r hp).readHalf key hop hhalf).2 (by rw [ho]; nofun)
  have hflies := hs.not_flies hp (Pc.accessing_of_halfway hhalf) (by rw [hop]; rfl)
  have hholds := hs.holds_of_expected hp hop ho
  have hnone := Concurrent.holds_of_cur hcur hold hflies
  cases o with
  | none => rfl
  | some value =>
    have hsome := (hnone value).mp ((hholds value).mpr rfl)
    cases hsome

theorem Concurrent.Sound.still (hs : s.Sound) (hp : s.threads p = some r)
    (hop : r'.call.op = r.call.op) (halone : r'.alone = r.alone)
    (hexpected : r'.expected = r.expected)
    (hflight : r'.call.pc.flight = r.call.pc.flight)
    (haccesses : r'.call.pc.accessing = true → r.call.pc.accessing = true ∨
      ∀ q other, s.threads q = some other → other.call.pc ≠ .swap ∧
        ∀ item ∈ other.call.pc.flight, r.call.op.key ≠ some item.key)
    (hmigrates : r'.call.pc.migrating = true → r.call.pc.migrating = true ∨
      ∀ q other, s.threads q = some other → other.call.pc ≠ .swap)
    (hhalf : ∀ key, s.shared.oldRead key ≠ none → r.call.pc.halfway = true →
      r.writesKey key = true → r'.call.pc.halfway = true)
    (hfits : r'.call.pc.Fits s.shared) (locked : Bool)
    (hknows : r'.Knows (s.moved p r' (s.shared.withLock locked))) :
    s.Advance p r r' (s.shared.withLock locked) := by
  constructor
  case running => exact hp
  case op => exact hop
  case alone => exact halone
  case expected => exact hexpected
  case sound => exact hs.shared.withLock locked
  case current => rfl
  case old => exact .inl rfl
  case bits => exact fun _ => rfl
  case oldShrinks => exact fun _ => .inl rfl
  case curKept => exact fun _ => .inl rfl
  case present =>
    exact fun key value _ =>
      Present.congr Iff.rfl (flies_moved_of_flight hp hflight)
  case accesses => exact haccesses
  case migrates => exact hmigrates
  case apart =>
    intro key hcur hold
    by_cases hwas : r.call.pc.halfway = true ∧ r.writesKey key = true
    · left
      rw [Running.writesKey_of_op hop]
      exact ⟨hhalf key hold hwas.1 hwas.2, hwas.2⟩
    · exact .inr ⟨hcur, hwas⟩
  case flight =>
    intro item hitem
    rw [hflight] at hitem
    rcases hs.flight p r item hp hitem with ⟨httl, hcur, hold, hothers⟩
    refine ⟨httl, hcur, hold, ?_⟩
    intro q other hne hq
    exact ⟨hothers q other hq, (hs.distinct p r hp).2 q other hne hq item hitem⟩
  case distinct =>
    rw [hflight]
    exact (hs.distinct p r hp).1
  case fits => exact hfits
  case knows => exact hknows

end Consequences

/-! ## Accesses -/

def Running.goto (r : Running) (pc : Pc) : Running :=
  { r with call := { r.call with pc := pc } }

section Accesses

variable {n : ℕ} {s : Concurrent n} {p : Fin n} {r : Running} {id : ℕ}
variable {pc : Pc} {key : Bytes}

variable (hs : s.Sound)
include hs

variable (hp : s.threads p = some r)
include hp

theorem Concurrent.Sound.still_goto (hflight : pc.flight = r.call.pc.flight)
    (haccesses : pc.accessing = true → r.call.pc.accessing = true ∨
      ∀ q other, s.threads q = some other → other.call.pc ≠ .swap ∧
        ∀ item ∈ other.call.pc.flight, r.call.op.key ≠ some item.key)
    (hmigrates : pc.migrating = true → r.call.pc.migrating = true ∨
      ∀ q other, s.threads q = some other → other.call.pc ≠ .swap)
    (hhalf : ∀ key, s.shared.oldRead key ≠ none → r.call.pc.halfway = true →
      r.writesKey key = true → pc.halfway = true) (hfits : pc.Fits s.shared)
    (hknows : (r.goto pc).Knows (s.moved p (r.goto pc) s.shared)) :
    s.Advance p r (r.goto pc) s.shared := by
  apply hs.still hp
  case hop => rfl
  case halone => rfl
  case hexpected => rfl
  case hflight => exact hflight
  case haccesses => exact haccesses
  case hmigrates => exact hmigrates
  case hhalf => exact hhalf
  case hfits => exact hfits
  case hknows => exact hknows

theorem Concurrent.Sound.write_current (hpc : r.call.pc = .access id)
    {value : Option Bytes}
    (hwrites : r.call.op.writes = some (key, value)) {t : ShardTable} (ht : t.Untimed)
    (hbits : t.bits = (s.shared.tables id).bits)
    (hread : t.read = Function.update (s.shared.tables id).read key value) :
    s.Advance p r (r.goto .checkOld) (s.shared.withTable id t) := by
  obtain rfl : id = s.shared.current := hs.fits_at hp hpc
  have hne := hs.old_ne_current hp (by rw [hpc]; rfl)
  have hcur : (s.shared.withTable s.shared.current t).cur =
      Function.update s.shared.cur key value :=
    Shared.cur_withTable_current.trans hread
  have hold := Shared.oldRead_withTable_of_ne (t := t) hne
  have hwritesKey : ∀ other, r.writesKey other = true ↔ other = key :=
    fun _ => Running.writesKey_iff_of_writes hwrites
  constructor
  case running => exact hp
  case op => rfl
  case alone => rfl
  case expected => rfl
  case sound => exact hs.shared.withTable_current hne ht
  case current => rfl
  case old => exact .inl rfl
  case bits => exact Shared.bits_withTable hbits
  case oldShrinks => exact fun other => .inl (hold other)
  case curKept =>
    intro other
    by_cases hother : other = key
    · exact .inr (.inl ⟨by rw [hpc]; rfl, (hwritesKey other).mpr hother⟩)
    · exact .inl (by rw [hcur, Function.update_of_ne hother])
  case present =>
    rintro other v (hfalse | hother)
    · rw [hpc] at hfalse
      cases hfalse
    · have hother : other ≠ key := by
        intro heq
        rw [(hwritesKey other).mpr heq] at hother
        cases hother
      apply Present.congr
      · change (s.shared.withTable _ t).cur other = _ ∨
          (s.shared.withTable _ t).oldRead other = _ ↔ _
        rw [hcur, hold, Function.update_of_ne hother]
      · exact flies_moved_of_flight hp (by rw [hpc]; rfl)
  case accesses => exact fun _ => .inl (by rw [hpc]; rfl)
  case migrates => nofun
  case apart =>
    intro other hsome hsomeOld
    by_cases hother : other = key
    · exact .inl ⟨rfl, (hwritesKey other).mpr hother⟩
    · rw [hcur, Function.update_of_ne hother] at hsome
      refine .inr ⟨hsome, ?_⟩
      rw [hpc]
      nofun
  case flight => nofun
  case distinct => exact List.nodup_nil
  case fits => trivial
  case knows =>
    constructor
    case readHalf =>
      intro other hop
      have hop : r.call.op = .get other := hop
      rw [hop] at hwrites
      cases hwrites
    case writeHalf =>
      intro other v hop _ _
      have hop : r.call.op.writes = some (other, v) := hop
      rw [hwrites] at hop
      cases hop
      change (s.shared.withTable _ t).cur key = value
      rw [hcur, Function.update_self]
    case readAfter => nofun
    case writeAfter => nofun
    case resizes => nofun

theorem Concurrent.Sound.write_old (hpc : r.call.pc = .accessOld id)
    {value : Option Bytes}
    (hwrites : r.call.op.writes = some (key, value)) {t : ShardTable} (ht : t.Untimed)
    (hbits : t.bits = (s.shared.tables id).bits)
    (hread : t.read = Function.update (s.shared.tables id).read key none) :
    s.Advance p r (r.goto .loadStep) (s.shared.withTable id t) := by
  have hid : s.shared.Stale id := hs.fits_at hp hpc
  have hshrinks : ∀ other, t.read other = (s.shared.tables id).read other ∨
      t.read other = none := by
    intro other
    rw [hread]
    by_cases hother : other = key
    · subst other
      exact .inr (Function.update_self ..)
    · exact .inl (Function.update_of_ne hother ..)
  have hcur : (s.shared.withTable id t).cur = s.shared.cur := Shared.cur_withTable_of_ne hid.1
  have hold := hs.shared.oldRead_withTable_stale hid hshrinks
  have hgone : (s.shared.withTable id t).oldRead key = none := by
    rw [hold, hread, Function.update_self]
  have hkept : ∀ other, other ≠ key →
      (s.shared.withTable id t).oldRead other = s.shared.oldRead other := by
    intro other hother
    rw [hold, hread, Function.update_of_ne hother, hs.shared.read_stale hid]
  have hwritesKey : ∀ other, r.writesKey other = true ↔ other = key :=
    fun _ => Running.writesKey_iff_of_writes hwrites
  have hhalf : r.call.pc.halfway = true := by rw [hpc]; rfl
  constructor
  case running => exact hp
  case op => rfl
  case alone => rfl
  case expected => rfl
  case sound => exact hs.shared.withTable_shrunk ht hbits hshrinks
  case current => rfl
  case old => exact .inl rfl
  case bits => exact Shared.bits_withTable hbits
  case oldShrinks =>
    intro other
    by_cases hother : other = key
    · subst other
      exact .inr hgone
    · exact .inl (hkept other hother)
  case curKept => exact fun other => .inl (by rw [hcur])
  case present =>
    rintro other v (hfalse | hother)
    · rw [hpc] at hfalse
      cases hfalse
    · have hother : other ≠ key := by
        intro heq
        rw [(hwritesKey other).mpr heq] at hother
        cases hother
      apply Present.congr
      · change (s.shared.withTable _ t).cur other = _ ∨
          (s.shared.withTable _ t).oldRead other = _ ↔ _
        rw [hcur, hkept other hother]
      · exact flies_moved_of_flight hp (by rw [hpc]; rfl)
  case accesses => nofun
  case migrates => nofun
  case apart =>
    intro other hsome hsomeOld
    rw [hcur] at hsome
    refine .inr ⟨hsome, ?_⟩
    rintro ⟨-, hother⟩
    rw [(hwritesKey other).mp hother, hgone] at hsomeOld
    exact hsomeOld rfl
  case flight => nofun
  case distinct => exact List.nodup_nil
  case fits => trivial
  case knows =>
    apply Running.knows_after rfl
    · intro other o hop
      have hop : r.call.op = .get other := hop
      rw [hop] at hwrites
      cases hwrites
    · intro other v hop halone
      have hop : r.call.op.writes = some (other, v) := hop
      rw [hwrites] at hop
      cases hop
      apply Concurrent.holds_of_cur _ hgone
      · intro w hflies
        exact hs.not_flies hp (Pc.accessing_of_halfway hhalf)
          (Running.key_of_writesKey ((hwritesKey key).mpr rfl)) w
          ((flies_moved_of_flight hp (by rw [hpc]; rfl)).mp hflies)
      · change (s.shared.withTable id t).cur key = value
        rw [hcur]
        exact (hs.knows p r hp).writeHalf key value hwrites hhalf halone

theorem Concurrent.Sound.read_current (hpc : r.call.pc = .access id) (hop : r.call.op = .get key) :
    s.Advance p r
      { r with call := { r.call with
        result := s.shared.cur key
        pc := if (s.shared.cur key).isSome then .checkStep else .checkOld } }
      s.shared := by
  have hnoWrite : ∀ written, r.call.op.writes ≠ some written := by
    rw [hop]
    nofun
  apply hs.still hp
  case hop => rfl
  case halone => rfl
  case hexpected => rfl
  case hflight =>
    rw [hpc]
    cases s.shared.cur key <;> rfl
  case haccesses => exact fun _ => .inl (by rw [hpc]; rfl)
  case hmigrates => cases s.shared.cur key <;> nofun
  case hhalf =>
    rw [hpc]
    nofun
  case hfits => cases s.shared.cur key <;> trivial
  case hknows =>
    cases hcur : s.shared.cur key with
    | some value =>
      apply Running.knows_after rfl
      · intro other o hother ho
        cases hop.symm.trans hother
        exact ((hs.holds_of_expected hp hop ho value).mp (.inl hcur)).symm
      · exact fun _ _ hwrites => absurd hwrites (hnoWrite _)
    | none =>
      constructor
      case readHalf =>
        intro other hother _
        cases hop.symm.trans hother
        exact ⟨rfl, fun _ => hcur⟩
      case writeHalf => exact fun _ _ hwrites => absurd hwrites (hnoWrite _)
      case readAfter => nofun
      case writeAfter => nofun
      case resizes => nofun

theorem Concurrent.Sound.read_old (hpc : r.call.pc = .accessOld id) (hop : r.call.op = .get key) :
    s.Advance p r
      { r with call := { r.call with
        result := s.shared.oldRead key
        pc := if (s.shared.oldRead key).isSome then .loadStep else .checkStep } }
      s.shared := by
  have hhalf : r.call.pc.halfway = true := by rw [hpc]; rfl
  have hnoWrite : ∀ written, r.call.op.writes ≠ some written := by
    rw [hop]
    nofun
  apply hs.still hp
  case hop => rfl
  case halone => rfl
  case hexpected => rfl
  case hflight =>
    rw [hpc]
    cases s.shared.oldRead key <;> rfl
  case haccesses => exact fun _ => .inl (Pc.accessing_of_halfway hhalf)
  case hmigrates => cases s.shared.oldRead key <;> nofun
  case hhalf =>
    intro other _ _ hwrites
    rcases Running.writesKey_iff.mp hwrites with ⟨value, hvalue⟩
    exact absurd hvalue (hnoWrite _)
  case hfits => cases s.shared.oldRead key <;> trivial
  case hknows =>
    apply Running.knows_after (by cases s.shared.oldRead key <;> rfl)
    · intro other o hother ho
      cases hop.symm.trans hother
      cases hold : s.shared.oldRead key with
      | some value =>
        exact ((hs.holds_of_expected hp hop ho value).mp (.inr (.inl hold))).symm
      | none => exact hs.expected_of_miss hp hhalf hop ho hold
    · exact fun _ _ hwrites => absurd hwrites (hnoWrite _)

theorem Concurrent.Sound.leave_tables (hhalf : r.call.pc.halfway = true)
    (hold : s.shared.old = none)
    (hafter : pc.after = true) (hmigrating : pc.migrating = false) :
    s.Advance p r (r.goto pc) s.shared := by
  have hnone := Shared.oldRead_of_none hold
  have haccessing := Pc.accessing_of_halfway hhalf
  have hflight : pc.flight = r.call.pc.flight := by
    rw [Pc.flight_of_accessing haccessing, Pc.flight_of_not_migrating hmigrating]
  apply hs.still_goto hp hflight (fun _ => .inl haccessing)
  case hmigrates =>
    intro htrue
    rw [hmigrating] at htrue
    cases htrue
  case hhalf => exact fun key hsome => absurd (hnone key) hsome
  case hfits => exact Pc.fits_of_after hafter hmigrating
  case hknows =>
    apply Running.knows_after hafter
    · intro key o hop ho
      have hop : r.call.op = .get key := hop
      refine Eq.trans ?_ (hs.expected_of_miss hp hhalf hop ho (hnone key))
      exact ((hs.knows p r hp).readHalf key hop hhalf).1
    · intro key value hwrites halone
      have hwrites : r.call.op.writes = some (key, value) := hwrites
      apply Concurrent.holds_of_cur
      case hcur => exact (hs.knows p r hp).writeHalf key value hwrites hhalf halone
      case hold => exact hnone key
      case hflies =>
        intro w hflies
        exact hs.not_flies hp haccessing
          (Running.key_of_writesKey (Running.writesKey_iff.mpr ⟨value, hwrites⟩)) w
          ((flies_moved_of_flight hp hflight).mp hflies)

theorem Concurrent.Sound.go_to_old (hhalf : r.call.pc.halfway = true) (hhalf' : pc.halfway = true)
    (hfits : pc.Fits s.shared) : s.Advance p r (r.goto pc) s.shared := by
  have haccessing := Pc.accessing_of_halfway hhalf
  apply hs.still_goto hp
  case hflight =>
    rw [Pc.flight_of_accessing haccessing, Pc.flight_of_accessing (Pc.accessing_of_halfway hhalf')]
  case haccesses => exact fun _ => .inl haccessing
  case hmigrates =>
    intro hmigrating
    rw [(Pc.of_halfway hhalf').2.2.2] at hmigrating
    cases hmigrating
  case hhalf => exact fun _ _ _ _ => hhalf'
  case hfits => exact hfits
  case hknows => exact (hs.knows p r hp).halfway rfl rfl rfl rfl hhalf hhalf' rfl

end Accesses

/-! ## Migration steps -/

section Migration

variable {n : ℕ} {s : Concurrent n} {p : Fin n} {r : Running} {id idx : ℕ}
variable {t : ShardTable}

theorem Concurrent.Sound.walk (hs : s.Sound) (hp : s.threads p = some r)
    (hafter : r.call.pc.after = true) {pc : Pc} (hafter' : pc.after = true)
    (hflight : pc.flight = r.call.pc.flight)
    (hmigrates : pc.migrating = true → r.call.pc.migrating = true ∨
      ∀ q other, s.threads q = some other → other.call.pc ≠ .swap)
    (hfits : pc.Fits s.shared) : s.Advance p r (r.goto pc) s.shared := by
  apply hs.still_goto hp hflight
  case haccesses =>
    intro haccessing
    rw [(Pc.of_after hafter').2.2.2] at haccessing
    cases haccessing
  case hmigrates => exact hmigrates
  case hhalf =>
    intro _ _ hhalf
    rw [(Pc.of_after hafter).1] at hhalf
    cases hhalf
  case hfits => exact hfits
  case hknows =>
    exact (hs.knows p r hp).stays rfl rfl rfl rfl hafter hafter' fun key value =>
      Present.congr Iff.rfl (flies_moved_of_flight hp hflight)

def Pc.taken (id idx : ℕ) : List Item → Pc
  | [] => .endStep idx false
  | item :: rest => .pickShard id idx item rest

def Pc.stored (id idx : ℕ) : List Item → Pc
  | [] => .endStep idx true
  | item :: rest => .pickShard id idx item rest

theorem Pc.flight_taken (id idx : ℕ) (items : List Item) :
    (Pc.taken id idx items).flight = items := by
  cases items <;> rfl

theorem Pc.flight_stored (id idx : ℕ) (items : List Item) :
    (Pc.stored id idx items).flight = items := by
  cases items <;> rfl

theorem Concurrent.Sound.present_taken (hs : s.Sound) (hp : s.threads p = some r)
    (hflight : r.call.pc.flight = []) {old : ℕ} (hold : s.shared.Stale old)
    {items : List Item} (ht : (s.shared.tables old).Extracts t idx items)
    (key value : Bytes) :
    (s.moved p (r.goto (.taken id idx items))
      (s.shared.withTable old t)).Present key value ↔ s.Present key value := by
  have hread := hs.shared.read_stale hold
  unfold Present
  rw [flies_moved, flies_split hp, hflight]
  change (s.shared.withTable old t).cur key = _ ∨ (s.shared.withTable old t).oldRead key = _ ∨
      ((∃ item ∈ (Pc.taken id idx items).flight, _) ∨ _) ↔ _
  rw [Pc.flight_taken, Shared.cur_withTable_of_ne hold.1,
    hs.shared.oldRead_withTable_stale hold ht.shrinks, ht.left, hread]
  simp only [List.not_mem_nil, false_and, exists_false, false_or]
  constructor
  · rintro (h | ⟨h, -⟩ | ⟨item, hitem, rfl, rfl⟩ | h)
    · exact .inl h
    · exact .inr (.inl h)
    · exact .inr (.inl (hread item.key ▸ ht.found item hitem))
    · exact .inr (.inr h)
  · rintro (h | h | h)
    · exact .inl h
    · by_cases hitem : ∀ item ∈ items, item.key ≠ key
      · exact .inr (.inl ⟨h, hitem⟩)
      · push Not at hitem
        rcases hitem with ⟨item, hitem, rfl⟩
        have hvalue := (ht.found item hitem).symm.trans ((hread item.key).trans h)
        cases hvalue
        exact .inr (.inr (.inl ⟨item, hitem, rfl, rfl⟩))
    · exact .inr (.inr (.inr h))

theorem Concurrent.Sound.take_items (hs : s.Sound) (hp : s.threads p = some r) {old : ℕ}
    (hpc : r.call.pc = .extract id old idx) {items : List Item}
    (ht : (s.shared.tables old).Extracts t idx items)
    (hcalm : ∀ q other, s.threads q = some other → other.call.pc.accessing = true →
      ∀ item ∈ items, other.call.op.key ≠ some item.key) :
    s.Advance p r (r.goto (.taken id idx items)) (s.shared.withTable old t) := by
  rcases hs.fits_at hp hpc with ⟨hid, hold, -⟩
  have hcur : (s.shared.withTable old t).cur = s.shared.cur := Shared.cur_withTable_of_ne hold.1
  have holdRead := hs.shared.oldRead_withTable_stale hold ht.shrinks
  have hread := hs.shared.read_stale hold
  have hpresent : ∀ key value, (s.moved p (r.goto (.taken id idx items))
        (s.shared.withTable old t)).Present key value ↔ s.Present key value :=
    hs.present_taken hp (by rw [hpc]; rfl) hold ht
  constructor
  case running => exact hp
  case op => rfl
  case alone => rfl
  case expected => rfl
  case sound => exact hs.shared.withTable_shrunk ht.untimed ht.bits ht.shrinks
  case current => rfl
  case old => exact .inl rfl
  case bits => exact Shared.bits_withTable ht.bits
  case oldShrinks =>
    intro key
    rw [holdRead, ← hread]
    exact ht.shrinks key
  case curKept => exact fun key => .inl (by rw [hcur])
  case present => exact fun key value _ => hpresent key value
  case accesses =>
    change (Pc.taken id idx items).accessing = true → _
    cases items <;> nofun
  case migrates => exact fun _ => .inl (by rw [hpc]; rfl)
  case apart =>
    intro key hsome _
    rw [hcur] at hsome
    refine .inr ⟨hsome, ?_⟩
    rw [hpc]
    nofun
  case flight =>
    change ∀ item ∈ (Pc.taken id idx items).flight, _
    rw [Pc.flight_taken, hcur]
    intro item hitem
    have hsome : s.shared.oldRead item.key ≠ none := by
      rw [← hread, ht.found item hitem]
      nofun
    refine ⟨ht.ttl item hitem, ?_, ?_, ?_⟩
    · by_contra hsomeCur
      rcases hs.apart item.key hsomeCur hsome with hwindow | ⟨q, other, hq, hhalf, hwrites⟩
      · exact hs.old_ne_current hp (by rw [hpc]; rfl) hwindow
      · exact hcalm q other hq (Pc.accessing_of_halfway hhalf) item hitem
          (Running.key_of_writesKey hwrites)
    · rw [holdRead]
      by_contra hleft
      rcases Option.ne_none_iff_exists'.mp hleft with ⟨value, hvalue⟩
      exact ((ht.left item.key value).mp hvalue).2 item hitem rfl
    · intro q other hne hq
      refine ⟨fun haccessing => hcalm q other hq haccessing item hitem, ?_⟩
      intro item' hitem' heq
      rw [heq] at hsome
      exact hsome (hs.flight q other item' hq hitem').2.2.1
  case distinct =>
    change ((Pc.taken id idx items).flight.map Item.key).Nodup
    rw [Pc.flight_taken]
    exact ht.nodup
  case fits =>
    cases items with
    | nil =>
      intro _ old' hold' key hkey
      have hold' : s.shared.old = some old' := hold'
      obtain rfl : old' = old := by
        rcases hold.2 with hsome | hnone
        · rw [hold'] at hsome
          cases hsome
          rfl
        · rw [hold'] at hnone
          cases hnone
      rw [holdRead]
      apply ht.emptied rfl key
      rw [← hkey]
      exact (ShardTable.index_val_of_bits (Shared.bits_withTable ht.bits _) key).symm
    | cons item rest => exact hid
  case knows =>
    have hafter : (Pc.taken id idx items).after = true := by
      cases items <;> rfl
    exact (hs.knows p r hp).stays rfl rfl rfl rfl (by rw [hpc]; rfl) hafter hpresent

theorem Concurrent.Sound.present_stored (hs : s.Sound) (hp : s.threads p = some r)
    {item : Item} {rest : List Item} (hflight : r.call.pc.flight = item :: rest)
    (hne : s.shared.old ≠ some s.shared.current)
    (hread : t.read = Function.update (s.shared.tables s.shared.current).read
      item.key (some item.value)) (key value : Bytes) :
    (s.moved p (r.goto (.stored id idx rest))
      (s.shared.withTable s.shared.current t)).Present key value ↔
      s.Present key value := by
  have hcur : (s.shared.withTable s.shared.current t).cur =
      Function.update s.shared.cur item.key (some item.value) :=
    Shared.cur_withTable_current.trans hread
  have hnone : s.shared.cur item.key = none :=
    (hs.flight p r item hp (by rw [hflight]; exact List.mem_cons_self)).2.1
  unfold Present
  rw [flies_moved, flies_split hp, hflight]
  change (s.shared.withTable _ t).cur key = _ ∨ (s.shared.withTable _ t).oldRead key = _ ∨
      ((∃ item ∈ (Pc.stored id idx rest).flight, _) ∨ _) ↔ _
  rw [Pc.flight_stored, hcur, Shared.oldRead_withTable_of_ne hne]
  simp only [List.mem_cons, or_and_right, exists_or, exists_eq_left]
  by_cases hkey : key = item.key
  · subst key
    rw [Function.update_self, hnone]
    simp only [Option.some.injEq, true_and, reduceCtorEq, false_or]
    rw [or_assoc, or_left_comm]
  · rw [Function.update_of_ne hkey]
    simp [Ne.symm hkey]

theorem Concurrent.Sound.store_item (hs : s.Sound) (hp : s.threads p = some r)
    {shard : ℕ} {item : Item} {rest : List Item}
    (hpc : r.call.pc = .putItem id idx shard item rest) (ht : t.Untimed)
    (hbits : t.bits = (s.shared.tables id).bits)
    (hread : t.read = Function.update (s.shared.tables id).read item.key (some item.value)) :
    s.Advance p r (r.goto (.stored id idx rest)) (s.shared.withTable id t) := by
  obtain rfl : id = s.shared.current := (hs.fits_at hp hpc).1
  have hne := hs.old_ne_current hp (by rw [hpc]; rfl)
  have hflight : r.call.pc.flight = item :: rest := by rw [hpc]; rfl
  have hitem := hs.flight p r item hp (by rw [hflight]; exact List.mem_cons_self)
  have hcur : (s.shared.withTable s.shared.current t).cur =
      Function.update s.shared.cur item.key (some item.value) :=
    Shared.cur_withTable_current.trans hread
  have hold := Shared.oldRead_withTable_of_ne (t := t) hne
  have hnodup : item.key ∉ rest.map Item.key ∧ (rest.map Item.key).Nodup := by
    have hdistinct := (hs.distinct p r hp).1
    rw [hflight] at hdistinct
    exact List.nodup_cons.mp hdistinct
  have hpresent : ∀ key value, (s.moved p (r.goto (.stored s.shared.current idx rest))
        (s.shared.withTable s.shared.current t)).Present key value ↔
        s.Present key value :=
    hs.present_stored hp hflight hne hread
  constructor
  case running => exact hp
  case op => rfl
  case alone => rfl
  case expected => rfl
  case sound => exact hs.shared.withTable_current hne ht
  case current => rfl
  case old => exact .inl rfl
  case bits => exact Shared.bits_withTable hbits
  case oldShrinks => exact fun key => .inl (hold key)
  case curKept =>
    intro key
    by_cases hkey : key = item.key
    · exact .inr (.inr ⟨item, by rw [hflight]; exact List.mem_cons_self, hkey.symm⟩)
    · exact .inl (by rw [hcur, Function.update_of_ne hkey])
  case present => exact fun key value _ => hpresent key value
  case accesses =>
    change (Pc.stored s.shared.current idx rest).accessing = true → _
    cases rest <;> nofun
  case migrates => exact fun _ => .inl (by rw [hpc]; rfl)
  case apart =>
    intro key hsome hsomeOld
    rw [hold] at hsomeOld
    have hkey : key ≠ item.key := by
      rintro rfl
      exact hsomeOld hitem.2.2.1
    rw [hcur, Function.update_of_ne hkey] at hsome
    refine .inr ⟨hsome, ?_⟩
    rw [hpc]
    nofun
  case flight =>
    change ∀ next ∈ (Pc.stored s.shared.current idx rest).flight, _
    rw [Pc.flight_stored, hcur]
    intro next hnext
    have hmem : next ∈ r.call.pc.flight := by
      rw [hflight]
      exact List.mem_cons_of_mem _ hnext
    have hkey : next.key ≠ item.key := by
      intro heq
      exact hnodup.1 (heq ▸ List.mem_map_of_mem hnext)
    rcases hs.flight p r next hp hmem with ⟨httl, hnone, hnoneOld, hothers⟩
    refine ⟨httl, ?_, ?_, ?_⟩
    · rw [Function.update_of_ne hkey, hnone]
    · rw [hold, hnoneOld]
    · intro q other hneq hq
      exact ⟨hothers q other hq, (hs.distinct p r hp).2 q other hneq hq next hmem⟩
  case distinct =>
    change ((Pc.stored s.shared.current idx rest).flight.map Item.key).Nodup
    rw [Pc.flight_stored]
    exact hnodup.2
  case fits =>
    cases rest with
    | nil => nofun
    | cons next rest => rfl
  case knows =>
    have hafter : (Pc.stored s.shared.current idx rest).after = true := by
      cases rest <;> rfl
    exact (hs.knows p r hp).stays rfl rfl rfl rfl (by rw [hpc]; rfl) hafter hpresent

theorem Concurrent.Sound.end_step (hs : s.Sound) (hp : s.threads p = some r)
    {moved : Bool} (hpc : r.call.pc = .endStep idx moved) :
    (s.shared.endStep idx moved).Sound ∧ (s.shared.endStep idx moved).oldRead = s.shared.oldRead ∧
      ((s.shared.endStep idx moved).old = s.shared.old ∨
        (s.shared.endStep idx moved).old = none) := by
  have hempty : moved = false → ∀ old, s.shared.old = some old → ∀ key,
      ((s.shared.tables old).index key).val = idx → s.shared.oldRead key = none :=
    hs.fits_at hp hpc
  unfold Shared.endStep
  cases hold : s.shared.old with
  | none => exact ⟨hs.shared, rfl, .inl hold⟩
  | some old =>
    dsimp only
    split
    case isFalse => exact ⟨hs.shared, rfl, .inl hold⟩
    case isTrue hlast =>
      have hmoved : moved = false := by simpa using hlast.1
      have hswept : ∀ key, ((s.shared.tables old).index key).val < idx + 1 →
          (s.shared.tables old).read key = none := by
        intro key hkey
        rcases Nat.lt_succ_iff_lt_or_eq.mp hkey with hlt | heq
        · exact (hs.shared.swept old hold).2 key (by rw [hlast.2]; exact hlt)
        · rw [← Shared.oldRead_of_some hold]
          exact hempty hmoved old hold key heq
      split_ifs with hfull
      · have hall : ∀ key, (s.shared.tables old).read key = none := by
          intro key
          exact hswept key (((s.shared.tables old).index key).isLt.trans_le hfull)
        refine ⟨?_, ?_, .inr rfl⟩
        · constructor
          case untimed => exact hs.shared.untimed
          case current => exact hs.shared.current
          case retired =>
            intro id hid _ key
            by_cases hidOld : id = old
            · subst id
              exact hall key
            · refine hs.shared.retired id hid ?_ key
              rw [hold]
              exact fun heq => hidOld (Option.some.inj heq).symm
          case swept => nofun
        · funext key
          rw [Shared.oldRead_of_some hold, hall]
          rfl
      · refine ⟨?_, ?_, .inl rfl⟩
        · constructor
          case untimed => exact hs.shared.untimed
          case current => exact hs.shared.current
          case retired =>
            intro id hid hne key
            exact hs.shared.retired id hid (by rw [hold]; exact hne) key
          case swept =>
            rintro _ ⟨⟩
            exact ⟨not_le.mp hfull, hswept⟩
        · funext key
          rw [Shared.oldRead_of_some hold]
          rfl

theorem Shared.endStep_tables (sh : Shared) (idx : ℕ) (moved : Bool) :
    (sh.endStep idx moved).tables = sh.tables ∧ (sh.endStep idx moved).current = sh.current ∧
      (sh.endStep idx moved).locked = sh.locked := by
  unfold Shared.endStep
  split
  · exact ⟨rfl, rfl, rfl⟩
  · split_ifs <;> exact ⟨rfl, rfl, rfl⟩

theorem Concurrent.Sound.finish_step (hs : s.Sound) (hp : s.threads p = some r)
    {moved : Bool} (hpc : r.call.pc = .endStep idx moved) :
    s.Advance p r (r.goto .done) (s.shared.endStep idx moved) := by
  rcases hs.end_step hp hpc with ⟨hsound, holdRead, hold⟩
  rcases s.shared.endStep_tables idx moved with ⟨htables, hcurrent, -⟩
  have hcur : (s.shared.endStep idx moved).cur = s.shared.cur := by
    unfold Shared.cur
    rw [htables, hcurrent]
  have hpresent : ∀ key value,
      (s.moved p (r.goto .done) (s.shared.endStep idx moved)).Present key value ↔
        s.Present key value := by
    intro key value
    apply Present.congr
    · change (s.shared.endStep idx moved).cur key = _ ∨
        (s.shared.endStep idx moved).oldRead key = _ ↔ _
      rw [hcur, holdRead]
    · exact flies_moved_of_flight hp (by rw [hpc]; rfl)
  constructor
  case running => exact hp
  case op => rfl
  case alone => rfl
  case expected => rfl
  case sound => exact hsound
  case current => exact hcurrent
  case old =>
    rcases hold with hsame | hnone
    · exact .inl hsame
    · exact .inr ⟨hnone, by rw [hpc]; rfl⟩
  case bits => exact fun id => by rw [htables]
  case oldShrinks => exact fun key => .inl (by rw [holdRead])
  case curKept => exact fun key => .inl (by rw [hcur])
  case present => exact fun key value _ => hpresent key value
  case accesses => nofun
  case migrates => nofun
  case apart =>
    intro key hsome _
    rw [hcur] at hsome
    refine .inr ⟨hsome, ?_⟩
    rw [hpc]
    nofun
  case flight => nofun
  case distinct => exact List.nodup_nil
  case fits => trivial
  case knows =>
    exact (hs.knows p r hp).stays rfl rfl rfl rfl (by rw [hpc]; rfl) rfl hpresent

end Migration

/-! ## Resizing -/

namespace Shared

def started (sh : Shared) : Shared :=
  { sh with old := some sh.current, rehashIdx := 0 }

def swapped (sh : Shared) (t : ShardTable) : Shared :=
  { sh with
    tables := Function.update sh.tables sh.fresh t
    current := sh.fresh
    fresh := sh.fresh + 1
    locked := false }

variable {sh : Shared} {t : ShardTable}

theorem Sound.started (hsh : sh.Sound) (hold : sh.old = none) : sh.started.Sound := by
  constructor
  case untimed => exact hsh.untimed
  case current => exact hsh.current
  case retired =>
    intro id hid _ key
    exact hsh.retired id hid (by rw [hold]; nofun) key
  case swept =>
    rintro _ ⟨⟩
    exact ⟨Nat.two_pow_pos _, nofun⟩

theorem tables_swapped_of_ne {id : ℕ} (hid : id ≠ sh.fresh) :
    (sh.swapped t).tables id = sh.tables id :=
  Function.update_of_ne hid ..

theorem cur_swapped (hread : ∀ key, t.read key = none) (key : Bytes) :
    (sh.swapped t).cur key = none := by
  change (Function.update sh.tables sh.fresh t sh.fresh).read key = none
  rw [Function.update_self]
  exact hread key

theorem Sound.oldRead_swapped (hsh : sh.Sound) (hold : sh.old = some sh.current)
    (key : Bytes) : (sh.swapped t).oldRead key = sh.cur key := by
  have hlater : (sh.swapped t).old = some sh.current := hold
  rw [oldRead_of_some hlater, tables_swapped_of_ne hsh.current.ne]
  rfl

theorem Sound.swapped (hsh : sh.Sound) (hold : sh.old = some sh.current)
    (ht : t.Untimed) : (sh.swapped t).Sound := by
  constructor
  case untimed =>
    intro id
    by_cases hid : id = sh.fresh
    · subst id
      change (Function.update sh.tables sh.fresh t sh.fresh).Untimed
      rw [Function.update_self]
      exact ht
    · rw [tables_swapped_of_ne hid]
      exact hsh.untimed id
  case current => exact Nat.lt_succ_self _
  case retired =>
    intro id hid hne key
    have hne : sh.old ≠ some id := hne
    rw [tables_swapped_of_ne hid]
    refine hsh.retired id ?_ hne key
    rintro rfl
    exact hne hold
  case swept =>
    intro old hsome
    have hsome : sh.old = some old := hsome
    obtain rfl : sh.current = old := Option.some.inj (hold.symm.trans hsome)
    rw [tables_swapped_of_ne hsh.current.ne]
    exact hsh.swept _ hold

end Shared

section Resizing

variable {n : ℕ} {s : Concurrent n} {p : Fin n} {r r' : Running} {sh : Shared}

theorem Concurrent.Sound.key_of_resizing (hs : s.Sound) (hp : s.threads p = some r)
    (hpc : r.call.pc = .lock ∨ r.call.pc.resizing = true) :
    r.call.op.key = none :=
  (hs.knows p r hp).resizes hpc

theorem Concurrent.Sound.others_not_resizing (hs : s.Sound)
    (hp : s.threads p = some r) (hresizing : r.call.pc.resizing = true)
    {q : Fin n} {other : Running} (hne : q ≠ p) (hq : s.threads q = some other) :
    other.call.pc.resizing = false := by
  by_contra hother
  exact hne ((hs.mutex p r hp hresizing).2 q other hq (by simpa using hother))

theorem Concurrent.coordinated_moved (hothers : ∀ q other, q ≠ p → s.threads q = some other →
      other.call.pc.resizing = false)
    (hlocked : r'.call.pc.resizing = true → sh.locked = true)
    (hstart : r'.call.pc = .start → sh.old = none)
    (hswap : r'.call.pc = .swap ↔ sh.old = some sh.current)
    (hquiet : r'.call.pc = .swap →
      ∀ q other, s.threads q = some other → other.call.pc.idle = true) :
    (s.moved p r' sh).Coordinated := by
  have hresizer : ∀ q other, (s.moved p r' sh).threads q = some other →
      other.call.pc.resizing = true → q = p ∧ other = r' := by
    intro q other hq hresizing
    rcases moved_threads.mp hq with hself | ⟨hne, hq⟩
    · exact hself
    · rw [hothers q other hne hq] at hresizing
      cases hresizing
  constructor
  case mutex =>
    intro q other hq hresizing
    rcases hresizer q other hq hresizing with ⟨rfl, rfl⟩
    exact ⟨hlocked hresizing, fun q' other' hq' hresizing' =>
      (hresizer q' other' hq' hresizing').1⟩
  case starting =>
    intro q other hq hpc
    rcases hresizer q other hq (by rw [hpc]; rfl) with ⟨rfl, rfl⟩
    exact hstart hpc
  case window =>
    intro q other hq hpc
    rcases hresizer q other hq (by rw [hpc]; rfl) with ⟨rfl, rfl⟩
    refine ⟨hswap.mp hpc, ?_⟩
    intro q' other' hq'
    rcases moved_threads.mp hq' with ⟨-, rfl⟩ | ⟨-, hq'⟩
    · rw [hpc]
      rfl
    · exact hquiet hpc q' other' hq'
  case noWindow =>
    intro hwindow
    exact ⟨p, r', moved_threads.mpr (.inl ⟨rfl, rfl⟩), hswap.mpr hwindow⟩

theorem Concurrent.Sound.take_lock (hs : s.Sound) (hp : s.threads p = some r)
    (hpc : r.call.pc = .lock) (hfree : s.shared.locked = false)
    (hold : s.shared.old = none) :
    (s.moved p (r.goto .start) (s.shared.withLock true)).Sound := by
  have hkey := hs.key_of_resizing hp (.inl hpc)
  have hadvance : s.Advance p r (r.goto .start) (s.shared.withLock true) := by
    apply hs.still hp
    case hop => rfl
    case halone => rfl
    case hexpected => rfl
    case hflight => rw [hpc]; rfl
    case haccesses => nofun
    case hmigrates => nofun
    case hhalf => rw [hpc]; nofun
    case hfits => trivial
    case hknows => exact Running.knows_of_key hkey
  constructor
  case toCoordinated =>
    apply Concurrent.coordinated_moved
    case hothers =>
      intro q other _ hq
      by_contra hresizing
      have hlocked := (hs.mutex q other hq (by simpa using hresizing)).1
      rw [hfree] at hlocked
      cases hlocked
    case hlocked => exact fun _ => rfl
    case hstart => exact fun _ => hold
    case hswap =>
      change Pc.start = .swap ↔ s.shared.old = _
      rw [hold]
      simp
    case hquiet => nofun
  case toPlaced => exact hadvance.placed hs
  case toRecorded =>
    exact hs.toRecorded.moved hp rfl rfl rfl fun key value hwrites =>
      hadvance.present key value (.inr hwrites)

theorem Concurrent.Sound.start (hs : s.Sound) (hp : s.threads p = some r) (hpc : r.call.pc = .start)
    (hquiet : ∀ q other, s.threads q = some other → other.call.pc.idle = true) :
    (s.moved p (r.goto .swap) s.shared.started).Sound := by
  have hold := hs.starting p r hp hpc
  have hresizing : r.call.pc.resizing = true := by rw [hpc]; rfl
  have hkey := hs.key_of_resizing hp (.inr hresizing)
  apply hs.moved_quiet hp
  case hop => rfl
  case halone => rfl
  case hexpected => rfl
  case hkey => exact hkey
  case hquiet => exact hquiet
  case hidle => rfl
  case hsound => exact hs.shared.started hold
  case hsame =>
    intro key value
    rw [Shared.oldRead_of_none hold]
    change s.shared.cur key = _ ∨ s.shared.cur key = _ ↔ _
    simp
  case hapart => exact fun _ _ _ => rfl
  case hcoordinated =>
    apply Concurrent.coordinated_moved
    case hothers => exact fun _ _ => hs.others_not_resizing hp hresizing
    case hlocked => exact fun _ => (hs.mutex p r hp hresizing).1
    case hstart => nofun
    case hswap => exact ⟨fun _ => rfl, fun _ => rfl⟩
    case hquiet => exact fun _ => hquiet

theorem Concurrent.Sound.swap (hs : s.Sound) (hp : s.threads p = some r)
    (hpc : r.call.pc = .swap) {t : ShardTable} (ht : t.Untimed)
    (hread : ∀ key, t.read key = none) :
    (s.moved p (r.goto .done) (s.shared.swapped t)).Sound := by
  have hresizing : r.call.pc.resizing = true := by rw [hpc]; rfl
  have hkey := hs.key_of_resizing hp (.inr hresizing)
  rcases hs.window p r hp hpc with ⟨hold, hquiet⟩
  apply hs.moved_quiet hp
  case hop => rfl
  case halone => rfl
  case hexpected => rfl
  case hkey => exact hkey
  case hquiet => exact hquiet
  case hidle => rfl
  case hsound => exact hs.shared.swapped hold ht
  case hsame =>
    intro key value
    rw [Shared.cur_swapped hread, hs.shared.oldRead_swapped hold, Shared.oldRead_of_some hold]
    change _ ∨ s.shared.cur key = _ ↔ s.shared.cur key = _ ∨ s.shared.cur key = _
    simp
  case hapart => exact fun key hsome => absurd (Shared.cur_swapped hread key) hsome
  case hcoordinated =>
    apply Concurrent.coordinated_moved
    case hothers => exact fun _ _ => hs.others_not_resizing hp hresizing
    case hlocked => nofun
    case hstart => nofun
    case hswap =>
      change Pc.done = .swap ↔ s.shared.old = some s.shared.fresh
      rw [hold]
      simp [hs.shared.current.ne]
    case hquiet => nofun

end Resizing

end MCache.Store
