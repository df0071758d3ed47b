import MCache.ConcurrentSteps

/-!
# Migration and concurrent writes

A `Set` or `Del` that has returned, with no other write to its key since,
decides what later calls of `Get` return, in every run whose steps do not
collide: no call loads the table between `Start` and the store of the new
table, no resize starts while a call is at the tables, a migration step takes
no key that another call is at, and no call begins its accesses to a key that
is in flight.  Without this a migration can undo a write that has returned.
-/

namespace MCache.Store

/-! ## Calls begin and return -/

section Calls

variable {n : ℕ} {s : Concurrent n} {p : Fin n}
variable {op : Op} {key : Bytes} {r : Running}

theorem Op.entry_outside (op : Op) : op.entry.outside = true := by
  cases op with
  | resize shardCount =>
    change (if validShards shardCount then Pc.lock else .done).outside = true
    split_ifs <;> rfl
  | _ => rfl

theorem Running.knows_entry (op : Op) (alone : Bool) (expected : Option (Option Bytes)) :
    Running.Knows s ⟨⟨op, op.entry, none⟩, alone, expected⟩ := by
  cases op with
  | resize shardCount => exact Running.knows_of_key rfl
  | step => exact Running.knows_of_key rfl
  | _ => exact Running.knows_before (.inl rfl)

theorem Running.disturb_writesKey (key other : Bytes) (r : Running) :
    (r.disturb key).writesKey other = r.writesKey other :=
  rfl

theorem Op.get_of_key (hkey : op.key = some key) (hwrites : op.writes = none) : op = .get key := by
  cases op <;> simp_all [Op.key, Op.writes]

theorem Concurrent.Sound.begin_read (hs : s.Sound) (hp : s.threads p = none)
    (hwrites : op.writes = none) :
    (s.moved p ⟨⟨op, op.entry, none⟩, false, op.key.bind s.settled⟩ s.shared).Sound := by
  have hnoWrite : ∀ key,
      Running.writesKey ⟨⟨op, op.entry, none⟩, false, op.key.bind s.settled⟩ key =
        false := by
    intro key
    unfold Running.writesKey
    rw [hwrites]
  have hcarries : s.Carries
      (s.moved p ⟨⟨op, op.entry, none⟩, false, op.key.bind s.settled⟩ s.shared) := by
    constructor
    case shared => rfl
    case back =>
      intro q r' hq
      rcases moved_threads.mp hq with ⟨-, rfl⟩ | ⟨-, hq⟩
      · exact .inr ⟨op.entry_outside, Running.knows_entry ..⟩
      · exact .inl ⟨r', hq, rfl, id, fun _ => id⟩
    case forth =>
      intro q r hq
      refine .inr ⟨r, moved_threads.mpr (.inr ⟨?_, hq⟩), rfl⟩
      rintro rfl
      rw [hp] at hq
      cases hq
  apply hcarries.sound hs
  constructor
  case settled =>
    intro key o hsettled
    rcases hs.settled key o hsettled with ⟨hidle, hholds⟩
    constructor
    · intro q r' hq
      rcases moved_threads.mp hq with ⟨-, rfl⟩ | ⟨-, hq⟩
      · exact hnoWrite key
      · exact hidle q r' hq
    · intro value
      rw [hcarries.present]
      exact hholds value
  case alone =>
    intro q r' hq halone key hwritesKey q' other hq' hother
    rcases moved_threads.mp hq with ⟨-, rfl⟩ | ⟨-, hq⟩
    · cases halone
    · rcases moved_threads.mp hq' with ⟨-, rfl⟩ | ⟨-, hq'⟩
      · rw [hnoWrite] at hother
        cases hother
      · exact hs.alone q r' hq halone key hwritesKey q' other hq' hother
  case expected =>
    intro q r' hq o ho
    rcases moved_threads.mp hq with ⟨-, rfl⟩ | ⟨-, hq⟩
    · rcases Option.bind_eq_some_iff.mp ho with ⟨key, hkey, hsettled⟩
      exact ⟨key, Op.get_of_key hkey hwrites, hsettled⟩
    · exact hs.expected q r' hq o ho

def Concurrent.writing (s : Concurrent n) (p : Fin n) (key : Bytes)
    (running : Running) : Concurrent n :=
  { s with
    threads := Function.update (fun q => (s.threads q).map (Running.disturb key)) p (some running)
    settled := Function.update s.settled key none }

theorem Concurrent.writing_threads {running r' : Running} {q : Fin n} :
    (s.writing p key running).threads q = some r' ↔ q = p ∧ r' = running ∨
        q ≠ p ∧ ∃ r, s.threads q = some r ∧ r' = r.disturb key := by
  unfold writing
  by_cases hq : q = p
  · subst q
    simp [eq_comm]
  · simp [hq, eq_comm]

theorem Concurrent.Sound.begin_write (hs : s.Sound) (hp : s.threads p = none)
    {value : Option Bytes} (hwrites : op.writes = some (key, value)) :
    (s.writing p key ⟨⟨op, op.entry, none⟩,
        decide (∀ q r, s.threads q = some r → r.writesKey key = false),
        none⟩).Sound := by
  generalize halone : decide (∀ q r, s.threads q = some r → r.writesKey key = false) = alone
  have hwritesKey : ∀ other, Running.writesKey ⟨⟨op, op.entry, none⟩, alone, none⟩ other = true ↔
        other = key :=
    fun _ => Running.writesKey_iff_of_writes hwrites
  have hcarries : s.Carries (s.writing p key ⟨⟨op, op.entry, none⟩, alone, none⟩) := by
    constructor
    case shared => rfl
    case back =>
      intro q r' hq
      rcases Concurrent.writing_threads.mp hq with ⟨-, rfl⟩ | ⟨-, r, hrun, rfl⟩
      · exact .inr ⟨op.entry_outside, Running.knows_entry ..⟩
      · refine .inl ⟨r, hrun, rfl, fun h => (Bool.and_eq_true_iff.mp h).1, ?_⟩
        intro o ho
        exact (Option.ite_none_left_eq_some.mp ho).2
    case forth =>
      intro q r hq
      refine .inr ⟨r.disturb key, Concurrent.writing_threads.mpr (.inr ⟨?_, r, hq, rfl⟩), rfl⟩
      rintro rfl
      rw [hp] at hq
      cases hq
  apply hcarries.sound hs
  constructor
  case settled =>
    intro other o hsettled
    have hother : other ≠ key := by
      rintro rfl
      rw [show (s.writing p other _).settled other = none from
        Function.update_self ..] at hsettled
      cases hsettled
    have hbefore : s.settled other = some o := by
      rw [← hsettled]
      exact (Function.update_of_ne hother ..).symm
    rcases hs.settled other o hbefore with ⟨hidle, hholds⟩
    constructor
    · intro q r' hq
      rcases Concurrent.writing_threads.mp hq with ⟨-, rfl⟩ | ⟨-, r, hrun, rfl⟩
      · by_contra hwrite
        exact hother ((hwritesKey other).mp (by simpa using hwrite))
      · exact hidle q r hrun
    · intro v
      rw [hcarries.present]
      exact hholds v
  case alone =>
    intro q r' hq hself other hwrite q' r'' hq' hwrite'
    rcases Concurrent.writing_threads.mp hq with ⟨rfl, rfl⟩ | ⟨-, r, hrun, rfl⟩
    · rcases Concurrent.writing_threads.mp hq' with ⟨rfl, -⟩ | ⟨-, r, hrun', rfl⟩
      · rfl
      · have hnone := of_decide_eq_true (halone.trans hself) q' r hrun'
        rw [Running.disturb_writesKey, (hwritesKey other).mp hwrite, hnone] at hwrite'
        cases hwrite'
    · have hboth := Bool.and_eq_true_iff.mp hself
      have hother : other ≠ key := by
        rintro rfl
        rw [Running.disturb_writesKey] at hwrite
        simp [hwrite] at hboth
      rcases Concurrent.writing_threads.mp hq' with ⟨-, rfl⟩ | ⟨-, r'', hrun', rfl⟩
      · exact absurd ((hwritesKey other).mp hwrite') hother
      · exact hs.alone q r hrun hboth.1 other hwrite q' r'' hrun' hwrite'
  case expected =>
    intro q r' hq o ho
    rcases Concurrent.writing_threads.mp hq with ⟨-, rfl⟩ | ⟨-, r, hrun, rfl⟩
    · cases ho
    · rcases Option.ite_none_left_eq_some.mp ho with ⟨hkey, ho⟩
      rcases hs.expected q r hrun o ho with ⟨other, hop, hsettled⟩
      refine ⟨other, hop, ?_⟩
      have hother : other ≠ key := by
        rintro rfl
        rw [hop] at hkey
        exact hkey rfl
      exact (Function.update_of_ne hother ..).trans hsettled

theorem Concurrent.finish_threads {r' : Running} {q : Fin n} :
    (s.finish p r).threads q = some r' ↔ q ≠ p ∧ s.threads q = some r' := by
  unfold finish
  by_cases hq : q = p
  · subst q
    simp
  · simp [hq]

theorem Concurrent.finish_settled {o : Option Bytes} : (s.finish p r).settled key = some o →
      r.alone = true ∧ r.call.op.writes = some (key, o) ∨ s.settled key = some o := by
  intro hsettled
  cases hwrites : r.call.op.writes with
  | none =>
    simp only [finish, hwrites] at hsettled
    exact .inr hsettled
  | some written =>
    simp only [finish, hwrites] at hsettled
    split_ifs at hsettled with halone
    · by_cases hkey : key = written.1
      · subst key
        rw [Function.update_self] at hsettled
        cases hsettled
        exact .inl ⟨halone, rfl⟩
      · rw [Function.update_of_ne hkey] at hsettled
        exact .inr hsettled
    · exact .inr hsettled

theorem Concurrent.finish_settled_of_idle (hidle : r.writesKey key = false) :
    (s.finish p r).settled key = s.settled key := by
  cases hwrites : r.call.op.writes with
  | none => simp only [finish, hwrites]
  | some written =>
    have hkey : key ≠ written.1 := by
      rintro rfl
      rw [Running.writesKey_iff.mpr ⟨written.2, hwrites⟩] at hidle
      cases hidle
    simp only [finish, hwrites]
    split_ifs
    · exact Function.update_of_ne hkey ..
    · rfl

theorem Concurrent.Sound.finish (hs : s.Sound) (hp : s.threads p = some r)
    (hpc : r.call.pc = .done) : (s.finish p r).Sound := by
  have hcarries : s.Carries (s.finish p r) := by
    constructor
    case shared => rfl
    case back =>
      exact fun q r' hq => .inl ⟨r', (finish_threads.mp hq).2, rfl, id, fun _ => id⟩
    case forth =>
      intro q other hq
      by_cases hne : q = p
      · subst q
        rw [hp] at hq
        cases hq
        exact .inl (by rw [hpc]; rfl)
      · exact .inr ⟨other, finish_threads.mpr ⟨hne, hq⟩, rfl⟩
  apply hcarries.sound hs
  constructor
  case settled =>
    intro key o hsettled
    rcases finish_settled hsettled with ⟨halone, hwrites⟩ | hbefore
    · have hwritesKey : r.writesKey key = true := Running.writesKey_iff.mpr ⟨o, hwrites⟩
      constructor
      · intro q other hq
        rcases finish_threads.mp hq with ⟨hne, hq⟩
        by_contra hwrite
        exact hne (hs.alone p r hp halone key hwritesKey q other hq (by simpa using hwrite))
      · intro value
        rw [hcarries.present]
        exact (hs.knows p r hp).writeAfter key o hwrites (by rw [hpc]; rfl) halone value
    · rcases hs.settled key o hbefore with ⟨hidle, hholds⟩
      constructor
      · exact fun q other hq => hidle q other (finish_threads.mp hq).2
      · intro value
        rw [hcarries.present]
        exact hholds value
  case alone =>
    intro q r' hq halone key hwrites q' other hq' hwrites'
    exact hs.alone q r' (finish_threads.mp hq).2 halone key hwrites q' other
      (finish_threads.mp hq').2 hwrites'
  case expected =>
    intro q r' hq o ho
    rcases hs.expected q r' (finish_threads.mp hq).2 o ho with ⟨key, hop, hsettled⟩
    refine ⟨key, hop, ?_⟩
    rw [finish_settled_of_idle ((hs.settled key o hsettled).1 p r hp)]
    exact hsettled

end Calls

/-! ## Steps that do not collide -/

section Calm

variable {n : ℕ} {s : Concurrent n}
variable {a : ThreadAction n}

def Concurrent.all (s : Concurrent n) (test : Running → Bool) : Bool :=
  decide (∀ q, (s.threads q).all test = true)

theorem Concurrent.all_iff {test : Running → Bool} :
    s.all test = true ↔ ∀ q r, s.threads q = some r → test r = true := by
  simp [Concurrent.all, Option.all_eq_true]

def Concurrent.calm (s : Concurrent n) (a : ThreadAction n) : Bool :=
  match s.threads a.thread with
  | none => true
  | some r =>
    match r.call.pc with
    | .load =>
      s.all fun other => decide (other.call.pc ≠ .swap) &&
        other.call.pc.flight.all fun item => decide (r.call.op.key ≠ some item.key)
    | .loadStep => s.all fun other => decide (other.call.pc ≠ .swap)
    | .extract _ old idx =>
      match (s.shared.tables old).extractAt idx a.order a.clock with
      | none => true
      | some (_, items) =>
        s.all fun other => !other.call.pc.accessing ||
          items.all fun item => decide (other.call.op.key ≠ some item.key)
    | .start => s.all fun other => other.call.pc.idle
    | _ => true

variable {p : Fin n} {r : Running} {kind : PolicyKind} {order : MapOrder}
  {clock : Clock} {sh : Shared} {c : Call}

theorem Concurrent.Sound.access {id : ℕ} (hs : s.Sound) (hp : s.threads p = some r)
    (hpc : r.call.pc = .access id)
    (hstep : r.call.access s.shared clock id = some (sh, c)) :
    s.Advance p r { r with call := c } sh := by
  have ht := hs.shared.untimed id
  rcases r with ⟨⟨op, pc, result⟩, alone, expected⟩
  cases op with
  | set key value =>
    simp only [Call.access, Option.some.injEq, Prod.mk.injEq] at hstep
    rcases hstep with ⟨rfl, rfl⟩
    exact hs.write_current hp hpc rfl (ht.set key value _).1 rfl (ht.set key value _).2
  | del key =>
    simp only [Call.access, Option.some.injEq, Prod.mk.injEq] at hstep
    rcases hstep with ⟨rfl, rfl⟩
    exact hs.write_current hp hpc rfl (ht.del key).1 rfl (ht.del key).2
  | get key =>
    simp only [Call.access, ht.get, Shared.withTable_self, Option.some.injEq,
      Prod.mk.injEq] at hstep
    rcases hstep with ⟨rfl, rfl⟩
    obtain rfl : id = s.shared.current := hs.fits_at hp hpc
    exact hs.read_current hp hpc rfl
  | _ => cases hstep

theorem Concurrent.Sound.accessOld {id : ℕ} (hs : s.Sound)
    (hp : s.threads p = some r) (hpc : r.call.pc = .accessOld id)
    (hstep : r.call.accessOld s.shared clock id = some (sh, c)) :
    s.Advance p r { r with call := c } sh := by
  have ht := hs.shared.untimed id
  have hread := hs.shared.read_stale (hs.fits_at hp hpc)
  rcases r with ⟨⟨op, pc, result⟩, alone, expected⟩
  cases op with
  | set key value =>
    simp only [Call.accessOld, Option.some.injEq, Prod.mk.injEq] at hstep
    rcases hstep with ⟨rfl, rfl⟩
    exact hs.write_old hp hpc rfl (ht.del key).1 rfl (ht.del key).2
  | del key =>
    simp only [Call.accessOld, Option.some.injEq, Prod.mk.injEq] at hstep
    rcases hstep with ⟨rfl, rfl⟩
    exact hs.write_old hp hpc rfl (ht.del key).1 rfl (ht.del key).2
  | get key =>
    simp only [Call.accessOld, ht.get, hread, Shared.withTable_self,
      Option.some.injEq, Prod.mk.injEq] at hstep
    rcases hstep with ⟨rfl, rfl⟩
    exact hs.read_old hp hpc rfl
  | _ => cases hstep

theorem Call.advance_unlocked {sh' : Shared} (hlock : c.pc ≠ .lock)
    (hresizing : c.pc.resizing = false) {later : Call}
    (hstep : c.advance kind order clock sh = some (sh', later)) :
    sh'.locked = sh.locked ∧ later.pc.resizing = false := by
  rcases c with ⟨op, pc, result⟩
  cases pc with
  | access id =>
    cases op <;>
      simp only [Call.advance, Call.access, Option.some.injEq, Prod.mk.injEq, reduceCtorEq] at hstep
    all_goals
      rcases hstep with ⟨rfl, rfl⟩
      refine ⟨rfl, ?_⟩
      first | rfl | (dsimp only; split_ifs <;> rfl)
  | accessOld id =>
    cases op <;>
      simp only [Call.advance, Call.accessOld, Option.some.injEq, Prod.mk.injEq,
        reduceCtorEq] at hstep
    all_goals
      rcases hstep with ⟨rfl, rfl⟩
      refine ⟨rfl, ?_⟩
      first | rfl | (dsimp only; split_ifs <;> rfl)
  | checkOld =>
    simp only [Call.advance, Option.some.injEq, Prod.mk.injEq] at hstep
    rcases hstep with ⟨rfl, rfl⟩
    cases op <;> (dsimp only; split_ifs) <;> exact ⟨rfl, rfl⟩
  | oldShard =>
    simp only [Call.advance, Option.some.injEq, Prod.mk.injEq] at hstep
    rcases hstep with ⟨rfl, rfl⟩
    cases op <;> (dsimp only; split) <;> exact ⟨rfl, rfl⟩
  | checkStep =>
    simp only [Call.advance, Option.some.injEq, Prod.mk.injEq] at hstep
    rcases hstep with ⟨rfl, rfl⟩
    dsimp only
    split_ifs <;> exact ⟨rfl, rfl⟩
  | beginStep id =>
    simp only [Call.advance, Option.some.injEq, Prod.mk.injEq] at hstep
    rcases hstep with ⟨rfl, rfl⟩
    dsimp only
    split <;> exact ⟨rfl, rfl⟩
  | extract id old idx =>
    simp only [Call.advance, Option.map_eq_some_iff, Prod.mk.injEq] at hstep
    rcases hstep with ⟨⟨t, items⟩, -, rfl, rfl⟩
    cases items <;> exact ⟨rfl, rfl⟩
  | putItem id idx shard item rest =>
    simp only [Call.advance, Option.map_eq_some_iff, Prod.mk.injEq] at hstep
    rcases hstep with ⟨t, -, rfl, rfl⟩
    cases rest <;> exact ⟨rfl, rfl⟩
  | endStep idx moved =>
    simp only [Call.advance, Option.some.injEq, Prod.mk.injEq] at hstep
    rcases hstep with ⟨rfl, rfl⟩
    exact ⟨(sh.endStep_tables idx moved).2.2, rfl⟩
  | lock => exact absurd rfl hlock
  | start => cases hresizing
  | swap => cases hresizing
  | done => cases hstep
  | _ =>
    simp only [Call.advance, Option.some.injEq, Prod.mk.injEq] at hstep
    rcases hstep with ⟨rfl, rfl⟩
    exact ⟨rfl, rfl⟩

theorem Concurrent.Sound.advance (hs : s.Sound) (hp : s.threads a.thread = some r)
    (hcalm : s.calm a = true) (hlock : r.call.pc ≠ .lock)
    (hresizing : r.call.pc.resizing = false)
    (hstep : r.call.advance kind a.order a.clock s.shared = some (sh, c)) :
    s.Advance a.thread r { r with call := c } sh := by
  rw [Concurrent.calm, hp] at hcalm
  cases hpc : r.call.pc with
  | load =>
    simp only [hpc, Concurrent.all_iff, Bool.and_eq_true, decide_eq_true_eq,
      List.all_eq_true] at hcalm
    simp only [Call.advance, hpc, Option.some.injEq, Prod.mk.injEq] at hstep
    rcases hstep with ⟨rfl, rfl⟩
    apply hs.still_goto hp
    case hflight => rw [hpc]; rfl
    case haccesses => exact fun _ => .inr hcalm
    case hmigrates => nofun
    case hhalf => rw [hpc]; nofun
    case hfits => rfl
    case hknows => exact Running.knows_before (.inr ⟨_, rfl⟩)
  | access id =>
    simp only [Call.advance, hpc] at hstep
    exact hs.access hp hpc hstep
  | checkOld =>
    have hhalf : r.call.pc.halfway = true := by rw [hpc]; rfl
    simp only [Call.advance, hpc, Option.some.injEq, Prod.mk.injEq] at hstep
    rcases hstep with ⟨rfl, rfl⟩
    cases hold : s.shared.old with
    | some old => exact hs.go_to_old hp hhalf rfl trivial
    | none =>
      apply hs.leave_tables hp hhalf hold
      case hafter => cases r.call.op <;> rfl
      case hmigrating => cases r.call.op <;> rfl
  | oldShard =>
    have hhalf : r.call.pc.halfway = true := by rw [hpc]; rfl
    simp only [Call.advance, hpc, Option.some.injEq, Prod.mk.injEq] at hstep
    rcases hstep with ⟨rfl, rfl⟩
    cases hold : s.shared.old with
    | some old =>
      exact hs.go_to_old hp hhalf rfl (hs.stale_of_old hp (by rw [hpc]; rfl) hold)
    | none =>
      apply hs.leave_tables hp hhalf hold
      case hafter => cases r.call.op <;> rfl
      case hmigrating => cases r.call.op <;> rfl
  | accessOld id =>
    simp only [Call.advance, hpc] at hstep
    exact hs.accessOld hp hpc hstep
  | checkStep =>
    simp only [Call.advance, hpc, Option.some.injEq, Prod.mk.injEq] at hstep
    rcases hstep with ⟨rfl, rfl⟩
    apply hs.walk hp (by rw [hpc]; rfl)
    case hafter' => split_ifs <;> rfl
    case hflight => rw [hpc]; split_ifs <;> rfl
    case hmigrates => split_ifs <;> nofun
    case hfits => split_ifs <;> trivial
  | loadStep =>
    simp only [hpc, Concurrent.all_iff, decide_eq_true_eq] at hcalm
    simp only [Call.advance, hpc, Option.some.injEq, Prod.mk.injEq] at hstep
    rcases hstep with ⟨rfl, rfl⟩
    exact hs.walk hp (by rw [hpc]; rfl) rfl (by rw [hpc]; rfl) (fun _ => .inr hcalm) rfl
  | beginStep id =>
    have hmigrating : r.call.pc.migrating = true := by rw [hpc]; rfl
    simp only [Call.advance, hpc, Option.some.injEq, Prod.mk.injEq] at hstep
    rcases hstep with ⟨rfl, rfl⟩
    cases hold : s.shared.old with
    | some old =>
      exact hs.walk hp (by rw [hpc]; rfl) rfl (by rw [hpc]; rfl) (fun _ => .inl hmigrating)
        ⟨hs.fits_at hp hpc, hs.stale_of_old hp (by rw [hpc]; rfl) hold,
          (hs.shared.swept old hold).1⟩
    | none =>
      exact hs.walk hp (by rw [hpc]; rfl) rfl (by rw [hpc]; rfl) (fun _ => .inl hmigrating) trivial
  | extract id old idx =>
    rcases (hs.shared.untimed old).extractAt (hs.fits_at hp hpc).2.2 a.order a.clock with
      ⟨t, items, hextract, hextracts⟩
    simp only [hpc, hextract, Concurrent.all_iff, Bool.or_eq_true,
      Bool.not_eq_true', List.all_eq_true, decide_eq_true_eq] at hcalm
    simp only [Call.advance, hpc, hextract, Option.map_some, Option.some.injEq,
      Prod.mk.injEq] at hstep
    rcases hstep with ⟨rfl, rfl⟩
    have hadvance := hs.take_items hp hpc hextracts (by
      intro q other hq haccessing
      rcases hcalm q other hq with hfalse | hfree
      · rw [haccessing] at hfalse
        cases hfalse
      · exact hfree)
    cases items <;> exact hadvance
  | pickShard id idx item rest =>
    have hid : id = s.shared.current := hs.fits_at hp hpc
    simp only [Call.advance, hpc, Option.some.injEq, Prod.mk.injEq] at hstep
    rcases hstep with ⟨rfl, rfl⟩
    exact hs.walk hp (by rw [hpc]; rfl) rfl (by rw [hpc]; rfl)
      (fun _ => .inl (by rw [hpc]; rfl)) ⟨hid, rfl⟩
  | putItem id idx shard item rest =>
    rcases hs.fits_at hp hpc with ⟨hid, hshard⟩
    have httl := (hs.flight a.thread r item hp (by rw [hpc]; exact List.mem_cons_self)).1
    have ht := (hs.shared.untimed id).set item.key item.value (a.clock .store item.key)
    rw [← hid] at hshard
    simp only [Call.advance, hpc, hshard, ShardTable.setAt_index, httl,
      Option.map_some, Option.some.injEq, Prod.mk.injEq] at hstep
    rcases hstep with ⟨rfl, rfl⟩
    have hadvance := hs.store_item hp hpc ht.1 rfl ht.2
    cases rest <;> exact hadvance
  | endStep idx moved =>
    simp only [Call.advance, hpc, Option.some.injEq, Prod.mk.injEq] at hstep
    rcases hstep with ⟨rfl, rfl⟩
    exact hs.finish_step hp hpc
  | lock => exact absurd hpc hlock
  | start =>
    rw [hpc] at hresizing
    cases hresizing
  | swap =>
    rw [hpc] at hresizing
    cases hresizing
  | done => simp only [Call.advance, hpc, reduceCtorEq] at hstep

theorem Concurrent.Sound.resize (hs : s.Sound) (hp : s.threads a.thread = some r)
    (hcalm : s.calm a = true) (hpc : r.call.pc = .lock ∨ r.call.pc.resizing = true)
    (hstep : r.call.advance kind a.order a.clock s.shared = some (sh, c)) :
    (s.moved a.thread { r with call := c } sh).Sound := by
  have hkey := hs.key_of_resizing hp hpc
  rw [Concurrent.calm, hp] at hcalm
  cases hat : r.call.pc with
  | lock =>
    simp only [Call.advance, hat] at hstep
    split_ifs at hstep with hlocked hold
    · cases hstep
      have hadvance : s.Advance a.thread r (r.goto .done) s.shared := by
        apply hs.still_goto hp
        case hflight => rw [hat]; rfl
        case haccesses => nofun
        case hmigrates => nofun
        case hhalf => rw [hat]; nofun
        case hfits => trivial
        case hknows => exact Running.knows_of_key hkey
      exact hadvance.sound_moved hs rfl ⟨by rw [hat]; rfl, rfl⟩
    · cases hstep
      exact hs.take_lock hp hat (by simpa using hlocked) (by simpa using hold)
  | start =>
    simp only [hat, Concurrent.all_iff] at hcalm
    simp only [Call.advance, hat, Option.some.injEq, Prod.mk.injEq] at hstep
    rcases hstep with ⟨rfl, rfl⟩
    exact hs.start hp hat hcalm
  | swap =>
    simp only [Call.advance, hat] at hstep
    split at hstep
    · cases hstep
      exact hs.swap hp hat (newTable_untimed _ kind) (newTable_read _ kind)
    · cases hstep
  | _ =>
    rw [hat] at hpc
    rcases hpc with hpc | hpc <;> cases hpc

theorem Concurrent.Sound.begin {op : Op} {next : Concurrent n} (hs : s.Sound)
    (hp : s.threads p = none) (hbegin : s.begin p op = some next) : next.Sound := by
  unfold Concurrent.begin at hbegin
  split_ifs at hbegin
  cases hwrites : op.writes with
  | none =>
    simp only [hwrites, Option.some.injEq] at hbegin
    subst next
    exact hs.begin_read hp hwrites
  | some written =>
    simp only [hwrites, Option.some.injEq] at hbegin
    subst next
    exact hs.begin_write hp hwrites

theorem Concurrent.Sound.step {next : Concurrent n} (hs : s.Sound)
    (hcalm : s.calm a = true) (hstep : s.step kind a = some next) : next.Sound := by
  unfold Concurrent.step at hstep
  split at hstep
  case h_1 op hp hbegins => exact hs.begin hp hstep
  case h_2 r hp hbegins =>
    split_ifs at hstep with hdone
    · cases hstep
      exact hs.finish hp hdone
    · rcases Option.map_eq_some_iff.mp hstep with ⟨⟨sh, c⟩, hadvance, rfl⟩
      by_cases hresize : r.call.pc = .lock ∨ r.call.pc.resizing = true
      · exact hs.resize hp hcalm hresize hadvance
      · push Not at hresize
        rcases hresize with ⟨hlock, hresizing⟩
        have hresizing : r.call.pc.resizing = false := by simpa using hresizing
        rcases Call.advance_unlocked hlock hresizing hadvance with ⟨hlocked, hlater⟩
        exact (hs.advance hp hcalm hlock hresizing hadvance).sound_moved hs hlocked
          ⟨hresizing, hlater⟩
  case h_3 => cases hstep

theorem Concurrent.sound_init (hinit : (concurrentCache kind n).init s) : s.Sound := by
  rcases hinit with ⟨⟨bits, htables⟩, hcurrent, hold, -, hthreads, hsettled⟩
  have hnone : ∀ p r, s.threads p ≠ some r := by
    intro p r hp
    rw [hthreads] at hp
    cases hp
  constructor
  case toCoordinated =>
    constructor
    case mutex => exact fun p r hp => absurd hp (hnone p r)
    case starting => exact fun p r hp => absurd hp (hnone p r)
    case window => exact fun p r hp => absurd hp (hnone p r)
    case noWindow =>
      intro hwindow
      rw [hold] at hwindow
      cases hwindow
  case toPlaced =>
    constructor
    case shared =>
      constructor
      case untimed =>
        intro id
        rw [htables]
        exact newTable_untimed bits kind
      case current => exact hcurrent
      case retired =>
        intro id _ _ key
        rw [htables]
        exact newTable_read bits kind key
      case swept =>
        intro old hsome
        rw [hold] at hsome
        cases hsome
    case apart =>
      exact fun key _ hsome => absurd (Shared.oldRead_of_none hold key) hsome
    case flight => exact fun p r item hp => absurd hp (hnone p r)
    case distinct => exact fun p r hp => absurd hp (hnone p r)
    case fits => exact fun p r hp => absurd hp (hnone p r)
    case knows => exact fun p r hp => absurd hp (hnone p r)
  case toRecorded =>
    constructor
    case settled =>
      intro key o hsome
      rw [hsettled] at hsome
      cases hsome
    case alone => exact fun p r hp => absurd hp (hnone p r)
    case expected => exact fun p r hp => absurd hp (hnone p r)

end Calm

theorem concurrentCache_sound {kind : PolicyKind} {n : ℕ} {s : Concurrent n}
    (hreach : (concurrentCache kind n).ReachableBy (fun s a => s.calm a = true) s) :
    s.Sound :=
  hreach.invariant Concurrent.Sound (fun _ => Concurrent.sound_init)
    fun _ _ _ hs hcalm hstep => hs.step hcalm hstep

/-! ## What `Get` returns -/

theorem get_returns_last_write {kind : PolicyKind} {n : ℕ} {s : Concurrent n}
    (hreach : (concurrentCache kind n).ReachableBy (fun s a => s.calm a = true) s)
    {p : Fin n} {r : Running} (hp : s.threads p = some r) {key : Bytes}
    (hop : r.call.op = .get key) (hdone : r.call.pc = .done) {o : Option Bytes}
    (ho : r.expected = some o) : r.call.result = o :=
  ((concurrentCache_sound hreach).knows p r hp).readAfter key o hop (by rw [hdone]; rfl) ho

def Concurrent.fresh (n : ℕ) : Concurrent n where
  shared :=
    { tables := fun _ => newTable 0 .lru 0
      fresh := 1
      current := 0
      old := none
      rehashIdx := 0
      locked := false }
  threads := fun _ => none
  settled := fun _ => none

theorem Concurrent.fresh_init (n : ℕ) : (concurrentCache .lru n).init (Concurrent.fresh n) :=
  ⟨⟨0, fun _ => rfl⟩, Nat.zero_lt_one, rfl, rfl, fun _ => rfl, fun _ => rfl⟩

def nextSteps {n : ℕ} (p : Fin n) (count : ℕ) : List (ThreadAction n) :=
  List.replicate count ⟨p, none, .asStored, fun _ _ => 1⟩

def callSteps {n : ℕ} (p : Fin n) (op : Op) (count : ℕ) : List (ThreadAction n) :=
  ⟨p, some op, .asStored, fun _ _ => 1⟩ :: nextSteps p count

structure Outcome where
  op : Op
  pc : Pc
  result : Option Bytes
  expected : Option (Option Bytes)
  deriving DecidableEq

def Concurrent.outcome {n : ℕ} (s : Concurrent n) (p : Fin n) : Option Outcome :=
  (s.threads p).map fun r => ⟨r.call.op, r.call.pc, r.call.result, r.expected⟩

theorem Concurrent.outcome_eq_some {n : ℕ} {s : Concurrent n} {p : Fin n}
    {outcome : Outcome} (h : s.outcome p = some outcome) :
    ∃ r, s.threads p = some r ∧ r.call.op = outcome.op ∧ r.call.pc = outcome.pc ∧
      r.call.result = outcome.result ∧ r.expected = outcome.expected := by
  rcases Option.map_eq_some_iff.mp h with ⟨r, hr, rfl⟩
  exact ⟨r, hr, rfl, rfl, rfl, rfl⟩

def migratedRun : List (ThreadAction 2) :=
  callSteps 0 (.set [107] [1]) 4 ++ callSteps 0 (.resize 2) 4 ++
    callSteps 1 .step 7 ++ callSteps 0 (.get [107]) 7

theorem get_returns_last_write_migratedRun :
    ∃ s r, (concurrentCache .lru 2).ReachableBy (fun s a => s.calm a = true) s ∧
      s.threads 0 = some r ∧ r.expected = some (some [1]) ∧
      r.call.result = some [1] := by
  have hrun : ((concurrentCache .lru 2).runBy (fun s a => s.calm a = true)
      (Concurrent.fresh 2) migratedRun).map (·.outcome 0) =
        some (some ⟨.get [107], .done, some [1], some (some [1])⟩) := by
    decide +kernel
  rcases TransitionSystem.exists_reachableBy (Concurrent.fresh_init 2) hrun with
    ⟨s, hreach, hvalue⟩
  rcases Concurrent.outcome_eq_some hvalue with ⟨r, hr, hop, hpc, -, hexpected⟩
  exact ⟨s, r, hreach, hr, hexpected, get_returns_last_write hreach hr hop hpc hexpected⟩

def overtakenRun : List (ThreadAction 2) :=
  callSteps 0 (.set [107] [1]) 4 ++ callSteps 0 (.resize 2) 4 ++
    callSteps 1 .step 3 ++ callSteps 0 (.set [107] [2]) 10 ++ nextSteps 1 4 ++
    callSteps 0 (.get [107]) 3

theorem migration_undoes_set : ∃ s r, (concurrentCache .lru 2).Reachable s ∧ s.threads 0 = some r ∧
      r.call.op = .get [107] ∧ r.call.pc = .done ∧
      r.expected = some (some [2]) ∧ r.call.result = some [1] := by
  have hrun : ((concurrentCache .lru 2).runFrom (Concurrent.fresh 2)
      overtakenRun).map (·.outcome 0) =
        some (some ⟨.get [107], .done, some [1], some (some [2])⟩) := by
    decide +kernel
  rcases TransitionSystem.exists_reachableBy (Concurrent.fresh_init 2) hrun with
    ⟨s, hreach, hvalue⟩
  rcases Concurrent.outcome_eq_some hvalue with
    ⟨r, hr, hop, hpc, hresult, hexpected⟩
  exact ⟨s, r, hreach, hr, hop, hpc, hexpected, hresult⟩

end MCache.Store
