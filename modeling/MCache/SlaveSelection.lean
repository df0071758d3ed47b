import MCache.Failover
import MCache.RoundRobin

/-!
# Reads from the slaves

`Get` and `pickSlave` of `cluster/master_slave_mode.go`.  The counter has 32
bits, and the length of the list is converted to 32 bits before the remainder
is taken.  No other goroutine moves the counter or a node's health during a
call.
-/

namespace MCache.Failover.MasterSlaveMode

open RoundRobin

variable {N : Type} {slaves : List N} {healthy : N → Bool}
variable {s : N} {nextSlave : UInt32}

def pickLoop (slaves : List N) (healthy : N → Bool) : ℕ → UInt32 → Option (Option N × UInt32)
  | 0, nextSlave => some (none, nextSlave)
  | rounds + 1, nextSlave =>
    let nextSlave := nextSlave + 1
    let len := UInt32.ofNat slaves.length
    if len = 0 then none
    else
      match slaves[(nextSlave % len).toNat]? with
      | none => none
      | some s =>
        if healthy s then some (some s, nextSlave)
        else pickLoop slaves healthy rounds nextSlave

def pickSlave (slaves : List N) (healthy : N → Bool) (nextSlave : UInt32) :
    Option (Option N × UInt32) :=
  if slaves.length = 0 then some (none, nextSlave)
  else pickLoop slaves healthy slaves.length nextSlave

def pickTimes (slaves : List N) (healthy : N → Bool) : ℕ → UInt32 → Option (List (Option N))
  | 0, _ => some []
  | calls + 1, nextSlave =>
    (pickSlave slaves healthy nextSlave).bind fun picked =>
      (pickTimes slaves healthy calls picked.2).map (picked.1 :: ·)

def get (t : Topology N) (nextSlave : UInt32) : Option (Except String N × UInt32) :=
  (pickSlave t.replicas t.healthy nextSlave).map fun picked =>
    (match picked.1.filter t.healthy, t.master.filter t.healthy with
      | some slave, _ => .ok slave
      | none, some m => .ok m
      | none, none => .error "no healthy node available",
      picked.2)

def visited (slaves : List N) (rounds : ℕ) (nextSlave : UInt32) : List N :=
  (List.range rounds).filterMap fun i =>
    slaves[slot (2 ^ 32) (slaves.length % 2 ^ 32) nextSlave.toNat i]?

theorem slot_next (m i : ℕ) (nextSlave : UInt32) : slot (2 ^ 32) m nextSlave.toNat (i + 1) =
      slot (2 ^ 32) m (nextSlave + 1).toNat i := by
  rw [slot_succ, UInt32.toNat_add]
  rfl

theorem visited_succ (rounds : ℕ)
    (hs : slaves[slot (2 ^ 32) (slaves.length % 2 ^ 32) nextSlave.toNat 0]? = some s) :
    visited slaves (rounds + 1) nextSlave = s :: visited slaves rounds (nextSlave + 1) := by
  unfold visited
  rw [List.range_succ_eq_map, List.filterMap_cons, hs, List.filterMap_map]
  refine congrArg (s :: ·) (List.filterMap_congr fun i _ => ?_)
  exact congrArg (slaves[·]?) (slot_next _ i nextSlave)

theorem pickLoop_succ (healthy : N → Bool) (hlen : slaves.length % 2 ^ 32 ≠ 0)
    (nextSlave : UInt32) :
    ∃ s ∈ slaves, (∀ rounds, visited slaves (rounds + 1) nextSlave =
        s :: visited slaves rounds (nextSlave + 1)) ∧
      ∀ rounds, pickLoop slaves healthy (rounds + 1) nextSlave =
        if healthy s then some (some s, nextSlave + 1)
        else pickLoop slaves healthy rounds (nextSlave + 1) := by
  have hlen32 : UInt32.ofNat slaves.length ≠ 0 := by
    intro hzero
    exact hlen (by simpa using congrArg UInt32.toNat hzero)
  have hindex : ((nextSlave + 1) % UInt32.ofNat slaves.length).toNat =
      slot (2 ^ 32) (slaves.length % 2 ^ 32) nextSlave.toNat 0 := by
    rw [UInt32.toNat_mod, UInt32.toNat_add, UInt32.toNat_ofNat']
    rfl
  have hlt : slot (2 ^ 32) (slaves.length % 2 ^ 32) nextSlave.toNat 0 < slaves.length :=
    (Nat.mod_lt _ (Nat.pos_of_ne_zero hlen)).trans_le (Nat.mod_le _ _)
  have hs := List.getElem?_eq_getElem hlt
  refine ⟨_, List.getElem_mem hlt, fun rounds => visited_succ rounds hs, fun rounds => ?_⟩
  rw [pickLoop, hindex, hs]
  exact if_neg hlen32

theorem pickLoop_eq (healthy : N → Bool) (hlen : slaves.length % 2 ^ 32 ≠ 0)
    (rounds : ℕ) (nextSlave : UInt32) :
    ∃ later, pickLoop slaves healthy rounds nextSlave =
      some ((visited slaves rounds nextSlave).find? healthy, later) := by
  induction rounds generalizing nextSlave with
  | zero => exact ⟨nextSlave, rfl⟩
  | succ rounds ih =>
    obtain ⟨s, _, hvisited, hloop⟩ := pickLoop_succ healthy hlen nextSlave
    rw [hvisited, hloop]
    cases hhealthy : healthy s with
    | true =>
      rw [List.find?_cons_of_pos hhealthy]
      exact ⟨nextSlave + 1, rfl⟩
    | false =>
      rw [List.find?_cons_of_neg (ne_true_of_eq_false hhealthy)]
      exact ih (nextSlave + 1)

theorem pickTimes_eq (hlen : slaves.length % 2 ^ 32 ≠ 0)
    (hhealthy : ∀ s ∈ slaves, healthy s = true) (calls : ℕ) (nextSlave : UInt32) :
    pickTimes slaves healthy calls nextSlave =
      some ((visited slaves calls nextSlave).map some) := by
  induction calls generalizing nextSlave with
  | zero => rfl
  | succ calls ih =>
    obtain ⟨s, hs, hvisited, hloop⟩ := pickLoop_succ healthy hlen nextSlave
    have hpick : pickSlave slaves healthy nextSlave = some (some s, nextSlave + 1) := by
      obtain ⟨rounds, hrounds⟩ : ∃ rounds, slaves.length = rounds + 1 :=
        Nat.exists_eq_succ_of_ne_zero (List.length_pos_of_mem hs).ne'
      rw [pickSlave, if_neg (by omega), hrounds, hloop, if_pos (hhealthy s hs)]
    rw [pickTimes, hpick, Option.bind_some, ih, hvisited]
    rfl

theorem filterMap_getElem?_range (l : List N) : (List.range l.length).filterMap (l[·]?) = l := by
  induction l with
  | nil => rfl
  | cons x rest ih =>
    rw [List.length_cons, List.range_succ_eq_map, List.filterMap_cons,
      List.getElem?_cons_zero, List.filterMap_map]
    exact congrArg (x :: ·) ih

theorem visited_of_smooth (hlen : slaves.length < 2 ^ 32)
    (hsmooth : Smooth (2 ^ 32) slaves.length nextSlave.toNat) :
    ∃ start, visited slaves slaves.length nextSlave = slaves.rotate start := by
  obtain ⟨start, hslot⟩ := hsmooth.rotates hlen
  refine ⟨start, ?_⟩
  have hread := filterMap_getElem?_range (slaves.rotate start)
  rw [List.length_rotate] at hread
  rw [visited, Nat.mod_eq_of_lt hlen, ← hread]
  refine List.filterMap_congr fun i hi => ?_
  rw [List.mem_range] at hi
  rw [hslot i hi, List.getElem?_rotate hi, Nat.add_comm]

theorem mem_visited (hlen : slaves.length % 2 ^ 32 ≠ 0) (nextSlave : UInt32)
    (hpick : ∀ healthy : N → Bool, healthy s = true → ∃ found later,
      pickSlave slaves healthy nextSlave = some (some found, later) ∧
        healthy found = true) : s ∈ visited slaves slaves.length nextSlave := by
  classical
  obtain ⟨found, later, hfound, hhealthy⟩ := hpick (fun x => decide (x = s)) (decide_eq_true rfl)
  obtain ⟨later', hloop⟩ := pickLoop_eq (fun x => decide (x = s)) hlen slaves.length nextSlave
  have hne : slaves.length ≠ 0 := by
    intro hzero
    rw [hzero] at hlen
    exact hlen rfl
  rw [pickSlave, if_neg hne, hloop] at hfound
  have hfind := congrArg Prod.fst (Option.some.inj hfound)
  have hmem := List.mem_of_find?_eq_some hfind
  rwa [of_decide_eq_true hhealthy] at hmem

theorem pickSlave_panics (hne : slaves.length ≠ 0) (hlen : slaves.length % 2 ^ 32 = 0) :
    pickSlave slaves healthy nextSlave = none := by
  have hzero : UInt32.ofNat slaves.length = 0 := by
    apply UInt32.toNat_inj.mp
    rw [UInt32.toNat_ofNat', hlen]
    rfl
  obtain ⟨rounds, hrounds⟩ := Nat.exists_eq_succ_of_ne_zero hne
  rw [pickSlave, if_neg hne, hrounds, Nat.succ_eq_add_one, pickLoop]
  exact if_pos hzero

theorem smooth_of_finds (hne : slaves ≠ []) (hnodup : slaves.Nodup)
    (hfinds : ∀ healthy : N → Bool, (∃ s ∈ slaves, healthy s = true) → ∃ found later,
      pickSlave slaves healthy nextSlave = some (some found, later) ∧ healthy found = true) :
    slaves.length < 2 ^ 32 ∧ Smooth (2 ^ 32) slaves.length nextSlave.toNat := by
  have hpos : slaves.length ≠ 0 := mt List.length_eq_zero_iff.mp hne
  have hlen : slaves.length % 2 ^ 32 ≠ 0 := by
    intro hzero
    obtain ⟨s, later, hpick, -⟩ := hfinds (fun _ => true) ⟨slaves.head hne, List.head_mem hne, rfl⟩
    rw [pickSlave_panics hpos hzero] at hpick
    cases hpick
  have hcovers : ∀ p < slaves.length, ∃ i < slaves.length,
      slot (2 ^ 32) (slaves.length % 2 ^ 32) nextSlave.toNat i = p := by
    intro p hp
    have hmem := mem_visited hlen nextSlave fun healthy hhealthy =>
      hfinds healthy ⟨slaves[p], List.getElem_mem hp, hhealthy⟩
    obtain ⟨i, hi, hslot⟩ := List.mem_filterMap.mp hmem
    refine ⟨i, List.mem_range.mp hi, ?_⟩
    rw [← List.getElem?_eq_getElem hp] at hslot
    have hlt : slot (2 ^ 32) (slaves.length % 2 ^ 32) nextSlave.toNat i < slaves.length :=
      (Nat.mod_lt _ (Nat.pos_of_ne_zero hlen)).trans_le (Nat.mod_le _ _)
    exact (List.getElem?_inj hlt hnodup).mp hslot
  have hshort : slaves.length < 2 ^ 32 := by
    by_contra hlong
    obtain ⟨i, -, hslot⟩ := hcovers (slaves.length - 1) (by omega)
    have hbelow : slot (2 ^ 32) (slaves.length % 2 ^ 32) nextSlave.toNat i <
        slaves.length % 2 ^ 32 := Nat.mod_lt _ (Nat.pos_of_ne_zero hlen)
    omega
  rw [Nat.mod_eq_of_lt hshort] at hcovers
  exact ⟨hshort, smooth_of_covers nextSlave.toNat_lt hshort hcovers⟩

theorem get_of_pickSlave {t : Topology N} {later : UInt32}
    (hpick : pickSlave t.replicas t.healthy nextSlave = some (some s, later))
    (hhealthy : t.healthy s = true) : get t nextSlave = some (.ok s, later) := by
  rw [get, hpick, Option.map_some, Option.filter_some, if_pos hhealthy]

theorem pickSlave_iff (t : Topology N) (hne : t.replicas ≠ [])
    (hnodup : t.replicas.Nodup) (nextSlave : UInt32) :
    ((∀ healthy : N → Bool, (∃ s ∈ t.replicas, healthy s = true) →
        ∃ s later, pickSlave t.replicas healthy nextSlave = some (some s, later) ∧
          s ∈ t.replicas ∧ healthy s = true ∧
          get { t with healthy := healthy } nextSlave = some (.ok s, later)) ∧
      ∀ healthy : N → Bool, (∀ s ∈ t.replicas, healthy s = true) →
        ∃ picked, pickTimes t.replicas healthy t.replicas.length nextSlave = some picked ∧
          picked.Perm (t.replicas.map some)) ↔
      t.replicas.length < 2 ^ 32 ∧ Smooth (2 ^ 32) t.replicas.length nextSlave.toNat := by
  have hpos : t.replicas.length ≠ 0 := mt List.length_eq_zero_iff.mp hne
  constructor
  · rintro ⟨hfinds, -⟩
    refine smooth_of_finds hne hnodup fun healthy hany => ?_
    obtain ⟨s, later, hpick, -, hhealthy, -⟩ := hfinds healthy hany
    exact ⟨s, later, hpick, hhealthy⟩
  · rintro ⟨hshort, hsmooth⟩
    have hlen : t.replicas.length % 2 ^ 32 ≠ 0 := by rwa [Nat.mod_eq_of_lt hshort]
    obtain ⟨start, hvisited⟩ := visited_of_smooth hshort hsmooth
    refine ⟨fun healthy hany => ?_, fun healthy hall => ?_⟩
    · obtain ⟨later, hloop⟩ := pickLoop_eq healthy hlen t.replicas.length nextSlave
      obtain ⟨s, hs, hhealthy⟩ := hany
      obtain ⟨found, hfound⟩ : ∃ found, (t.replicas.rotate start).find? healthy = some found :=
        Option.isSome_iff_exists.mp (List.find?_isSome.mpr ⟨s, List.mem_rotate.mpr hs, hhealthy⟩)
      have hpick : pickSlave t.replicas healthy nextSlave = some (some found, later) := by
        rw [pickSlave, if_neg hpos, hloop, hvisited, hfound]
      have hfine := List.find?_some hfound
      exact ⟨found, later, hpick, List.mem_rotate.mp (List.mem_of_find?_eq_some hfound),
        hfine, get_of_pickSlave hpick hfine⟩
    · refine ⟨_, pickTimes_eq hlen hall _ nextSlave, ?_⟩
      rw [hvisited]
      exact (List.rotate_perm t.replicas start).map some

theorem pickSlave_two :
    ∃ s later, pickSlave [1, 2] (fun s => s == 2) 4294967294 = some (some s, later) ∧
      s ∈ [1, 2] := by
  obtain ⟨s, later, hpick, hmem, -⟩ :=
    ((pickSlave_iff (Topology.start 0 [1, 2]) (by decide) (by decide) 4294967294).mpr
      ⟨by decide, by decide⟩).1 (fun s => s == 2) ⟨2, by decide, rfl⟩
  exact ⟨s, later, hpick, hmem⟩

theorem third_slave_missed : pickSlave [1, 2, 3] (fun s => s == 3) 4294967294 = some (none, 1) ∧
      pickTimes [1, 2, 3] (fun _ => true) 3 4294967294 = some [some 1, some 1, some 2] := by
  decide

end MCache.Failover.MasterSlaveMode
