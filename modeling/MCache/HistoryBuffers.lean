import MCache.RingBuffers

/-!
# The history buffers

`FeatureMatrix` of `mbr/matrix.go` and `Monitor` of `monitor/monitor.go`.
Both are rings that grow by `append` until they are full and are then
overwritten at a moving position.  The code indexes its slices without a
check, so each type carries the bounds that make its indices valid.

The matrix copies windows whole, and their type is a parameter.  Instants are
nanoseconds.
-/

namespace MCache.Mbr

variable {W : Type}

structure FeatureMatrix (W : Type) where
  buf : List W
  head : ℕ
  size : ℕ
  capacity : ℕ
  stored : buf.length = size
  size_le : size ≤ capacity
  head_lt : head < capacity

namespace FeatureMatrix

def newFeatureMatrix (capacity : ℤ) : FeatureMatrix W where
  buf := []
  head := 0
  size := 0
  capacity := if capacity < 1 then 60 else capacity.toNat
  stored := rfl
  size_le := Nat.zero_le _
  head_lt := by split <;> omega

def push (m : FeatureMatrix W) (stats : W) : FeatureMatrix W :=
  if hroom : m.size < m.capacity then
    { m with
      buf := m.buf ++ [stats]
      size := m.size + 1
      stored := by rw [List.length_append, m.stored, List.length_singleton]
      size_le := hroom }
  else
    { m with
      buf := m.buf.set m.head stats
      head := (m.head + 1) % m.capacity
      stored := by rw [List.length_set, m.stored]
      head_lt := Nat.mod_lt _ m.head_lt.pos }

theorem index_lt (m : FeatureMatrix W) (hfull : ¬ m.size < m.capacity) (i : ℕ) :
    i % m.capacity < m.buf.length := by
  have hlt := Nat.mod_lt i m.head_lt.pos
  have hstored := m.stored
  omega

def getRecent (m : FeatureMatrix W) (n : ℕ) : List W :=
  if m.size = 0 then []
  else
    let n := if m.size < n then m.size else n
    if hroom : m.size < m.capacity then m.buf.drop (m.size - n)
    else
      let start := (m.head + m.capacity - n) % m.capacity
      List.ofFn fun i : Fin n =>
        m.buf.get ⟨(start + i) % m.capacity, m.index_lt hroom _⟩

def len (m : FeatureMatrix W) : ℕ := m.size

def last (m : FeatureMatrix W) : Option W :=
  if hempty : m.size = 0 then none
  else if hroom : m.size < m.capacity then
    some (m.buf.get ⟨m.size - 1, by rw [m.stored]; omega⟩)
  else
    some (m.buf.get ⟨(m.head + m.capacity - 1) % m.capacity, m.index_lt hroom _⟩)

def pushAll (m : FeatureMatrix W) (windows : List W) : FeatureMatrix W := windows.foldl push m

def Holds (m : FeatureMatrix W) (pushed : List W) : Prop :=
  Ring.Holds m.capacity m.buf m.head pushed

variable {m : FeatureMatrix W} {pushed : List W}

theorem capacity_push (m : FeatureMatrix W) (stats : W) : (m.push stats).capacity = m.capacity := by
  unfold push
  split <;> rfl

theorem capacity_newFeatureMatrix {c : ℕ} (hc : 1 ≤ c) :
    (newFeatureMatrix c : FeatureMatrix W).capacity = c := by
  change (if (c : ℤ) < 1 then 60 else (c : ℤ).toNat) = c
  rw [if_neg (by omega), Int.toNat_natCast]

theorem newFeatureMatrix_holds (c : ℤ) : (newFeatureMatrix c : FeatureMatrix W).Holds [] :=
  Ring.Holds.empty (newFeatureMatrix c : FeatureMatrix W).head_lt

variable (h : m.Holds pushed)
include h

theorem Holds.push (stats : W) : (m.push stats).Holds (pushed ++ [stats]) := by
  have hstored := m.stored
  have hle := m.size_le
  unfold FeatureMatrix.push
  split
  · rename_i hroom
    exact Ring.Holds.append h (by omega) stats
  · rename_i hfull
    exact Ring.Holds.overwrite h (by omega) stats

theorem pushAll_holds (windows : List W) : (m.pushAll windows).Holds (pushed ++ windows) ∧
      (m.pushAll windows).capacity = m.capacity := by
  induction windows generalizing m pushed with
  | nil => exact ⟨by rwa [List.append_nil], rfl⟩
  | cons stats rest ih =>
    obtain ⟨hholds, hcapacity⟩ := ih (h.push stats)
    rw [List.append_assoc, List.singleton_append] at hholds
    exact ⟨hholds, hcapacity.trans (m.capacity_push stats)⟩

theorem Holds.size : m.size = min m.capacity pushed.length := by
  rw [← m.stored]
  exact Ring.Holds.length h

theorem Holds.getRecent (n : ℕ) : m.getRecent n = pushed.rtake (min n m.size) := by
  have hstored := m.stored
  have hle := m.size_le
  unfold FeatureMatrix.getRecent
  split
  · rename_i hempty
    rw [hempty, Nat.min_zero, List.rtake_zero]
  · dsimp only
    have hn : (if m.size < n then m.size else n) = min n m.size := by
      split <;> omega
    rw [← hn]
    split
    · rename_i hroom
      rw [List.rtake, ← Ring.Holds.eq_arrived h (by omega), m.stored]
    · rename_i hfull
      have hlt := m.head_lt
      refine Ring.Holds.recent h (by omega) (by omega) ?_ (m.index_lt hfull)
      rw [Nat.mod_add_mod, Nat.sub_add_cancel (by omega), Nat.add_mod_right, Nat.mod_eq_of_lt hlt]

theorem Holds.last : m.last = pushed.getLast? := by
  have hstored := m.stored
  have hle := m.size_le
  unfold FeatureMatrix.last
  split
  · rename_i hempty
    rw [Ring.Holds.arrived_eq_nil h (hstored.trans hempty), List.getLast?_nil]
  · split
    · rename_i hroom
      rw [← Ring.Holds.eq_arrived h (by omega), List.getLast?_eq_getElem?,
        List.get_eq_getElem, ← List.getElem?_eq_getElem]
      exact congrArg (fun k => m.buf[k - 1]?) hstored.symm
    · rename_i hfull
      rw [List.get_eq_getElem, ← List.getElem?_eq_getElem]
      exact Ring.Holds.newest h (by omega)

end FeatureMatrix

end MCache.Mbr

namespace MCache.Monitoring

structure Metrics where
  CPUMetrics : Type
  IOMetrics : Type
  NetMetrics : Type
  Collector : Type

variable {M : Metrics}

structure MemoryMetrics where
  usedPercent : ℚ
  deriving DecidableEq

structure SystemSnapshot (M : Metrics) where
  timestamp : ℤ
  cpu : Option M.CPUMetrics := none
  memory : Option MemoryMetrics := none
  io : List M.IOMetrics := []
  network : List M.NetMetrics := []

structure Options (M : Metrics) where
  capacity : ℕ
  collectors : List M.Collector
  capacity_pos : 0 < capacity

def newOptions : Options M where
  capacity := 60
  collectors := []
  capacity_pos := by decide

def Options.withCapacity (o : Options M) (n : ℤ) : Options M :=
  { o with
    capacity := if n < 1 then 1 else n.toNat
    capacity_pos := by split <;> omega }

def Options.withCollectors (o : Options M) (c : List M.Collector) : Options M :=
  { o with collectors := c }

structure Round (M : Metrics) where
  now : ℤ
  answer : ℕ → M.Collector → Option (SystemSnapshot M)

def SystemSnapshot.merge (snap : SystemSnapshot M) : Option (SystemSnapshot M) → SystemSnapshot M
  | none => snap
  | some found =>
    { snap with
      cpu := if found.cpu.isSome then found.cpu else snap.cpu
      memory := if found.memory.isSome then found.memory else snap.memory
      io := snap.io ++ found.io
      network := snap.network ++ found.network }

def Options.snapshot (o : Options M) (round : Round M) : SystemSnapshot M :=
  o.collectors.zipIdx.foldl (fun snap c => snap.merge (round.answer c.2 c.1))
    { timestamp := round.now }

structure Monitor (M : Metrics) where
  opts : Options M
  ring : List (SystemSnapshot M)
  pos : ℕ
  count : ℕ
  full : Bool
  ring_le : ring.length ≤ opts.capacity
  pos_lt : pos < opts.capacity
  full_iff : full = true ↔ ring.length = opts.capacity

namespace Monitor

def new (opts : Options M) : Monitor M where
  opts := opts
  ring := []
  pos := 0
  count := 0
  full := false
  ring_le := Nat.zero_le _
  pos_lt := opts.capacity_pos
  full_iff := iff_of_false Bool.false_ne_true opts.capacity_pos.ne

def store (m : Monitor M) (snap : SystemSnapshot M) : Monitor M :=
  if hroom : m.ring.length < m.opts.capacity then
    { m with
      ring := m.ring ++ [snap]
      count := m.count + 1
      full := if (m.ring ++ [snap]).length = m.opts.capacity then true else m.full
      ring_le := by
        rw [List.length_append, List.length_singleton]
        omega
      full_iff := by
        have hfull := m.full_iff
        split
        · rename_i hlast
          exact iff_of_true rfl hlast
        · rename_i hmore
          exact iff_of_false (fun h => hroom.ne (hfull.mp h)) hmore }
  else
    { m with
      ring := m.ring.set m.pos snap
      pos := (m.pos + 1) % m.opts.capacity
      count := m.count + 1
      ring_le := by rw [List.length_set]; exact m.ring_le
      pos_lt := Nat.mod_lt _ m.opts.capacity_pos
      full_iff := by rw [List.length_set]; exact m.full_iff }

def collect (m : Monitor M) (round : Round M) : Monitor M :=
  if m.opts.collectors.length = 0 then m else m.store (m.opts.snapshot round)

theorem index_lt (m : Monitor M) (hfull : ¬ m.full = false) (i : ℕ) :
    i % m.opts.capacity < m.ring.length := by
  rw [m.full_iff.mp (Bool.eq_true_of_not_eq_false hfull)]
  exact Nat.mod_lt _ m.opts.capacity_pos

def latest (m : Monitor M) : Option (SystemSnapshot M) :=
  if hempty : m.ring.length = 0 then none
  else if hroom : m.full = false then
    some (m.ring.get ⟨m.ring.length - 1, by omega⟩)
  else
    some (m.ring.get ⟨(m.pos + m.opts.capacity - 1) % m.opts.capacity, m.index_lt hroom _⟩)

def history (m : Monitor M) : List (SystemSnapshot M) :=
  if m.ring.length = 0 then []
  else if hroom : m.full = false then m.ring
  else
    List.ofFn fun i : Fin m.ring.length =>
      m.ring.get ⟨(m.pos + i) % m.opts.capacity, m.index_lt hroom _⟩

def collectAll (m : Monitor M) (rounds : List (Round M)) : Monitor M := rounds.foldl collect m

def Holds (m : Monitor M) (collected : List (SystemSnapshot M)) : Prop :=
  Ring.Holds m.opts.capacity m.ring m.pos collected

variable {m : Monitor M} {collected : List (SystemSnapshot M)}

theorem new_holds (opts : Options M) : (new opts).Holds [] := Ring.Holds.empty opts.capacity_pos

theorem opts_store (m : Monitor M) (snap : SystemSnapshot M) : (m.store snap).opts = m.opts := by
  unfold store
  split <;> rfl

variable (h : m.Holds collected)
include h

theorem Holds.store (snap : SystemSnapshot M) : (m.store snap).Holds (collected ++ [snap]) := by
  have hle := m.ring_le
  unfold Monitor.store
  split
  · rename_i hroom
    exact Ring.Holds.append h hroom snap
  · rename_i hfull
    exact Ring.Holds.overwrite h (by omega) snap

theorem collectAll_holds (hcollectors : m.opts.collectors ≠ []) (rounds : List (Round M)) :
    (m.collectAll rounds).Holds (collected ++ rounds.map m.opts.snapshot) ∧
      (m.collectAll rounds).opts = m.opts := by
  induction rounds generalizing m collected with
  | nil => exact ⟨by rwa [List.map_nil, List.append_nil], rfl⟩
  | cons round rest ih =>
    have hopts := m.opts_store (m.opts.snapshot round)
    have hstep : m.collect round = m.store (m.opts.snapshot round) :=
      if_neg (mt List.length_eq_zero_iff.mp hcollectors)
    obtain ⟨hholds, hlater⟩ := ih (h.store (m.opts.snapshot round)) (by rwa [hopts])
    rw [hopts, List.append_assoc, List.singleton_append] at hholds
    rw [collectAll, List.foldl_cons, hstep]
    exact ⟨hholds, hlater.trans hopts⟩

theorem Holds.growing (hroom : m.full = false) : m.ring = collected := by
  have hle := m.ring_le
  have hmore : m.ring.length ≠ m.opts.capacity := by
    rw [Ne, ← m.full_iff, hroom]
    exact Bool.false_ne_true
  exact Ring.Holds.eq_arrived h (by omega)

theorem Holds.history : m.history = collected.rtake m.opts.capacity := by
  have hlength := Ring.Holds.length h
  unfold Monitor.history
  split
  · rename_i hempty
    rw [Ring.Holds.arrived_eq_nil h hempty, List.rtake_nil]
  · split
    · rename_i hroom
      rw [h.growing hroom] at hlength ⊢
      rw [Ring.rtake_of_length_le (by omega)]
    · rename_i hfull
      have hring := m.full_iff.mp (Bool.eq_true_of_not_eq_false hfull)
      have hstart : (m.pos + m.ring.length) % m.opts.capacity = m.pos := by
        rw [hring, Nat.add_mod_right, Nat.mod_eq_of_lt m.pos_lt]
      have hread := Ring.Holds.recent h hring hring.le hstart (m.index_lt hfull)
      exact hread.trans (congrArg collected.rtake hring)

theorem Holds.latest : m.latest = collected.getLast? := by
  unfold Monitor.latest
  split
  · rename_i hempty
    rw [Ring.Holds.arrived_eq_nil h hempty, List.getLast?_nil]
  · split
    · rename_i hroom
      rw [← h.growing hroom, List.getLast?_eq_getElem?, List.get_eq_getElem,
        ← List.getElem?_eq_getElem]
    · rename_i hfull
      rw [List.get_eq_getElem, ← List.getElem?_eq_getElem]
      exact Ring.Holds.newest h (m.full_iff.mp (Bool.eq_true_of_not_eq_false hfull))

end Monitor

end MCache.Monitoring

namespace MCache

open Mbr Monitoring

theorem history_buffers_keep_latest (c : ℕ) (hc : 1 ≤ c) : (∀ (W : Type) (windows : List W),
      let m := (FeatureMatrix.newFeatureMatrix c).pushAll windows
      (∀ k, m.getRecent k = windows.rtake (min k (min c windows.length))) ∧
        m.last = windows.getLast? ∧ m.len = min c windows.length) ∧
      ∀ (M : Metrics) (opts : Options M) (rounds : List (Round M)),
        opts.capacity = c → opts.collectors ≠ [] →
          let m := (Monitor.new opts).collectAll rounds
          let collected := rounds.map opts.snapshot
          m.history = collected.rtake (min c collected.length) ∧ m.latest = collected.getLast? := by
  refine ⟨fun W windows => ?_, fun M opts rounds hcapacity hcollectors => ?_⟩
  · obtain ⟨hholds, hsame⟩ :=
      FeatureMatrix.pushAll_holds (FeatureMatrix.newFeatureMatrix_holds c) windows
    rw [List.nil_append] at hholds
    have hsize := hholds.size
    rw [hsame, FeatureMatrix.capacity_newFeatureMatrix hc] at hsize
    exact ⟨fun k => by rw [hholds.getRecent k, hsize], hholds.last, hsize⟩
  · obtain ⟨hholds, hsame⟩ := Monitor.collectAll_holds (Monitor.new_holds opts) hcollectors rounds
    rw [List.nil_append] at hholds
    have hhistory := hholds.history
    rw [hsame] at hhistory
    refine ⟨hhistory.trans ?_, hholds.latest⟩
    rw [← hcapacity, Ring.rtake_min_length]
    rfl

def oneCollector : Options ⟨Unit, Unit, Unit, Unit⟩ :=
  (newOptions.withCapacity 2).withCollectors [()]

theorem history_buffers_keep_latest_two :
    ((FeatureMatrix.newFeatureMatrix 2).pushAll [10, 20, 30]).getRecent 5 = [20, 30] ∧
      (((Monitor.new oneCollector).collectAll
        [⟨7, fun _ _ => none⟩, ⟨8, fun _ _ => none⟩, ⟨9, fun _ _ => none⟩]).history.map
          SystemSnapshot.timestamp) = [8, 9] := by
  have hkeep := history_buffers_keep_latest 2 (by decide)
  refine ⟨(hkeep.1 ℕ [10, 20, 30]).1 5, ?_⟩
  rw [(hkeep.2 _ oneCollector _ rfl (List.cons_ne_nil _ _)).1]
  rfl

end MCache
