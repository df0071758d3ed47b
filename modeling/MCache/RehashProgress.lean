import MCache.MissingSubShards

/-!
# The progress of an incremental migration

`IncrementalRehasher` on its own: a list of old shards, a cursor and a flag.  A
call of `Step` that finds an item to move takes an entry out of the old shards;
one that finds none has emptied the shard at the cursor and moves on.  So every
call that finds a migration in progress lowers the number of entries left plus
the number of shards left.
-/

namespace MCache.Store

structure IncrementalRehasher where
  rehashing : Bool
  oldShards : List Shard
  rehashIdx : ℕ

namespace IncrementalRehasher

def start (oldShards : List Shard) : IncrementalRehasher where
  rehashing := true
  oldShards := oldShards
  rehashIdx := 0

structure Report where
  done : Bool
  justCompleted : Bool
  deriving DecidableEq

def step (r : IncrementalRehasher) (order : MapOrder) (clock : Clock)
    (newShards : ShardTable) : Option (IncrementalRehasher × ShardTable × Report) :=
  if r.rehashing = false then some (r, newShards, ⟨true, false⟩)
  else
    match r.oldShards[r.rehashIdx]? with
    | none => none
    | some oldShard =>
      (oldShard.extractN order clock batchSize).map fun result =>
        let r := { r with oldShards := r.oldShards.set r.rehashIdx result.1 }
        let newShards := newShards.insertItems clock result.2
        if result.2 = [] then
          let r := { r with rehashIdx := r.rehashIdx + 1 }
          if r.oldShards.length ≤ r.rehashIdx then
            ({ r with rehashing := false }, newShards, ⟨true, true⟩)
          else (r, newShards, ⟨false, false⟩)
        else (r, newShards, ⟨false, false⟩)

def del (r : IncrementalRehasher) (i : ℕ) (key : Bytes) : IncrementalRehasher :=
  if r.rehashing = false then r
  else { r with oldShards := r.oldShards.modify i fun s => s.del key }

theorem step_length {r next : IncrementalRehasher} {order : MapOrder} {clock : Clock}
    {newShards migrated : ShardTable} {report : Report}
    (hstep : r.step order clock newShards = some (next, migrated, report)) :
    next.oldShards.length = r.oldShards.length := by
  unfold step at hstep
  split at hstep
  case isTrue => cases hstep; rfl
  case isFalse =>
    split at hstep
    case h_1 => cases hstep
    case h_2 =>
      obtain ⟨result, -, hresult⟩ := Option.map_eq_some_iff.mp hstep
      dsimp only at hresult
      split_ifs at hresult <;> cases hresult <;> exact List.length_set

def entriesLeft (r : IncrementalRehasher) : ℕ := (r.oldShards.map Shard.size).sum

def Represents (r : IncrementalRehasher) : Option Migration → Prop
  | some m => r = ⟨true, List.ofFn m.old.shards, m.rehashIdx⟩
  | none => r.rehashing = false

theorem ofFn_withShard (t : ShardTable) (i : Fin (2 ^ t.bits)) (s : Shard) :
    List.ofFn (t.withShard i s).shards = (List.ofFn t.shards).set i.val s := by
  change List.ofFn (Function.update t.shards i s) = _
  refine List.ext_getElem (by simp) fun k hk hk' => ?_
  rw [List.getElem_ofFn, List.getElem_set]
  split_ifs with hi
  · have heq : (⟨k, by simpa using hk⟩ : Fin (2 ^ t.bits)) = i := Fin.ext hi.symm
    rw [heq, Function.update_self]
  · rw [List.getElem_ofFn, Function.update_of_ne fun heq => hi (congrArg Fin.val heq).symm]

theorem represents_step {r : IncrementalRehasher} {m : Migration} (order : MapOrder)
    (clock : Clock) (table : ShardTable) (hr : r.Represents (some m)) :
    (m.stepIncremental order clock table = none ∧ r.step order clock table = none) ∨
      ∃ later migrated next, m.stepIncremental order clock table = some (later, migrated) ∧
        r.step order clock table = some (next, migrated, ⟨later.isNone, later.isNone⟩) ∧
        next.Represents later := by
  subst hr
  unfold Migration.stepIncremental step
  by_cases hidx : m.rehashIdx < 2 ^ m.old.bits
  · have hshard : (List.ofFn m.old.shards)[m.rehashIdx]? =
        some (m.old.shards ⟨m.rehashIdx, hidx⟩) := by
      simp [hidx]
    simp only [hidx, dite_true, Bool.true_eq_false, if_false, hshard]
    cases (m.old.shards ⟨m.rehashIdx, hidx⟩).extractN order clock batchSize with
    | none => exact .inl ⟨rfl, rfl⟩
    | some result =>
      right
      simp only [Option.map_some, List.length_set, List.length_ofFn]
      by_cases hempty : result.2 = []
      · by_cases hlast : 2 ^ m.old.bits ≤ m.rehashIdx + 1
        · simp only [hempty, hlast, if_true]
          exact ⟨_, _, _, rfl, rfl, rfl⟩
        · simp only [hempty, hlast, if_true, if_false]
          refine ⟨_, _, _, rfl, rfl, ?_⟩
          rw [Represents, ofFn_withShard]
      · simp only [hempty, if_false]
        refine ⟨_, _, _, rfl, rfl, ?_⟩
        rw [Represents, ofFn_withShard]
  · have hshard : (List.ofFn m.old.shards)[m.rehashIdx]? = none := by
      simp [hidx]
    simp only [hidx, dite_false, Bool.true_eq_false, if_false, hshard]
    exact .inl ⟨trivial, trivial⟩

end IncrementalRehasher

inductive RehasherCall where
  | step (order : MapOrder) (clock : Clock)
  | del (i : ℕ) (key : Bytes)

def RehasherCall.isStep : RehasherCall → Bool
  | .step _ _ => true
  | .del _ _ => false

structure StepRecord where
  before : Bool
  after : Bool
  report : IncrementalRehasher.Report
  entriesLeft : ℕ

structure RehasherRun where
  rehasher : IncrementalRehasher
  newShards : ShardTable
  records : List StepRecord

namespace RehasherRun

def call (run : RehasherRun) : RehasherCall → Option RehasherRun
  | .step order clock =>
    (run.rehasher.step order clock run.newShards).map fun result =>
      { rehasher := result.1
        newShards := result.2.1
        records := run.records ++ [⟨run.rehasher.rehashing, result.1.rehashing, result.2.2,
            result.1.entriesLeft⟩] }
  | .del i key => some { run with rehasher := run.rehasher.del i key }

def afterStart (oldShards : List Shard) (newShards : ShardTable)
    (calls : List RehasherCall) : Option RehasherRun :=
  calls.foldlM call ⟨.start oldShards, newShards, []⟩

end RehasherRun

structure StepRecord.Truthful (record : StepRecord) : Prop where
  completes : record.report.justCompleted = true ↔ record.before = true ∧ record.after = false
  emptied : record.report.justCompleted = true → record.entriesLeft = 0

section Lists

variable {α : Type} {f : α → ℕ}

theorem sum_map_set {l : List α} {i : ℕ} {x : α} (y : α) (hx : l[i]? = some x) :
    ((l.set i y).map f).sum + f x = (l.map f).sum + f y := by
  induction l generalizing i with
  | nil => cases hx
  | cons first rest ih =>
    cases i with
    | zero =>
      obtain rfl : first = x := by simpa using hx
      simp only [List.set_cons_zero, List.map_cons, List.sum_cons]
      omega
    | succ i =>
      have hrest := ih (i := i) (by simpa using hx)
      simp only [List.set_cons_succ, List.map_cons, List.sum_cons]
      omega

theorem sum_map_modify_le {l : List α} {g : α → α} (hg : ∀ x, f (g x) ≤ f x) (i : ℕ) :
    ((l.modify i g).map f).sum ≤ (l.map f).sum := by
  induction l generalizing i with
  | nil => simp
  | cons first rest ih =>
    cases i with
    | zero =>
      simp only [List.modify_zero_cons, List.map_cons, List.sum_cons]
      exact Nat.add_le_add_right (hg first) _
    | succ i =>
      simp only [List.modify_succ_cons, List.map_cons, List.sum_cons]
      exact Nat.add_le_add_left (ih i) _

theorem set_ofFn {n : ℕ} (f : Fin n → α) (g : α → α) (i : Fin n) :
    (List.ofFn f).set i.val (g (f i)) = (List.ofFn f).modify i.val g := by
  simp [List.modify_eq_set_getElem?]

end Lists

theorem Shard.size_withSub_le (s : Shard) {j : Fin s.numSubs} {sub : SubShard}
    (hsub : sub.entries.keys.length ≤ (s.subs j).entries.keys.length) :
    (s.withSub j sub).size ≤ s.size := by
  have hsize := s.size_withSub j sub
  omega

theorem Shard.size_del_le (s : Shard) (key : Bytes) : (s.del key).size ≤ s.size := by
  refine s.size_withSub_le (j := s.subIndex key) ?_
  unfold SubShard.del
  split_ifs
  · exact length_keys_erase_le _ key
  · exact le_refl _

theorem Shard.size_get_le (s : Shard) (key : Bytes) (now again : ℤ) :
    (s.get key now again).1.size ≤ s.size := by
  refine s.size_withSub_le (j := s.subIndex key) ?_
  unfold SubShard.get
  split
  · exact le_rfl
  · split_ifs
    · exact length_keys_erase_le _ key
    · exact le_rfl
    · exact le_rfl

namespace IncrementalRehasher

structure Sound (r : IncrementalRehasher) : Prop where
  subs : ∀ s ∈ r.oldShards, s.numSubs = subShardsPerShard
  cursor : r.rehashing = true → r.rehashIdx < r.oldShards.length
  passed : ∀ k s, k < r.rehashIdx → r.oldShards[k]? = some s → s.size = 0

def work (r : IncrementalRehasher) : ℕ := r.entriesLeft + (r.oldShards.length - r.rehashIdx)

section Steps

variable {r : IncrementalRehasher}

theorem Sound.modify (h : r.Sound) {g : Shard → Shard}
    (hsize : ∀ s, (g s).size ≤ s.size) (hnum : ∀ s, (g s).numSubs = s.numSubs) (i : ℕ) :
    Sound { r with oldShards := r.oldShards.modify i g } ∧
      work { r with oldShards := r.oldShards.modify i g } ≤ r.work := by
  refine ⟨⟨fun s hs => ?_, fun hrehashing => ?_, fun k s hk hs => ?_⟩, ?_⟩
  · rcases List.mem_iff_getElem?.mp hs with ⟨k, hk⟩
    rw [List.getElem?_modify, Option.map_eq_map, Option.map_eq_some_iff] at hk
    rcases hk with ⟨old, hold, rfl⟩
    have hall := h.subs old (List.mem_of_getElem? hold)
    split_ifs
    · exact (hnum old).trans hall
    · exact hall
  · dsimp only
    rw [List.length_modify]
    exact h.cursor hrehashing
  · rw [List.getElem?_modify, Option.map_eq_map, Option.map_eq_some_iff] at hs
    rcases hs with ⟨old, hold, rfl⟩
    have hempty := h.passed k old hk hold
    split_ifs
    · exact Nat.eq_zero_of_le_zero ((hsize old).trans hempty.le)
    · exact hempty
  · unfold work entriesLeft
    dsimp only
    rw [List.length_modify]
    exact Nat.add_le_add_right (sum_map_modify_le hsize i) _

theorem Sound.del (h : r.Sound) (i : ℕ) (key : Bytes) :
    (r.del i key).Sound ∧ (r.del i key).work ≤ r.work ∧ (r.del i key).rehashing = r.rehashing := by
  unfold IncrementalRehasher.del
  split_ifs with hdone
  · exact ⟨h, le_refl _, rfl⟩
  · obtain ⟨hnext, hwork⟩ := h.modify (fun s => s.size_del_le key) (fun _ => rfl) i
    exact ⟨hnext, hwork, rfl⟩

theorem Sound.set (h : r.Sound) {s : Shard} (hnum : s.numSubs = subShardsPerShard)
    {idx : ℕ} (hpassed : idx ≤ r.rehashIdx ∨ idx = r.rehashIdx + 1 ∧ s.size = 0)
    {rehashing : Bool} (hcursor : rehashing = true → idx < r.oldShards.length) :
    Sound ⟨rehashing, r.oldShards.set r.rehashIdx s, idx⟩ := by
  refine ⟨fun x hx => ?_, fun hrehashing => ?_, fun k x hk hx => ?_⟩
  · rcases List.mem_or_eq_of_mem_set hx with hmem | rfl
    · exact h.subs x hmem
    · exact hnum
  · dsimp only
    rw [List.length_set]
    exact hcursor hrehashing
  · dsimp only at hk hx
    rw [List.getElem?_set] at hx
    split_ifs at hx with hself hlength
    · cases hx
      omega
    · exact h.passed k x (by omega) hx

theorem Sound.entriesLeft_eq_zero (h : r.Sound)
    (hall : r.oldShards.length ≤ r.rehashIdx) : r.entriesLeft = 0 := by
  refine List.sum_eq_zero fun size hsize => ?_
  rcases List.mem_map.mp hsize with ⟨s, hs, rfl⟩
  rcases List.mem_iff_getElem?.mp hs with ⟨k, hk⟩
  have hlt := (List.getElem?_eq_some_iff.mp hk).1
  exact h.passed k s (by omega) hk

theorem Sound.step (h : r.Sound) (order : MapOrder) (clock : Clock) (newShards : ShardTable) :
    ∃ next migrated report,
      r.step order clock newShards = some (next, migrated, report) ∧ next.Sound ∧
      (r.rehashing = false → next = r ∧ report.justCompleted = false) ∧
      (r.rehashing = true → next.work < r.work ∧ report.justCompleted = !next.rehashing ∧
        (next.rehashing = false → next.entriesLeft = 0)) := by
  cases hrehashing : r.rehashing with
  | false =>
    refine ⟨r, newShards, ⟨true, false⟩, ?_, h, fun _ => ⟨rfl, rfl⟩, nofun⟩
    rw [IncrementalRehasher.step, if_pos hrehashing]
  | true =>
    have hidx := h.cursor hrehashing
    have hold := List.getElem?_eq_getElem hidx
    generalize r.oldShards[r.rehashIdx] = old at hold
    have hnum := h.subs old (List.mem_of_getElem? hold)
    unfold IncrementalRehasher.step
    rw [hrehashing, if_neg (by simp), hold]
    dsimp only
    cases hextract : old.extractN order clock batchSize with
    | none =>
      have hmissing := (Shard.extractN_eq_none_iff.mp hextract).1
      omega
    | some result =>
      have hnumNext := (Shard.extractFrom_sameDivision hextract).1.trans hnum
      rcases Shard.extractN_size hnum.le hextract with ⟨hsize, hemptied⟩
      have hleft := sum_map_set (f := Shard.size) result.1 hold
      rw [Option.map_some, List.length_set]
      by_cases hempty : result.2 = []
      · have hzero : result.1.size = 0 := hemptied (by rw [hempty]; decide)
        by_cases hlast : r.oldShards.length ≤ r.rehashIdx + 1
        · -- the cursor leaves the shards behind, and all of them are empty
          have hnext : Sound ⟨false, r.oldShards.set r.rehashIdx result.1,
              r.rehashIdx + 1⟩ := h.set hnumNext (.inr ⟨rfl, hzero⟩) nofun
          rw [if_pos hempty, if_pos hlast]
          refine ⟨_, _, _, rfl, hnext, nofun, fun _ => ⟨?_, rfl, fun _ => ?_⟩⟩
          · simp only [work, entriesLeft, List.length_set]
            omega
          · exact hnext.entriesLeft_eq_zero (by simpa using hlast)
        · have hnext : Sound ⟨true, r.oldShards.set r.rehashIdx result.1, r.rehashIdx + 1⟩ :=
            h.set hnumNext (.inr ⟨rfl, hzero⟩) fun _ => not_le.mp hlast
          rw [if_pos hempty, if_neg hlast]
          refine ⟨_, _, _, rfl, hnext, nofun, fun _ => ⟨?_, rfl, nofun⟩⟩
          simp only [work, entriesLeft, List.length_set]
          omega
      · -- the cursor stays, and the shard has lost an entry for each item
        have hnext : Sound ⟨true, r.oldShards.set r.rehashIdx result.1, r.rehashIdx⟩ :=
          h.set hnumNext (.inl (le_refl _)) fun _ => hidx
        have hlength := List.length_pos_of_ne_nil hempty
        rw [if_neg hempty]
        refine ⟨_, _, _, rfl, hnext, nofun, fun _ => ⟨?_, rfl, nofun⟩⟩
        simp only [work, entriesLeft, List.length_set]
        omega

end Steps

end IncrementalRehasher

theorem RehasherRun.calls_length {run later : RehasherRun} {calls : List RehasherCall}
    (hcalls : calls.foldlM RehasherRun.call run = some later) :
    later.rehasher.oldShards.length = run.rehasher.oldShards.length := by
  induction calls generalizing run with
  | nil =>
    cases hcalls
    rfl
  | cons next rest ih =>
    obtain ⟨mid, hmid, hrest⟩ := Option.bind_eq_some_iff.mp hcalls
    refine (ih hrest).trans ?_
    cases next with
    | del i key =>
      cases hmid
      dsimp only [IncrementalRehasher.del]
      split_ifs
      · rfl
      · exact List.length_modify ..
    | step order clock =>
      obtain ⟨result, hstep, rfl⟩ := Option.map_eq_some_iff.mp hmid
      exact IncrementalRehasher.step_length hstep

structure RehasherRun.Progress (work : ℕ) (run : RehasherRun) : Prop where
  sound : run.rehasher.Sound
  bound : run.records.countP (fun record => record.before) + run.rehasher.work ≤ work
  running : run.rehasher.rehashing = true → ∀ record ∈ run.records, record.before = true
  truthful : ∀ record ∈ run.records, record.Truthful
  once : run.records.countP (fun record => record.report.justCompleted) =
    if run.rehasher.rehashing = true then 0 else 1

namespace RehasherRun

section Runs

variable {work : ℕ} {run : RehasherRun}

variable (h : run.Progress work)
include h

theorem Progress.del (i : ℕ) (key : Bytes) :
    Progress work { run with rehasher := run.rehasher.del i key } := by
  rcases h.sound.del i key with ⟨hsound, hwork, hrehashing⟩
  refine ⟨hsound, (Nat.add_le_add_left hwork _).trans h.bound, ?_, h.truthful, ?_⟩
  · dsimp only
    rw [hrehashing]
    exact h.running
  · dsimp only
    rw [hrehashing]
    exact h.once

theorem Progress.idle (hidle : run.rehasher.rehashing = false)
    (newShards : ShardTable) {report : IncrementalRehasher.Report}
    (hreport : report.justCompleted = false) :
    Progress work ⟨run.rehasher, newShards,
      run.records ++ [⟨false, false, report, run.rehasher.entriesLeft⟩]⟩ := by
  have hbound := h.bound
  have honce := h.once
  refine ⟨h.sound, ?_, fun hrehashing => ?_, ?_, ?_⟩
  · simpa [List.countP_append] using hbound
  · exact absurd hrehashing (by simp [hidle])
  · refine List.forall_mem_append.mpr ⟨h.truthful, List.forall_mem_singleton.mpr ?_⟩
    exact ⟨by simp [hreport], by simp [hreport]⟩
  · simpa [List.countP_append, hreport] using honce

theorem Progress.moves (hrehashing : run.rehasher.rehashing = true)
    {next : IncrementalRehasher} (newShards : ShardTable)
    {report : IncrementalRehasher.Report} (hsound : next.Sound)
    (hwork : next.work < run.rehasher.work)
    (hreport : report.justCompleted = !next.rehashing)
    (hempty : next.rehashing = false → next.entriesLeft = 0) :
    Progress work ⟨next, newShards,
      run.records ++ [⟨true, next.rehashing, report, next.entriesLeft⟩]⟩ := by
  have hbound := h.bound
  have honce := h.once
  rw [if_pos hrehashing] at honce
  refine ⟨hsound, ?_, fun _ => ?_, ?_, ?_⟩
  · simp only [List.countP_append, List.countP_singleton, if_true]
    omega
  · exact List.forall_mem_append.mpr ⟨h.running hrehashing, by simp⟩
  · refine List.forall_mem_append.mpr ⟨h.truthful, List.forall_mem_singleton.mpr ?_⟩
    exact ⟨by simp [hreport], fun hcompleted => hempty (by simpa [hreport] using hcompleted)⟩
  · rw [List.countP_append, honce]
    cases hnext : next.rehashing <;> simp [hreport, hnext]

theorem Progress.call (next : RehasherCall) :
    ∃ later, run.call next = some later ∧ later.Progress work ∧
      later.records.length = run.records.length + [next].countP RehasherCall.isStep := by
  cases next with
  | del i key => exact ⟨_, rfl, h.del i key, rfl⟩
  | step order clock =>
    rcases h.sound.step order clock run.newShards with
      ⟨next, migrated, report, hstep, hsound, hidle, hmoves⟩
    refine ⟨_, by rw [RehasherRun.call, hstep]; rfl, ?_, by simp; rfl⟩
    cases hrehashing : run.rehasher.rehashing with
    | false =>
      rcases hidle hrehashing with ⟨rfl, hreport⟩
      dsimp only
      rw [hrehashing]
      exact h.idle hrehashing migrated hreport
    | true =>
      rcases hmoves hrehashing with ⟨hwork, hreport, hempty⟩
      exact h.moves hrehashing migrated hsound hwork hreport hempty

theorem Progress.calls (calls : List RehasherCall) :
    ∃ later, calls.foldlM RehasherRun.call run = some later ∧ later.Progress work ∧
      later.records.length = run.records.length + calls.countP RehasherCall.isStep := by
  induction calls generalizing run with
  | nil => exact ⟨run, rfl, h, rfl⟩
  | cons next rest ih =>
    rcases h.call next with ⟨mid, hmid, hprogress, hlength⟩
    rcases ih hprogress with ⟨later, hlater, hdone, hrest⟩
    refine ⟨later, ?_, hdone, ?_⟩
    · rw [List.foldlM_cons, hmid]
      exact hlater
    · rw [hrest, hlength, add_assoc, ← List.countP_append, List.singleton_append]

end Runs

end RehasherRun

theorem rehash_finishes (oldShards : List Shard) (hsome : 1 ≤ oldShards.length)
    (hsubs : ∀ s ∈ oldShards, s.numSubs = subShardsPerShard) (newShards : ShardTable)
    (calls : List RehasherCall) :
    ∃ run, RehasherRun.afterStart oldShards newShards calls = some run ∧
      run.rehasher.oldShards.length = oldShards.length ∧
      run.records.length = calls.countP RehasherCall.isStep ∧
      run.records.countP (fun record => record.before) ≤
        (oldShards.map Shard.size).sum + oldShards.length ∧
      ((oldShards.map Shard.size).sum + oldShards.length ≤ run.records.length →
        run.rehasher.rehashing = false) ∧
      run.records.countP (fun record => record.report.justCompleted) =
        (if run.rehasher.rehashing = true then 0 else 1) ∧
      ∀ record ∈ run.records, (record.report.justCompleted = true ↔
          record.before = true ∧ record.after = false) ∧
        (record.report.justCompleted = true → record.entriesLeft = 0) := by
  have hstart : RehasherRun.Progress ((oldShards.map Shard.size).sum + oldShards.length)
      ⟨.start oldShards, newShards, []⟩ := by
    refine ⟨⟨hsubs, fun _ => hsome, fun k s hk => absurd hk (Nat.not_lt_zero k)⟩, ?_, ?_, ?_, ?_⟩
    · simp [IncrementalRehasher.work, IncrementalRehasher.entriesLeft, IncrementalRehasher.start]
    · simp
    · simp
    · simp [IncrementalRehasher.start]
  rcases hstart.calls calls with ⟨run, hrun, hprogress, hlength⟩
  have hbound := hprogress.bound
  refine ⟨run, hrun, RehasherRun.calls_length hrun, by simpa using hlength, by omega,
    fun hmany => ?_, hprogress.once, fun record hrecord => ⟨(hprogress.truthful record hrecord).completes,
      (hprogress.truthful record hrecord).emptied⟩⟩
  by_contra hrehashing
  rw [Bool.not_eq_false] at hrehashing
  have hall : run.records.countP (fun record => record.before) = run.records.length :=
    List.countP_eq_length.mpr (hprogress.running hrehashing)
  have hcursor := hprogress.sound.cursor hrehashing
  unfold IncrementalRehasher.work at hbound
  omega

theorem rehash_finishes_oneEntry :
    ∃ run, RehasherRun.afterStart [((newShard .lru 0).set [97] [1] 0 1).1]
        (newTable 1 .lru 0) [.step .asStored fun _ _ => 1, .step .asStored fun _ _ => 1] =
        some run ∧
      run.rehasher.rehashing = false ∧
      run.records.countP (fun record => record.report.justCompleted) = 1 := by
  have hsize : ([((newShard .lru 0).set [97] [1] 0 1).1].map Shard.size).sum = 1 := by
    decide +kernel
  rcases rehash_finishes [((newShard .lru 0).set [97] [1] 0 1).1] (by decide)
    (List.forall_mem_singleton.mpr rfl) (newTable 1 .lru 0)
    [.step .asStored fun _ _ => 1, .step .asStored fun _ _ => 1] with
    ⟨run, hrun, -, hlength, -, hover, honce, -⟩
  have hdone := hover (by rw [hsize, hlength]; decide)
  rw [hdone] at honce
  exact ⟨run, hrun, hdone, honce⟩

open IncrementalRehasher

def Migration.toRehasher (m : Migration) : IncrementalRehasher :=
  ⟨true, List.ofFn m.old.shards, m.rehashIdx⟩

def Cache.forceComplete (order : ℕ → MapOrder) (clock : ℕ → Clock) : ℕ → Cache → Option Cache
  | 0, c => some c
  | rounds + 1, c =>
    if c.migration.isSome then
      (c.get (order rounds) (clock rounds) (ascii "__mbr_force_complete__")).bind
        fun result => forceComplete order clock rounds result.1
    else some c

structure Cache.Finishing (work : ℕ) (c : Cache) : Prop where
  isOpen : c.closed = false
  rehasher : c.rehasher = .incremental
  migration : ∀ m, c.migration = some m → m.toRehasher.Sound ∧ m.toRehasher.work < work

section Finishing

variable {c : Cache} {work : ℕ}

theorem Cache.Finishing.step (h : c.Finishing (work + 1)) (order : MapOrder)
    (clock : Clock) : ∃ next, c.step order clock = some next ∧ next.Finishing work := by
  unfold Cache.step
  cases hm : c.migration with
  | none => exact ⟨c, rfl, h.isOpen, h.rehasher, fun m hsome => by simp [hm] at hsome⟩
  | some m =>
    obtain ⟨hsound, hwork⟩ := h.migration m hm
    obtain ⟨next, migrated, report, hstep, hnext, _, hless⟩ := hsound.step order clock c.table
    rcases represents_step (r := m.toRehasher) order clock c.table rfl with
      ⟨_, hnone⟩ | ⟨later, moved, _, hcache, hother, hrepresents⟩
    · rw [hnone] at hstep
      cases hstep
    · rw [hother] at hstep
      cases hstep
      refine ⟨{ c with migration := later, table := migrated }, ?_, h.isOpen, h.rehasher, ?_⟩
      · simp only [Migration.step, h.rehasher, hcache, Option.map_some]
      · rintro m' rfl
        obtain rfl := hrepresents
        exact ⟨hnext, Nat.lt_of_lt_of_le (hless rfl).1 (Nat.le_of_lt_succ hwork)⟩

theorem Cache.Finishing.get (h : c.Finishing (work + 1)) (order : MapOrder)
    (clock : Clock) {key : Bytes} (hkey : key ≠ []) :
    ∃ result, c.get order clock key = some result ∧ result.1.Finishing work := by
  have hclosed : ¬ c.closed = true := by simp [h.isOpen]
  unfold Cache.get
  rw [if_neg hclosed, if_neg hkey]
  dsimp only
  split
  · have hread : Cache.Finishing (work + 1) { c with
        table := (c.table.get key (clock .current key) (clock .currentAgain key)).1 } :=
      ⟨h.isOpen, h.rehasher, h.migration⟩
    obtain ⟨next, hstep, hnext⟩ := hread.step order clock
    exact ⟨_, by rw [hstep]; rfl, hnext⟩
  · rename_i hm
    exact ⟨_, rfl, h.isOpen, h.rehasher, fun m hsome => by simp [hm] at hsome⟩
  · rename_i m _ hm
    obtain ⟨hsound, hwork⟩ := h.migration m hm
    obtain ⟨hshrunk, hless⟩ := hsound.modify
      (fun s => s.size_get_le key (clock .old key) (clock .oldAgain key)) (fun _ => rfl)
      (m.old.index key).val
    have hread : Cache.Finishing (work + 1) { c with
        table := (c.table.get key (clock .current key) (clock .currentAgain key)).1
        migration := some { m with
          old := (m.old.get key (clock .old key) (clock .oldAgain key)).1 } } := by
      refine ⟨h.isOpen, h.rehasher, ?_⟩
      rintro _ ⟨⟩
      rw [Migration.toRehasher, ShardTable.get, ofFn_withShard]
      simp only [Migration.toRehasher, ← set_ofFn] at hshrunk hless
      exact ⟨hshrunk, hless.trans_lt hwork⟩
    obtain ⟨next, hstep, hnext⟩ := hread.step order clock
    exact ⟨_, by rw [hstep]; rfl, hnext⟩

theorem Cache.Finishing.forceComplete (order : ℕ → MapOrder) (clock : ℕ → Clock)
    (h : c.Finishing work) :
    ∃ last, c.forceComplete order clock work = some last ∧ last.migration = none := by
  induction work generalizing c with
  | zero =>
    refine ⟨c, rfl, Option.eq_none_iff_forall_ne_some.mpr fun m hm => ?_⟩
    exact absurd (h.migration m hm).2 (Nat.not_lt_zero _)
  | succ work ih =>
    rw [Cache.forceComplete]
    split_ifs with hm
    · obtain ⟨result, hget, hnext⟩ := h.get (order work) (clock work)
        (show ascii "__mbr_force_complete__" ≠ [] by decide)
      rw [hget]
      exact ih hnext
    · exact ⟨c, rfl, by simpa using hm⟩

end Finishing

theorem forceComplete_finishes {c started : Cache} {shardCount : ℤ}
    (hresize : c.resize shardCount = (started, .ok ()))
    (hkind : c.rehasher = .incremental)
    (hsubs : ∀ i, (c.table.shards i).numSubs = subShardsPerShard)
    (order : ℕ → MapOrder) (clock : ℕ → Clock) :
    ∃ last, started.forceComplete order clock (c.table.size + 2 ^ c.table.bits + 1) =
      some last ∧ last.migration = none := by
  have hstarted : started.Finishing (c.table.size + 2 ^ c.table.bits + 1) := by
    unfold Cache.resize at hresize
    have hnoop : ¬ c.rehasher = .noop := by simp [hkind]
    split_ifs at hresize with hclosed hvalid hmigration
    · cases hresize
    · cases hresize
    · cases hresize
    · obtain ⟨rfl, -⟩ := Prod.mk.inj hresize
      refine ⟨by simpa using hclosed, hkind, ?_⟩
      rintro _ ⟨⟩
      refine ⟨⟨fun s hs => ?_, fun _ => by simp [Migration.toRehasher],
        fun k _ hk => absurd hk (Nat.not_lt_zero k)⟩, ?_⟩
      · obtain ⟨i, rfl⟩ := List.mem_ofFn.mp hs
        exact hsubs i
      · simp [IncrementalRehasher.work, entriesLeft, Migration.toRehasher, List.map_ofFn,
          List.sum_ofFn, ShardTable.size]
  exact hstarted.forceComplete order clock

theorem forceComplete_finishes_oneEntry :
    ∃ last, (Cache.resize { Cache.ofDefaults with
        table := (newTable 1 .lru 0).set [97] [1] 0 1 } 4).1.forceComplete
          (fun _ => .asStored) (fun _ _ _ => 1) 4 = some last ∧
      last.migration = none := by
  have hsize : ((newTable 1 .lru 0).set [97] [1] 0 1).size + 2 ^ 1 + 1 = 4 := by
    decide +kernel
  have hsubs : ∀ i, (((newTable 1 .lru 0).set [97] [1] 0 1).shards i).numSubs =
      subShardsPerShard := by
    decide +kernel
  have hresize : (Cache.resize { Cache.ofDefaults with
        table := (newTable 1 .lru 0).set [97] [1] 0 1 } 4).2 = .ok () := rfl
  have hdone := forceComplete_finishes (Prod.ext rfl hresize) rfl hsubs
    (fun _ => .asStored) (fun _ _ _ => 1)
  exact hsize ▸ hdone

end MCache.Store
