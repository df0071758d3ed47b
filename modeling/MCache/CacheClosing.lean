import MCache.KeyManagement

/-!
# Closing the cache under running calls

`Set`, `Get`, `Del`, `Len`, `Exists` and the commands on collections, run by any
number of goroutines while others call `Close`.  Each load or store of the
closed flag, of the shard table and of the rehashing flag is one step, and so is
each section under a lock: the sub-shards and the three collection stores of a
shard are locked one after the other.

`Close` sets the flag, stores a table without shards and stops the rehasher.  A
call has checked the flag before it loads the table.
-/

namespace MCache.Store.Closing

/-! ## Calls -/

inductive Op where
  | set (key : Bytes) (value : Option Bytes) (ttl : Option ℤ)
  | get (key : Bytes)
  | del (key : Bytes)
  | len
  | keyExists (key : Bytes)
  | collection (key : Bytes) (cmd : CollectionCommand)
  | close
  deriving DecidableEq

inductive Answer where
  | done
  | value (value : Bytes)
  | missing
  | count (n : ℕ)
  | bool (b : Bool)
  | reply (reply : Reply)
  deriving DecidableEq

abbrev Result := Except CacheError Answer

def Op.whenClosed : Op → Result
  | .len => .ok (.count 0)
  | _ => .error .cacheClosed

def Op.invalid : Op → Option CacheError
  | .set key value _ =>
    if key = [] then some .keyEmpty
    else if value = none then some .valueNil
    else none
  | .get key | .del key | .keyExists key | .collection key _ =>
    if key = [] then some .keyEmpty else none
  | .len | .close => none

/-! ## Methods of a shard -/

inductive Method where
  | set (key value : Bytes) (ttl : ℤ)
  | get (key : Bytes)
  | del (key : Bytes)
  | keyExists (key : Bytes)
  | collection (key : Bytes) (cmd : CollectionCommand)

def Method.key : Method → Bytes
  | .set key _ _ | .get key | .del key | .keyExists key | .collection key _ => key

inductive Progress where
  | next (part : ℕ)
  | finished (answer : Answer)

def Method.run (s : Shard) (clock : Clock) : Method → ℕ → Shard × Progress
  | .set key value ttl, _ =>
    ((s.set key value ttl (clock .current key)).1, .finished .done)
  | .get key, 0 =>
    (s, match s.lookup key with
      | none => .finished .missing
      | some e =>
        if e.isExpired (clock .current key) then .next 1
        else .finished (.value e.value))
  | .get key, _ =>
    let sub := s.subs (s.subIndex key)
    let expired := (s.lookup key).any fun e => e.isExpired (clock .currentAgain key)
    (s.withSub (s.subIndex key) (if expired then sub.remove key else sub), .finished .missing)
  | .del key, 0 =>
    (s.withSub (s.subIndex key) ((s.subs (s.subIndex key)).del key), .next 1)
  | .del key, 1 =>
    ({ s with collections.sets := s.collections.sets.erase key }, .next 2)
  | .del key, 2 =>
    ({ s with collections.hashes := s.collections.hashes.erase key }, .next 3)
  | .del key, _ =>
    ({ s with collections.lists := s.collections.lists.erase key }, .finished .done)
  | .keyExists key, 0 =>
    (s, if s.holdsString key (clock .current key) then .finished (.bool true)
      else .next 1)
  | .keyExists key, 1 =>
    (s, if key ∈ s.collections.sets then .finished (.bool true) else .next 2)
  | .keyExists key, 2 =>
    (s, if key ∈ s.collections.hashes then .finished (.bool true) else .next 3)
  | .keyExists key, _ =>
    (s, .finished (.bool (decide (key ∈ s.collections.lists))))
  | .collection key cmd, _ =>
    ({ s with collections := s.collections.run key cmd },
      .finished (.reply (s.collections.reply key cmd)))

def Op.method (c : Cache) : Op → Option Method
  | .set key (some value) ttl => some (.set key value (c.ttlOrDefault ttl))
  | .set _ none _ => none
  | .get key => some (.get key)
  | .del key => some (.del key)
  | .keyExists key => some (.keyExists key)
  | .collection key cmd => some (.collection key cmd)
  | .len | .close => none

def Op.oldMethod : Op → Option Method
  | .set key _ _ | .del key => some (.del key)
  | .get key => some (.get key)
  | _ => none

def Method.onTable (m : Method) (t : ShardTable) (clock : Clock) (part : ℕ) :
    ShardTable × Progress :=
  let result := m.run (t.shard m.key) clock part
  (t.withShard (t.index m.key) result.1, result.2)

/-! ## Shared state -/

structure Shared where
  table : ShardTable
  stored : Bool
  old : ShardTable
  present : Bool
  rehashing : Bool
  rehashIdx : ℕ
  closed : Bool
  locked : Bool

def Shared.of (c : Cache) : Shared where
  table := c.table
  stored := !c.closed
  old := (c.migration.map fun m => m.old).getD c.table
  present := c.migration.isSome
  rehashing := c.migration.isSome
  rehashIdx := (c.migration.map fun m => m.rehashIdx).getD 0
  closed := c.closed
  locked := false

inductive Stage where
  | load
  | method (loaded : Bool) (part : ℕ)
  | isRehashing
  | oldFlag
  | oldLock
  | oldMethod (part : ℕ)
  | recheck
  | loadStep
  | stepFlag (loaded : Bool)
  | stepLock (loaded : Bool)
  | extract (loaded : Bool) (idx slot : ℕ) (items : List Item)
  | pick (loaded : Bool) (idx : ℕ) (item : Item) (rest : List Item)
  | put (loaded : Bool) (idx dest : ℕ) (item : Item) (rest : List Item)
  | stepEnd (idx : ℕ) (moved : Bool)
  | count (i slot total : ℕ)
  | lenFlag (total : ℕ)
  | lenLock (total : ℕ)
  | countOld (i slot total : ℕ)
  | closeLock
  | closeCheck
  | closeFlag
  | closeTable
  | stopFlag
  | stopLock
  | panicked
  deriving DecidableEq

structure Call where
  op : Op
  stage : Stage
  answer : Answer

inductive Next where
  | goes (stage : Stage) (answer : Answer)
  | returns (result : Result)

def Answer.result : Answer → Result
  | .missing => .error .keyNotFound
  | answer => .ok answer

/-! ## The steps of a call -/

def Op.afterMethod (answer : Answer) : Op → Next
  | .keyExists _ | .collection _ _ => .returns answer.result
  | _ => .goes .isRehashing answer

def Op.afterCheck (rehashing : Bool) (answer : Answer) : Op → Next
  | .get _ =>
    match rehashing, answer with
    | true, .missing => .goes .oldFlag answer
    | true, _ => .goes .loadStep answer
    | false, .missing => .goes .recheck answer
    | false, _ => .returns answer.result
  | _ => if rehashing then .goes .oldFlag answer else .returns answer.result

def Op.afterOld (answer : Answer) : Op → Next
  | .get _ =>
    match answer with
    | .missing => .goes .recheck answer
    | _ => .goes .loadStep answer
  | _ => .goes .loadStep answer

def chunk : RehasherKind → ℕ
  | .batch => 1000
  | _ => batchSize

def afterItems (kind : RehasherKind) (shards : ℕ) (loaded : Bool) (idx : ℕ)
    (moved : Bool) : Stage :=
  match kind with
  | .batch =>
    if moved then .extract loaded idx 0 []
    else if idx + 1 < shards then .extract loaded (idx + 1) 0 []
    else .stepEnd idx false
  | _ => .stepEnd idx moved

def nextSlot (kind : RehasherKind) (shards : ℕ) (loaded : Bool) (idx slot : ℕ)
    (items : List Item) : Stage :=
  if slot < subShardsPerShard ∧ items.length < chunk kind then
    .extract loaded idx slot items
  else
    match items with
    | [] => afterItems kind shards loaded idx false
    | item :: rest => .pick loaded idx item rest

def Shared.endStep (sh : Shared) (kind : RehasherKind) (idx : ℕ) (moved : Bool) :
    Shared :=
  match kind with
  | .batch => { sh with rehashing := false, present := false }
  | _ =>
    if !moved ∧ sh.rehashing ∧ sh.rehashIdx = idx then
      if 2 ^ sh.old.bits ≤ idx + 1 then
        { sh with rehashIdx := idx + 1, rehashing := false, present := false }
      else { sh with rehashIdx := idx + 1 }
    else sh

def countAt (t : ShardTable) (now : Bytes → ℤ) (i slot total : ℕ) : ℕ × Option (ℕ × ℕ) :=
  if hi : i < 2 ^ t.bits then
    let s := t.shards ⟨i, hi⟩
    if hslot : slot < s.numSubs then
      (total + (s.subs ⟨slot, hslot⟩).len now,
        if slot + 1 < s.numSubs then some (i, slot + 1)
        else if i + 1 < 2 ^ t.bits then some (i + 1, 0)
        else none)
    else (total, none)
  else (total, none)

def extractAt (t : ShardTable) (order : MapOrder) (clock : Clock) (n idx slot : ℕ)
    (items : List Item) : Option (ShardTable × List Item) :=
  if hidx : idx < 2 ^ t.bits then
    let s := t.shards ⟨idx, hidx⟩
    if hslot : slot < s.numSubs then
      let sub := s.subs ⟨slot, hslot⟩
      let result := sub.extractLoop clock n (order.arrange sub.entries.entries) items
      some (t.withShard ⟨idx, hidx⟩ (s.withSub ⟨slot, hslot⟩ result.1), result.2)
    else none
  else none

def putAt (t : ShardTable) (loaded : Bool) (dest : ℕ) (item : Item) (now : ℤ) : Option ShardTable :=
  if h : loaded = true ∧ dest < 2 ^ t.bits then
    some (t.withShard ⟨dest, h.2⟩ ((t.shards ⟨dest, h.2⟩).set item.key item.value item.ttl now).1)
  else none

def Call.migrate (kind : RehasherKind) (order : MapOrder) (clock : Clock)
    (sh : Shared) (call : Call) : Option (Shared × Next) :=
  let shards := 2 ^ sh.old.bits
  let goes := fun sh stage => some (sh, Next.goes stage call.answer)
  let returns := fun sh => some (sh, Next.returns call.answer.result)
  match call.stage with
  | .loadStep => goes sh (.stepFlag sh.stored)
  | .stepFlag loaded => if sh.rehashing then goes sh (.stepLock loaded) else returns sh
  | .stepLock loaded =>
    if !sh.rehashing then returns sh
    else if kind = .batch then goes sh (.extract loaded 0 0 [])
    else if sh.present ∧ sh.rehashIdx < shards then
      goes sh (.extract loaded sh.rehashIdx 0 [])
    else goes sh .panicked
  | .extract loaded idx slot items =>
    match extractAt sh.old order clock (chunk kind) idx slot items with
    | some (old, items) =>
      goes { sh with old := old } (nextSlot kind shards loaded idx (slot + 1) items)
    | none => goes sh .panicked
  | .pick loaded idx item rest =>
    -- the mask of the empty table is 0
    let dest := if sh.stored then (sh.table.index item.key).val else 0
    goes sh (.put loaded idx dest item rest)
  | .put loaded idx dest item rest =>
    match putAt sh.table loaded dest item (clock .store item.key) with
    | some table =>
      goes { sh with table := table } (match rest with
        | [] => afterItems kind shards loaded idx true
        | next :: rest => .pick loaded idx next rest)
    | none => goes sh .panicked
  | .stepEnd idx moved => returns (sh.endStep kind idx moved)
  | _ => none

def Call.close (sh : Shared) (call : Call) : Option (Shared × Next) :=
  let goes := fun sh stage => some (sh, Next.goes stage call.answer)
  match call.stage with
  | .closeLock =>
    if sh.locked then none else goes { sh with locked := true } .closeCheck
  | .closeCheck =>
    if sh.closed then some ({ sh with locked := false }, .returns (.error .cacheClosed))
    else goes sh .closeFlag
  | .closeFlag => goes { sh with closed := true } .closeTable
  | .closeTable => goes { sh with stored := false } .stopFlag
  | .stopFlag => goes { sh with rehashing := false } .stopLock
  | .stopLock =>
    some ({ sh with present := false, rehashIdx := 0, locked := false }, .returns (.ok .done))
  | _ => none

def Call.count (clock : Clock) (sh : Shared) (call : Call) : Option (Shared × Next) :=
  let goes := fun stage => some (sh, Next.goes stage call.answer)
  let returns := fun total => some (sh, Next.returns (.ok (.count total)))
  match call.stage with
  | .load => goes (if sh.stored then .count 0 0 0 else .lenFlag 0)
  | .count i slot total =>
    match countAt sh.table (clock .current) i slot total with
    | (total, some (i, slot)) => goes (.count i slot total)
    | (total, none) => goes (.lenFlag total)
  | .lenFlag total => if sh.rehashing then goes (.lenLock total) else returns total
  | .lenLock total => if sh.present then goes (.countOld 0 0 total) else returns total
  | .countOld i slot total =>
    match countAt sh.old (clock .old) i slot total with
    | (total, some (i, slot)) => goes (.countOld i slot total)
    | (total, none) => returns total
  | _ => none

def Call.access (c : Cache) (clock : Clock) (sh : Shared) (call : Call) : Option (Shared × Next) :=
  let goes := fun sh stage => some (sh, Next.goes stage call.answer)
  match call.stage with
  | .load => goes sh (.method sh.stored 0)
  | .method loaded part =>
    if loaded then
      (call.op.method c).map fun m =>
        let result := m.onTable sh.table clock part
        ({ sh with table := result.1 }, match result.2 with
          | .next part => .goes (.method true part) call.answer
          | .finished answer => call.op.afterMethod answer)
    else goes sh .panicked
  | .isRehashing => some (sh, call.op.afterCheck sh.rehashing call.answer)
  | .oldFlag =>
    if sh.rehashing then goes sh .oldLock
    else some (sh, call.op.afterOld call.answer)
  | .oldLock =>
    if sh.present then goes sh (.oldMethod 0)
    else some (sh, call.op.afterOld call.answer)
  | .oldMethod part =>
    call.op.oldMethod.map fun m =>
      let result := m.onTable sh.old clock part
      ({ sh with old := result.1 }, match result.2 with
        | .next part => .goes (.oldMethod part) call.answer
        | .finished answer => call.op.afterOld answer)
  | .recheck =>
    if sh.rehashing then goes sh .loadStep
    else some (sh, .returns call.answer.result)
  | _ => none

def Call.advance (c : Cache) (order : MapOrder) (clock : Clock) (sh : Shared)
    (call : Call) : Option (Shared × Next) :=
  match call.op with
  | .close => call.close sh
  | .len => call.count clock sh
  | _ => (call.access c clock sh).or (call.migrate c.rehasher order clock sh)

/-! ## Runs -/

structure State (n : ℕ) where
  shared : Shared
  threads : Fin n → Option Call
  returned : List (Op × Result)

structure Action (n : ℕ) where
  thread : Fin n
  begins : Option Op
  order : MapOrder
  clock : Clock

namespace State

variable {n : ℕ}

def begin (s : State n) (p : Fin n) (op : Op) : State n :=
  let start := fun stage =>
    { s with threads := Function.update s.threads p (some ⟨op, stage, .done⟩) }
  let refuse := fun result => { s with returned := s.returned ++ [(op, result)] }
  if op = .close then start .closeLock
  else if s.shared.closed then refuse op.whenClosed
  else
    match op.invalid with
    | some e => refuse (.error e)
    | none => start .load

def goOn (s : State n) (p : Fin n) (call : Call) (sh : Shared) : Next → State n
  | .goes stage answer =>
    { s with
      shared := sh
      threads := Function.update s.threads p (some ⟨call.op, stage, answer⟩) }
  | .returns result =>
    { s with
      shared := sh
      threads := Function.update s.threads p none
      returned :=
        if call.op = .close then s.returned else s.returned ++ [(call.op, result)] }

def step (c : Cache) (s : State n) (a : Action n) : Option (State n) :=
  match s.threads a.thread, a.begins with
  | none, some op => some (s.begin a.thread op)
  | some call, none =>
    (call.advance c a.order a.clock s.shared).map fun result =>
      s.goOn a.thread call result.1 result.2
  | _, _ => none

end State

def closing (c : Cache) (n : ℕ) : TransitionSystem (State n) (Action n) where
  init := fun s => s = ⟨.of c, fun _ => none, []⟩
  step := State.step c

/-! ## What `Close` may overtake -/

def Op.shardOnly : Op → Bool
  | .keyExists _ | .collection _ _ => true
  | _ => false

def Call.unaffected (sh : Shared) (call : Call) : Bool :=
  match call.stage with
  | .closeLock => decide (call.op = .close)
  | .method loaded _ => loaded && (call.op.shardOnly || !sh.rehashing)
  | .isRehashing | .recheck | .count _ _ _ | .lenFlag _ => !sh.rehashing
  | .load => decide (call.op = .len) && !sh.rehashing
  | _ => false

def hasSlot (t : ShardTable) (idx slot : ℕ) : Bool :=
  if hidx : idx < 2 ^ t.bits then decide (slot < (t.shards ⟨idx, hidx⟩).numSubs)
  else true

def Undisturbed {n : ℕ} (s : State n) (a : Action n) : Prop :=
  match (s.threads a.thread).map Call.stage with
  | some .closeTable =>
    ∀ q, q ≠ a.thread → (s.threads q).all (Call.unaffected s.shared)
  | some (.extract _ idx slot _) => hasSlot s.shared.old idx slot
  | _ => True

instance {n : ℕ} (s : State n) (a : Action n) : Decidable (Undisturbed s a) := by
  unfold Undisturbed
  split <;> infer_instance

structure Safe (c : Cache) {n : ℕ} (s : State n) : Prop where
  noPanic : ∀ p call, s.threads p = some call → call.stage ≠ .panicked
  results : ∃ t, (closing c n).ReachableBy (fun _ a => a.begins ≠ some .close) t ∧
    ∀ r ∈ s.returned, r.2 = r.1.whenClosed ∨ r ∈ t.returned

/-! ## The flag and the mutex -/

section Frames

variable {c : Cache} {order : MapOrder} {clock : Clock} {sh : Shared} {call : Call}

def Shared.unclosed (sh : Shared) : Shared :=
  { sh with closed := false, locked := false }

theorem Call.access_unclosed : call.access c clock sh.unclosed =
      (call.access c clock sh).map fun result => (result.1.unclosed, result.2) := by
  obtain ⟨table, stored, old, present, rehashing, rehashIdx, closed, locked⟩ := sh
  dsimp only [Call.access, Shared.unclosed]
  split <;> (try split_ifs) <;> first
    | rfl
    | (rw [Option.map_map]; rfl)

theorem Shared.endStep_unclosed (sh : Shared) (kind : RehasherKind) (idx : ℕ)
    (moved : Bool) : sh.unclosed.endStep kind idx moved = (sh.endStep kind idx moved).unclosed := by
  obtain ⟨table, stored, old, present, rehashing, rehashIdx, closed, locked⟩ := sh
  dsimp only [Shared.endStep, Shared.unclosed]
  split <;> (try split_ifs) <;> rfl

theorem Call.migrate_unclosed (kind : RehasherKind) : call.migrate kind order clock sh.unclosed =
      (call.migrate kind order clock sh).map fun result =>
        (result.1.unclosed, result.2) := by
  obtain ⟨table, stored, old, present, rehashing, rehashIdx, closed, locked⟩ := sh
  dsimp only [Call.migrate, Shared.unclosed]
  split
  case h_4 | h_6 => split <;> rfl
  case h_7 =>
    exact congrArg (fun sh => some (sh, Next.returns _))
      (Shared.endStep_unclosed ⟨_, _, _, _, _, _, _, _⟩ kind _ _)
  all_goals
    try split_ifs
    all_goals rfl

theorem Call.count_unclosed : call.count clock sh.unclosed =
      (call.count clock sh).map fun result => (result.1.unclosed, result.2) := by
  obtain ⟨table, stored, old, present, rehashing, rehashIdx, closed, locked⟩ := sh
  dsimp only [Call.count, Shared.unclosed]
  split <;> (try split_ifs) <;> (try split) <;> rfl

theorem Call.advance_unclosed (hop : call.op ≠ .close) : call.advance c order clock sh.unclosed =
      (call.advance c order clock sh).map fun result =>
        (result.1.unclosed, result.2) := by
  unfold Call.advance
  split
  · contradiction
  · exact Call.count_unclosed
  · rw [Call.access_unclosed, Call.migrate_unclosed]
    cases call.access c clock sh <;> rfl

end Frames

/-! ## Indices -/

def Stage.InRange (shards oldShards : ℕ) : Stage → Prop
  | .method loaded _ | .stepFlag loaded | .stepLock loaded => loaded = true
  | .extract loaded idx _ _ | .pick loaded idx _ _ => loaded = true ∧ idx < oldShards
  | .put loaded idx dest _ _ => loaded = true ∧ idx < oldShards ∧ dest < shards
  | .panicked => False
  | _ => True

def Next.InRange (shards oldShards : ℕ) : Next → Prop
  | .goes stage _ => stage.InRange shards oldShards
  | .returns _ => True

structure Shared.Sound (sh : Shared) : Prop where
  stored : sh.stored = true
  migrates : sh.rehashing = true → sh.present = true ∧ sh.rehashIdx < 2 ^ sh.old.bits

structure Shared.Kept (sh : Shared) (next : Shared × Next) : Prop where
  sound : next.1.Sound
  closed : next.1.closed = sh.closed
  shards : next.1.table.bits = sh.table.bits
  oldShards : next.1.old.bits = sh.old.bits
  inRange : next.2.InRange (2 ^ sh.table.bits) (2 ^ sh.old.bits)

section InRange

variable {c : Cache} {order : MapOrder} {clock : Clock} {sh : Shared} {call : Call}
  {next : Shared × Next}

theorem Shared.Sound.same (hsh : sh.Sound) {step : Next}
    (hstep : step.InRange (2 ^ sh.table.bits) (2 ^ sh.old.bits)) :
    sh.Kept (sh, step) :=
  ⟨hsh, rfl, rfl, rfl, hstep⟩

theorem Op.afterMethod_inRange (op : Op) (answer : Answer) (shards oldShards : ℕ) :
    (op.afterMethod answer).InRange shards oldShards := by
  cases op <;> trivial

theorem Op.afterCheck_inRange (op : Op) (rehashing : Bool) (answer : Answer)
    (shards oldShards : ℕ) :
    (op.afterCheck rehashing answer).InRange shards oldShards := by
  cases op <;> cases rehashing <;> cases answer <;> trivial

theorem Op.afterOld_inRange (op : Op) (answer : Answer) (shards oldShards : ℕ) :
    (op.afterOld answer).InRange shards oldShards := by
  cases op <;> cases answer <;> trivial

theorem Call.access_kept (hsh : sh.Sound)
    (hstage : call.stage.InRange (2 ^ sh.table.bits) (2 ^ sh.old.bits))
    (haccess : call.access c clock sh = some next) : sh.Kept next := by
  dsimp only [Call.access] at haccess
  split at haccess
  case h_1 =>
    cases haccess
    exact hsh.same hsh.stored
  case h_2 loaded part hcall =>
    rw [hcall] at hstage
    have hloaded : loaded = true := hstage
    rw [if_pos hloaded] at haccess
    rcases Option.map_eq_some_iff.mp haccess with ⟨m, -, rfl⟩
    refine ⟨⟨hsh.stored, hsh.migrates⟩, rfl, rfl, rfl, ?_⟩
    dsimp only
    split
    · exact rfl
    · exact Op.afterMethod_inRange _ _ _ _
  case h_3 =>
    cases haccess
    exact hsh.same (Op.afterCheck_inRange _ _ _ _ _)
  case h_6 =>
    rcases Option.map_eq_some_iff.mp haccess with ⟨m, -, rfl⟩
    refine ⟨⟨hsh.stored, hsh.migrates⟩, rfl, rfl, rfl, ?_⟩
    dsimp only
    split
    · trivial
    · exact Op.afterOld_inRange _ _ _ _
  case h_8 => cases haccess
  all_goals
    split_ifs at haccess <;> cases haccess <;> first
      | exact hsh.same trivial
      | exact hsh.same (Op.afterOld_inRange _ _ _ _)

theorem Call.count_kept (hsh : sh.Sound) (hcount : call.count clock sh = some next) :
    sh.Kept next := by
  dsimp only [Call.count] at hcount
  split at hcount
  case h_1 =>
    rw [if_pos hsh.stored] at hcount
    cases hcount
    exact hsh.same trivial
  case h_6 => cases hcount
  case h_3 | h_4 => split_ifs at hcount <;> cases hcount <;> exact hsh.same trivial
  all_goals
    split at hcount <;> cases hcount <;> exact hsh.same trivial

theorem afterItems_inRange {loaded moved : Bool} {idx shards oldShards : ℕ}
    (kind : RehasherKind) (hloaded : loaded = true) (hidx : idx < oldShards) :
    (afterItems kind oldShards loaded idx moved).InRange shards oldShards := by
  unfold afterItems
  split
  · split_ifs with hmoved hnext
    · exact ⟨hloaded, hidx⟩
    · exact ⟨hloaded, hnext⟩
    · trivial
  · trivial

theorem nextSlot_inRange {loaded : Bool} {idx slot shards oldShards : ℕ}
    {items : List Item} (kind : RehasherKind) (hloaded : loaded = true)
    (hidx : idx < oldShards) :
    (nextSlot kind oldShards loaded idx slot items).InRange shards oldShards := by
  unfold nextSlot
  split_ifs
  · exact ⟨hloaded, hidx⟩
  · cases items with
    | nil => exact afterItems_inRange kind hloaded hidx
    | cons item rest => exact ⟨hloaded, hidx⟩

theorem extractAt_eq {t : ShardTable} {n idx slot : ℕ} {items : List Item}
    (hidx : idx < 2 ^ t.bits) (hslot : hasSlot t idx slot = true) :
    ∃ result, extractAt t order clock n idx slot items = some result ∧ result.1.bits = t.bits := by
  rw [hasSlot, dif_pos hidx, decide_eq_true_eq] at hslot
  unfold extractAt
  rw [dif_pos hidx, dif_pos hslot]
  exact ⟨_, rfl, rfl⟩

theorem Shared.Sound.endStep (hsh : sh.Sound) (kind : RehasherKind) (idx : ℕ)
    (moved : Bool) : (sh.endStep kind idx moved).Sound := by
  unfold Shared.endStep
  split
  · exact ⟨hsh.stored, nofun⟩
  · split_ifs with hempty hlast
    · exact ⟨hsh.stored, nofun⟩
    · exact ⟨hsh.stored, fun hrehashing =>
        ⟨(hsh.migrates hrehashing).1, Nat.not_le.mp hlast⟩⟩
    · exact hsh

theorem Shared.endStep_frame (kind : RehasherKind) (idx : ℕ) (moved : Bool) :
    (sh.endStep kind idx moved).closed = sh.closed ∧ (sh.endStep kind idx moved).table = sh.table ∧
      (sh.endStep kind idx moved).old = sh.old := by
  unfold Shared.endStep
  split
  · exact ⟨rfl, rfl, rfl⟩
  · split_ifs <;> exact ⟨rfl, rfl, rfl⟩

theorem Call.migrate_kept (kind : RehasherKind) (hsh : sh.Sound)
    (hstage : call.stage.InRange (2 ^ sh.table.bits) (2 ^ sh.old.bits))
    (hslot : ∀ loaded idx slot items, call.stage = .extract loaded idx slot items →
      hasSlot sh.old idx slot = true)
    (hmigrate : call.migrate kind order clock sh = some next) : sh.Kept next := by
  dsimp only [Call.migrate] at hmigrate
  split at hmigrate
  case h_1 =>
    cases hmigrate
    exact hsh.same hsh.stored
  case h_2 hcall =>
    rw [hcall] at hstage
    split_ifs at hmigrate <;> cases hmigrate
    · exact hsh.same hstage
    · exact hsh.same trivial
  case h_3 hcall =>
    rw [hcall] at hstage
    split_ifs at hmigrate with hrehashing hbatch hcursor <;> cases hmigrate
    · exact hsh.same trivial
    · exact hsh.same ⟨hstage, Nat.two_pow_pos _⟩
    · exact hsh.same ⟨hstage, hcursor.2⟩
    · simp only [Bool.not_eq_true', Bool.not_eq_false] at hrehashing
      exact (hcursor (hsh.migrates hrehashing)).elim
  case h_4 loaded idx slot items hcall =>
    rw [hcall] at hstage
    rcases extractAt_eq hstage.2 (hslot _ _ _ _ hcall) with ⟨⟨old, taken⟩, heq, hbits⟩
    rw [heq] at hmigrate
    cases hmigrate
    refine ⟨⟨hsh.stored, ?_⟩, rfl, rfl, hbits, nextSlot_inRange kind hstage.1 hstage.2⟩
    intro hrehashing
    have hcursor := hsh.migrates hrehashing
    exact ⟨hcursor.1, hbits.symm ▸ hcursor.2⟩
  case h_5 hcall =>
    rw [hcall] at hstage
    cases hmigrate
    refine hsh.same ⟨hstage.1, hstage.2, ?_⟩
    rw [if_pos hsh.stored]
    exact Fin.isLt _
  case h_6 loaded idx dest item rest hcall =>
    rw [hcall] at hstage
    rw [putAt, dif_pos ⟨hstage.1, hstage.2.2⟩] at hmigrate
    cases hmigrate
    refine ⟨⟨hsh.stored, hsh.migrates⟩, rfl, rfl, rfl, ?_⟩
    cases rest with
    | nil => exact afterItems_inRange kind hstage.1 hstage.2.1
    | cons item rest => exact ⟨hstage.1, hstage.2.1⟩
  case h_7 idx moved hcall =>
    cases hmigrate
    rcases sh.endStep_frame kind idx moved with ⟨hclosed, htable, hold⟩
    exact ⟨hsh.endStep kind idx moved, hclosed, congrArg _ htable, congrArg _ hold, trivial⟩
  case h_8 => cases hmigrate

theorem Call.advance_kept (hop : call.op ≠ .close) (hsh : sh.Sound)
    (hstage : call.stage.InRange (2 ^ sh.table.bits) (2 ^ sh.old.bits))
    (hslot : ∀ loaded idx slot items, call.stage = .extract loaded idx slot items →
      hasSlot sh.old idx slot = true)
    (hadvance : call.advance c order clock sh = some next) : sh.Kept next := by
  unfold Call.advance at hadvance
  split at hadvance
  · contradiction
  · exact call.count_kept hsh hadvance
  · rcases Option.or_eq_some_iff.mp hadvance with haccess | ⟨-, hmigrate⟩
    · exact call.access_kept hsh hstage haccess
    · exact call.migrate_kept _ hsh hstage hslot hmigrate

end InRange

end MCache.Store.Closing
