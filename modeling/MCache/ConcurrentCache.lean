import MCache.Cache

/-!
# Concurrent calls on the cache

`Set`, `Del`, `Get`, `Resize` and `Step` with the incremental rehasher, run by
any number of goroutines on an unbounded cache without times to live.  Each
lock-protected section and each atomic load or store is one step.  A call
keeps the tables it has loaded, as identifiers, and the items it has taken out
of the old table, so another call may act between any two of its steps.
-/

namespace MCache.Store

structure Shared where
  tables : ℕ → ShardTable
  fresh : ℕ
  current : ℕ
  old : Option ℕ
  rehashIdx : ℕ
  locked : Bool

def Shared.withTable (sh : Shared) (id : ℕ) (t : ShardTable) : Shared :=
  { sh with tables := Function.update sh.tables id t }

inductive Op where
  | set (key value : Bytes)
  | del (key : Bytes)
  | get (key : Bytes)
  | resize (shardCount : ℤ)
  | step
  deriving DecidableEq

inductive Pc where
  | load
  | access (table : ℕ)
  | checkOld
  | oldShard
  | accessOld (table : ℕ)
  | checkStep
  | loadStep
  | beginStep (table : ℕ)
  | extract (table old idx : ℕ)
  | pickShard (table idx : ℕ) (item : Item) (rest : List Item)
  | putItem (table idx shard : ℕ) (item : Item) (rest : List Item)
  | endStep (idx : ℕ) (moved : Bool)
  | lock
  | start
  | swap
  | done
  deriving DecidableEq

structure Call where
  op : Op
  pc : Pc
  result : Option Bytes

def Op.entry : Op → Pc
  | .set .. | .del _ | .get _ => .load
  | .step => .loadStep
  | .resize shardCount => if validShards shardCount then .lock else .done

def ShardTable.setAt (t : ShardTable) (i : ℕ) (item : Item) (now : ℤ) : Option ShardTable :=
  if hi : i < 2 ^ t.bits then
    some (t.withShard ⟨i, hi⟩ ((t.shards ⟨i, hi⟩).set item.key item.value item.ttl now).1)
  else none

def ShardTable.extractAt (t : ShardTable) (i : ℕ) (order : MapOrder)
    (clock : Clock) : Option (ShardTable × List Item) :=
  if hi : i < 2 ^ t.bits then
    ((t.shards ⟨i, hi⟩).extractN order clock batchSize).map fun result =>
      (t.withShard ⟨i, hi⟩ result.1, result.2)
  else none

def Call.access (c : Call) (sh : Shared) (clock : Clock) (id : ℕ) : Option (Shared × Call) :=
  match c.op with
  | .set key value =>
    some (sh.withTable id ((sh.tables id).set key value 0 (clock .current key)),
      { c with pc := .checkOld })
  | .del key =>
    some (sh.withTable id ((sh.tables id).del key), { c with pc := .checkOld })
  | .get key =>
    let result := (sh.tables id).get key (clock .current key) (clock .currentAgain key)
    some (sh.withTable id result.1,
      { c with
        result := result.2
        pc := if result.2.isSome then .checkStep else .checkOld })
  | _ => none

def Call.accessOld (c : Call) (sh : Shared) (clock : Clock) (id : ℕ) : Option (Shared × Call) :=
  match c.op with
  | .set key _ | .del key =>
    some (sh.withTable id ((sh.tables id).del key), { c with pc := .loadStep })
  | .get key =>
    let result := (sh.tables id).get key (clock .old key) (clock .oldAgain key)
    some (sh.withTable id result.1,
      { c with
        result := result.2
        pc := if result.2.isSome then .loadStep else .checkStep })
  | _ => none

def Op.withoutOld : Op → Pc
  | .get _ => .checkStep
  | _ => .done

def Op.oldGone : Op → Pc
  | .get _ => .checkStep
  | _ => .loadStep

def Shared.endStep (sh : Shared) (idx : ℕ) (moved : Bool) : Shared :=
  match sh.old with
  | none => sh
  | some old =>
    if !moved ∧ sh.rehashIdx = idx then
      { sh with
        rehashIdx := idx + 1
        old := if 2 ^ (sh.tables old).bits ≤ idx + 1 then none else some old }
    else sh

def Call.advance (kind : PolicyKind) (order : MapOrder) (clock : Clock)
    (sh : Shared) (c : Call) : Option (Shared × Call) :=
  match c.pc with
  | .load => some (sh, { c with pc := .access sh.current })
  | .access id => c.access sh clock id
  | .checkOld =>
    some (sh, { c with
      pc := if sh.old.isSome then .oldShard else c.op.withoutOld })
  | .oldShard =>
    some (sh, { c with
      pc := match sh.old with
        | some old => .accessOld old
        | none => c.op.oldGone })
  | .accessOld id => c.accessOld sh clock id
  | .checkStep =>
    some (sh, { c with pc := if sh.old.isSome then .loadStep else .done })
  | .loadStep => some (sh, { c with pc := .beginStep sh.current })
  | .beginStep id =>
    some (sh, { c with
      pc := match sh.old with
        | some old => .extract id old sh.rehashIdx
        | none => .done })
  | .extract id old idx =>
    ((sh.tables old).extractAt idx order clock).map fun result =>
      (sh.withTable old result.1,
        { c with
          pc := match result.2 with
            | [] => .endStep idx false
            | item :: rest => .pickShard id idx item rest })
  | .pickShard id idx item rest =>
    some (sh, { c with
      pc := .putItem id idx ((sh.tables sh.current).index item.key).val item rest })
  | .putItem id idx shard item rest =>
    ((sh.tables id).setAt shard item (clock .store item.key)).map fun t =>
      (sh.withTable id t,
        { c with
          pc := match rest with
            | [] => .endStep idx true
            | next :: rest => .pickShard id idx next rest })
  | .endStep idx moved => some (sh.endStep idx moved, { c with pc := .done })
  | .lock =>
    if sh.locked then none
    else if sh.old.isSome then some (sh, { c with pc := .done })
    else some ({ sh with locked := true }, { c with pc := .start })
  | .start =>
    some ({ sh with old := some sh.current, rehashIdx := 0 },
      { c with pc := .swap })
  | .swap =>
    match c.op with
    | .resize shardCount =>
      some ({ sh with
          tables := Function.update sh.tables sh.fresh (newTable shardCount.toNat.log2 kind 0)
          current := sh.fresh
          fresh := sh.fresh + 1
          locked := false },
        { c with pc := .done })
    | _ => none
  | .done => none

def Op.writes : Op → Option (Bytes × Option Bytes)
  | .set key value => some (key, some value)
  | .del key => some (key, none)
  | _ => none

def Op.key : Op → Option Bytes
  | .set key _ | .del key | .get key => some key
  | _ => none

structure Running where
  call : Call
  alone : Bool
  expected : Option (Option Bytes)

def Running.writesKey (r : Running) (key : Bytes) : Bool :=
  match r.call.op.writes with
  | some (other, _) => decide (other = key)
  | none => false

def Running.disturb (key : Bytes) (r : Running) : Running :=
  { r with
    alone := r.alone && !r.writesKey key
    expected := if r.call.op.key = some key then none else r.expected }

structure Concurrent (n : ℕ) where
  shared : Shared
  threads : Fin n → Option Running
  settled : Bytes → Option (Option Bytes)

structure ThreadAction (n : ℕ) where
  thread : Fin n
  begins : Option Op
  order : MapOrder
  clock : Clock

namespace Concurrent

variable {n : ℕ}

def begin (s : Concurrent n) (p : Fin n) (op : Op) : Option (Concurrent n) :=
  if op.key = some [] then none
  else
    match op.writes with
    | some (key, _) =>
      let running : Running :=
        { call := ⟨op, op.entry, none⟩
          alone := decide (∀ q r, s.threads q = some r → r.writesKey key = false)
          expected := none }
      some { s with
        threads := Function.update
          (fun q => (s.threads q).map (Running.disturb key)) p (some running)
        settled := Function.update s.settled key none }
    | none =>
      let running : Running :=
        { call := ⟨op, op.entry, none⟩
          alone := false
          expected := op.key.bind s.settled }
      some { s with threads := Function.update s.threads p (some running) }

def finish (s : Concurrent n) (p : Fin n) (r : Running) : Concurrent n :=
  { s with
    threads := Function.update s.threads p none
    settled :=
      match r.call.op.writes with
      | some (key, value) =>
        if r.alone then Function.update s.settled key (some value)
        else s.settled
      | none => s.settled }

def step (kind : PolicyKind) (s : Concurrent n) (a : ThreadAction n) : Option (Concurrent n) :=
  match s.threads a.thread, a.begins with
  | none, some op => s.begin a.thread op
  | some r, none =>
    if r.call.pc = .done then some (s.finish a.thread r)
    else
      (r.call.advance kind a.order a.clock s.shared).map fun result =>
        { s with
          shared := result.1
          threads := Function.update s.threads a.thread (some { r with call := result.2 }) }
  | _, _ => none

end Concurrent

def concurrentCache (kind : PolicyKind) (n : ℕ) :
    TransitionSystem (Concurrent n) (ThreadAction n) where
  init := fun s =>
    (∃ bits, ∀ id, s.shared.tables id = newTable bits kind 0) ∧
      s.shared.current < s.shared.fresh ∧ s.shared.old = none ∧
      s.shared.locked = false ∧ (∀ p, s.threads p = none) ∧
      ∀ key, s.settled key = none
  step := Concurrent.step kind

end MCache.Store
