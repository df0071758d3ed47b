import MCache.ReplicatedServer
import MCache.ServerDispatch

/-!
# Executing commands from the log

The switch of `onRaftApply` and the translations on either side of the log:
from a request to a `RaftCommand`, and from a `raftResult` to the bytes of a
response.
-/

namespace MCache.Net

open MCache.Store

inductive ApplyError where
  | command (e : CommandError)
  | unsupportedOp (op : UInt8)
  deriving DecidableEq

def applyErrorText (prims : Strconv.Primitives) : ApplyError → Bytes
  | .command e => commandErrorText prims e
  | .unsupportedOp op =>
    ascii "unsupported raft op: " ++ Strconv.formatUint op.toNat

def ApplyError.keyNotFound : ApplyError := .command (.cache .keyNotFound)

structure RaftResult where
  err : Option ApplyError := none
  intResult : ℤ := 0
  boolResult : Bool := false
  strResult : Bytes := []
  floatResult : UInt64 := 0
  deriving DecidableEq

def RaftResult.of {α : Type} (result : Except CommandError α)
    (store : α → RaftResult) : RaftResult :=
  match result with
  | .ok a => store a
  | .error e => { err := some (.command e) }

def RaftResult.ofCache {α : Type} (result : Except CacheError α)
    (store : α → RaftResult) : RaftResult :=
  .of (result.mapError .cache) store

def onRaftApply (env : Env) (c : Cache) (rc : RaftCommand) : Option (Cache × RaftResult) :=
  let value := rc.value.getD []
  let int := fun (result : Cache × Except CacheError ℤ) =>
    some (result.1, RaftResult.ofCache result.2 fun n => { intResult := n })
  let str := fun (result : Cache × Except CacheError Bytes) =>
    some (result.1, RaftResult.ofCache result.2 fun elem => { strResult := elem })
  let unit := fun (result : Cache × Except CacheError Unit) =>
    (result.1, RaftResult.ofCache result.2 fun _ => {})
  match Cmd.ofCode? rc.op with
  | some .set =>
    (c.set env.order env.clock rc.key rc.value (some (setTTL rc.ttl))).map unit
  | some .del => (c.del env.order env.clock rc.key).map unit
  | some .cleanup => some ((c.cleanup (env.clock .current)).1, {})
  | some .hSet => int (c.hSet rc.key rc.field value)
  | some .hSetNX =>
    let result := c.hSetNX rc.key rc.field value
    some (result.1, .ofCache result.2 fun ok => { boolResult := ok })
  | some .hDel => int (c.hDel rc.key rc.fields)
  | some .hIncrBy =>
    let result := c.hIncrBy rc.key rc.field rc.deltaI64
    some (result.1, .of result.2 fun n => { intResult := n })
  | some .hIncrByFloat =>
    let result := c.hIncrByFloat env.prims rc.key rc.field rc.deltaF64
    some (result.1, .of result.2 fun n => { floatResult := n })
  | some .hmSet => some (unit (c.hmSet rc.key rc.fvPairs))
  | some .lPush => int (c.lPush rc.key rc.elems)
  | some .rPush => int (c.rPush rc.key rc.elems)
  | some .lPop => str (c.lPop rc.key)
  | some .rPop => str (c.rPop rc.key)
  | some .lSet => some (unit (c.lSet rc.key rc.index value))
  | some .lRem => int (c.lRem rc.key rc.count value)
  | some .lTrim => some (unit (c.lTrim rc.key rc.start rc.stop))
  | some .lInsert => int (c.lInsert rc.key rc.before rc.pivot value)
  | some .sAdd => int (c.sAdd rc.key rc.elems)
  | some .sRem => int (c.sRem rc.key rc.elems)
  | some .sPop => str (c.sPop env.choice rc.key)
  | _ => some (c, { err := some (.unsupportedOp rc.op) })

def RaftCommand.on (op : UInt8) (key : Bytes) : RaftCommand :=
  { (default : RaftCommand) with op := op, key := key }

def reqToRaft (req : Request) : RaftCommand :=
  { RaftCommand.on req.cmd req.key with value := req.value, ttl := req.ttl }

def hashReqToRaft (req : HashRequest) : RaftCommand :=
  let rc := { RaftCommand.on req.cmd req.key with field := req.field }
  match Cmd.ofCode? req.cmd with
  | some .hSet | some .hSetNX => { rc with value := some req.value }
  | some .hDel => { rc with fields := req.fields }
  | some .hIncrBy => { rc with deltaI64 := req.deltaI64 }
  | some .hIncrByFloat => { rc with deltaF64 := req.deltaF64 }
  | some .hmSet => { rc with fvPairs := req.fvPairs }
  | _ => rc

def listReqToRaft (req : ListRequest) : RaftCommand :=
  let rc := RaftCommand.on req.cmd req.key
  match Cmd.ofCode? req.cmd with
  | some .lPush | some .rPush => { rc with elems := req.elements }
  | some .lSet => { rc with index := req.index, value := some req.value }
  | some .lRem => { rc with count := req.count, value := some req.value }
  | some .lTrim => { rc with start := req.start, stop := req.stop }
  | some .lInsert =>
    { rc with
      before := req.before, pivot := req.pivot, value := some req.value }
  | _ => rc

def setReqToRaft (req : SetRequest) : RaftCommand :=
  let rc := RaftCommand.on req.cmd req.key
  match Cmd.ofCode? req.cmd with
  | some .sAdd | some .sRem => { rc with elems := req.elems }
  | _ => rc

def raftResultToHashResponseBytes (env : Env) (cmd : UInt8) (res : RaftResult) :
    Bytes :=
  encodeHashResponse env.keyOrder (match res.err with
    | some e => .err cmd (applyErrorText env.prims e)
    | none =>
      match Cmd.ofCode? cmd with
      | some .hSet | some .hDel | some .hIncrBy =>
        { cmd, status := statusOK, intResult := res.intResult }
      | some .hSetNX => { cmd, status := statusOK, boolResult := res.boolResult }
      | some .hIncrByFloat =>
        { cmd, status := statusOK, floatResult := res.floatResult }
      | some .hmSet => { cmd, status := statusOK }
      | _ => .err cmd (ascii "unsupported raft hash op"))

def raftResultToListResponseBytes (env : Env) (cmd : UInt8) (res : RaftResult) :
    Bytes :=
  encodeListResponse (match res.err with
    | some e =>
      if e = .keyNotFound then { cmd, status := statusNotFound }
      else .err cmd (applyErrorText env.prims e)
    | none =>
      match Cmd.ofCode? cmd with
      | some .lPush | some .rPush | some .lRem | some .lInsert =>
        { cmd, status := statusOK, intResult := res.intResult }
      | some .lPop | some .rPop =>
        { cmd, status := statusOK, strResult := res.strResult }
      | some .lSet => { cmd, status := statusOK, boolResult := true }
      | some .lTrim => { cmd, status := statusOK }
      | _ => .err cmd (ascii "unsupported raft list op"))

def raftResultToSetResponseBytes (env : Env) (cmd : UInt8) (res : RaftResult) :
    Bytes :=
  encodeSetResponse (match res.err with
    | some e =>
      if e = .keyNotFound ∧ cmd = Cmd.sPop.code then
        { cmd, status := statusNotFound }
      else .err cmd (applyErrorText env.prims e)
    | none =>
      match Cmd.ofCode? cmd with
      | some .sAdd | some .sRem =>
        { cmd, status := statusOK, changed := uint64 res.intResult }
      | some .sPop => { cmd, status := statusOK, elems := [res.strResult] }
      | _ => .err cmd (ascii "unsupported raft set op"))

end MCache.Net
