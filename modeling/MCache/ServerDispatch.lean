import MCache.WireMessages

/-!
# The server's commands

`process`, `processHash`, `processList` and `processSet` of `net/server.go` and
`net/server_ext.go` without Raft: which operation of the cache a request runs
and what is answered.  A request that makes the cache panic has no outcome.
-/

namespace MCache.Net

open MCache.Store

structure Env where
  prims : Strconv.Primitives
  clock : Clock
  order : MapOrder
  keyOrder : KeyOrder
  choice : ℕ
  draws : Draws
  rounds : ℕ
  stats : Bytes

def Env.still (now : ℤ) : Env where
  prims := ⟨fun _ => .error .invalidSyntax, fun _ => [], fun a _ => a, id⟩
  clock := Store.still now
  order := .asStored
  keyOrder := .asStored
  choice := 0
  draws := ⟨.asStored, fun _ => 0⟩
  rounds := 0
  stats := []

def Response.err (text : Bytes) : Response :=
  { status := statusErr, errMsg := text }

def Response.ok (value : Bytes) : Response :=
  { status := statusOK, value := some value }

def Response.of {α : Type} (result : Except CacheError α) (value : α → Bytes) :
    Response :=
  match result with
  | .ok a => .ok (value a)
  | .error e => .err (errorText e)

def Response.done : Except CacheError Unit → Response
  | .ok () => { status := statusOK }
  | .error e => .err (errorText e)

def Response.found : Except CacheError Bytes → Response
  | .ok value => .ok value
  | .error .keyNotFound => { status := statusNotFound }
  | .error e => .err (errorText e)

def setTTL (ttl : ℤ) : ℤ := if 0 < ttl then int64 (ttl * 10 ^ 6) else 0

def process (env : Env) (c : Cache) (req : Request) : Option (Cache × Response) :=
  let flag := fun (result : Cache × Except CacheError Bool) =>
    some (result.1, Response.of result.2 fun b => [boolByte b])
  match Cmd.ofCode? req.cmd with
  | some .get =>
    (c.get env.order env.clock req.key).map fun result =>
      (result.1, Response.found result.2)
  | some .set =>
    (c.set env.order env.clock req.key req.value (some (setTTL req.ttl))).map
      fun result => (result.1, Response.done result.2)
  | some .del =>
    (c.del env.order env.clock req.key).map fun result =>
      (result.1, Response.done result.2)
  | some .len => some (c, .ok (bigEndian 8 (c.len (env.clock .current))))
  | some .cleanup =>
    let result := c.cleanup (env.clock .current)
    some (result.1, .ok (bigEndian 8 result.2))
  | some .stats => some (c, .ok env.stats)
  | some .keyExists => flag (c, c.keyExists env.clock req.key)
  | some .keyType =>
    some (c, .of (c.keyType env.clock req.key) fun type => [type])
  | some .expire => flag (c.expire env.clock req.key (req.ttl.tdiv 1000))
  | some .expireAt => flag (c.expireAt env.clock req.key (req.ttl.tdiv 1000))
  | some .pExpire => flag (c.pExpire env.clock req.key req.ttl)
  | some .pExpireAt => flag (c.pExpireAt env.clock req.key req.ttl)
  | some .ttl =>
    some (c, .of (c.ttl env.clock req.key) fun left => bigEndian 8 (uint64 left))
  | some .pTTL =>
    some (c, .of (c.pTTL env.clock req.key) fun left =>
      bigEndian 8 (uint64 left))
  | some .persist => flag (c.persist env.clock req.key)
  | some .keys => some (c, .of (c.keys env.keyOrder env.clock req.key) counted)
  | _ => some (c, .err invalidCommandText)

def respond {α ε ρ : Type} (result : Except ε α) (ok : α → ρ) (err : ε → ρ) : ρ :=
  match result with
  | .ok a => ok a
  | .error e => err e

def HashResponse.err (cmd : UInt8) (text : Bytes) : HashResponse :=
  { cmd := cmd, status := statusErr, errMsg := text }

def HashResponse.notFoundOr (cmd : UInt8) : CacheError → HashResponse
  | .keyNotFound => { cmd := cmd, status := statusNotFound }
  | e => .err cmd (errorText e)

def processHash (env : Env) (c : Cache) (req : HashRequest) : Cache × Bytes :=
  let cmd := req.cmd
  let err := fun e => HashResponse.err cmd (errorText e)
  let errNumber := fun e => HashResponse.err cmd (commandErrorText env.prims e)
  let notFoundOr := HashResponse.notFoundOr cmd
  let write := fun (c : Cache) resp => (c, encodeHashResponse env.keyOrder resp)
  match Cmd.ofCode? req.cmd with
  | some .hSet =>
    let result := c.hSet req.key req.field req.value
    write result.1 (respond result.2
      (fun added => { cmd, status := statusOK, intResult := added }) err)
  | some .hSetNX =>
    let result := c.hSetNX req.key req.field req.value
    write result.1 (respond result.2 (fun ok => { cmd, status := statusOK, boolResult := ok }) err)
  | some .hGet =>
    write c (respond (c.hGet req.key req.field)
      (fun val => { cmd, status := statusOK, strResult := val }) notFoundOr)
  | some .hDel =>
    let result := c.hDel req.key req.fields
    write result.1 (respond result.2 (fun n => { cmd, status := statusOK, intResult := n }) err)
  | some .hExists =>
    write c (respond (c.hExists req.key req.field)
      (fun ok => { cmd, status := statusOK, boolResult := ok }) err)
  | some .hGetAll =>
    write c (respond (c.hGetAll req.key)
      (fun all => { cmd, status := statusOK, mapResult := all }) notFoundOr)
  | some .hKeys =>
    write c (respond (c.hKeys env.keyOrder req.key)
      (fun keys => { cmd, status := statusOK, sliceResult := keys }) notFoundOr)
  | some .hVals =>
    write c (respond (c.hVals env.keyOrder req.key)
      (fun vals => { cmd, status := statusOK, sliceResult := vals }) notFoundOr)
  | some .hLen =>
    write c (respond (c.hLen req.key) (fun n => { cmd, status := statusOK, intResult := n }) err)
  | some .hStrLen =>
    write c (respond (c.hStrLen req.key req.field)
      (fun n => { cmd, status := statusOK, intResult := n }) err)
  | some .hIncrBy =>
    let result := c.hIncrBy req.key req.field req.deltaI64
    write result.1 (respond result.2
      (fun n => { cmd, status := statusOK, intResult := n }) errNumber)
  | some .hIncrByFloat =>
    let result := c.hIncrByFloat env.prims req.key req.field req.deltaF64
    write result.1 (respond result.2
      (fun n => { cmd, status := statusOK, floatResult := n }) errNumber)
  | some .hmGet =>
    write c (respond (c.hmGet req.key req.fields)
      (fun vals => { cmd, status := statusOK, anySlice := vals }) err)
  | some .hmSet =>
    let result := c.hmSet req.key req.fvPairs
    write result.1 (respond result.2 (fun _ => { cmd, status := statusOK }) err)
  | _ => write c (.err cmd invalidCommandText)

def ListResponse.err (cmd : UInt8) (text : Bytes) : ListResponse :=
  { cmd := cmd, status := statusErr, errMsg := text }

def ListResponse.notFoundOr (cmd : UInt8) : CacheError → ListResponse
  | .keyNotFound => { cmd := cmd, status := statusNotFound }
  | e => .err cmd (errorText e)

def popUntil (pop : Cache → Cache × Except CacheError Bytes) : ℕ → Cache → Cache × Option Bytes
  | rounds, c =>
    match pop c, rounds with
    | (c, .ok elem), _ => (c, some elem)
    | (c, .error _), 0 => (c, none)
    | (c, .error _), rounds + 1 => popUntil pop rounds c

def processList (env : Env) (c : Cache) (req : ListRequest) : Cache × Bytes :=
  let cmd := req.cmd
  let err := fun e => ListResponse.err cmd (errorText e)
  let notFoundOr := ListResponse.notFoundOr cmd
  let write := fun (c : Cache) resp => (c, encodeListResponse resp)
  let popped := fun (result : Cache × Except CacheError Bytes) =>
    write result.1 (respond result.2
      (fun elem => { cmd, status := statusOK, strResult := elem }) notFoundOr)
  let blocking := fun (pop : Cache → Cache × Except CacheError Bytes) =>
    if 0 < req.timeout then
      let result := popUntil pop env.rounds c
      write result.1 (match result.2 with
        | some elem => { cmd, status := statusOK, strResult := elem }
        | none => { cmd, status := statusNotFound })
    else popped (pop c)
  match Cmd.ofCode? req.cmd with
  | some .lPush =>
    let result := c.lPush req.key req.elements
    write result.1 (respond result.2 (fun n => { cmd, status := statusOK, intResult := n }) err)
  | some .rPush =>
    let result := c.rPush req.key req.elements
    write result.1 (respond result.2 (fun n => { cmd, status := statusOK, intResult := n }) err)
  | some .lPop => popped (c.lPop req.key)
  | some .rPop => popped (c.rPop req.key)
  | some .lLen =>
    write c (respond (c.lLen req.key) (fun n => { cmd, status := statusOK, intResult := n }) err)
  | some .lRange =>
    write c (respond (c.lRange req.key req.start req.stop)
      (fun elems => { cmd, status := statusOK, sliceResult := elems })
      notFoundOr)
  | some .lIndex =>
    write c (respond (c.lIndex req.key req.index)
      (fun elem => { cmd, status := statusOK, strResult := elem }) notFoundOr)
  | some .lSet =>
    let result := c.lSet req.key req.index req.value
    write result.1 (respond result.2
      (fun _ => { cmd, status := statusOK, boolResult := true }) notFoundOr)
  | some .lRem =>
    let result := c.lRem req.key req.count req.value
    write result.1 (respond result.2 (fun n => { cmd, status := statusOK, intResult := n }) err)
  | some .lTrim =>
    let result := c.lTrim req.key req.start req.stop
    write result.1 (respond result.2 (fun _ => { cmd, status := statusOK }) err)
  | some .lInsert =>
    let result := c.lInsert req.key req.before req.pivot req.value
    write result.1 (respond result.2 (fun n => { cmd, status := statusOK, intResult := n }) err)
  | some .blPop => blocking fun c => c.lPop req.key
  | some .brPop => blocking fun c => c.rPop req.key
  | some .lPos =>
    write c (respond (c.lPos req.key req.value req.rank req.count req.maxLen)
      (fun positions => { cmd, status := statusOK, posResult := positions }) err)
  | _ => write c (.err cmd invalidCommandText)

def SetResponse.err (cmd : UInt8) (text : Bytes) : SetResponse :=
  { cmd := cmd, status := statusErr, errMsg := text }

def SetResponse.notFoundOr (cmd : UInt8) : CacheError → SetResponse
  | .keyNotFound => { cmd := cmd, status := statusNotFound }
  | e => .err cmd (errorText e)

def processSet (env : Env) (c : Cache) (req : SetRequest) : Cache × Bytes :=
  let cmd := req.cmd
  let err := fun e => SetResponse.err cmd (errorText e)
  let write := fun (c : Cache) resp => (c, encodeSetResponse resp)
  let listed := fun (result : Except CacheError (List Bytes)) =>
    write c (respond result (fun elems =>
        { cmd, status := statusOK, elems := env.keyOrder.arrange elems }) err)
  match Cmd.ofCode? req.cmd with
  | some .sAdd =>
    let result := c.sAdd req.key req.elems
    write result.1 (respond result.2
      (fun added => { cmd, status := statusOK, changed := uint64 added }) err)
  | some .sRem =>
    let result := c.sRem req.key req.elems
    write result.1 (respond result.2
      (fun removed => { cmd, status := statusOK, changed := uint64 removed })
      err)
  | some .sIsMember =>
    write c (respond (c.sIsMember req.key (req.elems.head?.getD []))
      (fun member => { cmd, status := statusOK, isMember := member }) err)
  | some .sMembers => listed (c.sMembers req.key)
  | some .sCard =>
    write c (respond (c.sCard req.key) (fun n => { cmd, status := statusOK, card := uint64 n }) err)
  | some .sPop =>
    let result := c.sPop env.choice req.key
    write result.1 (respond result.2 (fun elem => { cmd, status := statusOK, elems := [elem] })
      (SetResponse.notFoundOr cmd))
  | some .sRandMember =>
    write c (respond (c.sRandMember env.draws req.key req.count)
      (fun elems => { cmd, status := statusOK, elems := elems }) err)
  | some .sUnion => listed (c.sUnion req.keys)
  | some .sInter => listed (c.sInter req.keys)
  | some .sDiff => listed (c.sDiff req.keys)
  | _ => write c (.err cmd invalidCommandText)

inductive ClientRequest where
  | string (req : Request)
  | hash (req : HashRequest)
  | list (req : ListRequest)
  | set (req : SetRequest)

def ClientRequest.cmd : ClientRequest → UInt8
  | .string req => req.cmd
  | .hash req => req.cmd
  | .list req => req.cmd
  | .set req => req.cmd

def processRequest (env : Env) (c : Cache) : ClientRequest → Option (Cache × Bytes)
  | .string req =>
    (process env c req).map fun result => (result.1, result.2.encodePayload)
  | .hash req =>
    let result := processHash env c req
    some (result.1, req.cmd :: result.2)
  | .list req =>
    let result := processList env c req
    some (result.1, req.cmd :: result.2)
  | .set req =>
    let result := processSet env c req
    some (result.1, req.cmd :: result.2)

end MCache.Net
