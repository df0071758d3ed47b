import MCache.CollectionQueries

/-!
# Messages between client and server

The command codes, requests and responses of `net/protocol.go` and
`net/protocol_ext.go`, and how the server writes its responses.
-/

namespace MCache.Net

open MCache.Store

/-! ## Commands -/

inductive Cmd where
  | get | set | del | len | cleanup | stats
  | sAdd | sRem | sIsMember | sMembers | sCard | sPop | sRandMember | sUnion
  | sInter | sDiff
  | hSet | hGet | hDel | hExists | hGetAll | hKeys | hVals | hLen | hStrLen
  | hIncrBy | hIncrByFloat | hmGet | hmSet | hSetNX
  | lPush | rPush | lPop | rPop | lLen | lRange | lIndex | lSet | lRem | lTrim
  | lInsert | blPop | brPop | lPos
  | keyExists | keyType | expire | expireAt | pExpire | pExpireAt | ttl | pTTL
  | persist | keys
  deriving DecidableEq

namespace Cmd

def code : Cmd → UInt8
  | .get => 1 | .set => 2 | .del => 3 | .len => 4 | .cleanup => 5 | .stats => 6
  | .sAdd => 10 | .sRem => 11 | .sIsMember => 12 | .sMembers => 13 | .sCard => 14
  | .sPop => 15 | .sRandMember => 16 | .sUnion => 17 | .sInter => 18
  | .sDiff => 19
  | .hSet => 32 | .hGet => 33 | .hDel => 34 | .hExists => 35 | .hGetAll => 36
  | .hKeys => 37 | .hVals => 38 | .hLen => 39 | .hStrLen => 40 | .hIncrBy => 41
  | .hIncrByFloat => 42 | .hmGet => 43 | .hmSet => 44 | .hSetNX => 45
  | .lPush => 48 | .rPush => 49 | .lPop => 50 | .rPop => 51 | .lLen => 52
  | .lRange => 53 | .lIndex => 54 | .lSet => 55 | .lRem => 56 | .lTrim => 57
  | .lInsert => 58 | .blPop => 59 | .brPop => 60 | .lPos => 61
  | .keyExists => 64 | .keyType => 65 | .expire => 66 | .expireAt => 67
  | .pExpire => 68 | .pExpireAt => 69 | .ttl => 70 | .pTTL => 71
  | .persist => 72 | .keys => 73

def all : List Cmd := [.get, .set, .del, .len, .cleanup, .stats, .sAdd, .sRem, .sIsMember,
    .sMembers, .sCard, .sPop, .sRandMember, .sUnion, .sInter, .sDiff, .hSet,
    .hGet, .hDel, .hExists, .hGetAll, .hKeys, .hVals, .hLen, .hStrLen, .hIncrBy,
    .hIncrByFloat, .hmGet, .hmSet, .hSetNX, .lPush, .rPush, .lPop, .rPop, .lLen,
    .lRange, .lIndex, .lSet, .lRem, .lTrim, .lInsert, .blPop, .brPop, .lPos,
    .keyExists, .keyType, .expire, .expireAt, .pExpire, .pExpireAt, .ttl, .pTTL,
    .persist, .keys]

def ofCode? (b : UInt8) : Option Cmd := all.find? fun cmd => cmd.code = b

theorem ofCode?_code (cmd : Cmd) : ofCode? cmd.code = some cmd := by
  cases cmd <;> rfl

theorem code_of_ofCode? {b : UInt8} {cmd : Cmd} (h : ofCode? b = some cmd) : cmd.code = b := by
  simpa using List.find?_some h

end Cmd

def isRaftWriteOp (cmd : UInt8) : Bool :=
  match Cmd.ofCode? cmd with
  | some .set | some .del | some .cleanup
  | some .sAdd | some .sRem | some .sPop
  | some .hSet | some .hSetNX | some .hDel | some .hmSet | some .hIncrBy
  | some .hIncrByFloat
  | some .lPush | some .rPush | some .lPop | some .rPop | some .lSet | some .lRem
  | some .lTrim | some .lInsert => true
  | _ => false

def isHashCmd (cmd : UInt8) : Bool :=
  decide (Cmd.hSet.code ≤ cmd ∧ cmd ≤ Cmd.hSetNX.code)

def isListCmd (cmd : UInt8) : Bool :=
  decide (Cmd.lPush.code ≤ cmd ∧ cmd ≤ Cmd.lPos.code)

def isSetCmd (cmd : UInt8) : Bool :=
  decide (Cmd.sAdd.code ≤ cmd ∧ cmd ≤ Cmd.sDiff.code)

def statusOK : UInt8 := 0
def statusErr : UInt8 := 1
def statusNotFound : UInt8 := 2

/-! ## Requests -/

structure Request where
  cmd : UInt8
  key : Bytes
  value : Option Bytes
  ttl : ℤ
  deriving DecidableEq

structure SetRequest where
  cmd : UInt8
  key : Bytes
  elems : List Bytes
  count : ℤ
  keys : List Bytes
  deriving DecidableEq

structure HashRequest where
  cmd : UInt8
  key : Bytes
  field : Bytes
  value : Bytes
  fields : List Bytes
  fvPairs : List Bytes
  deltaI64 : ℤ
  deltaF64 : UInt64
  deriving DecidableEq

structure ListRequest where
  cmd : UInt8
  key : Bytes
  elements : List Bytes
  value : Bytes
  index : ℤ
  start : ℤ
  stop : ℤ
  count : ℤ
  pivot : Bytes
  before : Bool
  timeout : ℤ
  rank : ℤ
  maxLen : ℤ
  deriving DecidableEq

/-! ## Responses -/

structure Response where
  status : UInt8
  value : Option Bytes := none
  errMsg : Bytes := []
  deriving DecidableEq

structure SetResponse where
  cmd : UInt8
  status : UInt8
  changed : ℕ := 0
  isMember : Bool := false
  card : ℕ := 0
  elems : List Bytes := []
  errMsg : Bytes := []

structure HashResponse where
  cmd : UInt8
  status : UInt8
  intResult : ℤ := 0
  boolResult : Bool := false
  strResult : Bytes := []
  mapResult : HashValue := ∅
  sliceResult : List Bytes := []
  anySlice : List (Option Bytes) := []
  floatResult : UInt64 := 0
  errMsg : Bytes := []

structure ListResponse where
  cmd : UInt8
  status : UInt8
  intResult : ℤ := 0
  boolResult : Bool := false
  strResult : Bytes := []
  sliceResult : List Bytes := []
  posResult : List ℤ := []
  errMsg : Bytes := []

/-! ## How responses are written -/

def boolByte (b : Bool) : UInt8 := if b then 1 else 0

@[simp] theorem decide_boolByte (b : Bool) : decide (boolByte b ≠ 0) = b := by
  cases b <;> rfl

def sized (width : ℕ) (text : Bytes) : Bytes := bigEndian width text.length ++ text

def counted (texts : List Bytes) : Bytes := bigEndian 4 texts.length ++ texts.flatMap (sized 2)

def Response.encodePayload (resp : Response) : Bytes :=
  let value := resp.value.getD []
  resp.status :: bigEndian 4 value.length ++ bigEndian 2 resp.errMsg.length ++ value ++ resp.errMsg

def encodeSetResponse (resp : SetResponse) : Bytes :=
  match Cmd.ofCode? resp.cmd with
  | some .sAdd | some .sRem => resp.status :: bigEndian 8 resp.changed
  | some .sIsMember => [resp.status, boolByte resp.isMember]
  | some .sCard => resp.status :: bigEndian 8 resp.card
  | some .sPop => resp.status :: sized 2 (resp.elems.head?.getD [])
  | some .sMembers | some .sRandMember | some .sUnion | some .sInter
  | some .sDiff => resp.status :: counted resp.elems
  | _ => []

def errorPayload (errMsg : Bytes) : Bytes := statusErr :: sized 2 errMsg

def encodeHashResponse (order : KeyOrder) (resp : HashResponse) : Bytes :=
  if resp.status = statusErr then errorPayload resp.errMsg
  else
    match Cmd.ofCode? resp.cmd with
    | some .hSet | some .hDel | some .hLen | some .hStrLen | some .hIncrBy =>
      resp.status :: bigEndian 8 (uint64 resp.intResult)
    | some .hExists | some .hSetNX => [resp.status, boolByte resp.boolResult]
    | some .hGet => resp.status :: sized 4 resp.strResult
    | some .hGetAll =>
      resp.status :: bigEndian 4 resp.mapResult.keys.length ++
        (order.arrange resp.mapResult.keys).flatMap fun field =>
          sized 2 field ++ sized 4 ((resp.mapResult.lookup field).getD [])
    | some .hKeys | some .hVals => resp.status :: counted resp.sliceResult
    | some .hIncrByFloat => resp.status :: bigEndian 8 resp.floatResult.toNat
    | some .hmGet =>
      resp.status :: bigEndian 4 resp.anySlice.length ++ resp.anySlice.flatMap fun value =>
          match value with
          | some text => 1 :: sized 4 text
          | none => [0]
    | some .hmSet => [resp.status]
    | _ => []

def encodeListResponse (resp : ListResponse) : Bytes :=
  if resp.status = statusErr then errorPayload resp.errMsg
  else
    match Cmd.ofCode? resp.cmd with
    | some .lPush | some .rPush | some .lLen | some .lRem | some .lInsert =>
      resp.status :: bigEndian 8 (uint64 resp.intResult)
    | some .lPop | some .rPop | some .blPop | some .brPop | some .lIndex =>
      resp.status :: sized 4 resp.strResult
    | some .lRange => resp.status :: counted resp.sliceResult
    | some .lSet => [resp.status, boolByte resp.boolResult]
    | some .lTrim => [resp.status]
    | some .lPos =>
      resp.status :: bigEndian 4 resp.posResult.length ++
        resp.posResult.flatMap fun pos => bigEndian 8 (uint64 pos)
    | _ => []

/-! ## Texts of errors -/

def errorText : CacheError → Bytes
  | .keyNotFound => ascii "key not found"
  | .keyEmpty => ascii "key cannot be empty"
  | .valueNil => ascii "value cannot be nil"
  | .negativeTTL => ascii "ttl cannot be negative"
  | .cacheClosed => ascii "cache is closed"
  | .invalidShards => ascii "shard count must be power of two and >= 1"
  | .unknownPolicy => ascii "unknown eviction policy"
  | .unknownRehasher => ascii "unknown rehasher"
  | .rehashInProgress => ascii "rehash already in progress"

def parseFunctionText : ParseFunction → Bytes
  | .parseInt => ascii "ParseInt"
  | .parseFloat => ascii "ParseFloat"

def reasonText : Strconv.NumError → Bytes
  | .invalidSyntax => ascii "invalid syntax"
  | .valueOutOfRange => ascii "value out of range"

def commandErrorText (prims : Strconv.Primitives) : CommandError → Bytes
  | .cache e => errorText e
  | .number function text reason =>
    ascii "strconv." ++ parseFunctionText function ++ ascii ": parsing " ++
      prims.quote text ++ ascii ": " ++ reasonText reason

def invalidCommandText : Bytes := ascii "invalid command"

end MCache.Net
