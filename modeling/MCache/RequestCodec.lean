import MCache.GoSlices
import MCache.WireMessages

/-!
# Requests on the wire

How the client of `net/` writes its requests and how the server reads them:
`Request.EncodePayload`, the `Encode…Request` functions of the three extensions
and their decoders.  A decoder gets a slice of a recycled buffer, so the bytes
behind its length are those of an earlier use.
-/

namespace MCache.Net

open MCache.Store

def uint16 (n : ℕ) : ℕ := n % 2 ^ 16

theorem uint16_le (n : ℕ) : uint16 n ≤ n := Nat.mod_le _ _

def uint32 (x : ℤ) : ℕ := (x % 2 ^ 32).toNat

def int32 (n : ℕ) : ℤ := Int.bmod n (2 ^ 32)

theorem uint64_lt (x : ℤ) : uint64 x < 256 ^ 8 := by
  unfold uint64
  have hmod := Int.emod_lt_of_pos x (show (0 : ℤ) < 2 ^ 64 by norm_num)
  norm_num at hmod ⊢
  omega

theorem int64_uint64 (x : ℤ) : int64 (uint64 x) = int64 x := by
  have hcast : ((uint64 x : ℕ) : ℤ) = x % 2 ^ 64 :=
    Int.toNat_of_nonneg (Int.emod_nonneg x (by norm_num))
  rw [hcast, int64, int64]
  have hmod := Int.emod_bmod x (2 ^ 64)
  norm_num at hmod ⊢
  exact hmod

def Request.encodePayload (req : Request) : Bytes :=
  let value := req.value.getD []
  req.cmd :: (bigEndian 2 req.key.length ++ bigEndian 4 value.length ++
    bigEndian 8 (uint64 req.ttl) ++ req.key ++ value)

def decodeRequestPayload (p : Slice) : Go Request := do
  ensure (15 ≤ p.len) (ascii "request payload too short")
  let cmd ← p.byte 0
  let keyLen ← p.uint 2 1
  let valLen ← p.uint 4 3
  let ttl ← p.uint 8 7
  -- The length check stands inside the branch for a key.
  ensure (0 < keyLen → 15 + keyLen + valLen ≤ p.len) (ascii "request payload truncated")
  let key ← (if 0 < keyLen then p.text 15 (15 + keyLen) else .ok [] : Go Bytes)
  let value ← (if 0 < valLen then
      (p.text (15 + keyLen) (15 + keyLen + valLen)).map some
    else .ok none : Go (Option Bytes))
  return ⟨cmd, key, value, int64 ttl⟩

def encodeSetRequest (req : SetRequest) : Option Bytes :=
  match Cmd.ofCode? req.cmd with
  | some .sMembers | some .sCard | some .sPop =>
    some (req.cmd :: sized 2 req.key)
  | some .sAdd | some .sRem =>
    some (req.cmd :: (bigEndian 2 req.key.length ++
      bigEndian 4 req.elems.length ++ req.key ++ req.elems.flatMap (sized 4)))
  | some .sIsMember =>
    let elem := req.elems.head?.getD []
    some (req.cmd :: (bigEndian 2 req.key.length ++ bigEndian 4 elem.length ++ req.key ++ elem))
  | some .sRandMember =>
    some (req.cmd :: (bigEndian 2 req.key.length ++ bigEndian 4 (uint32 req.count) ++ req.key))
  | some .sUnion | some .sInter | some .sDiff =>
    some (req.cmd :: (bigEndian 2 req.keys.length ++ req.keys.flatMap (sized 2)))
  | _ => none

def decodeSetRequest (p : Slice) : Go SetRequest := do
  let tooShort := ascii "set request payload too short"
  let truncated := ascii "set request payload truncated"
  ensure (3 ≤ p.len) tooShort
  let cmd ← p.byte 0
  let keyLen ← p.uint 2 1
  let req : SetRequest := ⟨cmd, [], [], 0, []⟩
  match Cmd.ofCode? cmd with
  | some .sMembers | some .sCard | some .sPop => do
      ensure (3 + keyLen ≤ p.len) truncated
      let key ← p.text 3 (uint16 (3 + keyLen))
      return { req with key := key }
  | some .sAdd | some .sRem => do
      ensure (7 ≤ p.len) tooShort
      let elemCount ← p.uint 4 3
      let key ← p.text 7 (uint16 (7 + keyLen))
      let elems ← p.texts 4 truncated elemCount (7 + keyLen)
      return { req with key := key, elems := elems }
  | some .sIsMember => do
      ensure (7 ≤ p.len) tooShort
      let elemLen ← p.uint 4 3
      ensure (7 + keyLen + elemLen ≤ p.len) truncated
      let key ← p.text 7 (uint16 (7 + keyLen))
      let elem ← p.text (7 + keyLen) (7 + keyLen + elemLen)
      return { req with key := key, elems := [elem] }
  | some .sRandMember => do
      ensure (7 ≤ p.len) tooShort
      let count ← p.uint 4 3
      ensure (7 + keyLen ≤ p.len) truncated
      let key ← p.text 7 (uint16 (7 + keyLen))
      return { req with key := key, count := int32 count }
  | some .sUnion | some .sInter | some .sDiff => do
      let numKeys ← p.uint 2 1
      let keys ← p.texts 2 truncated numKeys 3
      return { req with keys := keys }
  | _ => .error (.error invalidCommandText)

def evenPart : List Bytes → List Bytes
  | field :: value :: rest => field :: value :: evenPart rest
  | _ => []

def encodeHashRequest (req : HashRequest) : Option Bytes :=
  let keyLen := bigEndian 2 req.key.length
  let fieldLen := bigEndian 2 req.field.length
  match Cmd.ofCode? req.cmd with
  | some .hGetAll | some .hKeys | some .hVals | some .hLen =>
    some (req.cmd :: (keyLen ++ req.key))
  | some .hGet | some .hExists | some .hStrLen =>
    some (req.cmd :: (keyLen ++ fieldLen ++ req.key ++ req.field))
  | some .hSet | some .hSetNX =>
    some (req.cmd :: (keyLen ++ fieldLen ++ bigEndian 4 req.value.length ++
      req.key ++ req.field ++ req.value))
  | some .hDel | some .hmGet =>
    some (req.cmd :: (keyLen ++ bigEndian 2 req.fields.length ++ req.key ++
      req.fields.flatMap (sized 2)))
  | some .hIncrBy =>
    some (req.cmd :: (keyLen ++ fieldLen ++
      bigEndian 8 (uint64 req.deltaI64) ++ req.key ++ req.field))
  | some .hIncrByFloat =>
    some (req.cmd :: (keyLen ++ fieldLen ++ bigEndian 8 req.deltaF64.toNat ++ req.key ++ req.field))
  | some .hmSet =>
    some (req.cmd :: (keyLen ++ bigEndian 2 (req.fvPairs.length / 2) ++
      req.key ++ (evenPart req.fvPairs).flatMap (sized 2)))
  | _ => none

def decodeHashRequest (p : Slice) : Go HashRequest := do
  let tooShort := ascii "hash request payload too short"
  let truncated := ascii "hash request payload truncated"
  ensure (3 ≤ p.len) tooShort
  let cmd ← p.byte 0
  let keyLen ← p.uint 2 1
  let req : HashRequest := ⟨cmd, [], [], [], [], [], 0, 0⟩
  match Cmd.ofCode? cmd with
  | some .hGetAll | some .hKeys | some .hVals | some .hLen => do
      ensure (3 + keyLen ≤ p.len) truncated
      let key ← p.text 3 (3 + keyLen)
      return { req with key := key }
  | some .hGet | some .hExists | some .hStrLen => do
      ensure (5 ≤ p.len) tooShort
      let fieldLen ← p.uint 2 3
      ensure (5 + keyLen + fieldLen ≤ p.len) truncated
      let key ← p.text 5 (5 + keyLen)
      let field ← p.text (5 + keyLen) (5 + keyLen + fieldLen)
      return { req with key := key, field := field }
  | some .hSet | some .hSetNX => do
      ensure (9 ≤ p.len) tooShort
      let fieldLen ← p.uint 2 3
      let valueLen ← p.uint 4 5
      ensure (9 + keyLen + fieldLen + valueLen ≤ p.len) truncated
      let key ← p.text 9 (9 + keyLen)
      let field ← p.text (9 + keyLen) (9 + keyLen + fieldLen)
      let value ← p.text (9 + keyLen + fieldLen) (9 + keyLen + fieldLen + valueLen)
      return { req with key := key, field := field, value := value }
  | some .hDel | some .hmGet => do
      ensure (5 ≤ p.len) tooShort
      let numFields ← p.uint 2 3
      ensure (5 + keyLen ≤ p.len) truncated
      let key ← p.text 5 (5 + keyLen)
      let fields ← p.texts 2 truncated numFields (5 + keyLen)
      return { req with key := key, fields := fields }
  | some .hIncrBy => do
      ensure (13 ≤ p.len) tooShort
      let fieldLen ← p.uint 2 3
      let delta ← p.uint 8 5
      ensure (13 + keyLen + fieldLen ≤ p.len) truncated
      let key ← p.text 13 (13 + keyLen)
      let field ← p.text (13 + keyLen) (13 + keyLen + fieldLen)
      return { req with key := key, field := field, deltaI64 := int64 delta }
  | some .hIncrByFloat => do
      ensure (13 ≤ p.len) tooShort
      let fieldLen ← p.uint 2 3
      let delta ← p.uint 8 5
      ensure (13 + keyLen + fieldLen ≤ p.len) truncated
      let key ← p.text 13 (13 + keyLen)
      let field ← p.text (13 + keyLen) (13 + keyLen + fieldLen)
      return { req with
        key := key, field := field, deltaF64 := UInt64.ofNat delta }
  | some .hmSet => do
      ensure (5 ≤ p.len) tooShort
      let numPairs ← p.uint 2 3
      ensure (5 + keyLen ≤ p.len) truncated
      let key ← p.text 5 (5 + keyLen)
      let fvPairs ← p.texts 2 truncated (2 * numPairs) (5 + keyLen)
      return { req with key := key, fvPairs := fvPairs }
  | _ => .error (.error invalidCommandText)

def encodeListRequest (req : ListRequest) : Option Bytes :=
  let keyLen := bigEndian 2 req.key.length
  let valueLen := bigEndian 4 req.value.length
  let int := fun x => bigEndian 8 (uint64 x)
  match Cmd.ofCode? req.cmd with
  | some .lPop | some .rPop | some .lLen =>
    some (req.cmd :: (keyLen ++ req.key))
  | some .lPush | some .rPush =>
    some (req.cmd :: (keyLen ++ bigEndian 4 req.elements.length ++ req.key ++
      req.elements.flatMap (sized 2)))
  | some .lRange | some .lTrim =>
    some (req.cmd :: (keyLen ++ int req.start ++ int req.stop ++ req.key))
  | some .lIndex => some (req.cmd :: (keyLen ++ int req.index ++ req.key))
  | some .lSet =>
    some (req.cmd :: (keyLen ++ int req.index ++ valueLen ++ req.key ++ req.value))
  | some .lRem =>
    some (req.cmd :: (keyLen ++ int req.count ++ valueLen ++ req.key ++ req.value))
  | some .lInsert =>
    some (req.cmd :: (keyLen ++ [boolByte req.before] ++
      bigEndian 2 req.pivot.length ++ valueLen ++ req.key ++ req.pivot ++
      req.value))
  | some .blPop | some .brPop =>
    some (req.cmd :: (keyLen ++ int req.timeout ++ req.key))
  | some .lPos =>
    some (req.cmd :: (keyLen ++ int req.rank ++ int req.count ++
      int req.maxLen ++ valueLen ++ req.key ++ req.value))
  | _ => none

def decodeListRequest (p : Slice) : Go ListRequest := do
  let tooShort := ascii "list request payload too short"
  let truncated := ascii "list request payload truncated"
  ensure (3 ≤ p.len) tooShort
  let cmd ← p.byte 0
  let keyLen ← p.uint 2 1
  let req : ListRequest := ⟨cmd, [], [], [], 0, 0, 0, 0, [], false, 0, 0, 0⟩
  match Cmd.ofCode? cmd with
  | some .lPop | some .rPop | some .lLen => do
      ensure (3 + keyLen ≤ p.len) truncated
      let key ← p.text 3 (3 + keyLen)
      return { req with key := key }
  | some .lPush | some .rPush => do
      ensure (7 ≤ p.len) tooShort
      let numElems ← p.uint 4 3
      ensure (7 + keyLen ≤ p.len) truncated
      let key ← p.text 7 (7 + keyLen)
      let elements ← p.texts 2 truncated numElems (7 + keyLen)
      return { req with key := key, elements := elements }
  | some .lRange | some .lTrim => do
      ensure (19 ≤ p.len) tooShort
      let start ← p.uint 8 3
      let stop ← p.uint 8 11
      ensure (19 + keyLen ≤ p.len) truncated
      let key ← p.text 19 (19 + keyLen)
      return { req with key := key, start := int64 start, stop := int64 stop }
  | some .lIndex => do
      ensure (11 ≤ p.len) tooShort
      let index ← p.uint 8 3
      ensure (11 + keyLen ≤ p.len) truncated
      let key ← p.text 11 (11 + keyLen)
      return { req with key := key, index := int64 index }
  | some .lSet => do
      ensure (15 ≤ p.len) tooShort
      let index ← p.uint 8 3
      let valueLen ← p.uint 4 11
      ensure (15 + keyLen + valueLen ≤ p.len) truncated
      let key ← p.text 15 (15 + keyLen)
      let value ← p.text (15 + keyLen) (15 + keyLen + valueLen)
      return { req with key := key, value := value, index := int64 index }
  | some .lRem => do
      ensure (15 ≤ p.len) tooShort
      let count ← p.uint 8 3
      let valueLen ← p.uint 4 11
      ensure (15 + keyLen + valueLen ≤ p.len) truncated
      let key ← p.text 15 (15 + keyLen)
      let value ← p.text (15 + keyLen) (15 + keyLen + valueLen)
      return { req with key := key, value := value, count := int64 count }
  | some .lInsert => do
      ensure (10 ≤ p.len) tooShort
      let before ← p.byte 3
      let pivotLen ← p.uint 2 4
      let valueLen ← p.uint 4 6
      ensure (10 + keyLen + pivotLen + valueLen ≤ p.len) truncated
      let key ← p.text 10 (10 + keyLen)
      let pivot ← p.text (10 + keyLen) (10 + keyLen + pivotLen)
      let value ← p.text (10 + keyLen + pivotLen) (10 + keyLen + pivotLen + valueLen)
      return { req with
        key := key, pivot := pivot, value := value
        before := decide (before ≠ 0) }
  | some .blPop | some .brPop => do
      ensure (11 ≤ p.len) tooShort
      let timeout ← p.uint 8 3
      ensure (11 + keyLen ≤ p.len) truncated
      let key ← p.text 11 (11 + keyLen)
      return { req with key := key, timeout := int64 timeout }
  | some .lPos => do
      ensure (31 ≤ p.len) tooShort
      let rank ← p.uint 8 3
      let count ← p.uint 8 11
      let maxLen ← p.uint 8 19
      let valueLen ← p.uint 4 27
      ensure (31 + keyLen + valueLen ≤ p.len) truncated
      let key ← p.text 31 (31 + keyLen)
      let value ← p.text (31 + keyLen) (31 + keyLen + valueLen)
      return { req with
        key := key, value := value
        rank := int64 rank, count := int64 count, maxLen := int64 maxLen }
  | _ => .error (.error invalidCommandText)

end MCache.Net
