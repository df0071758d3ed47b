import MCache.GoSlices
import MCache.WireMessages

/-!
# Responses as the client reads them

The decoders of `net/protocol.go` and `net/protocol_ext.go` for the payloads
that `encodePayload`, `encodeSetResponse`, `encodeHashResponse` and
`encodeListResponse` write.  A list that ends early is cut off where it ends.
-/

namespace MCache

namespace Slice

def tail (p : Slice) : Slice := ⟨p.array.tail, p.len - 1, by
    have := p.len_le
    simp only [List.length_tail]
    omega⟩

def textsWithin (p : Slice) (width : ℕ) : ℕ → ℕ → Go (List Bytes)
  | 0, _ => .ok []
  | count + 1, off =>
    if off + width ≤ p.len then do
      let length ← p.uint width off
      (if off + width + length ≤ p.len then do
        let head ← p.text (off + width) (off + width + length)
        let rest ← p.textsWithin width count (off + width + length)
        return head :: rest
      else .ok [])
    else .ok []

def fieldsWithin (p : Slice) : ℕ → ℕ → Store.HashValue → Go Store.HashValue
  | 0, _, fields => .ok fields
  | count + 1, off, fields =>
    if off + 2 ≤ p.len then do
      let fieldLen ← p.uint 2 off
      let off := off + 2
      (if off + fieldLen + 4 ≤ p.len then do
        let field ← p.text off (off + fieldLen)
        let off := off + fieldLen
        let valueLen ← p.uint 4 off
        let off := off + 4
        (if off + valueLen ≤ p.len then do
          let value ← p.text off (off + valueLen)
          p.fieldsWithin count (off + valueLen) (fields.insert field value)
        else .ok fields)
      else .ok fields)
    else .ok fields

def optionsWithin (p : Slice) : ℕ → ℕ → Go (List (Option Bytes))
  | 0, _ => .ok []
  | count + 1, off =>
    if off < p.len then do
      let hasValue ← p.byte off
      (if hasValue = 0 then do
        let rest ← p.optionsWithin count (off + 1)
        return none :: rest
      else if off + 5 ≤ p.len then do
        let valueLen ← p.uint 4 (off + 1)
        (if off + 5 + valueLen ≤ p.len then do
          let value ← p.text (off + 5) (off + 5 + valueLen)
          let rest ← p.optionsWithin count (off + 5 + valueLen)
          return some value :: rest
        else .ok (List.replicate (count + 1) none))
      else .ok (List.replicate (count + 1) none))
    else .ok (List.replicate (count + 1) none)

def intsWithin (p : Slice) : ℕ → ℕ → Go (List ℤ)
  | 0, _ => .ok []
  | count + 1, off =>
    if off + 8 ≤ p.len then do
      let n ← p.uint 8 off
      let rest ← p.intsWithin count (off + 8)
      return int64 n :: rest
    else .ok []

end Slice

namespace Net

open MCache.Store

def decodeResponsePayload (p : Slice) : Go Response := do
  ensure (7 ≤ p.len) (ascii "response payload too short")
  let status ← p.byte 0
  let valLen ← p.uint 4 1
  let errLen ← p.uint 2 5
  ensure (0 < valLen → 7 + valLen + errLen ≤ p.len) (ascii "response payload truncated")
  let value ← (if 0 < valLen then (p.text 7 (7 + valLen)).map some
    else .ok none : Go (Option Bytes))
  let errMsg ← (if 0 < errLen then
      p.text (7 + valLen) (7 + valLen + errLen)
    else .ok [] : Go Bytes)
  return ⟨status, value, errMsg⟩

def decodeSetResponse (p : Slice) (cmd : UInt8) : Go SetResponse := do
  let tooShort := ascii "set response payload too short"
  ensure (1 ≤ p.len) tooShort
  let status ← p.byte 0
  let resp : SetResponse := { cmd := cmd, status := status }
  if status = statusErr ∧ 1 < p.len then
    return { resp with errMsg := p.content.tail }
  else
    match Cmd.ofCode? cmd with
    | some .sAdd | some .sRem => do
        ensure (9 ≤ p.len) tooShort
        let changed ← p.uint 8 1
        return { resp with changed := changed }
    | some .sIsMember => do
        ensure (2 ≤ p.len) tooShort
        let member ← p.byte 1
        return { resp with isMember := decide (member ≠ 0) }
    | some .sCard => do
        ensure (9 ≤ p.len) tooShort
        let card ← p.uint 8 1
        return { resp with card := card }
    | some .sPop => do
        ensure (3 ≤ p.len) tooShort
        let elemLen ← p.uint 2 1
        -- The end of the element is computed in 16 bits.
        (if 0 < elemLen ∧ 3 + elemLen ≤ p.len then do
          let elem ← p.text 3 ((3 + elemLen) % 2 ^ 16)
          return { resp with elems := [elem] }
        else return resp)
    | some .sRandMember | some .sMembers | some .sUnion | some .sInter
    | some .sDiff => do
        ensure (5 ≤ p.len) tooShort
        let count ← p.uint 4 1
        let elems ← p.textsWithin 2 count 5
        return { resp with elems := elems }
    | _ => return resp

def decodeErrMsg (p : Slice) : Go Bytes :=
  if 3 ≤ p.len then do
    let errLen ← p.uint 2 1
    (if 3 + errLen ≤ p.len then p.text 3 (3 + errLen) else .ok [])
  else .ok []

def decodeHashResponse (p : Slice) (cmd : UInt8) : Go HashResponse := do
  let tooShort := ascii "hash response payload too short"
  ensure (1 ≤ p.len) tooShort
  let status ← p.byte 0
  let resp : HashResponse := { cmd := cmd, status := status }
  if status = statusErr then do
    let errMsg ← decodeErrMsg p
    return { resp with errMsg := errMsg }
  else
    match Cmd.ofCode? cmd with
    | some .hSet | some .hDel | some .hLen | some .hStrLen | some .hIncrBy => do
        ensure (9 ≤ p.len) tooShort
        let n ← p.uint 8 1
        return { resp with intResult := int64 n }
    | some .hExists | some .hSetNX => do
        ensure (2 ≤ p.len) tooShort
        let ok ← p.byte 1
        return { resp with boolResult := decide (ok ≠ 0) }
    | some .hGet => do
        ensure (5 ≤ p.len) tooShort
        let valueLen ← p.uint 4 1
        (if 0 < valueLen ∧ 5 + valueLen ≤ p.len then do
          let value ← p.text 5 (5 + valueLen)
          return { resp with strResult := value }
        else return resp)
    | some .hGetAll => do
        ensure (5 ≤ p.len) tooShort
        let count ← p.uint 4 1
        let fields ← p.fieldsWithin count 5 ∅
        return { resp with mapResult := fields }
    | some .hKeys | some .hVals => do
        ensure (5 ≤ p.len) tooShort
        let count ← p.uint 4 1
        let texts ← p.textsWithin 2 count 5
        return { resp with sliceResult := texts }
    | some .hIncrByFloat => do
        ensure (9 ≤ p.len) tooShort
        let n ← p.uint 8 1
        return { resp with floatResult := UInt64.ofNat n }
    | some .hmGet => do
        ensure (5 ≤ p.len) tooShort
        let count ← p.uint 4 1
        let values ← p.optionsWithin count 5
        return { resp with anySlice := values }
    | _ => return resp

def decodeListResponse (p : Slice) (cmd : UInt8) : Go ListResponse := do
  let tooShort := ascii "list response payload too short"
  ensure (1 ≤ p.len) tooShort
  let status ← p.byte 0
  let resp : ListResponse := { cmd := cmd, status := status }
  if status = statusErr then do
    let errMsg ← decodeErrMsg p
    return { resp with errMsg := errMsg }
  else
    match Cmd.ofCode? cmd with
    | some .lPush | some .rPush | some .lLen | some .lRem | some .lInsert => do
        ensure (9 ≤ p.len) tooShort
        let n ← p.uint 8 1
        return { resp with intResult := int64 n }
    | some .lPop | some .rPop | some .blPop | some .brPop | some .lIndex => do
        ensure (5 ≤ p.len) tooShort
        let valueLen ← p.uint 4 1
        (if 0 < valueLen ∧ 5 + valueLen ≤ p.len then do
          let value ← p.text 5 (5 + valueLen)
          return { resp with strResult := value }
        else return resp)
    | some .lRange => do
        ensure (5 ≤ p.len) tooShort
        let count ← p.uint 4 1
        let texts ← p.textsWithin 2 count 5
        return { resp with sliceResult := texts }
    | some .lSet => do
        ensure (2 ≤ p.len) tooShort
        let ok ← p.byte 1
        return { resp with boolResult := decide (ok ≠ 0) }
    | some .lPos => do
        ensure (5 ≤ p.len) tooShort
        let count ← p.uint 4 1
        let positions ← p.intsWithin count 5
        return { resp with posResult := positions }
    | _ => return resp

end Net

end MCache
