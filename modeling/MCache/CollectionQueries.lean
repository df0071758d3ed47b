import MCache.KeyManagement
import MCache.Strconv

/-!
# Commands on collections

The commands of the cache on sets, hashes and lists under the names and with
the results of `cache.go` and `cache_ext.go`: the writing ones on top of
`Cache.collection`, the increments, and the reading ones.  A reading command
has a result only.

What a command draws or leaves to the iteration order of a map is an argument:
a `KeyOrder`, the position that `SPop` draws, the `Draws` of `SRandMember`.
-/

namespace MCache.Store

inductive ParseFunction where
  | parseInt
  | parseFloat
  deriving DecidableEq

inductive CommandError where
  | cache (e : CacheError)
  | number (function : ParseFunction) (text : Bytes) (reason : Strconv.NumError)
  deriving DecidableEq

namespace Reply

def toInt : Reply → Except CacheError ℤ
  | .int n => .ok n
  | _ => .ok 0

def toBool : Reply → Except CacheError Bool
  | .bool b => .ok b
  | _ => .ok false

def toElem : Reply → Except CacheError Bytes
  | .elem (some e) => .ok e
  | _ => .error .keyNotFound

def toUnit : Reply → Except CacheError Unit
  | _ => .ok ()

def toFound : Reply → Except CacheError Unit
  | .bool true => .ok ()
  | _ => .error .keyNotFound

end Reply

namespace Cache

def collectionAs {α : Type} (c : Cache) (read : Reply → Except CacheError α)
    (key : Bytes) (cmd : CollectionCommand) : Cache × Except CacheError α :=
  ((c.collection key cmd).1, (c.collection key cmd).2.bind read)

def sAdd (c : Cache) (key : Bytes) (elems : List Bytes) :=
  c.collectionAs Reply.toInt key (.sAdd elems)

def sRem (c : Cache) (key : Bytes) (elems : List Bytes) :=
  c.collectionAs Reply.toInt key (.sRem elems)

def sPop (c : Cache) (choice : ℕ) (key : Bytes) := c.collectionAs Reply.toElem key (.sPop choice)

def hSet (c : Cache) (key field value : Bytes) := c.collectionAs Reply.toInt key (.hSet field value)

def hSetNX (c : Cache) (key field value : Bytes) :=
  c.collectionAs Reply.toBool key (.hSetNX field value)

def hDel (c : Cache) (key : Bytes) (fields : List Bytes) :=
  c.collectionAs Reply.toInt key (.hDel fields)

def hmSet (c : Cache) (key : Bytes) (fvPairs : List Bytes) :=
  c.collectionAs Reply.toUnit key (.hmSet fvPairs)

def lPush (c : Cache) (key : Bytes) (elems : List Bytes) :=
  c.collectionAs Reply.toInt key (.lPush elems)

def rPush (c : Cache) (key : Bytes) (elems : List Bytes) :=
  c.collectionAs Reply.toInt key (.rPush elems)

def lPop (c : Cache) (key : Bytes) := c.collectionAs Reply.toElem key .lPop

def rPop (c : Cache) (key : Bytes) := c.collectionAs Reply.toElem key .rPop

def lSet (c : Cache) (key : Bytes) (index : ℤ) (value : Bytes) :=
  c.collectionAs Reply.toFound key (.lSet index value)

def lRem (c : Cache) (key : Bytes) (count : ℤ) (value : Bytes) :=
  c.collectionAs Reply.toInt key (.lRem count value)

def lTrim (c : Cache) (key : Bytes) (start stop : ℤ) :=
  c.collectionAs Reply.toUnit key (.lTrim start stop)

def lInsert (c : Cache) (key : Bytes) (before : Bool) (pivot value : Bytes) :=
  c.collectionAs Reply.toInt key (.lInsert before pivot value)

end Cache

namespace Collections

def increment {α : Type} (c : Collections) (key field : Bytes)
    (function : ParseFunction) (parse : Bytes → Except Strconv.NumError α)
    (add : α → α) (delta : α) (format : α → Bytes) :
    Collections × Except CommandError α :=
  match ((c.hashes.lookup key).getD ∅).lookup field with
  | none => (c.run key (.hSet field (format delta)), .ok delta)
  | some text =>
    match parse text with
    | .error reason => (c, .error (.number function text reason))
    | .ok n => (c.run key (.hSet field (format (add n))), .ok (add n))

def hIncrBy (c : Collections) (key field : Bytes) (delta : ℤ) :
    Collections × Except CommandError ℤ :=
  c.increment key field .parseInt Strconv.parseInt
    (fun n => int64 (n + delta)) delta Strconv.formatInt

def hIncrByFloat (prims : Strconv.Primitives) (c : Collections)
    (key field : Bytes) (delta : UInt64) :
    Collections × Except CommandError UInt64 :=
  c.increment key field .parseFloat prims.parseFloat
    (fun n => prims.addFloat n delta) delta prims.formatFloat

end Collections

def CommandError.join {α : Type} : Except CacheError (Except CommandError α) → Except CommandError α
  | .error e => .error (.cache e)
  | .ok result => result

namespace Cache

def incremented {α : Type} (c : Cache) (key : Bytes)
    (f : Collections → Collections × Except CommandError α) :
    Cache × Except CommandError α :=
  let result := c.onShard key fun s =>
    ({ s with collections := (f s.collections).1 }, (f s.collections).2)
  (result.1, CommandError.join result.2)

def hIncrBy (c : Cache) (key field : Bytes) (delta : ℤ) : Cache × Except CommandError ℤ :=
  c.incremented key fun collections => collections.hIncrBy key field delta

def hIncrByFloat (prims : Strconv.Primitives) (c : Cache) (key field : Bytes)
    (delta : UInt64) : Cache × Except CommandError UInt64 :=
  c.incremented key fun collections =>
    collections.hIncrByFloat prims key field delta

end Cache

structure Draws where
  shuffle : KeyOrder
  position : ℕ → ℕ

def setRandMember (draws : Draws) (s : List Bytes) (count : ℤ) : List Bytes :=
  if 0 ≤ count then (draws.shuffle.arrange s).take count.toNat
  else
    (List.range (-count).toNat).filterMap fun i =>
      s[draws.position i % s.length]?

def setUnion (sets : List (List Bytes)) : List Bytes := sets.foldl setAdd []

def smallest : List Bytes → List (List Bytes) → List Bytes
  | least, [] => least
  | least, s :: rest => smallest (if s.length < least.length then s else least) rest

def setInter : List (List Bytes) → List Bytes
  | [] => []
  | s :: rest =>
    (smallest s rest).filter fun e => decide (∀ other ∈ s :: rest, e ∈ other)

def setDiff : List (List Bytes) → List Bytes
  | [] => []
  | s :: rest => s.filter fun e => decide (∀ other ∈ rest, e ∉ other)

namespace Cache

def sIsMember (c : Cache) (key elem : Bytes) : Except CacheError Bool :=
  c.readShard key fun s => decide (elem ∈ s.collections.sMembers key)

def sCard (c : Cache) (key : Bytes) : Except CacheError ℤ :=
  c.readShard key fun s => ((s.collections.sMembers key).length : ℤ)

def sRandMember (c : Cache) (draws : Draws) (key : Bytes) (count : ℤ) :
    Except CacheError (List Bytes) :=
  c.readShard key fun s => setRandMember draws (s.collections.sMembers key) count

def findSet (c : Cache) (key : Bytes) : Option (List Bytes) :=
  (List.finRange (2 ^ c.table.bits)).findSome? fun i =>
    (c.table.shards i).collections.sets.lookup key

def sUnion (c : Cache) (keys : List Bytes) : Except CacheError (List Bytes) :=
  if c.closed then .error .cacheClosed
  else .ok (setUnion (keys.filterMap c.findSet))

def sInter (c : Cache) (keys : List Bytes) : Except CacheError (List Bytes) :=
  if c.closed then .error .cacheClosed
  else .ok (((keys.mapM c.findSet).map setInter).getD [])

def sDiff (c : Cache) (keys : List Bytes) : Except CacheError (List Bytes) :=
  if c.closed then .error .cacheClosed
  else .ok (setDiff (keys.map fun key => (c.findSet key).getD []))

def hGet (c : Cache) (key field : Bytes) : Except CacheError Bytes :=
  orNotFound (c.readShard key fun s =>
    (s.collections.hGetAll key).bind fun h => h.lookup field)

def hExists (c : Cache) (key field : Bytes) : Except CacheError Bool :=
  c.readShard key fun s => decide (field ∈ (s.collections.hGetAll key).getD ∅)

def hKeys (c : Cache) (order : KeyOrder) (key : Bytes) : Except CacheError (List Bytes) :=
  orNotFound (c.readShard key fun s =>
    (s.collections.hGetAll key).map fun h => order.arrange h.keys)

def hVals (c : Cache) (order : KeyOrder) (key : Bytes) : Except CacheError (List Bytes) :=
  orNotFound (c.readShard key fun s =>
    (s.collections.hGetAll key).map fun h =>
      (order.arrange h.keys).filterMap h.lookup)

def hLen (c : Cache) (key : Bytes) : Except CacheError ℤ := c.readShard key fun s =>
    (((s.collections.hGetAll key).getD ∅).keys.length : ℤ)

def hStrLen (c : Cache) (key field : Bytes) : Except CacheError ℤ := c.readShard key fun s =>
    (((((s.collections.hGetAll key).getD ∅).lookup field).getD []).length : ℤ)

def hmGet (c : Cache) (key : Bytes) (fields : List Bytes) :
    Except CacheError (List (Option Bytes)) :=
  c.readShard key fun s =>
    fields.map fun field => ((s.collections.hGetAll key).getD ∅).lookup field

end Cache

def listLIndex (l : List Bytes) (index : ℤ) : Option Bytes :=
  let index := if index < 0 then l.length + index else index
  if index < 0 then none else l[index.toNat]?

def posLoop (value : Bytes) (rank count maxLen : ℤ) : ℤ → ℤ → List ℤ → List Bytes → List ℤ
  | _, _, positions, [] => positions
  | i, found, positions, e :: rest =>
    if maxLen ≤ i then positions
    else if count ≠ 0 ∧ count ≤ positions.length then positions
    else if e = value then
      posLoop value rank count maxLen (i + 1) (found + 1)
        (if rank ≤ found + 1 then positions ++ [i] else positions) rest
    else posLoop value rank count maxLen (i + 1) found positions rest

def listLPos (l : List Bytes) (value : Bytes) (rank count maxLen : ℤ) : List ℤ :=
  posLoop value rank (if count < 0 then 1 else count)
    (if maxLen = 0 ∨ l.length < maxLen then l.length else maxLen) 0 0 [] l

namespace Cache

def lLen (c : Cache) (key : Bytes) : Except CacheError ℤ :=
  c.readShard key fun s => (((s.collections.lists.lookup key).getD []).length : ℤ)

def lIndex (c : Cache) (key : Bytes) (index : ℤ) : Except CacheError Bytes :=
  orNotFound (c.readShard key fun s =>
    (s.collections.lists.lookup key).bind fun l => listLIndex l index)

def lPos (c : Cache) (key value : Bytes) (rank count maxLen : ℤ) : Except CacheError (List ℤ) :=
  c.readShard key fun s =>
    ((s.collections.lists.lookup key).map fun l =>
      listLPos l value rank count maxLen).getD []

end Cache

end MCache.Store
