import MCache.GoValues
import Mathlib.Data.List.AList

/-!
# Sets, hashes and lists

The three stores of a shard for collections and the commands on one key.
Every command looks at the value of its key in one of the stores, and leaves a
value, or none, in its place; `alter` is that pattern.  The order of the
elements of a set is the one in which they were added; the source leaves it
open.
-/

namespace MCache.Store

section Alter

variable {K V : Type} [DecidableEq K]

def alter (m : AList fun _ : K => V) (key : K) (f : Option V → Option V) : AList fun _ : K => V :=
  match f (m.lookup key) with
  | none => m.erase key
  | some value => m.insert key value

theorem alter_lookup (m : AList fun _ : K => V) (key : K) (f : Option V → Option V) :
    (alter m key f).lookup key = f (m.lookup key) := by
  unfold alter
  split
  case h_1 h => rw [h, AList.lookup_erase]
  case h_2 h => rw [h, AList.lookup_insert]

theorem alter_lookup_ne (m : AList fun _ : K => V) {key other : K}
    (hne : other ≠ key) (f : Option V → Option V) :
    (alter m key f).lookup other = m.lookup other := by
  unfold alter
  split
  · exact AList.lookup_erase_ne hne
  · exact AList.lookup_insert_ne hne

end Alter

/-! ## Values -/

abbrev HashValue := AList fun _ : Bytes => Bytes

def setAdd (s : List Bytes) (elems : List Bytes) : List Bytes :=
  elems.foldl (fun s e => if e ∈ s then s else s ++ [e]) s

def setRem (s : List Bytes) (elems : List Bytes) : List Bytes :=
  elems.foldl (fun s e => s.erase e) s

def hashMSet (h : HashValue) : List Bytes → HashValue
  | field :: value :: rest => hashMSet (h.insert field value) rest
  | _ => h

def hashDel (h : HashValue) (fields : List Bytes) : HashValue :=
  fields.foldl (fun h field => h.erase field) h

def listLPush (l : List Bytes) (elems : List Bytes) : List Bytes :=
  elems.foldl (fun l e => e :: l) l

def listLSet (l : List Bytes) (index : ℤ) (value : Bytes) : Option (List Bytes) :=
  let index := if index < 0 then l.length + index else index
  if index < 0 ∨ (l.length : ℤ) ≤ index then none
  else some (l.set index.toNat value)

def removeFirst : ℕ → Bytes → List Bytes → List Bytes
  | 0, _, l => l
  | _, _, [] => []
  | count + 1, value, e :: rest =>
    if e = value then removeFirst count value rest
    else e :: removeFirst (count + 1) value rest

def listLRem (l : List Bytes) (count : ℤ) (value : Bytes) : List Bytes :=
  if 0 ≤ count then
    removeFirst (if count = 0 then l.length else count.toNat) value l
  else (removeFirst (int64 (-count)).toNat value l.reverse).reverse

def normalizeRange (start stop : ℤ) (n : ℕ) : ℤ × ℤ :=
  let start := if start < 0 then n + start else start
  let stop := if stop < 0 then n + stop else stop
  (if start < 0 then 0 else start, if (n : ℤ) ≤ stop then n - 1 else stop)

def listLRange (l : List Bytes) (start stop : ℤ) : Option (List Bytes) :=
  if l.length = 0 then none
  else
    let range := normalizeRange start stop l.length
    if range.2 < range.1 then none
    else some ((l.drop range.1.toNat).take (range.2 - range.1 + 1).toNat)

def listLTrim (l : List Bytes) (start stop : ℤ) : List Bytes := (listLRange l start stop).getD []

def listLInsert (before : Bool) (pivot value : Bytes) : List Bytes → Option (List Bytes)
  | [] => none
  | e :: rest =>
    if e = pivot then
      some (if before then value :: e :: rest else e :: value :: rest)
    else (listLInsert before pivot value rest).map (e :: ·)

/-! ## Commands -/

structure Collections where
  sets : AList fun _ : Bytes => List Bytes
  hashes : AList fun _ : Bytes => HashValue
  lists : AList fun _ : Bytes => List Bytes

def Collections.empty : Collections := ⟨∅, ∅, ∅⟩

inductive CollectionCommand where
  | sAdd (elems : List Bytes)
  | sRem (elems : List Bytes)
  | sPop (choice : ℕ)
  | hSet (field value : Bytes)
  | hSetNX (field value : Bytes)
  | hDel (fields : List Bytes)
  | hmSet (fvPairs : List Bytes)
  | lPush (elems : List Bytes)
  | rPush (elems : List Bytes)
  | lPop
  | rPop
  | lSet (index : ℤ) (value : Bytes)
  | lRem (count : ℤ) (value : Bytes)
  | lTrim (start stop : ℤ)
  | lInsert (before : Bool) (pivot value : Bytes)
  deriving DecidableEq

inductive Reply where
  | int (n : ℤ)
  | bool (b : Bool)
  | elem (e : Option Bytes)
  | done
  deriving DecidableEq

def unlessNil (l : List Bytes) : Option (List Bytes) :=
  if l = [] then none else some l

namespace Collections

def alterSet (c : Collections) (key : Bytes)
    (f : Option (List Bytes) → Option (List Bytes)) : Collections :=
  { c with sets := alter c.sets key f }

def alterHash (c : Collections) (key : Bytes)
    (f : Option HashValue → Option HashValue) : Collections :=
  { c with hashes := alter c.hashes key f }

def alterList (c : Collections) (key : Bytes)
    (f : Option (List Bytes) → Option (List Bytes)) : Collections :=
  { c with lists := alter c.lists key f }

def run (c : Collections) (key : Bytes) : CollectionCommand → Collections
  | .sAdd elems => c.alterSet key fun s => some (setAdd (s.getD []) elems)
  | .sRem elems => c.alterSet key fun s => s.bind fun s => unlessNil (setRem s elems)
  | .sPop choice =>
    c.alterSet key fun s => s.bind fun s =>
      if s = [] then some s else unlessNil (s.eraseIdx (choice % s.length))
  | .hSet field value =>
    c.alterHash key fun h => some ((h.getD ∅).insert field value)
  | .hSetNX field value =>
    c.alterHash key fun h =>
      let h := h.getD ∅
      some (if field ∈ h then h else h.insert field value)
  | .hDel fields =>
    c.alterHash key fun h => h.bind fun h =>
      let h := hashDel h fields
      if h.keys = [] then none else some h
  | .hmSet fvPairs => c.alterHash key fun h => some (hashMSet (h.getD ∅) fvPairs)
  | .lPush elems => c.alterList key fun l => some (listLPush (l.getD []) elems)
  | .rPush elems => c.alterList key fun l => some (l.getD [] ++ elems)
  | .lPop =>
    c.alterList key fun l => l.bind fun l =>
      if l = [] then some l else unlessNil l.tail
  | .rPop =>
    c.alterList key fun l => l.bind fun l =>
      if l = [] then some l else unlessNil l.dropLast
  | .lSet index value =>
    c.alterList key fun l => l.map fun l => (listLSet l index value).getD l
  | .lRem count value =>
    c.alterList key fun l => l.bind fun l => unlessNil (listLRem l count value)
  | .lTrim start stop =>
    c.alterList key fun l => l.bind fun l => unlessNil (listLTrim l start stop)
  | .lInsert before pivot value =>
    c.alterList key fun l => l.map fun l =>
      (listLInsert before pivot value l).getD l

def reply (c : Collections) (key : Bytes) : CollectionCommand → Reply
  | .sAdd elems =>
    let s := (c.sets.lookup key).getD []
    .int ((setAdd s elems).length - s.length)
  | .sRem elems =>
    let s := (c.sets.lookup key).getD []
    .int (s.length - (setRem s elems).length)
  | .sPop choice =>
    .elem ((c.sets.lookup key).bind fun s => s[choice % s.length]?)
  | .hSet field _ =>
    .int (if field ∈ (c.hashes.lookup key).getD ∅ then 0 else 1)
  | .hSetNX field _ =>
    .bool (decide (field ∉ (c.hashes.lookup key).getD ∅))
  | .hDel fields =>
    let h := (c.hashes.lookup key).getD ∅
    .int (h.keys.length - (hashDel h fields).keys.length)
  | .hmSet _ => .done
  | .lPush elems | .rPush elems =>
    .int (((c.lists.lookup key).getD []).length + elems.length)
  | .lPop => .elem ((c.lists.lookup key).bind List.head?)
  | .rPop => .elem ((c.lists.lookup key).bind List.getLast?)
  | .lSet index value =>
    .bool ((c.lists.lookup key).bind fun l => listLSet l index value).isSome
  | .lRem count value =>
    let l := (c.lists.lookup key).getD []
    .int (l.length - (listLRem l count value).length)
  | .lTrim _ _ => .done
  | .lInsert before pivot value =>
    match c.lists.lookup key with
    | none => .int 0
    | some l =>
      match listLInsert before pivot value l with
      | none => .int (-1)
      | some l => .int l.length

def del (c : Collections) (key : Bytes) : Collections where
  sets := c.sets.erase key
  hashes := c.hashes.erase key
  lists := c.lists.erase key

def sMembers (c : Collections) (key : Bytes) : List Bytes := (c.sets.lookup key).getD []

def hGetAll (c : Collections) (key : Bytes) : Option HashValue := c.hashes.lookup key

def lRange (c : Collections) (key : Bytes) (start stop : ℤ) : Option (List Bytes) :=
  (c.lists.lookup key).bind fun l => listLRange l start stop

/-! ## Frames -/

def content (c : Collections) (key : Bytes) :
    Option (List Bytes) × Option HashValue × Option (List Bytes) :=
  (c.sets.lookup key, c.hashes.lookup key, c.lists.lookup key)

theorem content_run_ne (c : Collections) {key other : Bytes}
    (hne : other ≠ key) (cmd : CollectionCommand) :
    (c.run key cmd).content other = c.content other := by
  cases cmd <;>
    simp only [run, alterSet, alterHash, alterList, content, alter_lookup_ne _ hne]

theorem content_del_ne (c : Collections) {key other : Bytes}
    (hne : other ≠ key) : (c.del key).content other = c.content other := by
  simp only [del, content, AList.lookup_erase_ne hne]

end Collections

end MCache.Store
