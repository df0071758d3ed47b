import MCache.CollectionQueries
import MCache.Walks

/-!
# The loops of the list operations

The operations of `ds/list/list.go` with the pointers and counters of the
source; an outer `none` is the panic on a nil pointer.  Each of them computes
the function on sequences by which the stores are modelled.  Of the sums in the
source, only `n + index` for a negative index and `-count` are taken modulo
`2 ^ 64`: the others lie between zero and the length.
-/

namespace MCache.Store.LinkedList

def fromFront (index : ℤ) (n : ℕ) : ℤ :=
  if index < 0 then int64 (n + index) else index

def normalizeRange (start stop : ℤ) (n : ℕ) : ℤ × ℤ :=
  let start := fromFront start n
  let stop := fromFront stop n
  (if start < 0 then 0 else start, if (n : ℤ) ≤ stop then n - 1 else stop)

def collectLoop (stop : ℤ) : ℤ → List Bytes → List Bytes → List Bytes
  | _, out, [] => out
  | i, out, e :: rest =>
    if i ≤ stop then collectLoop stop (i + 1) (out ++ [e]) rest else out

def lRange (l : List Bytes) (start stop : ℤ) : Option (Option (List Bytes)) :=
  if l.length = 0 then some none
  else
    let range := normalizeRange start stop l.length
    if range.2 < range.1 then some none
    else
      ((Walk.start l).advance range.1.toNat).map fun e =>
        some (collectLoop range.2 range.1 [] e.left)

def lIndex (l : List Bytes) (index : ℤ) : Option (Option Bytes) :=
  if l.length = 0 then some none
  else
    let index := fromFront index l.length
    if index < 0 ∨ (l.length : ℤ) ≤ index then some none
    else ((Walk.start l).advance index.toNat).bind fun e => e.value.map some

def lSet (l : List Bytes) (index : ℤ) (value : Bytes) : Option (List Bytes × Bool) :=
  let index := fromFront index l.length
  if index < 0 ∨ (l.length : ℤ) ≤ index then some (l, false)
  else
    (((Walk.start l).advance index.toNat).bind (Walk.setValue value)).map fun e =>
      (e.toList, true)

def lRem (l : List Bytes) (count : ℤ) (value : Bytes) : List Bytes × ℤ :=
  if l.length = 0 then (l, 0)
  else if 0 ≤ count then
    let maxRemove := if count = 0 then (l.length : ℤ) else count
    let walk := Walk.removeLoop (· == value) maxRemove 0 [] l
    (walk.2.toList, walk.1)
  else
    let walk := Walk.removeLoop (· == value) (int64 (-count)) 0 [] l.reverse
    (walk.2.toList.reverse, walk.1)

def lTrim (l : List Bytes) (start stop : ℤ) : Option (List Bytes) :=
  if l.length = 0 then some l
  else
    let range := normalizeRange start stop l.length
    if range.2 < range.1 then some []
    else
      (Walk.removals Walk.removeFront range.1.toNat l).bind
        (Walk.removals Walk.removeBack (l.length - (range.2 + 1)).toNat)

def lInsert (before : Bool) (pivot value : Bytes) (l : List Bytes) : List Bytes × ℤ :=
  let e := Walk.find (· == pivot) [] l
  match if before then e.insertBefore value else e.insertAfter value with
  | none => (l, -1)
  | some e => (e.toList, e.toList.length)

section Positions

variable {l : List Bytes}
variable {index start stop : ℤ}

theorem fromFront_eq (hlength : l.length < 2 ^ 63) (hindex : -2 ^ 63 ≤ index) :
    fromFront index l.length = if index < 0 then l.length + index else index := by
  unfold fromFront
  split
  · exact int64_of_bounds (by omega) (by omega)
  · rfl

theorem normalizeRange_eq (hlength : l.length < 2 ^ 63) (hstart : -2 ^ 63 ≤ start)
    (hstop : -2 ^ 63 ≤ stop) :
    normalizeRange start stop l.length = Store.normalizeRange start stop l.length := by
  rw [normalizeRange, fromFront_eq hlength hstart, fromFront_eq hlength hstop]
  rfl

theorem collectLoop_eq (stop i : ℤ) (out left : List Bytes) :
    collectLoop stop i out left = out ++ left.take (stop - i + 1).toNat := by
  induction left generalizing i out with
  | nil => simp [collectLoop]
  | cons e rest ih =>
    rw [collectLoop]
    split
    · have hcount : (stop - i + 1).toNat = (stop - (i + 1) + 1).toNat + 1 := by omega
      rw [ih, hcount]
      simp
    · have hcount : (stop - i + 1).toNat = 0 := by omega
      rw [hcount]
      simp

theorem normalizeRange_bounds (start stop : ℤ) (n : ℕ) : 0 ≤ (Store.normalizeRange start stop n).1 ∧
      (Store.normalizeRange start stop n).2 < n := by
  unfold Store.normalizeRange
  dsimp only
  split_ifs <;> omega

theorem lRange_eq (hlength : l.length < 2 ^ 63) (hstart : -2 ^ 63 ≤ start)
    (hstop : -2 ^ 63 ≤ stop) :
    lRange l start stop = some (listLRange l start stop) := by
  unfold lRange listLRange
  dsimp only
  rw [normalizeRange_eq hlength hstart hstop]
  split_ifs with hnil hempty
  · rfl
  · rfl
  · obtain ⟨hlow, hhigh⟩ := normalizeRange_bounds start stop l.length
    rw [Walk.advance_start (by omega), Option.map_some, collectLoop_eq]
    rfl

theorem lTrim_eq (hlength : l.length < 2 ^ 63) (hstart : -2 ^ 63 ≤ start)
    (hstop : -2 ^ 63 ≤ stop) : lTrim l start stop = some (listLTrim l start stop) := by
  unfold lTrim listLTrim listLRange
  dsimp only
  rw [normalizeRange_eq hlength hstart hstop]
  split_ifs with hnil hempty
  · rw [List.length_eq_zero_iff.mp hnil]
    rfl
  · rfl
  · obtain ⟨hlow, hhigh⟩ := normalizeRange_bounds start stop l.length
    rw [Walk.removals_front (by omega), Option.bind_some,
      Walk.removals_back (by rw [List.length_drop]; omega), List.length_drop,
      Option.getD_some]
    congr 2
    omega

theorem lIndex_eq (hlength : l.length < 2 ^ 63) (hindex : -2 ^ 63 ≤ index) :
    lIndex l index = some (listLIndex l index) := by
  unfold lIndex listLIndex
  dsimp only
  rw [fromFront_eq hlength hindex]
  generalize (if index < 0 then (l.length : ℤ) + index else index) = position
  split_ifs with hnil hout hneg hneg
  · rfl
  · rw [List.length_eq_zero_iff.mp hnil]
    rfl
  · rfl
  · rw [List.getElem?_eq_none (by omega)]
  · omega
  · have hlt : position.toNat < l.length := by omega
    rw [Walk.advance_start hlt.le, Option.bind_some, Walk.value, List.head?_drop,
      List.getElem?_eq_getElem hlt]
    rfl

theorem lSet_eq (hlength : l.length < 2 ^ 63) (hindex : -2 ^ 63 ≤ index) (value : Bytes) :
    lSet l index value =
      some ((listLSet l index value).getD l, (listLSet l index value).isSome) := by
  unfold lSet listLSet
  dsimp only
  rw [fromFront_eq hlength hindex]
  generalize (if index < 0 then (l.length : ℤ) + index else index) = position
  split_ifs with hout
  · rfl
  · have hset := Walk.setValue_advance (k := position.toNat) (by omega) value (l := l)
    rw [Option.map_eq_some_iff] at hset
    obtain ⟨e, he, htoList⟩ := hset
    rw [he, Option.map_some, htoList]
    rfl

theorem insert_find (before : Bool) (pivot value : Bytes) (passed left : List Bytes) :
    (if before then (Walk.find (· == pivot) passed left).insertBefore value
      else (Walk.find (· == pivot) passed left).insertAfter value).map Walk.toList =
      (listLInsert before pivot value left).map (passed.reverse ++ ·) := by
  induction left generalizing passed with
  | nil => cases before <;> rfl
  | cons e rest ih =>
    by_cases he : e = pivot
    · have hfind : Walk.find (· == pivot) passed (e :: rest) = ⟨passed, e :: rest⟩ := by
        simp [Walk.find, he]
      rw [hfind, listLInsert, if_pos he]
      cases before <;> simp [Walk.insertBefore, Walk.insertAfter, Walk.toList]
    · have hfind : Walk.find (· == pivot) passed (e :: rest) =
          Walk.find (· == pivot) (e :: passed) rest := by
        simp [Walk.find, he]
      rw [hfind, listLInsert, if_neg he, ih]
      simp [Function.comp_def]

theorem lInsert_eq (before : Bool) (pivot value : Bytes) (l : List Bytes) :
    lInsert before pivot value l =
      match listLInsert before pivot value l with
      | none => (l, -1)
      | some l => (l, l.length) := by
  have hfind := insert_find before pivot value [] l
  unfold lInsert
  dsimp only
  generalize hinserted : (if before then _ else _ : Option (Walk Bytes)) = inserted at hfind ⊢
  cases inserted with
  | none =>
    have hnone : listLInsert before pivot value l = none := by simpa using hfind.symm
    rw [hnone]
  | some e =>
    have hsome : listLInsert before pivot value l = some e.toList := by
      simpa using hfind.symm
    rw [hsome]

end Positions

def position (xs : List Bytes) (index : ℤ) : ℤ :=
  if index < 0 then index + xs.length else index

def segment (xs : List Bytes) (first last : ℤ) : List Bytes :=
  (xs.drop first.toNat).take (last + 1 - first).toNat

section Reference

variable (xs : List Bytes)

theorem ite_eq_position (index : ℤ) :
    (if index < 0 then (xs.length : ℤ) + index else index) = position xs index := by
  rw [position, add_comm]

theorem listLIndex_position (index : ℤ) : listLIndex xs index =
      if 0 ≤ position xs index ∧ position xs index < xs.length then
        xs[(position xs index).toNat]?
      else none := by
  unfold listLIndex
  dsimp only
  rw [ite_eq_position]
  split_ifs with hneg hin hin
  · omega
  · rfl
  · rfl
  · exact List.getElem?_eq_none (by omega)

theorem listLSet_position (index : ℤ) (value : Bytes) : listLSet xs index value =
      if 0 ≤ position xs index ∧ position xs index < xs.length then
        some (xs.set (position xs index).toNat value)
      else none := by
  unfold listLSet
  dsimp only
  rw [ite_eq_position]
  split_ifs with hout hin hin
  · omega
  · rfl
  · rfl
  · omega

theorem normalizeRange_positions (start stop : ℤ) : Store.normalizeRange start stop xs.length =
      (max (position xs start) 0, min (position xs stop) (xs.length - 1)) := by
  unfold Store.normalizeRange position
  rw [Prod.mk.injEq]
  constructor <;> split_ifs <;> omega

theorem listLRange_segment (start stop : ℤ) : (listLRange xs start stop).getD [] =
      segment xs (max (position xs start) 0) (min (position xs stop) (xs.length - 1)) := by
  unfold listLRange segment
  rw [normalizeRange_positions]
  dsimp only
  split_ifs with hnil hempty
  · rw [List.length_eq_zero_iff.mp hnil]
    simp
  · rw [Int.toNat_of_nonpos (by omega), List.take_zero]
    rfl
  · rw [Option.getD_some]
    congr 2
    omega

theorem listLInsert_insertIdx (before : Bool) (pivot value : Bytes) :
    listLInsert before pivot value xs =
      if pivot ∈ xs then
        some (xs.insertIdx (if before then xs.idxOf pivot else xs.idxOf pivot + 1) value)
      else none := by
  induction xs with
  | nil => rfl
  | cons e rest ih =>
    rw [listLInsert]
    by_cases he : e = pivot
    · subst he
      cases before <;> simp
    · have hmem : pivot ∈ e :: rest ↔ pivot ∈ rest := by simp [Ne.symm he]
      have hidx : (e :: rest).idxOf pivot = rest.idxOf pivot + 1 := List.idxOf_cons_ne _ he
      rw [if_neg he, ih]
      simp only [hmem, hidx]
      cases before <;> split_ifs <;> simp

end Reference

theorem list_positions {xs : List Bytes} (hlength : xs.length < 2 ^ 63) {i a b : ℤ}
    (hi : -2 ^ 63 ≤ i) (ha : -2 ^ 63 ≤ a) (hb : -2 ^ 63 ≤ b) (before : Bool)
    (pivot value : Bytes) :
    lIndex xs i = some (if 0 ≤ position xs i ∧ position xs i < xs.length then
          xs[(position xs i).toNat]? else none) ∧
      lSet xs i value = some (if 0 ≤ position xs i ∧ position xs i < xs.length then
          (xs.set (position xs i).toNat value, true) else (xs, false)) ∧
      (lRange xs a b).map (·.getD []) = some (segment xs (max (position xs a) 0)
          (min (position xs b) (xs.length - 1))) ∧
      lTrim xs a b = (lRange xs a b).map (·.getD []) ∧
      lInsert before pivot value xs =
        if pivot ∈ xs then
          (xs.insertIdx (if before then xs.idxOf pivot else xs.idxOf pivot + 1) value,
            (xs.length : ℤ) + 1)
        else (xs, -1) := by
  refine ⟨?_, ?_, ?_, ?_, ?_⟩
  · rw [lIndex_eq hlength hi, listLIndex_position]
  · rw [lSet_eq hlength hi, listLSet_position]
    split_ifs <;> rfl
  · rw [lRange_eq hlength ha hb, Option.map_some, listLRange_segment]
  · rw [lTrim_eq hlength ha hb, lRange_eq hlength ha hb]
    rfl
  · rw [lInsert_eq, listLInsert_insertIdx]
    by_cases hmem : pivot ∈ xs
    · have hle : (if before then xs.idxOf pivot else xs.idxOf pivot + 1) ≤ xs.length := by
        have := List.idxOf_lt_length_of_mem hmem
        split_ifs <;> omega
      rw [if_pos hmem, if_pos hmem]
      dsimp only
      rw [List.length_insertIdx_of_le_length hle]
      rfl
    · rw [if_neg hmem, if_neg hmem]

theorem list_positions_three : lIndex [[97], [98], [97]] (-1) = some (some [97]) ∧
      lSet [[97], [98], [97]] (-1) [99] = some ([[97], [98], [99]], true) ∧
      lTrim [[97], [98], [97]] (-2) 5 = some [[98], [97]] ∧
      lInsert false [97] [99] [[97], [98], [97]] = ([[97], [99], [98], [97]], 4) := by
  have hpositions := @list_positions [[97], [98], [97]] (by decide) (-1) (-2) 5 (by decide)
    (by decide) (by decide) false [97] [99]
  obtain ⟨hindex, hset, hrange, htrim, hinsert⟩ := hpositions
  refine ⟨?_, ?_, ?_, ?_⟩
  · rw [hindex]
    decide
  · rw [hset]
    decide
  · rw [htrim, hrange]
    decide
  · rw [hinsert]
    decide

end MCache.Store.LinkedList
