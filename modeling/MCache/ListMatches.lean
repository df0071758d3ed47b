import MCache.ListLoops

/-!
# Matches in a list

`LRem` deletes nodes while it walks the list, from either end; `LPos` collects
the positions of matches with three limits.  The one removes the occurrences
that its count names, but for the smallest count, and the other is a window on
the match positions.
-/

namespace MCache.Store.LinkedList

variable {value : Bytes} {maxLen i rank count found : ℤ} {positions : List ℤ}

def FirstRemoved (k : ℕ) (value : Bytes) (xs ys : List Bytes) : Prop :=
  ∃ head rest, xs = head ++ rest ∧ head.count value = k ∧ ys = head.filter (· != value) ++ rest

def LastRemoved (k : ℕ) (value : Bytes) (xs ys : List Bytes) : Prop :=
  ∃ rest tail, xs = rest ++ tail ∧ tail.count value = k ∧ ys = rest ++ tail.filter (· != value)

def RemovesNamed (xs : List Bytes) (count : ℤ) (value : Bytes) (result : List Bytes × ℤ) : Prop :=
  (0 < count → FirstRemoved (min count.natAbs (xs.count value)) value xs result.1) ∧
    (count < 0 → LastRemoved (min count.natAbs (xs.count value)) value xs result.1) ∧
    (count = 0 → result.1 = xs.filter (· != value)) ∧
    result.2 = xs.length - result.1.length

section Removal

variable {xs ys : List Bytes} {value : Bytes}
variable {k : ℕ} {count : ℤ}

theorem length_filter_ne (value : Bytes) (xs : List Bytes) :
    (xs.filter (· != value)).length + xs.count value = xs.length := by
  have hsplit := List.length_eq_length_filter_add (l := xs) (· == value)
  rw [List.count_eq_length_filter]
  exact (hsplit.trans (add_comm _ _)).symm

theorem FirstRemoved.length (hfirst : FirstRemoved k value xs ys) : ys.length + k = xs.length := by
  obtain ⟨head, rest, hxs, hcount, hys⟩ := hfirst
  have hhead := length_filter_ne value head
  rw [hxs, hys, List.length_append, List.length_append]
  omega

theorem FirstRemoved.reverse (hfirst : FirstRemoved k value xs.reverse ys) :
    LastRemoved k value xs ys.reverse := by
  obtain ⟨head, rest, hxs, hcount, hys⟩ := hfirst
  refine ⟨rest.reverse, head.reverse, ?_, ?_, ?_⟩
  · rw [← List.reverse_append, ← hxs, List.reverse_reverse]
  · rw [List.count_reverse, hcount]
  · rw [hys, List.reverse_append, List.filter_reverse]

theorem LastRemoved.length (hlast : LastRemoved k value xs ys) : ys.length + k = xs.length := by
  obtain ⟨rest, tail, hxs, hcount, hys⟩ := hlast
  have htail := length_filter_ne value tail
  rw [hxs, hys, List.length_append, List.length_append]
  omega

theorem FirstRemoved.all (hfirst : FirstRemoved (xs.count value) value xs ys) :
    ys = xs.filter (· != value) := by
  obtain ⟨head, rest, hxs, hcount, hys⟩ := hfirst
  have hnone : value ∉ rest := by
    rw [← List.count_eq_zero]
    rw [hxs, List.count_append] at hcount
    omega
  have hrest : rest.filter (· != value) = rest := by
    rw [List.filter_eq_self]
    intro e he
    simp only [bne_iff_ne]
    rintro rfl
    exact hnone he
  rw [hys, hxs, List.filter_append, hrest]

theorem removeLoop_first (value : Bytes) {limit : ℤ} (xs : List Bytes) (hlimit : 0 ≤ limit) :
    FirstRemoved (min limit.toNat (xs.count value)) value xs
        (Walk.removeLoop (· == value) limit 0 [] xs).2.toList ∧
      (Walk.removeLoop (· == value) limit 0 [] xs).1 = (min limit.toNat (xs.count value) : ℕ) := by
  obtain ⟨head, rest, hxs, hcount, hremoved, hlist⟩ := Walk.removeLoop_start (· == value) xs hlimit
  have hmin : head.count value = min limit.toNat (xs.count value) := by
    unfold List.count
    omega
  refine ⟨⟨head, rest, hxs, hmin, hlist⟩, ?_⟩
  rw [hremoved, ← hmin]
  rfl

theorem lRem_eq_loops (xs : List Bytes) (count : ℤ) (value : Bytes) : lRem xs count value =
      if 0 ≤ count then
        let maxRemove := if count = 0 then (xs.length : ℤ) else count
        let walk := Walk.removeLoop (· == value) maxRemove 0 [] xs
        (walk.2.toList, walk.1)
      else
        let walk := Walk.removeLoop (· == value) (int64 (-count)) 0 [] xs.reverse
        (walk.2.toList.reverse, walk.1) := by
  cases xs with
  | nil => split_ifs <;> rfl
  | cons e rest => rfl

variable (xs value)

theorem lRem_pos (hcount : 0 < count) :
    FirstRemoved (min count.natAbs (xs.count value)) value xs (lRem xs count value).1 ∧
      (lRem xs count value).2 = (min count.natAbs (xs.count value) : ℕ) := by
  have hloop := removeLoop_first value xs hcount.le
  have hlimit : count.toNat = count.natAbs := by omega
  rw [hlimit] at hloop
  rw [lRem_eq_loops, if_pos hcount.le]
  dsimp only
  rw [if_neg hcount.ne']
  exact hloop

theorem lRem_zero : FirstRemoved (xs.count value) value xs (lRem xs 0 value).1 ∧
      (lRem xs 0 value).2 = xs.count value := by
  have hloop := removeLoop_first value xs (Int.natCast_nonneg xs.length)
  rw [Int.toNat_natCast, min_eq_right List.count_le_length] at hloop
  rw [lRem_eq_loops]
  exact hloop

theorem lRem_neg (hcount : count < 0) (hlow : -2 ^ 63 < count) :
    LastRemoved (min count.natAbs (xs.count value)) value xs (lRem xs count value).1 ∧
      (lRem xs count value).2 = (min count.natAbs (xs.count value) : ℕ) := by
  have hnonneg : 0 ≤ -count := by omega
  have hloop := removeLoop_first value xs.reverse hnonneg
  have hlimit : (-count).toNat = count.natAbs := by omega
  rw [hlimit, List.count_reverse] at hloop
  rw [lRem_eq_loops, if_neg (by omega), int64_of_bounds (by omega) (by omega)]
  exact ⟨hloop.1.reverse, hloop.2⟩

theorem lRem_min : lRem xs (-2 ^ 63) value = (xs, 0) := by
  have hneg : int64 (- -2 ^ 63) = -2 ^ 63 := by decide
  rw [lRem_eq_loops, if_neg (by decide), hneg, Walk.removeLoop_of_neg _ _ _ (by decide)]
  simp [Walk.toList]

theorem removesNamed_of_lt (hlow : -2 ^ 63 < count) :
    RemovesNamed xs count value (lRem xs count value) := by
  rcases lt_trichotomy count 0 with hneg | rfl | hpos
  · obtain ⟨hlast, hremoved⟩ := lRem_neg xs value hneg hlow
    have hlength := hlast.length
    exact ⟨fun h => by omega, fun _ => hlast, fun h => by omega, by rw [hremoved]; omega⟩
  · obtain ⟨hfirst, hremoved⟩ := lRem_zero xs value
    have hlength := hfirst.length
    exact ⟨fun h => by omega, fun h => by omega, fun _ => hfirst.all,
      by rw [hremoved]; omega⟩
  · obtain ⟨hfirst, hremoved⟩ := lRem_pos xs value hpos
    have hlength := hfirst.length
    exact ⟨fun _ => hfirst, fun h => by omega, fun h => by omega,
      by rw [hremoved]; omega⟩

theorem removesNamed_min_iff : RemovesNamed xs (-2 ^ 63) value (xs, 0) ↔ value ∉ xs := by
  constructor
  · intro hremoves hmem
    have hlength := (hremoves.2.1 (by decide)).length
    have hpos := List.count_pos_iff.mpr hmem
    have habs : (-2 ^ 63 : ℤ).natAbs = 2 ^ 63 := by decide
    rw [habs] at hlength
    dsimp only at hlength
    omega
  · intro hnone
    have hcount := List.count_eq_zero.mpr hnone
    refine ⟨fun h => absurd h (by decide), fun _ => ⟨xs, [], ?_, ?_, ?_⟩,
      fun h => absurd h (by decide), ?_⟩
    · simp
    · simp [hcount]
    · simp
    · simp

end Removal

theorem lRem_removes_iff (xs : List Bytes) {count : ℤ} (hlow : -2 ^ 63 ≤ count) (value : Bytes) :
    RemovesNamed xs count value (lRem xs count value) ↔ (count = -2 ^ 63 → value ∉ xs) := by
  rcases hlow.eq_or_lt with rfl | hlt
  · rw [lRem_min, removesNamed_min_iff]
    exact ⟨fun h _ => h, fun h => h rfl⟩
  · exact ⟨fun _ h => absurd h hlt.ne', fun _ => removesNamed_of_lt xs value hlt⟩

theorem lRem_removes_last : RemovesNamed [[97], [98], [97]] (-1) [97] ([[97], [98]], 1) :=
  (lRem_removes_iff [[97], [98], [97]] (show (-2 ^ 63 : ℤ) ≤ -1 by decide) [97]).mpr (by decide)

theorem lRem_min_keeps : lRem [[97], [98]] (-2 ^ 63) [97] = ([[97], [98]], 0) ∧
      ¬ RemovesNamed [[97], [98]] (-2 ^ 63) [97] (lRem [[97], [98]] (-2 ^ 63) [97]) := by
  refine ⟨by decide, ?_⟩
  rw [lRem_min, removesNamed_min_iff]
  decide

def matchPositions (xs : List Bytes) (value : Bytes) (maxLen : ℤ) : List ℕ :=
  (List.range xs.length).filter fun p =>
    xs[p]? = some value ∧ (maxLen = 0 ∨ (p : ℤ) < maxLen)

def matchesFrom (value : Bytes) (maxLen : ℤ) : ℤ → List Bytes → List ℤ
  | _, [] => []
  | i, e :: rest =>
    if e = value ∧ i < maxLen then i :: matchesFrom value maxLen (i + 1) rest
    else matchesFrom value maxLen (i + 1) rest

theorem matchesFrom_eq_filter (value : Bytes) (maxLen i : ℤ) (xs : List Bytes) :
    matchesFrom value maxLen i xs = ((List.range xs.length).filter fun (p : ℕ) =>
        xs[p]? = some value ∧ i + p < maxLen).map fun (p : ℕ) => i + p := by
  induction xs generalizing i with
  | nil => rfl
  | cons e rest ih =>
    have hcast (p : ℕ) : i + ((p : ℤ) + 1) = i + 1 + p := by ring
    rw [List.length_cons, List.range_succ_eq_map, matchesFrom, ih]
    split_ifs with he
    · simp [List.filter_map, Function.comp_def, hcast, he]
    · have hhead : ¬ (e = value ∧ i < maxLen) := he
      simp [List.filter_map, Function.comp_def, hcast, hhead]

theorem matchesFrom_of_le (xs : List Bytes) (hle : maxLen ≤ i) :
    matchesFrom value maxLen i xs = [] := by
  induction xs generalizing i with
  | nil => rfl
  | cons e rest ih => rw [matchesFrom, if_neg (by omega), ih (by omega)]

theorem matchesFrom_match (rest : List Bytes) (hi : i < maxLen) :
    matchesFrom value maxLen i (value :: rest) = i :: matchesFrom value maxLen (i + 1) rest := by
  rw [matchesFrom, if_pos ⟨rfl, hi⟩]

theorem matchesFrom_ne {e : Bytes} (rest : List Bytes) (he : e ≠ value) :
    matchesFrom value maxLen i (e :: rest) = matchesFrom value maxLen (i + 1) rest := by
  rw [matchesFrom, if_neg fun hmatch => he hmatch.1]

def matchesLeft (value : Bytes) (rank count maxLen i found : ℤ) (positions : List ℤ)
    (left : List Bytes) : List ℤ :=
  let ahead := (matchesFrom value maxLen i left).drop (rank - 1 - found).toNat
  if count = 0 then ahead else ahead.take (count - positions.length).toNat

theorem matchesLeft_of_match (rest : List Bytes) (hi : i < maxLen)
    (hcount : ¬ (count ≠ 0 ∧ count ≤ positions.length)) (hrank : rank ≤ found + 1) :
    matchesLeft value rank count maxLen i found positions (value :: rest) =
      i :: matchesLeft value rank count maxLen (i + 1) (found + 1) (positions ++ [i])
        rest := by
  have hdrop : (rank - 1 - found).toNat = 0 := by omega
  have hdrop' : (rank - 1 - (found + 1)).toNat = 0 := by omega
  unfold matchesLeft
  rw [matchesFrom_match rest hi, hdrop, hdrop']
  dsimp only
  split_ifs with hzero
  · rfl
  · have htake : (count - positions.length).toNat =
        (count - (positions ++ [i]).length).toNat + 1 := by
      rw [List.length_append, List.length_singleton]
      push_cast
      omega
    rw [htake]
    rfl

theorem matchesLeft_of_skipped (rest : List Bytes) (hi : i < maxLen) (hrank : ¬ rank ≤ found + 1) :
    matchesLeft value rank count maxLen i found positions (value :: rest) =
      matchesLeft value rank count maxLen (i + 1) (found + 1) positions rest := by
  have hdrop : (rank - 1 - found).toNat = (rank - 1 - (found + 1)).toNat + 1 := by omega
  unfold matchesLeft
  rw [matchesFrom_match rest hi, hdrop]
  rfl

theorem matchesLeft_of_ne {e : Bytes} (rest : List Bytes) (he : e ≠ value) :
    matchesLeft value rank count maxLen i found positions (e :: rest) =
      matchesLeft value rank count maxLen (i + 1) found positions rest := by
  unfold matchesLeft
  rw [matchesFrom_ne rest he]

theorem posLoop_eq (value : Bytes) (rank count maxLen i found : ℤ) (positions : List ℤ)
    (left : List Bytes) :
    posLoop value rank count maxLen i found positions left =
      positions ++ matchesLeft value rank count maxLen i found positions left := by
  induction left generalizing i found positions with
  | nil => simp [posLoop, matchesLeft, matchesFrom]
  | cons e rest ih =>
    rw [posLoop]
    split_ifs with hmax hfull hmatch hrank
    · simp [matchesLeft, matchesFrom_of_le _ hmax]
    · have hnone : (count - positions.length).toNat = 0 := by omega
      simp [matchesLeft, hfull.1, hnone]
    · subst hmatch
      rw [ih, matchesLeft_of_match rest (not_le.mp hmax) hfull hrank]
      simp
    · subst hmatch
      rw [ih, matchesLeft_of_skipped rest (not_le.mp hmax) hrank]
    · rw [ih, matchesLeft_of_ne rest hmatch]

theorem matchesFrom_zero (hmaxLen : 0 ≤ maxLen) (xs : List Bytes) (value : Bytes) :
    matchesFrom value (if maxLen = 0 ∨ xs.length < maxLen then xs.length else maxLen) 0 xs =
      (matchPositions xs value maxLen).map fun (p : ℕ) => (p : ℤ) := by
  rw [matchesFrom_eq_filter, matchPositions]
  simp only [zero_add]
  congr 1
  apply List.filter_congr
  intro p hp
  have hlt := List.mem_range.mp hp
  rw [decide_eq_decide]
  refine and_congr_right fun _ => ?_
  split_ifs <;> omega

theorem listLPos_window (xs : List Bytes) (value : Bytes) (rank : ℤ)
    {count maxLen : ℤ} (hcount : 0 ≤ count) (hmaxLen : 0 ≤ maxLen) :
    listLPos xs value rank count maxLen =
      (if count = 0 then (matchPositions xs value maxLen).drop (rank - 1).toNat
        else ((matchPositions xs value maxLen).drop (rank - 1).toNat).take
          count.toNat).map fun (p : ℕ) => (p : ℤ) := by
  rw [listLPos, if_neg (not_lt.mpr hcount), posLoop_eq, matchesLeft, matchesFrom_zero hmaxLen]
  split_ifs <;> simp [List.map_drop, List.map_take]

theorem listLPos_window_second : listLPos [[97], [98], [97], [97], [97]] [97] 2 1 4 = [2] :=
  (listLPos_window [[97], [98], [97], [97], [97]] [97] 2
    (show (0 : ℤ) ≤ 1 by decide) (show (0 : ℤ) ≤ 4 by decide)).trans (by decide)

end MCache.Store.LinkedList
