import Mathlib.Tactic

/-!
# Walks over a linked list

A pointer into a doubly linked list splits it: `passed` has the elements that
the walk has left behind, the nearest first, and `left` those from the pointer
on, so that an empty `left` is the nil pointer.  A walk from the back is a walk
over the reversed list.  To follow a nil pointer, or to change what it points
to, fails.
-/

namespace MCache

structure Walk (α : Type*) where
  passed : List α
  left : List α

namespace Walk

variable {α : Type*}
variable {k : ℕ} {l : List α} {limit : ℤ}

def start (l : List α) : Walk α := ⟨[], l⟩

def toList (w : Walk α) : List α := w.passed.reverse ++ w.left

def value (w : Walk α) : Option α := w.left.head?

def next : Walk α → Option (Walk α)
  | ⟨_, []⟩ => none
  | ⟨passed, e :: rest⟩ => some ⟨e :: passed, rest⟩

def setValue (v : α) : Walk α → Option (Walk α)
  | ⟨_, []⟩ => none
  | ⟨passed, _ :: rest⟩ => some ⟨passed, v :: rest⟩

def insertBefore (v : α) : Walk α → Option (Walk α)
  | ⟨_, []⟩ => none
  | ⟨passed, e :: rest⟩ => some ⟨v :: passed, e :: rest⟩

def insertAfter (v : α) : Walk α → Option (Walk α)
  | ⟨_, []⟩ => none
  | ⟨passed, e :: rest⟩ => some ⟨passed, e :: v :: rest⟩

def advance : ℕ → Walk α → Option (Walk α)
  | 0, w => some w
  | k + 1, w => w.next.bind (advance k)

theorem advance_split (passed : List α) {left : List α} (hk : k ≤ left.length) :
    advance k ⟨passed, left⟩ = some ⟨(left.take k).reverse ++ passed, left.drop k⟩ := by
  induction k generalizing passed left with
  | zero => simp [advance]
  | succ k ih =>
    cases left with
    | nil => simp at hk
    | cons e rest =>
      rw [advance, next, Option.bind_some, ih (e :: passed) (by simpa using hk)]
      simp

theorem advance_start (hk : k ≤ l.length) :
    (start l).advance k = some ⟨(l.take k).reverse, l.drop k⟩ := by
  rw [start, advance_split [] hk, List.append_nil]

theorem setValue_advance (hk : k < l.length) (v : α) :
    (((start l).advance k).bind (setValue v)).map toList = some (l.set k v) := by
  rw [advance_start hk.le, Option.bind_some, List.drop_eq_getElem_cons hk, setValue,
    Option.map_some, toList, List.reverse_reverse, List.set_eq_take_append_cons_drop,
    if_pos hk]

def removeFront : List α → Option (List α)
  | [] => none
  | _ :: rest => some rest

def removeBack (l : List α) : Option (List α) := (removeFront l.reverse).map List.reverse

def removals (remove : List α → Option (List α)) : ℕ → List α → Option (List α)
  | 0, l => some l
  | k + 1, l => (remove l).bind (removals remove k)

theorem removals_front (hk : k ≤ l.length) : removals removeFront k l = some (l.drop k) := by
  induction k generalizing l with
  | zero => rfl
  | succ k ih =>
    cases l with
    | nil => simp at hk
    | cons e rest =>
      rw [removals, removeFront, Option.bind_some, ih (by simpa using hk)]
      rfl

theorem removals_back_reverse (k : ℕ) (l : List α) :
    removals removeBack k l = (removals removeFront k l.reverse).map List.reverse := by
  induction k generalizing l with
  | zero => simp [removals]
  | succ k ih =>
    rw [removals, removals, removeBack]
    cases removeFront l.reverse with
    | none => rfl
    | some rest => simp [ih]

theorem removals_back (hk : k ≤ l.length) :
    removals removeBack k l = some (l.take (l.length - k)) := by
  rw [removals_back_reverse, removals_front (by simpa using hk), Option.map_some,
    List.drop_reverse, List.reverse_reverse]

def find (p : α → Bool) : List α → List α → Walk α
  | passed, [] => ⟨passed, []⟩
  | passed, e :: rest => if p e then ⟨passed, e :: rest⟩ else find p (e :: passed) rest

def removeLoop (p : α → Bool) (limit : ℤ) : ℤ → List α → List α → ℤ × Walk α
  | removed, passed, [] => (removed, ⟨passed, []⟩)
  | removed, passed, e :: rest =>
    if removed < limit then
      if p e then removeLoop p limit (removed + 1) passed rest
      else removeLoop p limit removed (e :: passed) rest
    else (removed, ⟨passed, e :: rest⟩)

theorem removeLoop_split (p : α → Bool) {removed : ℤ} (passed left : List α)
    (hremoved : removed ≤ limit) :
    ∃ walked rest, left = walked ++ rest ∧ removeLoop p limit removed passed left =
        (removed + walked.countP p, ⟨(walked.filter (!p ·)).reverse ++ passed, rest⟩) ∧
      removed + walked.countP p ≤ limit ∧
      (rest = [] ∨ removed + walked.countP p = limit) := by
  induction left generalizing removed passed with
  | nil => exact ⟨[], [], rfl, by simp [removeLoop], by simpa, .inl rfl⟩
  | cons e rest ih =>
    by_cases hlimit : removed < limit
    · by_cases he : p e = true
      · obtain ⟨walked, after, hrest, hloop, hle, hend⟩ := ih passed hlimit
        have hcount : removed + (e :: walked).countP p = removed + 1 + walked.countP p := by
          rw [List.countP_cons_of_pos he]
          push_cast
          ring
        refine ⟨e :: walked, after, by rw [hrest]; rfl, ?_, ?_, ?_⟩
        · rw [removeLoop, if_pos hlimit, if_pos he, hloop, hcount,
            List.filter_cons_of_neg (by simp [he])]
        · rw [hcount]
          exact hle
        · rw [hcount]
          exact hend
      · obtain ⟨walked, after, hrest, hloop, hle, hend⟩ := ih (e :: passed) hremoved
        have hcount : (e :: walked).countP p = walked.countP p := List.countP_cons_of_neg he
        refine ⟨e :: walked, after, by rw [hrest]; rfl, ?_, ?_, ?_⟩
        · rw [removeLoop, if_pos hlimit, if_neg he, hloop, hcount,
            List.filter_cons_of_pos (by simpa using he)]
          simp
        · rw [hcount]
          exact hle
        · rw [hcount]
          exact hend
    · refine ⟨[], e :: rest, rfl, ?_, by simpa, .inr ?_⟩
      · simp [removeLoop, hlimit]
      · simp only [List.countP_nil, Nat.cast_zero, add_zero]
        omega

theorem removeLoop_of_neg (p : α → Bool) (passed left : List α) (hlimit : limit ≤ 0) :
    removeLoop p limit 0 passed left = (0, ⟨passed, left⟩) := by
  cases left with
  | nil => rfl
  | cons e rest => rw [removeLoop, if_neg (by omega)]

theorem removeLoop_start (p : α → Bool) (l : List α) (hlimit : 0 ≤ limit) :
    ∃ walked rest, l = walked ++ rest ∧ (walked.countP p : ℤ) = min limit (l.countP p) ∧
      (removeLoop p limit 0 [] l).1 = walked.countP p ∧
      (removeLoop p limit 0 [] l).2.toList = walked.filter (!p ·) ++ rest := by
  obtain ⟨walked, rest, hl, hloop, hle, hend⟩ := removeLoop_split p [] l hlimit
  rw [zero_add] at hloop hle hend
  refine ⟨walked, rest, hl, ?_, by rw [hloop], by rw [hloop]; simp [toList]⟩
  have hcount : l.countP p = walked.countP p + rest.countP p := by
    rw [hl, List.countP_append]
  rcases hend with hend | hend
  · have hnone : rest.countP p = 0 := by
      rw [hend]
      rfl
    rw [hcount, hnone, add_zero, min_eq_right hle]
  · rw [hend, min_eq_left]
    omega

end Walk

end MCache
