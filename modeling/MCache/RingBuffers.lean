import Mathlib.Data.List.DropRight
import Mathlib.Data.List.Rotate
import Mathlib.Tactic

/-!
# Ring buffers

A ring of a given capacity grows until it is full; from then on a new value
overwrites the oldest one, at `head`, and `head` moves on by one slot.
`Holds` says which values the slots are, in terms of everything that has
arrived: read from `head` around the ring they are the last ones.
-/

namespace MCache.Ring

variable {α : Type*} {capacity head n : ℕ} {slots arrived : List α}

structure Holds (capacity : ℕ) (slots : List α) (head : ℕ) (arrived : List α) : Prop where
  head_lt : head < capacity
  growing : slots.length < capacity → head = 0
  order : slots.rotate head = arrived.rtake capacity

theorem length_rtake (n : ℕ) (l : List α) : (l.rtake n).length = min n l.length := by
  rw [List.rtake, List.length_drop]
  omega

theorem rtake_rtake (n m : ℕ) (l : List α) : (l.rtake m).rtake n = l.rtake (min n m) := by
  rw [List.rtake_eq_reverse_take_reverse, List.rtake_eq_reverse_take_reverse,
    List.rtake_eq_reverse_take_reverse, List.reverse_reverse, List.take_take]

theorem rtake_of_length_le {l : List α} (h : l.length ≤ n) : l.rtake n = l := by
  rw [List.rtake, Nat.sub_eq_zero_of_le h, List.drop_zero]

theorem rtake_min_length (n : ℕ) (l : List α) : l.rtake (min n l.length) = l.rtake n := by
  rw [List.rtake, List.rtake]
  congr 1
  omega

theorem rtake_concat {l : List α} (hpos : 0 < n) (hn : n ≤ l.length) (x : α) :
    (l ++ [x]).rtake n = (l.rtake n).tail ++ [x] := by
  obtain ⟨m, rfl⟩ := Nat.exists_eq_succ_of_ne_zero hpos.ne'
  rw [List.rtake_concat_succ, List.rtake, List.rtake, List.tail_drop,
    show l.length - m = l.length - (m + 1) + 1 by omega]

theorem rotate_set_succ (hhead : head < slots.length) (x : α) :
    (slots.set head x).rotate (head + 1) = (slots.rotate head).tail ++ [x] := by
  obtain ⟨before, old, after, rfl, rfl⟩ : ∃ before old after,
      slots = before ++ old :: after ∧ head = before.length :=
    ⟨slots.take head, slots[head], slots.drop (head + 1), by simp, by simp [hhead.le]⟩
  have hmoved := List.rotate_append_length_eq (before ++ [x]) after
  rw [List.length_append, List.length_singleton, List.append_assoc, List.singleton_append] at hmoved
  rw [List.set_append_right _ _ le_rfl, Nat.sub_self, List.set_cons_zero, hmoved,
    List.rotate_append_length_eq, List.cons_append, List.tail_cons, List.append_assoc]

namespace Holds

theorem empty (hpos : 0 < capacity) : Holds capacity ([] : List α) 0 [] where
  head_lt := hpos
  growing := fun _ => rfl
  order := by rw [List.rotate_zero, List.rtake_nil]

variable (h : Holds capacity slots head arrived)
include h

theorem length : slots.length = min capacity arrived.length := by
  rw [← length_rtake, ← h.order, List.length_rotate]

theorem arrived_eq_nil (hempty : slots.length = 0) : arrived = [] := by
  have hlength := h.length
  have hpos := h.head_lt.pos
  exact List.eq_nil_of_length_eq_zero (by omega)

theorem eq_arrived (hgrowing : slots.length < capacity) : slots = arrived := by
  have horder := h.order
  have hlength := h.length
  rwa [h.growing hgrowing, List.rotate_zero, rtake_of_length_le (by omega)] at horder

theorem append (hgrowing : slots.length < capacity) (x : α) :
    Holds capacity (slots ++ [x]) head (arrived ++ [x]) where
  head_lt := h.head_lt
  growing := fun _ => h.growing hgrowing
  order := by
    have hlength : (arrived ++ [x]).length ≤ capacity := by
      rw [List.length_append, List.length_singleton, ← h.eq_arrived hgrowing]
      omega
    rw [h.growing hgrowing, List.rotate_zero, rtake_of_length_le hlength, h.eq_arrived hgrowing]

variable (hfull : slots.length = capacity)
include hfull

theorem overwrite (x : α) :
    Holds capacity (slots.set head x) ((head + 1) % capacity) (arrived ++ [x]) where
  head_lt := Nat.mod_lt _ h.head_lt.pos
  growing := by
    intro hgrowing
    rw [List.length_set] at hgrowing
    omega
  order := by
    have hlength := h.length
    have hset : (slots.set head x).length = capacity := by rw [List.length_set, hfull]
    rw [rtake_concat h.head_lt.pos (by omega), ← h.order,
      ← rotate_set_succ (hfull ▸ h.head_lt), ← List.rotate_mod _ (head + 1), hset]

theorem getElem?_recent (hn : n ≤ capacity) {start : ℕ}
    (hstart : (start + n) % capacity = head) {i : ℕ} (hi : i < n) :
    slots[(start + i) % capacity]? = (arrived.rtake n)[i]? := by
  have hrecent : arrived.rtake n = (slots.rotate head).drop (capacity - n) := by
    rw [h.order, ← min_eq_left hn, ← rtake_rtake, min_eq_left hn, List.rtake, ← h.order,
      List.length_rotate, hfull]
  have hlt : capacity - n + i < slots.length := by omega
  have hindex : capacity - n + i + (start + n) = start + i + capacity := by omega
  rw [hrecent, List.getElem?_drop, List.getElem?_rotate hlt, hfull, ← hstart,
    Nat.add_mod_mod, hindex, Nat.add_mod_right]

theorem recent (hn : n ≤ capacity) {start : ℕ} (hstart : (start + n) % capacity = head)
    (hbound : ∀ i, i % capacity < slots.length) :
    (List.ofFn fun i : Fin n => slots.get ⟨(start + i) % capacity, hbound _⟩) =
      arrived.rtake n := by
  have hlength := h.length
  refine List.ext_getElem? fun i => ?_
  by_cases hi : i < n
  · rw [← h.getElem?_recent hfull hn hstart hi, List.getElem?_ofFn, dif_pos hi,
      List.get_eq_getElem, List.getElem?_eq_getElem (hbound _)]
  · rw [List.getElem?_ofFn, dif_neg hi, List.getElem?_eq_none]
    rw [length_rtake]
    omega

theorem newest : slots[(head + capacity - 1) % capacity]? = arrived.getLast? := by
  have hpos := h.head_lt.pos
  have hlength := h.length
  have hstart : (head + capacity - 1 + 1) % capacity = head := by
    rw [Nat.sub_add_cancel (by omega), Nat.add_mod_right, Nat.mod_eq_of_lt h.head_lt]
  have hread := h.getElem?_recent hfull hpos hstart Nat.one_pos
  rw [Nat.add_zero] at hread
  rw [hread, List.rtake, List.getElem?_drop, List.getLast?_eq_getElem?, Nat.add_zero]

end Holds

end MCache.Ring
