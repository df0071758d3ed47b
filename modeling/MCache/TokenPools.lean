import Mathlib.Data.Multiset.UnionInter
import Mathlib.Tactic

/-!
# Pools of tokens

Owners take tokens from a pool and put them back.  A pool hands out any of its
members, or a token that was never there; tokens are numbered, and `fresh` is the
next number.  Ownership is linear as long as no step leaves more of a token than
there was before.
-/

namespace MCache

variable {τ ι : Type*}

structure TokenPool (τ : Type*) where
  fresh : ℕ
  pool : Multiset τ

namespace TokenPool

def put (s : TokenPool τ) (t : τ) : TokenPool τ :=
  { s with pool := t ::ₘ s.pool }

def take [DecidableEq τ] (s : TokenPool τ) (t : τ) : TokenPool τ :=
  { s with pool := s.pool.erase t }

def make (s : TokenPool τ) : TokenPool τ :=
  { s with fresh := s.fresh + 1 }

structure Conserves (number : τ → ℕ) (s next : TokenPool τ) (mine rest : Multiset τ) : Prop where
  fresh_le : s.fresh ≤ next.fresh
  covered : ∃ new : Multiset τ, new.Nodup ∧
    (∀ t ∈ new, s.fresh ≤ number t ∧ number t < next.fresh) ∧
    next.pool + rest ≤ s.pool + mine + new

namespace Conserves

variable {number : τ → ℕ} {s middle next : TokenPool τ} {mine between rest : Multiset τ}
  {t : τ}

theorem of_le (h : rest ≤ mine) : Conserves number s s mine rest where
  fresh_le := le_rfl
  covered := ⟨0, Multiset.nodup_zero, by simp, by simpa using h⟩

theorem refl : Conserves number s s mine mine := of_le le_rfl

theorem trans (h : Conserves number s middle mine between)
    (h' : Conserves number middle next between rest) : Conserves number s next mine rest where
  fresh_le := h.fresh_le.trans h'.fresh_le
  covered := by
    obtain ⟨new, hnew, hnumber, hle⟩ := h.covered
    obtain ⟨later, hlater, hlaterNumber, hle'⟩ := h'.covered
    refine ⟨new + later, ?_, ?_, ?_⟩
    · rw [Multiset.nodup_add]
      refine ⟨hnew, hlater, Multiset.disjoint_left.mpr fun {t} ht htlater => ?_⟩
      exact absurd (hlaterNumber t htlater).1 (hnumber t ht).2.not_ge
    · intro t ht
      rcases Multiset.mem_add.mp ht with hfirst | hsecond
      · exact ⟨(hnumber t hfirst).1, (hnumber t hfirst).2.trans_le h'.fresh_le⟩
      · exact ⟨h.fresh_le.trans (hlaterNumber t hsecond).1, (hlaterNumber t hsecond).2⟩
    · calc next.pool + rest
          ≤ middle.pool + between + later := hle'
        _ ≤ s.pool + mine + new + later := by gcongr
        _ = s.pool + mine + (new + later) := add_assoc _ _ _

theorem drop (h : Conserves number s next mine between) (hle : rest ≤ between) :
    Conserves number s next mine rest :=
  h.trans (of_le hle)

theorem frame (h : Conserves number s next mine rest) (kept : Multiset τ) :
    Conserves number s next (mine + kept) (rest + kept) where
  fresh_le := h.fresh_le
  covered := by
    obtain ⟨new, hnew, hnumber, hle⟩ := h.covered
    refine ⟨new, hnew, hnumber, ?_⟩
    calc next.pool + (rest + kept)
        = next.pool + rest + kept := (add_assoc _ _ _).symm
      _ ≤ s.pool + mine + new + kept := by gcongr
      _ = s.pool + (mine + kept) + new := by abel

theorem put : Conserves number s (s.put t) {t} 0 where
  fresh_le := le_rfl
  covered := by
    refine ⟨0, Multiset.nodup_zero, by simp, ?_⟩
    simp [TokenPool.put, ← Multiset.singleton_add, add_comm]

theorem take [DecidableEq τ] (h : t ∈ s.pool) : Conserves number s (s.take t) 0 {t} where
  fresh_le := le_rfl
  covered := by
    refine ⟨0, Multiset.nodup_zero, by simp, ?_⟩
    have hback : s.pool.erase t + {t} = s.pool := by
      rw [add_comm, Multiset.singleton_add, Multiset.cons_erase h]
    simp [TokenPool.take, hback]

theorem make (h : number t = s.fresh) : Conserves number s s.make 0 {t} where
  fresh_le := Nat.le_succ _
  covered := by
    refine ⟨{t}, Multiset.nodup_singleton t, ?_, ?_⟩
    · simp [TokenPool.make, h]
    · simp [TokenPool.make]

theorem gain (h : Conserves number s next 0 {t}) (kept : Multiset τ) :
    Conserves number s next kept (t ::ₘ kept) := by
  simpa using h.frame kept

theorem lose (h : Conserves number s next {t} 0) (kept : Multiset τ) :
    Conserves number s next (t ::ₘ kept) kept := by
  simpa using h.frame kept

end Conserves

structure Linear (number : τ → ℕ) (s : TokenPool τ) (held : ι → Multiset τ) : Prop where
  pool : s.pool.Nodup
  nodup : ∀ p, (s.pool + held p).Nodup
  apart : ∀ p q, p ≠ q → Disjoint (held p) (held q)
  pool_lt : ∀ t ∈ s.pool, number t < s.fresh
  held_lt : ∀ p, ∀ t ∈ held p, number t < s.fresh

variable {number : τ → ℕ} {s next : TokenPool τ} {held : ι → Multiset τ}
  {p : ι} {rest : Multiset τ}

section New

variable {new left : Multiset τ} {q : ι}

theorem Linear.disjoint_new (h : Linear number s held)
    (hnumber : ∀ t ∈ new, s.fresh ≤ number t) (q : ι) : Disjoint (s.pool + held q) new := by
  refine Multiset.disjoint_right.mpr fun {t} ht hmem => ?_
  rcases Multiset.mem_add.mp hmem with hpool | hheld
  · exact absurd (h.pool_lt t hpool) (hnumber t ht).not_gt
  · exact absurd (h.held_lt q t hheld) (hnumber t ht).not_gt

theorem Linear.disjoint_other (h : Linear number s held)
    (hnumber : ∀ t ∈ new, s.fresh ≤ number t) (hle : left ≤ s.pool + held p + new)
    (hq : q ≠ p) : Disjoint left (held q) := by
  refine Multiset.disjoint_left.mpr fun {t} ht hother => ?_
  rcases Multiset.mem_add.mp (Multiset.subset_of_le hle ht) with hold | hnew
  · rcases Multiset.mem_add.mp hold with hpool | hheld
    · exact Multiset.disjoint_left.mp (Multiset.nodup_add.mp (h.nodup q)).2.2 hpool hother
    · exact Multiset.disjoint_left.mp (h.apart p q hq.symm) hheld hother
  · have hmem : t ∈ s.pool + held q := Multiset.mem_add.mpr (.inr hother)
    exact Multiset.disjoint_left.mp (h.disjoint_new hnumber q) hmem hnew

theorem Linear.number_lt (h : Linear number s held) {fresh : ℕ} (hfresh : s.fresh ≤ fresh)
    (hnumber : ∀ t ∈ new, number t < fresh) (hle : left ≤ s.pool + held p + new) :
    ∀ t ∈ left, number t < fresh := by
  intro t ht
  rcases Multiset.mem_add.mp (Multiset.subset_of_le hle ht) with hold | hnew
  · refine lt_of_lt_of_le ?_ hfresh
    rcases Multiset.mem_add.mp hold with hpool | hheld
    · exact h.pool_lt t hpool
    · exact h.held_lt p t hheld
  · exact hnumber t hnew

end New

theorem Linear.step [DecidableEq ι] (h : Linear number s held)
    (hstep : Conserves number s next (held p) rest) :
    Linear number next (Function.update held p rest) := by
  obtain ⟨new, hnew, hnumber, hle⟩ := hstep.covered
  have hmine : (next.pool + rest).Nodup := by
    refine Multiset.nodup_of_le hle (Multiset.nodup_add.mpr ⟨h.nodup p, hnew, ?_⟩)
    exact h.disjoint_new (fun t ht => (hnumber t ht).1) p
  have hothers : ∀ q, q ≠ p → Disjoint next.pool (held q) ∧ Disjoint rest (held q) := by
    intro q hq
    rw [← Multiset.disjoint_add_left]
    exact h.disjoint_other (fun t ht => (hnumber t ht).1) hle hq
  have hlt := h.number_lt hstep.fresh_le (fun t ht => (hnumber t ht).2) hle
  have hpool := (Multiset.nodup_add.mp hmine).1
  refine ⟨hpool, fun q => ?_, fun q r hqr => ?_, ?_, fun q t ht => ?_⟩
  · by_cases hq : q = p
    · subst hq
      rwa [Function.update_self]
    · rw [Function.update_of_ne hq, Multiset.nodup_add]
      exact ⟨hpool, (Multiset.nodup_add.mp (h.nodup q)).2.1, (hothers q hq).1⟩
  · by_cases hq : q = p
    · subst hq
      rw [Function.update_self, Function.update_of_ne hqr.symm]
      exact (hothers r hqr.symm).2
    · by_cases hr : r = p
      · subst hr
        rw [Function.update_self, Function.update_of_ne hq]
        exact (hothers q hq).2.symm
      · rw [Function.update_of_ne hq, Function.update_of_ne hr]
        exact h.apart q r hqr
  · exact fun t ht => hlt t (Multiset.mem_add.mpr (.inl ht))
  · by_cases hq : q = p
    · subst hq
      rw [Function.update_self] at ht
      exact hlt t (Multiset.mem_add.mpr (.inr ht))
    · rw [Function.update_of_ne hq] at ht
      exact (h.held_lt q t ht).trans_le hstep.fresh_le

end TokenPool

end MCache
