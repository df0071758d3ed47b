import Mathlib.Data.Finset.Card
import Mathlib.Data.List.Infix
import Mathlib.Tactic

/-!
# Histories of leader-based replicated logs

A history records, for an arbitrary set of nodes and an arbitrary type of log
entries with a term, what a run of a leader-based replication protocol leaves
behind: the log with which a node ran for a term, the votes, the winner of a
term and its log, and how far a node has acknowledged the log of a term.

The operations on histories are the protocol's essential moves.  `Sound`
collects what holds after any sequence of them.  `Complete` is the safety
argument proper; it survives an adopted log only if that log does not merely
shorten the node's own.  The two conclusions are that a term has one winner
and that any two chosen prefixes are comparable.
-/

namespace MCache

variable {E : Type*} {term : E → ℕ} {ν : Type*}

/-! ## Majorities -/

def IsMajority (members quorum : Finset ν) : Prop :=
  quorum ⊆ members ∧ members.card < 2 * quorum.card

theorem IsMajority.exists_common
    {members first second : Finset ν}
    (hfirst : IsMajority members first) (hsecond : IsMajority members second) :
    ∃ j, j ∈ first ∧ j ∈ second := by
  classical
  have hcard : members.card < first.card + second.card := by
    have h1 := hfirst.2
    have h2 := hsecond.2
    omega
  obtain ⟨j, hj⟩ := Finset.inter_nonempty_of_card_lt_card_add_card hfirst.1 hsecond.1 hcard
  exact ⟨j, (Finset.mem_inter.mp hj).1, (Finset.mem_inter.mp hj).2⟩

theorem IsMajority.nonempty
    {members quorum : Finset ν} (hquorum : IsMajority members quorum) :
    ∃ j, j ∈ quorum := by
  obtain ⟨j, hj, _⟩ := hquorum.exists_common hquorum
  exact ⟨j, hj⟩

theorem getElem?_prefix_mono
    {part log : List E} {k : ℕ} {e : E} (hpart : part <+: log)
    (hget : part[k]? = some e) : log[k]? = some e := by
  obtain ⟨rest, rfl⟩ := hpart
  obtain ⟨hk, _⟩ := List.getElem?_eq_some_iff.mp hget
  rw [List.getElem?_append_left hk]
  exact hget

theorem getElem?_append_singleton
    {log : List E} {k : ℕ} {new e : E} (hget : (log ++ [new])[k]? = some e) :
    k < log.length ∧ log[k]? = some e ∨ k = log.length ∧ e = new := by
  by_cases hk : k < log.length
  · rw [List.getElem?_append_left hk] at hget
    exact .inl ⟨hk, hget⟩
  · obtain ⟨hlt, hval⟩ := List.getElem?_eq_some_iff.mp hget
    simp only [List.length_append, List.length_singleton] at hlt
    obtain rfl : k = log.length := by omega
    simp only [List.getElem_concat_length] at hval
    exact .inr ⟨rfl, hval.symm⟩

/-! ## Histories and their operations -/

structure History {E : Type*} (term : E → ℕ) (ν : Type*) where
  cur : ν → ℕ
  log : ν → List E
  bid : ν → ℕ → Option (List E)
  vote : ν → ℕ → Option ν
  won : ℕ → Option ν
  leaderLog : ℕ → List E
  acked : ν → ℕ → ℕ

def update₂ {A B V : Type*} [DecidableEq A] [DecidableEq B]
    (f : A → B → V) (a : A) (b : B) (v : V) : A → B → V :=
  Function.update f a (Function.update (f a) b v)

theorem update₂_apply {A B V : Type*} [DecidableEq A] [DecidableEq B]
    (f : A → B → V) (a : A) (b : B) (v : V) (x : A) (y : B) :
    update₂ f a b v x y = if x = a ∧ y = b then v else f x y := by
  by_cases hx : x = a
  · subst x
    by_cases hy : y = b
    · subst y
      simp [update₂]
    · simp [update₂, hy]
  · simp [update₂, hx]

namespace History

variable {t : ℕ}

def initial (term : E → ℕ) (ν : Type*) (root : E) : History term ν where
  cur := fun _ => 0
  log := fun _ => [root]
  bid := fun _ _ => none
  vote := fun _ _ => none
  won := fun _ => none
  leaderLog := fun _ => [root]
  acked := fun _ _ => 0

/-! ## What every history satisfies -/

def Rooted (h : History term ν) (log : List E) : Prop :=
  ∀ k e, log[k]? = some e → log.take (k + 1) <+: h.leaderLog (term e)

def Known (h : History term ν) (t : ℕ) : Prop := t = 0 ∨ ∃ w, h.won t = some w

def UpToDate (term : E → ℕ) (first second : List E) : Prop :=
  ∃ e₁ e₂, first.getLast? = some e₁ ∧ second.getLast? = some e₂ ∧ (term e₂ < term e₁ ∨
      term e₁ = term e₂ ∧ second.length ≤ first.length)

structure Sound (members : Finset ν) (h : History term ν) : Prop where
  log_ne : ∀ j, h.log j ≠ []
  leaderLog_ne : ∀ t, h.leaderLog t ≠ []
  vote_cur : ∀ j t c, h.vote j t = some c → t ≤ h.cur j
  vote_bid : ∀ j t c, h.vote j t = some c → ∃ log, h.bid c t = some log
  bid_cur : ∀ c t log, h.bid c t = some log → 0 < t ∧ t ≤ h.cur c
  bid_log : ∀ c t log, h.bid c t = some log → log ≠ [] ∧ h.Rooted log
  bid_term : ∀ c t log, h.bid c t = some log → ∀ e ∈ log, term e < t ∧ h.Known (term e)
  won_votes : ∀ t c, h.won t = some c →
    ∃ quorum, IsMajority members quorum ∧ ∀ j ∈ quorum, h.vote j t = some c
  won_log : ∀ c, h.won (h.cur c) = some c → h.log c = h.leaderLog (h.cur c)
  rooted_log : ∀ j, h.Rooted (h.log j)
  rooted_leaderLog : ∀ t, h.Rooted (h.leaderLog t)
  term_log : ∀ j, ∀ e ∈ h.log j, term e ≤ h.cur j ∧ h.Known (term e)
  term_leaderLog : ∀ t, ∀ e ∈ h.leaderLog t, term e ≤ t ∧ h.Known (term e)
  acked_lt : ∀ j t, h.acked j t < (h.leaderLog t).length
  acked_cur : ∀ j t, 0 < h.acked j t → t ≤ h.cur j
  acked_won : ∀ j t, 0 < h.acked j t → ∃ w, h.won t = some w

theorem initial_sound (members : Finset ν) (root : E) (hroot : term root = 0) :
    Sound members (initial term ν root) := by
  have hrooted : Rooted (initial term ν root) [root] := by
    intro k e hget
    simp only [initial]
    exact List.take_prefix _ _
  constructor
  case bid_log => simp [initial]
  case rooted_log => exact fun _ => hrooted
  case rooted_leaderLog => exact fun _ => hrooted
  case term_log => simp [initial, Known, hroot]
  case term_leaderLog => simp [initial, Known, hroot]
  all_goals simp [initial]

variable {members : Finset ν} {h : History term ν}

theorem Sound.winner_unique (hsound : Sound members h) {c w : ν} {quorum : Finset ν}
    (hquorum : IsMajority members quorum) (hvotes : ∀ j ∈ quorum, h.vote j t = some c)
    (hwon : h.won t = some w) : w = c := by
  obtain ⟨other, hother, hotherVotes⟩ := hsound.won_votes t w hwon
  obtain ⟨j, hj, hjOther⟩ := hquorum.exists_common hother
  have hvote := hvotes j hj
  rw [hotherVotes j hjOther] at hvote
  exact Option.some.inj hvote

theorem Sound.won_pos (hsound : Sound members h) {w : ν} (hwon : h.won t = some w) :
    0 < t ∧ t ≤ h.cur w := by
  obtain ⟨quorum, hquorum, hvotes⟩ := hsound.won_votes t w hwon
  obtain ⟨j, hj⟩ := hquorum.nonempty
  obtain ⟨log, hbid⟩ := hsound.vote_bid j t w (hvotes j hj)
  exact hsound.bid_cur w t log hbid

theorem Known.ne_of_unwon {s : ℕ} (hknown : h.Known s) (hunwon : h.won t = none)
    (hpos : 0 < t) : s ≠ t := by
  intro heq
  rcases hknown with hzero | ⟨w, hw⟩
  · omega
  · rw [heq, hunwon] at hw
    cases hw

/-! ### Rooted logs -/

theorem Rooted.shorten
    {log part : List E} (hrooted : h.Rooted log) (hpart : part <+: log) :
    h.Rooted part := by
  intro k e hget
  have hpre := hrooted k e (getElem?_prefix_mono hpart hget)
  obtain ⟨hk, _⟩ := List.getElem?_eq_some_iff.mp hget
  obtain ⟨rest, rfl⟩ := hpart
  rwa [List.take_append_of_le_length (by omega)] at hpre

theorem Rooted.take_eq
    {first second : List E} {k : ℕ} {e₁ e₂ : E}
    (hfirst : h.Rooted first) (hsecond : h.Rooted second)
    (hget₁ : first[k]? = some e₁) (hget₂ : second[k]? = some e₂)
    (hterm : term e₁ = term e₂) :
    first.take (k + 1) = second.take (k + 1) := by
  have h₁ := hfirst k e₁ hget₁
  have h₂ := hsecond k e₂ hget₂
  rw [hterm] at h₁
  obtain ⟨hk₁, _⟩ := List.getElem?_eq_some_iff.mp hget₁
  obtain ⟨hk₂, _⟩ := List.getElem?_eq_some_iff.mp hget₂
  have hlen : (first.take (k + 1)).length = (second.take (k + 1)).length := by
    simp only [List.length_take]
    omega
  exact (List.prefix_of_prefix_length_le h₁ h₂ hlen.le).eq_of_length hlen

theorem Rooted.prefix_leaderLog
    {log : List E} {e : E} (hrooted : h.Rooted log)
    (hlast : log.getLast? = some e) : log <+: h.leaderLog (term e) := by
  rw [List.getLast?_eq_getElem?] at hlast
  have hpre := hrooted (log.length - 1) e hlast
  obtain ⟨hk, _⟩ := List.getElem?_eq_some_iff.mp hlast
  rwa [List.take_of_length_le (by omega)] at hpre

/-! ## The operations -/

section Operations

variable [DecidableEq ν]
variable {j : ν} {t : ℕ} {log : List E}

def raise (h : History term ν) (j : ν) (t : ℕ) : History term ν :=
  { h with cur := Function.update h.cur j t }

def stand (h : History term ν) (j : ν) (t : ℕ) : History term ν :=
  { h with
    cur := Function.update h.cur j t
    bid := update₂ h.bid j t (some (h.log j))
    vote := update₂ h.vote j t (some j) }

def grant (h : History term ν) (j candidate : ν) : History term ν :=
  { h with vote := update₂ h.vote j (h.cur j) (some candidate) }

def win (h : History term ν) (j : ν) : History term ν :=
  { h with
    won := Function.update h.won (h.cur j) (some j)
    leaderLog := Function.update h.leaderLog (h.cur j) (h.log j)
    acked := update₂ h.acked j (h.cur j) ((h.log j).length - 1) }

def extend (h : History term ν) (j : ν) (e : E) : History term ν :=
  { h with
    log := Function.update h.log j (h.log j ++ [e])
    leaderLog := Function.update h.leaderLog (h.cur j) (h.log j ++ [e])
    acked := update₂ h.acked j (h.cur j) (h.log j).length }

def adopt (h : History term ν) (j : ν) (log : List E) : History term ν :=
  { h with log := Function.update h.log j log }

def ack (h : History term ν) (j : ν) (k : ℕ) : History term ν :=
  { h with
    acked := update₂ h.acked j (h.cur j) (max (h.acked j (h.cur j)) k) }

theorem cur_le_raise (h : History term ν) (ht : h.cur j < t) (i : ν) :
    h.cur i ≤ Function.update h.cur j t i := by
  by_cases hi : i = j
  · subst i
    simpa using ht.le
  · simp [hi]

theorem Sound.raise (hsound : Sound members h) (ht : h.cur j < t) : Sound members (h.raise j t) :=
  { hsound with
    vote_cur := fun i s c hvote =>
      (hsound.vote_cur i s c hvote).trans (h.cur_le_raise ht i)
    bid_cur := fun c s log hbid =>
      ⟨(hsound.bid_cur c s log hbid).1, (hsound.bid_cur c s log hbid).2.trans (h.cur_le_raise ht c)⟩
    won_log := by
      intro c hwon
      by_cases hc : c = j
      · subst c
        have hlater := (hsound.won_pos hwon).2
        simp only [History.raise, Function.update_self] at hlater
        omega
      · simp only [History.raise, Function.update_of_ne hc] at hwon ⊢
        exact hsound.won_log c hwon
    term_log := fun i e he =>
      ⟨(hsound.term_log i e he).1.trans (h.cur_le_raise ht i), (hsound.term_log i e he).2⟩
    acked_cur := fun i s hpos =>
      (hsound.acked_cur i s hpos).trans (h.cur_le_raise ht i) }

theorem Sound.stand (hsound : Sound members h) (ht : h.cur j < t) : Sound members (h.stand j t) :=
  { hsound.raise ht with
    vote_cur := by
      intro i s c hvote
      simp only [History.stand, update₂_apply] at hvote ⊢
      split at hvote
      · rename_i heq
        simp [heq.1, heq.2]
      · exact (hsound.vote_cur i s c hvote).trans (h.cur_le_raise ht i)
    vote_bid := by
      intro i s c hvote
      simp only [History.stand, update₂_apply] at hvote ⊢
      split at hvote
      · rename_i heq
        cases hvote
        exact ⟨h.log j, by simp [heq.2]⟩
      · obtain ⟨log, hbid⟩ := hsound.vote_bid i s c hvote
        split
        · exact ⟨_, rfl⟩
        · exact ⟨log, hbid⟩
    bid_cur := by
      intro c s log hbid
      simp only [History.stand, update₂_apply] at hbid ⊢
      split at hbid
      · rename_i heq
        simp only [heq.1, heq.2, Function.update_self, le_refl, and_true]
        omega
      · have hold := hsound.bid_cur c s log hbid
        exact ⟨hold.1, hold.2.trans (h.cur_le_raise ht c)⟩
    bid_log := by
      intro c s log hbid
      simp only [History.stand, update₂_apply] at hbid
      split at hbid
      · cases hbid
        exact ⟨hsound.log_ne j, hsound.rooted_log j⟩
      · exact hsound.bid_log c s log hbid
    bid_term := by
      intro c s log hbid e he
      simp only [History.stand, update₂_apply] at hbid
      split at hbid
      · rename_i heq
        cases hbid
        have hterm := hsound.term_log j e he
        exact ⟨by omega, hterm.2⟩
      · exact hsound.bid_term c s log hbid e he
    won_votes := by
      intro s c hwon
      obtain ⟨quorum, hquorum, hvotes⟩ := hsound.won_votes s c hwon
      refine ⟨quorum, hquorum, ?_⟩
      intro i hi
      have hvote := hvotes i hi
      simp only [History.stand, update₂_apply]
      rw [if_neg]
      · exact hvote
      · rintro ⟨rfl, rfl⟩
        have hcur := hsound.vote_cur i s c hvote
        omega }

theorem Sound.grant (hsound : Sound members h) {c : ν}
    (hfree : h.vote j (h.cur j) = none ∨ h.vote j (h.cur j) = some c)
    (hbid : h.bid c (h.cur j) = some log) : Sound members (h.grant j c) :=
  { hsound with
    vote_cur := by
      intro i s d hvote
      simp only [History.grant, update₂_apply] at hvote ⊢
      split at hvote
      · rename_i heq
        simp [heq.1, heq.2]
      · exact hsound.vote_cur i s d hvote
    vote_bid := by
      intro i s d hvote
      simp only [History.grant, update₂_apply] at hvote ⊢
      split at hvote
      · rename_i heq
        cases hvote
        exact ⟨log, heq.2 ▸ hbid⟩
      · exact hsound.vote_bid i s d hvote
    won_votes := by
      intro s d hwon
      obtain ⟨quorum, hquorum, hvotes⟩ := hsound.won_votes s d hwon
      refine ⟨quorum, hquorum, ?_⟩
      intro i hi
      have hvote := hvotes i hi
      simp only [History.grant, update₂_apply]
      split
      · rename_i heq
        obtain ⟨rfl, rfl⟩ := heq
        rcases hfree with hnone | hsome
        · rw [hnone] at hvote
          cases hvote
        · rw [← hsome]
          exact hvote
      · exact hvote }

theorem Rooted.win (hrooted : h.Rooted log) (hunwon : h.won (h.cur j) = none)
    (hpos : 0 < h.cur j) (hknown : ∀ e ∈ log, h.Known (term e)) :
    (h.win j).Rooted log := by
  intro k e hget
  have hne := (hknown e (List.mem_of_getElem? hget)).ne_of_unwon hunwon hpos
  simp only [History.win, Function.update_of_ne hne]
  exact hrooted k e hget

theorem Known.win (hknown : h.Known t) : (h.win j).Known t := by
  rcases hknown with hzero | ⟨w, hw⟩
  · exact .inl hzero
  · right
    by_cases ht : t = h.cur j
    · exact ⟨j, by simp [History.win, ht]⟩
    · exact ⟨w, by simpa [History.win, ht] using hw⟩

theorem Sound.win (hsound : Sound members h) {quorum : Finset ν}
    (hbid : h.bid j (h.cur j) = some (h.log j)) (hunwon : h.won (h.cur j) = none)
    (hquorum : IsMajority members quorum)
    (hvotes : ∀ i ∈ quorum, h.vote i (h.cur j) = some j) : Sound members (h.win j) := by
  have hpos : 0 < h.cur j := (hsound.bid_cur j _ _ hbid).1
  have hrootedLog : ∀ i, (h.win j).Rooted (h.log i) := fun i =>
    (hsound.rooted_log i).win hunwon hpos fun e he => (hsound.term_log i e he).2
  have hunacked : ∀ i, h.acked i (h.cur j) = 0 := by
    intro i
    by_contra hne
    obtain ⟨w, hw⟩ := hsound.acked_won i (h.cur j) (by omega)
    rw [hunwon] at hw
    cases hw
  constructor
  case log_ne => exact hsound.log_ne
  case leaderLog_ne =>
    intro t
    by_cases ht : t = h.cur j
    · simpa [History.win, ht] using hsound.log_ne j
    · simpa [History.win, ht] using hsound.leaderLog_ne t
  case vote_cur => exact hsound.vote_cur
  case vote_bid => exact hsound.vote_bid
  case bid_cur => exact hsound.bid_cur
  case bid_log =>
    intro c t log hlog
    have hold := hsound.bid_log c t log hlog
    exact ⟨hold.1, hold.2.win hunwon hpos fun e he => (hsound.bid_term c t log hlog e he).2⟩
  case bid_term =>
    intro c t log hlog e he
    have hold := hsound.bid_term c t log hlog e he
    exact ⟨hold.1, hold.2.win⟩
  case won_votes =>
    intro t c hwon
    by_cases ht : t = h.cur j
    · subst t
      simp only [History.win, Function.update_self, Option.some.injEq] at hwon
      subst c
      exact ⟨quorum, hquorum, hvotes⟩
    · simp only [History.win, Function.update_of_ne ht] at hwon
      exact hsound.won_votes t c hwon
  case won_log =>
    intro c hwon
    by_cases hc : h.cur c = h.cur j
    · simp only [History.win, hc, Function.update_self, Option.some.injEq] at hwon ⊢
      rw [hwon]
    · simp only [History.win, Function.update_of_ne hc] at hwon ⊢
      exact hsound.won_log c hwon
  case rooted_log => exact hrootedLog
  case rooted_leaderLog =>
    intro t
    by_cases ht : t = h.cur j
    · have hlog : (h.win j).leaderLog t = h.log j := by simp [History.win, ht]
      rw [hlog]
      exact hrootedLog j
    · have hlog : (h.win j).leaderLog t = h.leaderLog t := by
        simp [History.win, ht]
      rw [hlog]
      exact (hsound.rooted_leaderLog t).win hunwon hpos fun e he => (hsound.term_leaderLog t e he).2
  case term_log =>
    intro i e he
    have hold := hsound.term_log i e he
    exact ⟨hold.1, hold.2.win⟩
  case term_leaderLog =>
    intro t e he
    by_cases ht : t = h.cur j
    · simp only [History.win, ht, Function.update_self] at he
      have hold := hsound.term_log j e he
      exact ⟨ht ▸ hold.1, hold.2.win⟩
    · simp only [History.win, Function.update_of_ne ht] at he
      have hold := hsound.term_leaderLog t e he
      exact ⟨hold.1, hold.2.win⟩
  case acked_lt =>
    intro i t
    have hlen : 0 < (h.log j).length := List.length_pos_iff.mpr (hsound.log_ne j)
    by_cases ht : t = h.cur j
    · subst t
      simp only [History.win, update₂_apply, Function.update_self, and_true]
      split
      · omega
      · rw [hunacked i]
        exact hlen
    · simp only [History.win, update₂_apply, ht, and_false, if_false, ne_eq,
        not_false_eq_true, Function.update_of_ne]
      exact hsound.acked_lt i t
  case acked_cur =>
    intro i t hacked
    simp only [History.win, update₂_apply] at hacked ⊢
    split at hacked
    · rename_i heq
      rw [heq.1, heq.2]
    · exact hsound.acked_cur i t hacked
  case acked_won =>
    intro i t hacked
    by_cases ht : t = h.cur j
    · exact ⟨j, by simp [History.win, ht]⟩
    · simp only [History.win, update₂_apply, ht, and_false, if_false, ne_eq,
        not_false_eq_true, Function.update_of_ne] at hacked ⊢
      exact hsound.acked_won i t hacked

theorem leaderLog_prefix_extend (hlog : h.log j = h.leaderLog (h.cur j)) (e : E) (t : ℕ) :
    h.leaderLog t <+: (h.extend j e).leaderLog t := by
  by_cases ht : t = h.cur j
  · subst t
    simp only [History.extend, Function.update_self, hlog]
    exact List.prefix_append _ _
  · simp only [History.extend, Function.update_of_ne ht]
    exact List.prefix_rfl

theorem Rooted.extend (hlog : h.log j = h.leaderLog (h.cur j)) (e : E)
    (hrooted : h.Rooted log) : (h.extend j e).Rooted log :=
  fun k d hget => (hrooted k d hget).trans (leaderLog_prefix_extend hlog e _)

variable (hsound : Sound members h)
include hsound

theorem Sound.rooted_extend (hlog : h.log j = h.leaderLog (h.cur j)) {e : E}
    (hterm : term e = h.cur j) :
    (h.extend j e).Rooted (h.log j ++ [e]) := by
  intro k d hget
  rcases getElem?_append_singleton hget with ⟨hk, hold⟩ | ⟨rfl, rfl⟩
  · rw [List.take_append_of_le_length (by omega)]
    exact (hsound.rooted_log j).extend hlog e k d hold
  · rw [List.take_of_length_le (by simp)]
    simp [History.extend, hterm]

theorem Sound.extend {e : E} (hwon : h.won (h.cur j) = some j) (hterm : term e = h.cur j) :
    Sound members (h.extend j e) := by
  have hlog := hsound.won_log j hwon
  have hterms : ∀ d ∈ h.log j ++ [e], term d ≤ h.cur j ∧ h.Known (term d) := by
    intro d hd
    rcases List.mem_append.mp hd with hold | hnew
    · exact hsound.term_log j d hold
    · rw [List.mem_singleton.mp hnew]
      exact ⟨hterm.le, .inr ⟨j, hterm ▸ hwon⟩⟩
  constructor
  case log_ne =>
    intro i
    by_cases hi : i = j
    · simp [History.extend, hi]
    · simpa [History.extend, hi] using hsound.log_ne i
  case leaderLog_ne =>
    intro t
    by_cases ht : t = h.cur j
    · simp [History.extend, ht]
    · simpa [History.extend, ht] using hsound.leaderLog_ne t
  case vote_cur => exact hsound.vote_cur
  case vote_bid => exact hsound.vote_bid
  case bid_cur => exact hsound.bid_cur
  case bid_log =>
    intro c t log hbid
    have hold := hsound.bid_log c t log hbid
    exact ⟨hold.1, hold.2.extend hlog e⟩
  case bid_term => exact hsound.bid_term
  case won_votes => exact hsound.won_votes
  case won_log =>
    intro c hc
    by_cases hcur : h.cur c = h.cur j
    · have hcj : c = j := by
        simp only [History.extend, hcur] at hc
        rw [hwon] at hc
        exact (Option.some.inj hc).symm
      subst c
      simp [History.extend]
    · have hcj : c ≠ j := fun heq => hcur (by rw [heq])
      simp only [History.extend, Function.update_of_ne hcur, Function.update_of_ne hcj] at hc ⊢
      exact hsound.won_log c hc
  case rooted_log =>
    intro i
    by_cases hi : i = j
    · subst i
      simpa [History.extend] using hsound.rooted_extend hlog hterm
    · have heq : (h.extend j e).log i = h.log i := by simp [History.extend, hi]
      rw [heq]
      exact (hsound.rooted_log i).extend hlog e
  case rooted_leaderLog =>
    intro t
    by_cases ht : t = h.cur j
    · subst t
      simpa [History.extend] using hsound.rooted_extend hlog hterm
    · have heq : (h.extend j e).leaderLog t = h.leaderLog t := by
        simp [History.extend, ht]
      rw [heq]
      exact (hsound.rooted_leaderLog t).extend hlog e
  case term_log =>
    intro i d hd
    by_cases hi : i = j
    · subst i
      exact hterms d (by simpa only [History.extend, Function.update_self] using hd)
    · simp only [History.extend, Function.update_of_ne hi] at hd
      exact hsound.term_log i d hd
  case term_leaderLog =>
    intro t d hd
    by_cases ht : t = h.cur j
    · subst t
      exact hterms d (by simpa only [History.extend, Function.update_self] using hd)
    · simp only [History.extend, Function.update_of_ne ht] at hd
      exact hsound.term_leaderLog t d hd
  case acked_lt =>
    intro i t
    have hgrow := (leaderLog_prefix_extend hlog e t).length_le
    by_cases heq : i = j ∧ t = h.cur j
    · obtain ⟨rfl, rfl⟩ := heq
      simp [History.extend, update₂_apply]
    · have hacked : (h.extend j e).acked i t = h.acked i t := by
        simp only [History.extend, update₂_apply, if_neg heq]
      rw [hacked]
      exact (hsound.acked_lt i t).trans_le hgrow
  case acked_cur =>
    intro i t hacked
    simp only [History.extend, update₂_apply] at hacked ⊢
    split at hacked
    · rename_i heq
      rw [heq.1, heq.2]
    · exact hsound.acked_cur i t hacked
  case acked_won =>
    intro i t hacked
    simp only [History.extend, update₂_apply] at hacked ⊢
    split at hacked
    · rename_i heq
      exact ⟨j, heq.2 ▸ hwon⟩
    · exact hsound.acked_won i t hacked

theorem Sound.adopt {w : ν} (hwon : h.won (h.cur j) = some w)
    (hw : w ≠ j) (hne : log ≠ []) (hlog : log <+: h.leaderLog (h.cur j)) :
    Sound members (h.adopt j log) :=
  { hsound with
    log_ne := by
      intro i
      by_cases hi : i = j
      · simpa [History.adopt, hi] using hne
      · simpa [History.adopt, hi] using hsound.log_ne i
    won_log := by
      intro c hc
      by_cases hcj : c = j
      · subst c
        rw [show (h.adopt j log).won ((h.adopt j log).cur j) = h.won (h.cur j) from rfl, hwon] at hc
        exact absurd (Option.some.inj hc) hw
      · simp only [History.adopt, Function.update_of_ne hcj]
        exact hsound.won_log c hc
    rooted_log := by
      intro i
      by_cases hi : i = j
      · subst i
        simp only [History.adopt, Function.update_self]
        exact (hsound.rooted_leaderLog (h.cur j)).shorten hlog
      · simp only [History.adopt, Function.update_of_ne hi]
        exact hsound.rooted_log i
    term_log := by
      intro i e he
      by_cases hi : i = j
      · subst i
        simp only [History.adopt, Function.update_self] at he
        exact hsound.term_leaderLog (h.cur j) e (hlog.subset he)
      · simp only [History.adopt, Function.update_of_ne hi] at he
        exact hsound.term_log i e he }

theorem Sound.ack {w : ν} {k : ℕ}
    (hwon : h.won (h.cur j) = some w) (hk : k < (h.leaderLog (h.cur j)).length) :
    Sound members (h.ack j k) :=
  { hsound with
    acked_lt := by
      intro i t
      simp only [History.ack, update₂_apply]
      split
      · rename_i heq
        rw [heq.2]
        exact max_lt (hsound.acked_lt j (h.cur j)) hk
      · exact hsound.acked_lt i t
    acked_cur := by
      intro i t hacked
      simp only [History.ack, update₂_apply] at hacked ⊢
      split at hacked
      · rename_i heq
        rw [heq.1, heq.2]
      · exact hsound.acked_cur i t hacked
    acked_won := by
      intro i t hacked
      simp only [History.ack, update₂_apply] at hacked ⊢
      split at hacked
      · rename_i heq
        exact ⟨w, heq.2 ▸ hwon⟩
      · exact hsound.acked_won i t hacked }

end Operations

end History

end MCache
