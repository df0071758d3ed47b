import MCache.LeaderHistory

/-!
# Completeness of leader histories

A position of a leader's log is fixed when its entry was written in the
leader's own term, and chosen when a majority has acknowledged it.  The
invariant `Complete` is stated without reference to what has been chosen so
far: a later leader either has the log up to a fixed position, or every
majority contains a node that left the term without acknowledging it.
-/

namespace MCache
namespace History

variable {E : Type*} {term : E → ℕ} {ν : Type*}
variable {members : Finset ν} {h : History term ν}
variable {t k s limit : ℕ} {log : List E}

def Fixed (h : History term ν) (t k : ℕ) : Prop :=
  0 < k ∧ ∃ e, (h.leaderLog t)[k]? = some e ∧ term e = t

def upTo (h : History term ν) (t k : ℕ) : List E := (h.leaderLog t).take (k + 1)

def Lost (h : History term ν) (t k limit : ℕ) : Prop :=
  ∃ s w, t < s ∧ s < limit ∧ h.won s = some w ∧ ¬ h.upTo t k <+: h.leaderLog s

def Chosen (members : Finset ν) (h : History term ν) (t k : ℕ) : Prop := h.Fixed t k ∧
    ∃ quorum, IsMajority members quorum ∧ ∀ j ∈ quorum, k ≤ h.acked j t

def Unchosen (members : Finset ν) (h : History term ν) (t k : ℕ) : Prop :=
  ∀ quorum, IsMajority members quorum → ∃ j ∈ quorum, t < h.cur j ∧ h.acked j t < k

structure Complete (members : Finset ν) (h : History term ν) : Prop where
  kept : ∀ j t k, h.Fixed t k → k ≤ h.acked j t → h.upTo t k <+: h.log j ∨ h.Lost t k (h.cur j + 1)
  voted : ∀ j c s log t k, h.vote j s = some c → h.bid c s = some log →
    h.won s = none → t < s → h.Fixed t k → k ≤ h.acked j t →
    h.upTo t k <+: log ∨ h.Lost t k s
  complete : ∀ t s w k, t < s → h.won s = some w → h.Fixed t k →
    h.upTo t k <+: h.leaderLog s ∨ Unchosen members h t k

/-! ## Chosen positions -/

theorem Chosen.not_unchosen (hchosen : Chosen members h t k) : ¬ Unchosen members h t k := by
  intro hunchosen
  obtain ⟨_, quorum, hquorum, hacked⟩ := hchosen
  obtain ⟨j, hj, _, hlt⟩ := hunchosen quorum hquorum
  have hle := hacked j hj
  omega

theorem Complete.upTo_prefix (hcomplete : Complete members h) {w : ν}
    (hchosen : Chosen members h t k) (hts : t ≤ s) (hwon : h.won s = some w) :
    h.upTo t k <+: h.leaderLog s := by
  rcases hts.eq_or_lt with rfl | hlt
  · exact List.take_prefix _ _
  · rcases hcomplete.complete t s w k hlt hwon hchosen.1 with hpre | hun
    · exact hpre
    · exact absurd hun hchosen.not_unchosen

theorem Sound.chosen_won (hsound : Sound members h) (hchosen : Chosen members h t k) :
    ∃ w, h.won t = some w := by
  obtain ⟨⟨hpos, _⟩, quorum, hquorum, hacked⟩ := hchosen
  obtain ⟨j, hj⟩ := hquorum.nonempty
  exact hsound.acked_won j t (hpos.trans_le (hacked j hj))

theorem Complete.chosen_comparable (hcomplete : Complete members h)
    (hsound : Sound members h) {l : ℕ} (hfirst : Chosen members h t k)
    (hsecond : Chosen members h s l) :
    h.upTo t k <+: h.upTo s l ∨ h.upTo s l <+: h.upTo t k := by
  rcases le_total t s with hts | hst
  · obtain ⟨w, hw⟩ := hsound.chosen_won hsecond
    exact List.prefix_or_prefix_of_prefix
      (hcomplete.upTo_prefix hfirst hts hw) (List.take_prefix _ _)
  · obtain ⟨w, hw⟩ := hsound.chosen_won hfirst
    exact List.prefix_or_prefix_of_prefix
      (List.take_prefix _ _) (hcomplete.upTo_prefix hsecond hst hw)

def Settled (members : Finset ν) (h : History term ν) (limit : ℕ) (log : List E) : Prop :=
  log.length ≤ 1 ∨ ∃ t k, t ≤ limit ∧ Chosen members h t k ∧ log <+: h.upTo t k

/-! ## The voting rule -/

theorem Sound.term_upTo (hsound : Sound members h) {e : E} (he : e ∈ h.upTo t k) : term e ≤ t :=
  (hsound.term_leaderLog t e (List.mem_of_mem_take he)).1

theorem Sound.upTo_prefix_of_upToDate (hsound : Sound members h) {other : List E}
    (hfixed : h.Fixed t k) (hrooted : h.Rooted log) (hother : h.Rooted other)
    (hterm : ∀ e ∈ log, term e < s ∧ h.Known (term e)) (hup : UpToDate term log other)
    (hheld : h.upTo t k <+: other) (hnotLost : ¬ h.Lost t k s) :
    h.upTo t k <+: log := by
  obtain ⟨e₁, e₂, hlast₁, hlast₂, horder⟩ := hup
  have hlogPrefix := hrooted.prefix_leaderLog hlast₁
  have hotherPrefix := hother.prefix_leaderLog hlast₂
  obtain ⟨_, e, hget, heterm⟩ := hfixed
  have hmem : e ∈ h.upTo t k := by
    apply List.mem_of_getElem? (i := k)
    rw [upTo, List.getElem?_take_of_lt (by omega)]
    exact hget
  have hte₂ : t ≤ term e₂ := by
    rw [← heterm]
    exact (hsound.term_leaderLog (term e₂) e (hotherPrefix.subset (hheld.subset hmem))).1
  rcases (show t ≤ term e₁ by omega).eq_or_lt with heq | hlt
  · have hlen : (h.upTo t k).length ≤ log.length := by
      have hle := hheld.length_le
      omega
    rw [← heq] at hlogPrefix
    exact List.prefix_of_prefix_length_le (List.take_prefix _ _) hlogPrefix hlen
  · have he₁ := hterm e₁ (List.mem_of_getLast? hlast₁)
    obtain ⟨w, hw⟩ : ∃ w, h.won (term e₁) = some w := by
      rcases he₁.2 with hzero | hwon
      · omega
      · exact hwon
    have hleader : h.upTo t k <+: h.leaderLog (term e₁) := by
      by_contra hnot
      exact hnotLost ⟨term e₁, w, hlt, he₁.1, hw, hnot⟩
    rcases List.prefix_or_prefix_of_prefix hleader hlogPrefix with hdone | hshort
    · exact hdone
    · have hbound := hsound.term_upTo (hshort.subset (List.mem_of_getLast? hlast₁))
      omega

/-! ## The operations keep completeness -/

theorem initial_complete (members : Finset ν) (root : E) :
    Complete members (initial term ν root) where
  kept := by
    intro j t k hfixed hk
    obtain ⟨hpos, _⟩ := hfixed
    simp only [initial] at hk
    omega
  voted := by simp [initial]
  complete := by simp [initial]

theorem Lost.mono {later : ℕ} (hlost : h.Lost t k limit) (hle : limit ≤ later) :
    h.Lost t k later := by
  obtain ⟨s, w, hts, hs, hwon, hnot⟩ := hlost
  exact ⟨s, w, hts, hs.trans_le hle, hwon, hnot⟩

theorem Unchosen.of_cur {h' : History term ν} (hun : Unchosen members h t k)
    (hcur : ∀ j, t < h.cur j → t < h'.cur j ∧ h'.acked j t = h.acked j t) :
    Unchosen members h' t k := by
  intro quorum hquorum
  obtain ⟨j, hj, hleft, hlt⟩ := hun quorum hquorum
  obtain ⟨hleft', hacked⟩ := hcur j hleft
  exact ⟨j, hj, hleft', hacked ▸ hlt⟩

theorem Complete.bid_complete (hcomplete : Complete members h)
    (hsound : Sound members h) {j : ν} {quorum : Finset ν}
    (hbid : h.bid j (h.cur j) = some (h.log j)) (hunwon : h.won (h.cur j) = none)
    (hquorum : IsMajority members quorum)
    (hvotes : ∀ i ∈ quorum, h.vote i (h.cur j) = some j) (ht : t < h.cur j)
    (hfixed : h.Fixed t k) : h.upTo t k <+: h.log j ∨ Unchosen members h t k := by
  by_cases hpre : h.upTo t k <+: h.log j
  · exact .inl hpre
  right
  intro other hother
  obtain ⟨i, hi, hiOther⟩ := hquorum.exists_common hother
  have hcur := hsound.vote_cur i _ j (hvotes i hi)
  by_cases hacked : h.acked i t < k
  · exact ⟨i, hiOther, by omega, hacked⟩
  · rcases hcomplete.voted i j _ _ t k (hvotes i hi) hbid hunwon ht hfixed
      (by omega) with hheld | hlost
    · exact absurd hheld hpre
    · obtain ⟨s, w, hts, _, hwon, hnot⟩ := hlost
      rcases hcomplete.complete t s w k hts hwon hfixed with hheld | hun
      · exact absurd hheld hnot
      · exact hun other hother

section Operations

variable [DecidableEq ν]
variable {j : ν} {t k : ℕ} {e : E}

theorem Complete.raise (hcomplete : Complete members h) (ht : h.cur j < t) :
    Complete members (h.raise j t) where
  kept := by
    intro i s k hfixed hk
    rcases hcomplete.kept i s k hfixed hk with hpre | hlost
    · exact .inl hpre
    · exact .inr (hlost.mono (Nat.succ_le_succ (h.cur_le_raise ht i)))
  voted := hcomplete.voted
  complete := by
    intro s r w k hsr hwon hfixed
    refine (hcomplete.complete s r w k hsr hwon hfixed).imp_right fun hun => ?_
    exact hun.of_cur fun i hi => ⟨hi.trans_le (h.cur_le_raise ht i), rfl⟩

theorem Complete.stand (hcomplete : Complete members h) (hsound : Sound members h)
    (ht : h.cur j < t) : Complete members (h.stand j t) where
  kept := (hcomplete.raise ht).kept
  voted := by
    intro i c s log r k hvote hbid hunwon hrs hfixed hk
    simp only [History.stand, update₂_apply] at hvote hbid
    split at hvote
    · rename_i heq
      obtain ⟨rfl, rfl⟩ := heq
      cases hvote
      simp only [and_self, if_true, Option.some.injEq] at hbid
      subst log
      rcases hcomplete.kept i r k hfixed hk with hpre | hlost
      · exact .inl hpre
      · exact .inr (hlost.mono ht)
    · split at hbid
      · rename_i heq
        obtain ⟨rfl, rfl⟩ := heq
        obtain ⟨old, hold⟩ := hsound.vote_bid i s c hvote
        have hcur := (hsound.bid_cur c s old hold).2
        omega
      · exact hcomplete.voted i c s log r k hvote hbid hunwon hrs hfixed hk
  complete := (hcomplete.raise ht).complete

theorem Complete.grant (hcomplete : Complete members h) (hsound : Sound members h)
    {c : ν} {log : List E} (hbid : h.bid c (h.cur j) = some log)
    (hup : UpToDate term log (h.log j)) : Complete members (h.grant j c) where
  kept := hcomplete.kept
  voted := by
    intro i d s other r k hvote hother hunwon hrs hfixed hk
    simp only [History.grant, update₂_apply] at hvote
    split at hvote
    · rename_i heq
      obtain ⟨rfl, rfl⟩ := heq
      cases hvote
      obtain rfl : log = other := by
        have hsame := hbid.symm.trans hother
        exact Option.some.inj hsame
      by_cases hlost : h.Lost r k (h.cur i)
      · exact .inr hlost
      left
      have hheld : h.upTo r k <+: h.log i := by
        rcases hcomplete.kept i r k hfixed hk with hpre | hlater
        · exact hpre
        · obtain ⟨q, w, hrq, hq, hwon, hnot⟩ := hlater
          have hne : q ≠ h.cur i := by
            rintro rfl
            rw [show h.won (h.cur i) = none from hunwon] at hwon
            cases hwon
          exact absurd ⟨q, w, hrq, by omega, hwon, hnot⟩ hlost
      exact hsound.upTo_prefix_of_upToDate hfixed
        (hsound.bid_log c _ _ hbid).2 (hsound.rooted_log i)
        (hsound.bid_term c _ _ hbid) hup hheld hlost
    · exact hcomplete.voted i d s other r k hvote hother hunwon hrs hfixed hk
  complete := hcomplete.complete

theorem Complete.win (hcomplete : Complete members h) (hsound : Sound members h)
    {quorum : Finset ν} (hbid : h.bid j (h.cur j) = some (h.log j))
    (hunwon : h.won (h.cur j) = none) (hquorum : IsMajority members quorum)
    (hvotes : ∀ i ∈ quorum, h.vote i (h.cur j) = some j) :
    Complete members (h.win j) := by
  -- The new leader's log has no entry of its own term yet.
  have hfixed : ∀ {t k}, (h.win j).Fixed t k → t ≠ h.cur j ∧ h.Fixed t k := by
    intro t k hnew
    obtain ⟨hpos, e, hget, hterm⟩ := hnew
    by_cases ht : t = h.cur j
    · obtain rfl := ht
      simp only [History.win, Function.update_self] at hget
      have hlt := (hsound.bid_term j _ _ hbid e (List.mem_of_getElem? hget)).1
      omega
    · simp only [History.win, Function.update_of_ne ht] at hget
      exact ⟨ht, hpos, e, hget, hterm⟩
  have hupTo : ∀ {t k}, t ≠ h.cur j → (h.win j).upTo t k = h.upTo t k := by
    intro t k ht
    simp [upTo, History.win, ht]
  have hacked : ∀ {i t}, t ≠ h.cur j → (h.win j).acked i t = h.acked i t := by
    intro i t ht
    simp [History.win, update₂_apply, ht]
  have hlost : ∀ {t k limit}, t ≠ h.cur j → h.Lost t k limit → (h.win j).Lost t k limit := by
    intro t k limit ht hold
    obtain ⟨s, w, hts, hs, hwon, hnot⟩ := hold
    have hne : s ≠ h.cur j := by
      rintro rfl
      rw [hunwon] at hwon
      cases hwon
    refine ⟨s, w, hts, hs, ?_, ?_⟩
    · simpa [History.win, hne] using hwon
    · rw [hupTo ht]
      simpa [History.win, hne] using hnot
  constructor
  case kept =>
    intro i t k hnew hk
    obtain ⟨ht, hold⟩ := hfixed hnew
    rw [hacked ht] at hk
    rw [hupTo ht]
    exact (hcomplete.kept i t k hold hk).imp_right (hlost ht)
  case voted =>
    intro i c s log t k hvote hlog hnone hts hnew hk
    obtain ⟨ht, hold⟩ := hfixed hnew
    rw [hacked ht] at hk
    rw [hupTo ht]
    have hs : s ≠ h.cur j := by
      rintro rfl
      simp [History.win] at hnone
    have hnone' : h.won s = none := by simpa [History.win, hs] using hnone
    exact (hcomplete.voted i c s log t k hvote hlog hnone' hts hold hk).imp_right (hlost ht)
  case complete =>
    intro t s w k hts hwon hnew
    obtain ⟨ht, hold⟩ := hfixed hnew
    rw [hupTo ht]
    have hgoal : h.upTo t k <+: (h.win j).leaderLog s ∨ Unchosen members h t k := by
      by_cases hs : s = h.cur j
      · subst s
        simp only [History.win, Function.update_self]
        exact hcomplete.bid_complete hsound hbid hunwon hquorum hvotes hts hold
      · simp only [History.win, Function.update_of_ne hs] at hwon ⊢
        exact hcomplete.complete t s w k hts hwon hold
    exact hgoal.imp_right fun hun => hun.of_cur fun i hi => ⟨hi, hacked ht⟩

theorem Fixed.of_extend (hlog : h.log j = h.leaderLog (h.cur j))
    (hfixed : (h.extend j e).Fixed t k) :
    h.Fixed t k ∨ t = h.cur j ∧ k = (h.log j).length := by
  obtain ⟨hpos, d, hget, hterm⟩ := hfixed
  by_cases ht : t = h.cur j
  · obtain rfl := ht
    simp only [History.extend, Function.update_self] at hget
    rcases getElem?_append_singleton hget with ⟨_, hold⟩ | ⟨hk, _⟩
    · rw [hlog] at hold
      exact .inl ⟨hpos, d, hold, hterm⟩
    · exact .inr ⟨rfl, hk⟩
  · simp only [History.extend, Function.update_of_ne ht] at hget
    exact .inl ⟨hpos, d, hget, hterm⟩

theorem Fixed.upTo_extend (hlog : h.log j = h.leaderLog (h.cur j)) (e : E)
    (hfixed : h.Fixed t k) : (h.extend j e).upTo t k = h.upTo t k := by
  obtain ⟨_, d, hget, _⟩ := hfixed
  obtain ⟨hk, _⟩ := List.getElem?_eq_some_iff.mp hget
  by_cases ht : t = h.cur j
  · obtain rfl := ht
    simp only [upTo, History.extend, Function.update_self, hlog]
    rw [List.take_append_of_le_length (by omega)]
  · simp [upTo, History.extend, ht]

theorem Lost.extend (hsound : Sound members h) (hlog : h.log j = h.leaderLog (h.cur j))
    (hterm : term e = h.cur j) {limit : ℕ} (hfixed : h.Fixed t k)
    (hlost : h.Lost t k limit) : (h.extend j e).Lost t k limit := by
  obtain ⟨s, w, hts, hs, hwon, hnot⟩ := hlost
  refine ⟨s, w, hts, hs, hwon, ?_⟩
  rw [hfixed.upTo_extend hlog]
  by_cases hsj : s = h.cur j
  · subst s
    simp only [History.extend, Function.update_self]
    rw [← hlog] at hnot
    intro hpre
    rcases List.prefix_concat_iff.mp hpre with heq | hheld
    · have hmem : e ∈ h.upTo t k := by
        rw [heq]
        simp
      have hbound := hsound.term_upTo hmem
      omega
    · exact hnot hheld
  · simpa [History.extend, hsj] using hnot

theorem Complete.extend (hcomplete : Complete members h) (hsound : Sound members h)
    (hwon : h.won (h.cur j) = some j) (hterm : term e = h.cur j) :
    Complete members (h.extend j e) := by
  have hlog := hsound.won_log j hwon
  have hacked : ∀ {i t}, ¬ (i = j ∧ t = h.cur j) → (h.extend j e).acked i t = h.acked i t := by
    intro i t hne
    simp only [History.extend, update₂_apply, if_neg hne]
  have hshort : ∀ {i}, i ≠ j → (h.extend j e).acked i (h.cur j) < (h.log j).length := by
    intro i hi
    rw [hacked fun heq => hi heq.1, hlog]
    exact hsound.acked_lt i (h.cur j)
  have hheld : ∀ {i} {part : List E}, part <+: h.log i → part <+: (h.extend j e).log i := by
    intro i part hpart
    by_cases hi : i = j
    · subst i
      simp only [History.extend, Function.update_self]
      exact hpart.trans (List.prefix_append _ _)
    · simpa [History.extend, hi] using hpart
  constructor
  case kept =>
    intro i t k hnew hk
    rcases hnew.of_extend hlog with hold | ⟨rfl, rfl⟩
    · rw [hold.upTo_extend hlog]
      have hkOld : k ≤ h.acked i t ∨ i = j ∧ t = h.cur j := by
        by_cases heq : i = j ∧ t = h.cur j
        · exact .inr heq
        · exact .inl (hacked heq ▸ hk)
      rcases hkOld with hkOld | ⟨rfl, rfl⟩
      · exact (hcomplete.kept i t k hold hkOld).imp hheld (Lost.extend hsound hlog hterm hold)
      · left
        apply hheld
        rw [hlog]
        exact List.take_prefix _ _
    · have hi : i = j := by
        by_contra hne
        have hlt := hshort hne
        omega
      subst i
      left
      simp only [upTo, History.extend, Function.update_self]
      exact List.take_prefix _ _
  case voted =>
    intro i c s log t k hvote hbid hunwon hts hnew hk
    rcases hnew.of_extend hlog with hold | ⟨rfl, rfl⟩
    · rw [hold.upTo_extend hlog]
      have hne : ¬ (i = j ∧ t = h.cur j) := by
        rintro ⟨rfl, rfl⟩
        have hcur := hsound.vote_cur i s c hvote
        omega
      rw [hacked hne] at hk
      exact (hcomplete.voted i c s log t k hvote hbid hunwon hts hold hk).imp_right
        (Lost.extend hsound hlog hterm hold)
    · have hi : i = j := by
        by_contra hne
        have hlt := hshort hne
        omega
      subst i
      have hcur := hsound.vote_cur j s c hvote
      omega
  case complete =>
    intro t s w k hts hws hnew
    rcases hnew.of_extend hlog with hold | ⟨rfl, rfl⟩
    · rw [hold.upTo_extend hlog]
      refine (hcomplete.complete t s w k hts hws hold).imp ?_ fun hun => ?_
      · exact fun hpre => hpre.trans (leaderLog_prefix_extend hlog e s)
      · apply hun.of_cur
        intro i hi
        refine ⟨hi, hacked ?_⟩
        rintro ⟨rfl, rfl⟩
        omega
    · -- Whoever voted for the later leader has left this term.
      right
      obtain ⟨voters, hvoters, hvotes⟩ := hsound.won_votes s w hws
      intro quorum hquorum
      obtain ⟨i, hi, hiQuorum⟩ := hvoters.exists_common hquorum
      have hcur : h.cur j < h.cur i := hts.trans_le (hsound.vote_cur i s w (hvotes i hi))
      have hij : i ≠ j := by
        rintro rfl
        omega
      exact ⟨i, hiQuorum, hcur, hshort hij⟩

theorem Complete.adopt (hcomplete : Complete members h) (hsound : Sound members h)
    {w : ν} {log : List E} (hwon : h.won (h.cur j) = some w)
    (hlog : log <+: h.leaderLog (h.cur j)) (hkeeps : log <+: h.log j → log = h.log j) :
    Complete members (h.adopt j log) where
  kept := by
    intro i t k hfixed hk
    have hold := hcomplete.kept i t k hfixed hk
    by_cases hi : i = j
    · subst i
      simp only [History.adopt, Function.update_self]
      rcases hold with hpre | hlost
      · have ht : t ≤ h.cur j := hsound.acked_cur j t (hfixed.1.trans_le hk)
        by_cases hleader : h.upTo t k <+: h.leaderLog (h.cur j)
        · left
          rcases List.prefix_or_prefix_of_prefix hleader hlog with hdone | hshort
          · exact hdone
          · rw [hkeeps (hshort.trans hpre)]
            exact hpre
        · right
          refine ⟨h.cur j, w, ?_, Nat.lt_succ_self _, hwon, hleader⟩
          rcases ht.eq_or_lt with rfl | hlt
          · exact absurd (List.take_prefix _ _) hleader
          · exact hlt
      · exact .inr hlost
    · have hsame : (h.adopt j log).log i = h.log i := by
        simp [History.adopt, hi]
      rw [hsame]
      exact hold
  voted := hcomplete.voted
  complete := hcomplete.complete

theorem Complete.ack (hcomplete : Complete members h) (hsound : Sound members h)
    (hagree : (h.leaderLog (h.cur j)).take (k + 1) <+: h.log j) :
    Complete members (h.ack j k) := by
  have hacked : ∀ {i t}, ¬ (i = j ∧ t = h.cur j) → (h.ack j k).acked i t = h.acked i t := by
    intro i t hne
    simp only [History.ack, update₂_apply, if_neg hne]
  constructor
  case kept =>
    intro i t l hfixed hl
    by_cases heq : i = j ∧ t = h.cur j
    · obtain ⟨rfl, rfl⟩ := heq
      simp only [History.ack, update₂_apply, and_self, if_true] at hl
      rcases le_max_iff.mp hl with hold | hnew
      · exact hcomplete.kept i _ l hfixed hold
      · left
        refine List.IsPrefix.trans ?_ hagree
        exact List.take_prefix_take_left (by omega)
    · rw [hacked heq] at hl
      exact hcomplete.kept i t l hfixed hl
  case voted =>
    intro i c s log t l hvote hbid hunwon hts hfixed hl
    have hne : ¬ (i = j ∧ t = h.cur j) := by
      rintro ⟨rfl, rfl⟩
      have hcur := hsound.vote_cur i s c hvote
      omega
    rw [hacked hne] at hl
    exact hcomplete.voted i c s log t l hvote hbid hunwon hts hfixed hl
  case complete =>
    intro t s w l hts hwon hfixed
    refine (hcomplete.complete t s w l hts hwon hfixed).imp_right fun hun => ?_
    apply hun.of_cur
    intro i hi
    refine ⟨hi, hacked ?_⟩
    rintro ⟨rfl, rfl⟩
    omega

end Operations

/-! ## Histories only grow -/

structure Extends (h later : History term ν) : Prop where
  cur : ∀ j, h.cur j ≤ later.cur j
  won : ∀ t w, h.won t = some w → later.won t = some w
  leaderLog : ∀ t w, h.won t = some w → h.leaderLog t <+: later.leaderLog t
  vote : ∀ j t c, h.vote j t = some c → later.vote j t = some c
  bid : ∀ c t log, h.bid c t = some log → later.bid c t = some log
  acked : ∀ j t, h.acked j t ≤ later.acked j t

theorem Extends.refl (h : History term ν) : h.Extends h where
  cur := fun _ => le_rfl
  won := fun _ _ hwon => hwon
  leaderLog := fun _ _ _ => List.prefix_rfl
  vote := fun _ _ _ hvote => hvote
  bid := fun _ _ _ hbid => hbid
  acked := fun _ _ => le_rfl

theorem Extends.trans {first second third : History term ν}
    (h₁ : first.Extends second) (h₂ : second.Extends third) :
    first.Extends third where
  cur := fun j => (h₁.cur j).trans (h₂.cur j)
  won := fun t w hwon => h₂.won t w (h₁.won t w hwon)
  leaderLog := fun t w hwon =>
    (h₁.leaderLog t w hwon).trans (h₂.leaderLog t w (h₁.won t w hwon))
  vote := fun j t c hvote => h₂.vote j t c (h₁.vote j t c hvote)
  bid := fun c t log hbid => h₂.bid c t log (h₁.bid c t log hbid)
  acked := fun j t => (h₁.acked j t).trans (h₂.acked j t)

theorem Extends.chosen {later : History term ν} (hext : h.Extends later)
    (hsound : Sound members h) (hchosen : Chosen members h t k) :
    Chosen members later t k ∧ later.upTo t k = h.upTo t k := by
  obtain ⟨w, hw⟩ := hsound.chosen_won hchosen
  obtain ⟨⟨hpos, e, hget, hterm⟩, quorum, hquorum, hacked⟩ := hchosen
  obtain ⟨hk, _⟩ := List.getElem?_eq_some_iff.mp hget
  obtain ⟨rest, hrest⟩ := hext.leaderLog t w hw
  refine ⟨⟨⟨hpos, e, ?_, hterm⟩, quorum, hquorum, ?_⟩, ?_⟩
  · rw [← hrest, List.getElem?_append_left hk]
    exact hget
  · exact fun j hj => (hacked j hj).trans (hext.acked j t)
  · rw [upTo, upTo, ← hrest, List.take_append_of_le_length (by omega)]

theorem Extends.settled {later : History term ν} (hext : h.Extends later)
    (hsound : Sound members h) {bound : ℕ} (hsettled : Settled members h limit log)
    (hle : limit ≤ bound) : Settled members later bound log := by
  rcases hsettled with hshort | ⟨t, k, ht, hchosen, hpre⟩
  · exact .inl hshort
  · obtain ⟨hlater, heq⟩ := hext.chosen hsound hchosen
    exact .inr ⟨t, k, ht.trans hle, hlater, heq ▸ hpre⟩

theorem Settled.shorten {part : List E} (hsettled : Settled members h limit log)
    (hpart : part <+: log) : Settled members h limit part := by
  rcases hsettled with hshort | ⟨t, k, ht, hchosen, hpre⟩
  · exact .inl (hpart.length_le.trans hshort)
  · exact .inr ⟨t, k, ht, hchosen, hpart.trans hpre⟩

theorem Complete.settled_agree (hcomplete : Complete members h)
    (hsound : Sound members h) {bound : ℕ} {first second : List E} {e₁ e₂ : E}
    (hfirst : Settled members h limit first) (hsecond : Settled members h bound second)
    (hk : 0 < k) (hget₁ : first[k]? = some e₁) (hget₂ : second[k]? = some e₂) :
    e₁ = e₂ := by
  obtain ⟨hlt₁, _⟩ := List.getElem?_eq_some_iff.mp hget₁
  obtain ⟨hlt₂, _⟩ := List.getElem?_eq_some_iff.mp hget₂
  rcases hfirst with hshort | ⟨t, i, _, hchosen₁, hpre₁⟩
  · omega
  rcases hsecond with hshort | ⟨s, l, _, hchosen₂, hpre₂⟩
  · omega
  have hat₁ := getElem?_prefix_mono hpre₁ hget₁
  have hat₂ := getElem?_prefix_mono hpre₂ hget₂
  rcases hcomplete.chosen_comparable hsound hchosen₁ hchosen₂ with hle | hle
  · have hsame := getElem?_prefix_mono hle hat₁
    exact Option.some.inj (hsame.symm.trans hat₂)
  · have hsame := getElem?_prefix_mono hle hat₂
    exact Option.some.inj (hat₁.symm.trans hsame)

theorem Complete.settled_prefix (hcomplete : Complete members h) {w : ν}
    (hsettled : Settled members h limit log) (hle : limit ≤ s)
    (hwon : h.won s = some w) :
    log.length ≤ 1 ∨ log <+: h.leaderLog s := by
  rcases hsettled with hshort | ⟨t, k, ht, hchosen, hpre⟩
  · exact .inl hshort
  · exact .inr (hpre.trans (hcomplete.upTo_prefix hchosen (ht.trans hle) hwon))

structure OnlyMoves (i : ν) (h later : History term ν) : Prop where
  cur : ∀ j, j ≠ i → later.cur j = h.cur j
  log : ∀ j, j ≠ i → later.log j = h.log j
  vote : ∀ j, j ≠ i → later.vote j = h.vote j
  won : ∀ j, j ≠ i → ∀ t, later.won t = some j → h.won t = some j

theorem OnlyMoves.refl (i : ν) (h : History term ν) : OnlyMoves i h h where
  cur := fun _ _ => rfl
  log := fun _ _ => rfl
  vote := fun _ _ => rfl
  won := fun _ _ _ hwon => hwon

theorem OnlyMoves.trans {i : ν} {first second third : History term ν}
    (h₁ : OnlyMoves i first second) (h₂ : OnlyMoves i second third) :
    OnlyMoves i first third where
  cur := fun j hj => (h₂.cur j hj).trans (h₁.cur j hj)
  log := fun j hj => (h₂.log j hj).trans (h₁.log j hj)
  vote := fun j hj => (h₂.vote j hj).trans (h₁.vote j hj)
  won := fun j hj t hwon => h₁.won j hj t (h₂.won j hj t hwon)

section Growth

variable [DecidableEq ν]
variable {j : ν}

theorem raise_onlyMoves (h : History term ν) (i : ν) (t : ℕ) : OnlyMoves i h (h.raise i t) :=
  { OnlyMoves.refl i h with
    cur := fun j hj => by simp [History.raise, hj] }

theorem stand_onlyMoves (h : History term ν) (i : ν) (t : ℕ) : OnlyMoves i h (h.stand i t) :=
  { OnlyMoves.refl i h with
    cur := fun j hj => by simp [History.stand, hj]
    vote := fun j hj => by simp [History.stand, update₂, hj] }

theorem grant_onlyMoves (h : History term ν) (i c : ν) : OnlyMoves i h (h.grant i c) :=
  { OnlyMoves.refl i h with
    vote := fun j hj => by simp [History.grant, update₂, hj] }

theorem win_onlyMoves (h : History term ν) (i : ν) : OnlyMoves i h (h.win i) :=
  { OnlyMoves.refl i h with
    won := by
      intro j hj t hwon
      by_cases ht : t = h.cur i
      · simp only [History.win, ht, Function.update_self, Option.some.injEq] at hwon
        exact absurd hwon.symm hj
      · simpa [History.win, ht] using hwon }

theorem extend_onlyMoves (h : History term ν) (i : ν) (e : E) : OnlyMoves i h (h.extend i e) :=
  { OnlyMoves.refl i h with
    log := fun j hj => by simp [History.extend, hj] }

theorem adopt_onlyMoves (h : History term ν) (i : ν) (log : List E) :
    OnlyMoves i h (h.adopt i log) :=
  { OnlyMoves.refl i h with
    log := fun j hj => by simp [History.adopt, hj] }

theorem ack_onlyMoves (h : History term ν) (i : ν) (k : ℕ) : OnlyMoves i h (h.ack i k) :=
  { OnlyMoves.refl i h with }

theorem raise_extends {t : ℕ} (ht : h.cur j < t) : h.Extends (h.raise j t) :=
  { Extends.refl h with cur := h.cur_le_raise ht }

theorem Sound.stand_extends (hsound : Sound members h) {t : ℕ} (ht : h.cur j < t) :
    h.Extends (h.stand j t) :=
  { Extends.refl h with
    cur := h.cur_le_raise ht
    vote := by
      intro i s c hvote
      simp only [History.stand, update₂_apply]
      rw [if_neg]
      · exact hvote
      · rintro ⟨rfl, rfl⟩
        have hcur := hsound.vote_cur i s c hvote
        omega
    bid := by
      intro c s log hbid
      simp only [History.stand, update₂_apply]
      rw [if_neg]
      · exact hbid
      · rintro ⟨rfl, rfl⟩
        have hcur := (hsound.bid_cur c s log hbid).2
        omega }

theorem grant_extends {c : ν} (hfree : h.vote j (h.cur j) = none ∨ h.vote j (h.cur j) = some c) :
    h.Extends (h.grant j c) :=
  { Extends.refl h with
    vote := by
      intro i s d hvote
      simp only [History.grant, update₂_apply]
      split
      · rename_i heq
        obtain ⟨rfl, rfl⟩ := heq
        rcases hfree with hnone | hsome
        · rw [hnone] at hvote
          cases hvote
        · exact hsome.symm.trans hvote
      · exact hvote }

theorem Sound.win_extends (hsound : Sound members h) (hunwon : h.won (h.cur j) = none) :
    h.Extends (h.win j) :=
  { Extends.refl h with
    won := by
      intro t w hwon
      have ht : t ≠ h.cur j := by
        rintro rfl
        rw [hunwon] at hwon
        cases hwon
      simpa [History.win, ht] using hwon
    leaderLog := by
      intro t w hwon
      have ht : t ≠ h.cur j := by
        rintro rfl
        rw [hunwon] at hwon
        cases hwon
      simp only [History.win, Function.update_of_ne ht]
      exact List.prefix_rfl
    acked := by
      intro i t
      simp only [History.win, update₂_apply]
      split
      · rename_i heq
        by_contra hlt
        obtain ⟨w, hw⟩ := hsound.acked_won i t (by omega)
        rw [heq.2, hunwon] at hw
        cases hw
      · exact le_rfl }

theorem Sound.extend_extends (hsound : Sound members h)
    (hlog : h.log j = h.leaderLog (h.cur j)) (e : E) : h.Extends (h.extend j e) :=
  { Extends.refl h with
    leaderLog := fun t _ _ => leaderLog_prefix_extend hlog e t
    acked := by
      intro i t
      simp only [History.extend, update₂_apply]
      split
      · rename_i heq
        rw [heq.1, heq.2, hlog]
        exact (hsound.acked_lt j (h.cur j)).le
      · exact le_rfl }

theorem adopt_extends (h : History term ν) (j : ν) (log : List E) : h.Extends (h.adopt j log) :=
  { Extends.refl h with }

theorem ack_extends (h : History term ν) (j : ν) (k : ℕ) : h.Extends (h.ack j k) :=
  { Extends.refl h with
    acked := by
      intro i t
      simp only [History.ack, update₂_apply]
      split
      · rename_i heq
        rw [heq.1, heq.2]
        exact le_max_left _ _
      · exact le_rfl }

end Growth

end History

end MCache
