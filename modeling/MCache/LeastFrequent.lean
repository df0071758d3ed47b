import MCache.EvictionPolicy

/-!
# The victims of the LFU policy

A call that uses the only key of the least frequency looks for the next least
one while the key is in no bucket.  When all other keys are used more often
than the key after the call, `minFreq` is then too high, and `Evict` takes a
key that is used more often.  A new key, or the end of the bucket of `minFreq`,
puts it right again.
-/

namespace MCache.Store

/-! ## Calls and how often a key is used -/

inductive PolicyCall where
  | onAdd (key : Bytes)
  | onAccess (key : Bytes)
  | onRemove (key : Bytes)
  | evict
  deriving DecidableEq

def LFUPolicy.call (p : LFUPolicy) : PolicyCall → LFUPolicy
  | .onAdd key => p.onAdd key
  | .onAccess key => p.onAccess key
  | .onRemove key => p.onRemove key
  | .evict => p.evict.1

structure Usage where
  freq : ℕ
  since : ℕ
  deriving DecidableEq

def Usage.again (now : ℕ) (use : Usage) : Usage := ⟨use.freq + 1, now⟩

def nextUsage (now : ℕ) (evicted : Option Bytes) (usage : Bytes → Option Usage) :
    PolicyCall → Bytes → Option Usage
  | .onAdd key =>
    Function.update usage key (some ((usage key).elim ⟨1, now⟩ (Usage.again now)))
  | .onAccess key => Function.update usage key ((usage key).map (Usage.again now))
  | .onRemove key => Function.update usage key none
  | .evict => evicted.elim usage fun key => Function.update usage key none

structure LFURun where
  policy : LFUPolicy
  usage : Bytes → Option Usage
  count : ℕ

namespace LFURun

def fresh : LFURun := ⟨.empty, fun _ => none, 0⟩

def step (r : LFURun) (call : PolicyCall) : LFURun where
  policy := r.policy.call call
  usage := nextUsage r.count r.policy.evict.2 r.usage call
  count := r.count + 1

def after (calls : List PolicyCall) : LFURun := calls.foldl step fresh

theorem after_append (calls : List PolicyCall) (call : PolicyCall) :
    after (calls ++ [call]) = (after calls).step call := by
  simp [after]

end LFURun

def LeastUsed (usage : Bytes → Option Usage) (key : Bytes) : Prop :=
  ∃ use, usage key = some use ∧ ∀ other x, other ≠ key → usage other = some x →
    use.freq < x.freq ∨ use.freq = x.freq ∧ use.since < x.since

/-! ## The least frequency -/

namespace LFUPolicy

def freqs (p : LFUPolicy) : Set ℕ := {f | ∃ key, p.items.lookup key = some f}

def freqsWithout (p : LFUPolicy) (key : Bytes) : Set ℕ :=
  {f | ∃ other, other ≠ key ∧ p.items.lookup other = some f}

section Least

variable {p : LFUPolicy}
variable {f : ℕ} {key : Bytes}

theorem WellFormed.bucket_ne_nil_iff (hp : p.WellFormed) : p.bucket f ≠ [] ↔ f ∈ p.freqs := by
  constructor
  · intro hne
    rcases List.exists_mem_of_ne_nil _ hne with ⟨key, hkey⟩
    exact ⟨key, (hp.mem_bucket key f).mp hkey⟩
  · rintro ⟨key, hkey⟩
    exact List.ne_nil_of_mem ((hp.mem_bucket key f).mpr hkey)

theorem WellFormed.mem_keys_iff (hp : p.WellFormed) : f ∈ p.freqLists.keys ↔ f ∈ p.freqs := by
  rw [← hp.bucket_ne_nil_iff, ← AList.mem_keys, ← AList.lookup_isSome, bucket]
  cases hlookup : p.freqLists.lookup f with
  | none => simp
  | some bucket =>
    have hne : bucket ≠ [] := by
      rintro rfl
      exact hp.nonempty f hlookup
    simp [hne]

theorem WellFormed.scanMinFreq_isLeast (hp : p.WellFormed) (hne : p.freqs.Nonempty) :
    IsLeast p.freqs p.scanMinFreq := by
  rcases hne with ⟨f, hf⟩
  cases hmin : p.freqLists.keys.min? with
  | none =>
    have hmem := hp.mem_keys_iff.mpr hf
    rw [List.min?_eq_none_iff.mp hmin] at hmem
    cases hmem
  | some least =>
    have hscan : p.scanMinFreq = least := by simp [scanMinFreq, hmin]
    rw [hscan]
    refine ⟨hp.mem_keys_iff.mp (List.min?_mem hmin), fun g hg => ?_⟩
    exact (List.min?_eq_some_iff.mp hmin).2 g (hp.mem_keys_iff.mpr hg)

theorem WellFormed.scanMinFreq_of_empty (hp : p.WellFormed) (hempty : p.freqs = ∅) :
    p.scanMinFreq = 0 := by
  have hkeys : p.freqLists.keys = [] := by
    refine List.eq_nil_iff_forall_not_mem.mpr fun f hf => ?_
    exact (Set.eq_empty_iff_forall_notMem.mp hempty f) (hp.mem_keys_iff.mp hf)
  simp [scanMinFreq, hkeys]

theorem onRemove_lookup (key x : Bytes) : (p.onRemove key).items.lookup x =
      if x = key then none else p.items.lookup x := by
  unfold onRemove
  cases hkey : p.items.lookup key with
  | none =>
    split_ifs with hx
    · rw [hx, hkey]
    · rfl
  | some freq =>
    dsimp only
    rw [removeFromBucket_items]
    split_ifs with hx
    · rw [hx, AList.lookup_erase]
    · exact AList.lookup_erase_ne hx

theorem mem_freqsWithout :
    f ∈ p.freqsWithout key ↔ ∃ other, other ≠ key ∧ p.items.lookup other = some f :=
  Iff.rfl

theorem onRemove_freqs (key : Bytes) : (p.onRemove key).freqs = p.freqsWithout key := by
  ext f
  rw [mem_freqsWithout]
  refine exists_congr fun other => ?_
  rw [onRemove_lookup]
  by_cases hne : other = key
  · simp [hne]
  · simp [hne]

theorem WellFormed.erase_bucket_eq_nil_iff (hp : p.WellFormed) :
    (p.bucket f).erase key = [] ↔ f ∉ p.freqsWithout key := by
  rw [List.eq_nil_iff_forall_not_mem]
  constructor
  · rintro hnil ⟨other, hne, hother⟩
    exact hnil other ((List.mem_erase_of_ne hne).mpr ((hp.mem_bucket other f).mpr hother))
  · intro hnot other hmem
    rw [(hp.nodup f).mem_erase_iff, hp.mem_bucket] at hmem
    exact hnot ⟨other, hmem⟩

theorem WellFormed.onRemove_minFreq (hp : p.WellFormed) (hkey : p.items.lookup key = some f) :
    (p.minFreq = f ∧ f ∉ p.freqsWithout key ∧
        (p.onRemove key).minFreq = (p.onRemove key).scanMinFreq) ∨
      ((p.minFreq = f → f ∈ p.freqsWithout key) ∧ (p.onRemove key).minFreq = p.minFreq) := by
  rw [← not_not (a := f ∈ p.freqsWithout key), ← hp.erase_bucket_eq_nil_iff]
  simp only [LFUPolicy.onRemove, hkey, removeFromBucket]
  by_cases hnil : (p.bucket f).erase key = []
  · by_cases hmin : p.minFreq = f
    · simp [hnil, hmin, scanMinFreq]
    · simp [hnil, hmin]
  · simp [hnil]

theorem WellFormed.onRemove_minFreq_of_mem (hp : p.WellFormed)
    (hmem : p.minFreq ∈ (p.onRemove key).freqs) :
    (p.onRemove key).minFreq = p.minFreq := by
  cases hkey : p.items.lookup key with
  | none => simp only [LFUPolicy.onRemove, hkey]
  | some f =>
    rcases hp.onRemove_minFreq hkey with ⟨hf, hlast, -⟩ | ⟨-, hsame⟩
    · rw [onRemove_freqs, hf] at hmem
      exact absurd hmem hlast
    · exact hsame

theorem bump_lookup (hkey : p.items.lookup key = some f) (x : Bytes) : (p.bump key).items.lookup x =
      if x = key then some (f + 1) else p.items.lookup x := by
  rw [bump_eq hkey]
  simp only [pushBack]
  split_ifs with hx
  · rw [hx, AList.lookup_insert]
  · rw [AList.lookup_insert_ne hx, onRemove_lookup, if_neg hx]

theorem bump_minFreq (hkey : p.items.lookup key = some f) :
    (p.bump key).minFreq = (p.onRemove key).minFreq := by
  rw [bump_eq hkey]
  rfl

theorem freqsWithout_congr {later : LFUPolicy}
    (hlater : ∀ x, x ≠ key → later.items.lookup x = p.items.lookup x) :
    later.freqsWithout key = p.freqsWithout key := by
  ext f
  refine exists_congr fun other => and_congr_right fun hne => ?_
  rw [hlater other hne]

end Least

/-! ## A frequency that is overlooked -/

structure Behind (p : LFUPolicy) (key : Bytes) (least : ℕ) : Prop where
  minFreq : p.minFreq = least
  isLeast : IsLeast (p.freqsWithout key) least
  lower : ∃ f < least, p.items.lookup key = some f

def Trails (p : LFUPolicy) (key : Bytes) (least : ℕ) : Prop :=
  IsLeast (p.freqsWithout key) least ∧ ∃ f < least, p.items.lookup key = some f

def Minimal (p : LFUPolicy) : Prop :=
  IsLeast p.freqs p.minFreq ∨ p.minFreq = 0 ∧ ∀ key ∈ p.items, p.freqsWithout key = ∅

section Steps

variable {p : LFUPolicy} {key used : Bytes} {least f : ℕ}

theorem Behind.not_minimal (h : p.Behind key least) : ¬ p.Minimal := by
  rcases h.lower with ⟨f, hlower, hkey⟩
  rintro (hleast | ⟨hzero, -⟩)
  · have hle := hleast.2 ⟨key, hkey⟩
    rw [h.minFreq] at hle
    omega
  · rw [h.minFreq] at hzero
    omega

theorem Behind.trails (h : p.Behind key least) : p.Trails key least := ⟨h.isLeast, h.lower⟩

theorem Behind.unique {other : Bytes} {m : ℕ} (h : p.Behind key least)
    (h' : p.Behind other m) : other = key ∧ m = least := by
  have hm : m = least := h'.minFreq.symm.trans h.minFreq
  refine ⟨?_, hm⟩
  by_contra hne
  rcases h'.lower with ⟨f, hlower, hother⟩
  have hle := h.isLeast.2 ⟨other, hne, hother⟩
  omega

theorem mem_items (hkey : p.items.lookup key = some f) : key ∈ p.items :=
  AList.lookup_isSome.mp (by rw [hkey]; rfl)

theorem freqs_nonempty (hkey : key ∈ p.items) : p.freqs.Nonempty := by
  rcases Option.isSome_iff_exists.mp (AList.lookup_isSome.mpr hkey) with ⟨f, hf⟩
  exact ⟨f, key, hf⟩

theorem WellFormed.onRemove_minimal (hp : p.WellFormed) (hmin : p.Minimal)
    (key : Bytes) : (p.onRemove key).Minimal := by
  have hremoved := hp.onRemove key
  cases hkey : p.items.lookup key with
  | none =>
    have hsame : p.onRemove key = p := by simp only [LFUPolicy.onRemove, hkey]
    rwa [hsame]
  | some f =>
    rcases hp.onRemove_minFreq hkey with ⟨hf, hlast, hscan⟩ | ⟨hlast, hsame⟩
    · by_cases hrest : (p.onRemove key).freqs.Nonempty
      · left
        rw [hscan]
        exact hremoved.1.scanMinFreq_isLeast hrest
      · right
        rw [hscan, hremoved.1.scanMinFreq_of_empty (Set.not_nonempty_iff_eq_empty.mp hrest)]
        exact ⟨rfl, fun other hother => absurd (freqs_nonempty hother) hrest⟩
    · rcases hmin with hleast | ⟨hzero, hsingle⟩
      · left
        rw [hsame, onRemove_freqs]
        constructor
        · rcases hleast.1 with ⟨other, hother⟩
          by_cases hne : other = key
          · rw [hne, hkey] at hother
            rw [← Option.some.inj hother]
            exact hlast (Option.some.inj hother).symm
          · exact ⟨other, hne, hother⟩
        · rintro g ⟨other, -, hother⟩
          exact hleast.2 ⟨other, hother⟩
      · right
        refine ⟨hsame.trans hzero, fun other hother => ?_⟩
        have hempty := hsingle key (mem_items hkey)
        rw [← onRemove_freqs] at hempty
        exact absurd (freqs_nonempty hother) (Set.not_nonempty_iff_eq_empty.mpr hempty)

theorem Behind.attained (h : p.Behind key least) {gone : Bytes}
    (hgone : p.items.lookup gone = some f)
    (hlast : p.minFreq = f → f ∈ p.freqsWithout gone) :
    ∃ other, other ≠ key ∧ other ≠ gone ∧ p.items.lookup other = some least := by
  rcases h.isLeast.1 with ⟨other, hne, hother⟩
  by_cases hsecond : other = gone
  · rw [hsecond, hgone] at hother
    have hf : f = least := Option.some.inj hother
    rcases hlast (h.minFreq.trans hf.symm) with ⟨third, hthird, hlookup⟩
    refine ⟨third, ?_, hthird, hf ▸ hlookup⟩
    rintro rfl
    rcases h.lower with ⟨g, hlower, hkey⟩
    have hg : g = f := Option.some.inj (hkey.symm.trans hlookup)
    omega
  · exact ⟨other, hne, hsecond, hother⟩

theorem Behind.onRemove (hp : p.WellFormed) (h : p.Behind key least) (gone : Bytes) :
    (p.onRemove gone).Behind key least ∨
      IsLeast (p.onRemove gone).freqs (p.onRemove gone).minFreq := by
  rcases h.lower with ⟨g, hlower, hkey⟩
  have hminFreq := h.minFreq
  cases hgone : p.items.lookup gone with
  | none =>
    have hsame : p.onRemove gone = p := by simp only [LFUPolicy.onRemove, hgone]
    rw [hsame]
    exact .inl h
  | some f =>
    by_cases hself : gone = key
    · subst hself
      right
      rcases hp.onRemove_minFreq hkey with ⟨hf, -, -⟩ | ⟨-, hsame⟩
      · omega
      · rw [hsame, h.minFreq, onRemove_freqs]
        exact h.isLeast
    · have hkept : (p.onRemove gone).items.lookup key = some g := by
        rw [onRemove_lookup, if_neg (Ne.symm hself), hkey]
      rcases hp.onRemove_minFreq hgone with ⟨-, -, hscan⟩ | ⟨hlast, hsame⟩
      · right
        rw [hscan]
        exact (hp.onRemove gone).1.scanMinFreq_isLeast ⟨g, key, hkept⟩
      · left
        refine ⟨hsame.trans h.minFreq, ⟨?_, ?_⟩, g, hlower, hkept⟩
        · rcases h.attained hgone hlast with ⟨other, hne, hothers, hother⟩
          exact ⟨other, hne, by rw [onRemove_lookup, if_neg hothers, hother]⟩
        · rintro m ⟨other, hne, hother⟩
          rw [onRemove_lookup] at hother
          split_ifs at hother
          exact h.isLeast.2 ⟨other, hne, hother⟩

/-! ### Uses -/

section

variable (hused : p.items.lookup used = some f)
include hused

theorem bump_self : (p.bump used).items.lookup used = some (f + 1) := by
  rw [bump_lookup hused, if_pos rfl]

theorem bump_other (hne : key ≠ used) : (p.bump used).items.lookup key = p.items.lookup key := by
  rw [bump_lookup hused, if_neg hne]

theorem bump_freqsWithout : (p.bump used).freqsWithout used = p.freqsWithout used :=
  freqsWithout_congr fun _ hne => bump_other hused hne

theorem mem_freqs_bump (hmem : least ∈ p.freqsWithout used) : least ∈ (p.bump used).freqs := by
  rcases hmem with ⟨other, hne, hother⟩
  exact ⟨other, (bump_other hused hne).trans hother⟩

theorem mem_lowerBounds_bump (hself : least ≤ f + 1)
    (hothers : least ∈ lowerBounds (p.freqsWithout used)) :
    least ∈ lowerBounds (p.bump used).freqs := by
  rintro g ⟨other, hother⟩
  rw [bump_lookup hused] at hother
  split_ifs at hother with hne
  · rwa [← Option.some.inj hother]
  · exact hothers ⟨other, hne, hother⟩

theorem bump_single (hempty : p.freqsWithout used = ∅) :
    ∀ key ∈ (p.bump used).items, (p.bump used).freqsWithout key = ∅ := by
  intro key hkey
  rcases Option.isSome_iff_exists.mp (AList.lookup_isSome.mpr hkey) with ⟨g, hg⟩
  by_cases hne : key = used
  · rw [hne, bump_freqsWithout hused, hempty]
  · have hmem : g ∈ (p.bump used).freqsWithout used := ⟨key, hne, hg⟩
    rw [bump_freqsWithout hused, hempty] at hmem
    cases hmem

end

theorem WellFormed.bump_minimal (hp : p.WellFormed) (hmin : p.Minimal)
    (hused : p.items.lookup used = some f) :
    (p.bump used).Minimal ∨ ∃ least, (p.bump used).Behind used least := by
  rcases hp.onRemove_minFreq hused with ⟨hf, hlast, hscan⟩ | ⟨hlast, hkept⟩
  · rw [← bump_minFreq hused] at hscan
    by_cases hrest : (p.freqsWithout used).Nonempty
    · have hleast : IsLeast (p.freqsWithout used) (p.bump used).minFreq := by
        rw [hscan, ← onRemove_freqs]
        rw [← onRemove_freqs] at hrest
        exact (hp.onRemove used).1.scanMinFreq_isLeast hrest
      by_cases hlower : f + 1 < (p.bump used).minFreq
      · right
        rw [← bump_freqsWithout hused] at hleast
        exact ⟨_, rfl, hleast, f + 1, hlower, bump_self hused⟩
      · left
        left
        exact ⟨mem_freqs_bump hused hleast.1,
          mem_lowerBounds_bump hused (not_lt.mp hlower) hleast.2⟩
    · left
      right
      have hempty := Set.not_nonempty_iff_eq_empty.mp hrest
      refine ⟨?_, bump_single hused hempty⟩
      rw [hscan]
      rw [← onRemove_freqs] at hempty
      exact (hp.onRemove used).1.scanMinFreq_of_empty hempty
  · left
    rw [← bump_minFreq hused] at hkept
    rcases hmin with hleast | ⟨hzero, hone⟩
    · left
      rw [hkept]
      have hle := hleast.2 ⟨used, hused⟩
      refine ⟨mem_freqs_bump hused ?_, mem_lowerBounds_bump hused (by omega)
        fun g ⟨other, _, hother⟩ => hleast.2 ⟨other, hother⟩⟩
      rcases hleast.1 with ⟨other, hother⟩
      by_cases hne : other = used
      · rw [hne, hused] at hother
        rw [← Option.some.inj hother]
        exact hlast (Option.some.inj hother).symm
      · exact ⟨other, hne, hother⟩
    · right
      exact ⟨hkept.trans hzero, bump_single hused (hone used (mem_items hused))⟩

theorem Behind.bump (hp : p.WellFormed) (h : p.Behind key least)
    (hused : p.items.lookup used = some f) :
    (p.bump used).Behind key least ∨ IsLeast (p.bump used).freqs (p.bump used).minFreq := by
  rcases h.lower with ⟨g, hlower, hkey⟩
  have hminFreq := h.minFreq
  by_cases hself : key = used
  · subst hself
    obtain rfl : f = g := Option.some.inj (hused.symm.trans hkey)
    have hkept : (p.bump key).minFreq = least := by
      rw [bump_minFreq hkey]
      rcases hp.onRemove_minFreq hkey with ⟨hf, -, -⟩ | ⟨-, hsame⟩
      · omega
      · exact hsame.trans h.minFreq
    by_cases hstill : f + 1 < least
    · left
      refine ⟨hkept, ?_, f + 1, hstill, bump_self hkey⟩
      rw [bump_freqsWithout hkey]
      exact h.isLeast
    · right
      rw [hkept]
      exact ⟨mem_freqs_bump hkey h.isLeast.1,
        mem_lowerBounds_bump hkey (not_lt.mp hstill) h.isLeast.2⟩
  · have hle : least ≤ f := h.isLeast.2 ⟨used, Ne.symm hself, hused⟩
    have hkept : (p.bump used).items.lookup key = some g := (bump_other hused hself).trans hkey
    rcases hp.onRemove_minFreq hused with ⟨-, -, hscan⟩ | ⟨hlast, hsame⟩
    · right
      rw [bump_minFreq hused, hscan]
      have hleast := (hp.onRemove used).1.scanMinFreq_isLeast
        ⟨g, key, by rw [onRemove_lookup, if_neg hself, hkey]⟩
      rw [onRemove_freqs] at hleast
      have hscanned := hleast.2 ⟨key, hself, hkey⟩
      exact ⟨mem_freqs_bump hused hleast.1, mem_lowerBounds_bump hused (by omega) hleast.2⟩
    · left
      refine ⟨?_, ⟨?_, ?_⟩, g, hlower, hkept⟩
      · rw [bump_minFreq hused, hsame, hminFreq]
      · rcases h.attained hused hlast with ⟨other, hne, hothers, hother⟩
        exact ⟨other, hne, (bump_other hused hothers).trans hother⟩
      · rintro m ⟨other, hne, hother⟩
        rw [bump_lookup hused] at hother
        split_ifs at hother
        · have := Option.some.inj hother
          omega
        · exact h.isLeast.2 ⟨other, hne, hother⟩

end Steps

/-! ## Calls -/

def Settled (p : LFUPolicy) : Prop := p.Minimal ∨ ∃ key least, p.Behind key least

def aimed (p : LFUPolicy) : LFUPolicy :=
  if p.bucket p.minFreq = [] then { p with minFreq := p.scanMinFreq } else p

section Calls

variable {p : LFUPolicy} {key used : Bytes} {least f : ℕ}

theorem aimed_items : p.aimed.items = p.items := by
  unfold aimed
  split <;> rfl

theorem aimed_bucket : p.aimed.bucket = p.bucket := by
  unfold aimed
  split <;> rfl

theorem WellFormed.aimed (hp : p.WellFormed) : p.aimed.WellFormed := by
  unfold LFUPolicy.aimed
  split
  · exact hp.withMinFreq _
  · exact hp

theorem Behind.bucket_ne_nil (hp : p.WellFormed) (h : p.Behind key least) :
    p.bucket p.minFreq ≠ [] := by
  rcases h.isLeast.1 with ⟨other, -, hother⟩
  exact hp.bucket_ne_nil_iff.mpr ⟨other, h.minFreq ▸ hother⟩

theorem WellFormed.aimed_cases (hp : p.WellFormed) :
    p.aimed = p ∨ p.aimed.Minimal ∧ ∀ key least, ¬ p.Behind key least := by
  by_cases hempty : p.bucket p.minFreq = []
  · right
    refine ⟨?_, fun key least hbehind => hbehind.bucket_ne_nil hp hempty⟩
    have haimed : p.aimed.minFreq = p.aimed.scanMinFreq := by
      simp only [LFUPolicy.aimed, if_pos hempty]
      rfl
    by_cases hne : p.aimed.freqs.Nonempty
    · left
      rw [haimed]
      exact hp.aimed.scanMinFreq_isLeast hne
    · right
      rw [haimed, hp.aimed.scanMinFreq_of_empty (Set.not_nonempty_iff_eq_empty.mp hne)]
      exact ⟨rfl, fun key hkey => absurd (freqs_nonempty hkey) hne⟩
  · left
    rw [LFUPolicy.aimed, if_neg hempty]

theorem WellFormed.settled_aimed (hp : p.WellFormed) (h : p.Settled) : p.aimed.Settled := by
  rcases hp.aimed_cases with hsame | ⟨hmin, -⟩
  · rwa [hsame]
  · exact .inl hmin

theorem WellFormed.behind_aimed_iff (hp : p.WellFormed) :
    p.aimed.Behind key least ↔ p.Behind key least := by
  rcases hp.aimed_cases with hsame | ⟨hmin, hnot⟩
  · rw [hsame]
  · exact iff_of_false (fun hbehind => hbehind.not_minimal hmin) (hnot key least)

theorem Settled.aimed (hp : p.WellFormed) (h : p.Settled) (hne : p.freqs.Nonempty) :
    IsLeast p.freqs p.aimed.minFreq ∧ (∀ key least, ¬ p.Behind key least) ∨
      p.aimed = p ∧ ∃ key least, p.Behind key least := by
  rcases h with hmin | ⟨key, least, hbehind⟩
  · refine .inl ⟨?_, fun key least hbehind => hbehind.not_minimal hmin⟩
    by_cases hempty : p.bucket p.minFreq = []
    · rw [LFUPolicy.aimed, if_pos hempty]
      exact hp.scanMinFreq_isLeast hne
    · rw [LFUPolicy.aimed, if_neg hempty]
      rcases hmin with hleast | ⟨hzero, -⟩
      · exact hleast
      · rcases hp.bucket_ne_nil_iff.mp hempty with ⟨key, hkey⟩
        have hpos := hp.pos key _ hkey
        omega
  · refine .inr ⟨?_, key, least, hbehind⟩
    rw [LFUPolicy.aimed, if_neg (hbehind.bucket_ne_nil hp)]

theorem WellFormed.evict_eq (hp : p.WellFormed) (hne : p.freqs.Nonempty) :
    ∃ key rest, p.bucket p.aimed.minFreq = key :: rest ∧
      p.evict = (p.aimed.onRemove key, some key) := by
  have hitems : p.items.keys ≠ [] := by
    rcases hne with ⟨f, key, hkey⟩
    exact List.ne_nil_of_mem (mem_items hkey)
  have hfront : p.evict = p.aimed.evictFront := by
    unfold LFUPolicy.evict LFUPolicy.aimed
    rw [if_neg hitems]
    by_cases hempty : p.bucket p.minFreq = []
    · have hpos : p.scanMinFreq ≠ 0 := by
        rcases (hp.scanMinFreq_isLeast hne).1 with ⟨key, hkey⟩
        exact (hp.pos key _ hkey).ne'
      simp only [if_pos hempty, if_neg hpos]
    · simp only [if_neg hempty]
  have hbucket : p.bucket p.aimed.minFreq ≠ [] := by
    unfold LFUPolicy.aimed
    split
    · exact hp.bucket_ne_nil_iff.mpr (hp.scanMinFreq_isLeast hne).1
    · assumption
  rcases List.exists_cons_of_ne_nil hbucket with ⟨key, rest, hcons⟩
  refine ⟨key, rest, hcons, ?_⟩
  rw [hfront, LFUPolicy.evictFront, aimed_bucket, hcons]

theorem evict_of_empty (hempty : p.freqs = ∅) : p.evict = (p, none) := by
  have hitems : p.items.keys = [] := by
    refine List.eq_nil_iff_forall_not_mem.mpr fun key hkey => ?_
    exact (freqs_nonempty hkey).ne_empty hempty
  rw [LFUPolicy.evict, if_pos hitems]

theorem WellFormed.settled_onRemove (hp : p.WellFormed) (h : p.Settled)
    (gone : Bytes) : (p.onRemove gone).Settled := by
  rcases h with hmin | ⟨key, least, hbehind⟩
  · exact .inl (hp.onRemove_minimal hmin gone)
  · rcases hbehind.onRemove hp gone with hstill | hleast
    · exact .inr ⟨key, least, hstill⟩
    · exact .inl (.inl hleast)

theorem WellFormed.settled_bump (hp : p.WellFormed) (h : p.Settled)
    (hused : p.items.lookup used = some f) : (p.bump used).Settled := by
  rcases h with hmin | ⟨key, least, hbehind⟩
  · rcases hp.bump_minimal hmin hused with hmin | ⟨least, hbehind⟩
    · exact .inl hmin
    · exact .inr ⟨used, least, hbehind⟩
  · rcases hbehind.bump hp hused with hstill | hleast
    · exact .inr ⟨key, least, hstill⟩
    · exact .inl (.inl hleast)

theorem WellFormed.behind_onRemove_iff (hp : p.WellFormed) (h : p.Settled) (gone : Bytes) :
    (p.onRemove gone).Behind key least ↔
      p.Behind key least ∧ (p.onRemove gone).Trails key least := by
  constructor
  · intro hafter
    refine ⟨?_, hafter.trails⟩
    rcases h with hmin | ⟨other, m, hbehind⟩
    · exact absurd (hp.onRemove_minimal hmin gone) hafter.not_minimal
    · rcases hbehind.onRemove hp gone with hstill | hleast
      · rcases hstill.unique hafter with ⟨rfl, rfl⟩
        exact hbehind
      · exact absurd (.inl hleast) hafter.not_minimal
  · rintro ⟨hbehind, hleast, f, hlower, hkey⟩
    rcases hbehind.onRemove hp gone with hstill | hmin
    · exact hstill
    · rcases hleast.1 with ⟨other, -, hother⟩
      have hmem : p.minFreq ∈ (p.onRemove gone).freqs := ⟨other, hbehind.minFreq ▸ hother⟩
      have hle := hmin.2 ⟨key, hkey⟩
      rw [hp.onRemove_minFreq_of_mem hmem, hbehind.minFreq] at hle
      omega

theorem WellFormed.behind_bump_self (hp : p.WellFormed) (h : p.Settled)
    (hused : p.items.lookup used = some f)
    (hleast : IsLeast (p.freqsWithout used) least) (hlower : f + 1 < least) :
    (p.bump used).Behind used least := by
  refine ⟨?_, bump_freqsWithout hused ▸ hleast, f + 1, hlower, bump_self hused⟩
  rw [bump_minFreq hused]
  have hlast : f ∉ p.freqsWithout used := by
    intro hmem
    have hle := hleast.2 hmem
    omega
  rcases h with (hmin | ⟨-, hsingle⟩) | ⟨key, m, hbehind⟩
  · -- the bucket of the key ends, so the search runs while the key is in none
    have hmine : p.minFreq = f := by
      refine hmin.unique ⟨⟨used, hused⟩, ?_⟩
      rintro g ⟨other, hother⟩
      by_cases hne : other = used
      · rw [hne, hused] at hother
        exact (Option.some.inj hother).le
      · have hle := hleast.2 ⟨other, hne, hother⟩
        omega
    rcases hp.onRemove_minFreq hused with ⟨-, -, hscan⟩ | ⟨hnot, -⟩
    · have hscanned := (hp.onRemove used).1.scanMinFreq_isLeast
        (onRemove_freqs used ▸ ⟨least, hleast.1⟩)
      rw [onRemove_freqs] at hscanned
      exact hscan.trans (hscanned.unique hleast)
    · exact absurd (hnot hmine) hlast
  · have hmem := hleast.1
    rw [hsingle used (mem_items hused)] at hmem
    cases hmem
  · have hminFreq := hbehind.minFreq
    by_cases hself : key = used
    · subst hself
      obtain rfl := hbehind.isLeast.unique hleast
      have hmem : p.minFreq ∈ (p.onRemove key).freqs := by
        rw [onRemove_freqs, hbehind.minFreq]
        exact hleast.1
      rw [hp.onRemove_minFreq_of_mem hmem, hbehind.minFreq]
    · rcases hbehind.lower with ⟨g, hg, hkey⟩
      have hothers := hbehind.isLeast.2 ⟨used, Ne.symm hself, hused⟩
      have hle := hleast.2 ⟨key, hself, hkey⟩
      omega

theorem WellFormed.behind_bump_iff (hp : p.WellFormed) (h : p.Settled)
    (hused : p.items.lookup used = some f) :
    (p.bump used).Behind key least ↔
      (key = used ∨ p.Behind key least) ∧ (p.bump used).Trails key least := by
  constructor
  · intro hafter
    refine ⟨?_, hafter.trails⟩
    rcases h with hmin | ⟨other, m, hbehind⟩
    · rcases hp.bump_minimal hmin hused with hmin | ⟨m, hself⟩
      · exact absurd hmin hafter.not_minimal
      · exact .inl (hself.unique hafter).1
    · rcases hbehind.bump hp hused with hstill | hleast
      · rcases hstill.unique hafter with ⟨rfl, rfl⟩
        exact .inr hbehind
      · exact absurd (.inl hleast) hafter.not_minimal
  · rintro ⟨rfl | hbehind, hleast, g, hlower, hkey⟩
    · rw [bump_freqsWithout hused] at hleast
      have hg := Option.some.inj ((bump_self hused).symm.trans hkey)
      exact hp.behind_bump_self h hused hleast (hg ▸ hlower)
    · rcases hbehind.bump hp hused with hstill | hmin
      · exact hstill
      · have hmem : p.minFreq ∈ (p.onRemove used).freqs := by
          rw [onRemove_freqs, hbehind.minFreq]
          rcases hleast.1 with ⟨other, hne, hother⟩
          by_cases hself : other = used
          · subst hself
            have hf := Option.some.inj ((bump_self hused).symm.trans hother)
            have hle := hbehind.isLeast.2 ⟨other, hne, hused⟩
            omega
          · exact ⟨other, hself, (bump_other hused hself).symm.trans hother⟩
        have hle := hmin.2 ⟨key, hkey⟩
        rw [bump_minFreq hused, hp.onRemove_minFreq_of_mem hmem, hbehind.minFreq] at hle
        omega

theorem WellFormed.onRemove_bucket (hp : p.WellFormed) (gone : Bytes) (f : ℕ) :
    (p.onRemove gone).bucket f = (p.bucket f).erase gone := by
  have herase (hne : p.items.lookup gone ≠ some f) : p.bucket f = (p.bucket f).erase gone := by
    refine (List.erase_of_not_mem fun hmem => hne ?_).symm
    exact (hp.mem_bucket gone f).mp hmem
  cases hgone : p.items.lookup gone with
  | none =>
    have hsame : p.onRemove gone = p := by simp only [LFUPolicy.onRemove, hgone]
    rw [hsame]
    exact herase (by simp [hgone])
  | some g =>
    have hremoved : (p.onRemove gone).bucket f = (p.removeFromBucket gone g).bucket f := by
      simp only [LFUPolicy.onRemove, hgone]
      rfl
    rw [hremoved, removeFromBucket_bucket]
    split_ifs with hf
    · rw [hf]
    · exact herase (by rw [hgone]; exact fun heq => hf (Option.some.inj heq).symm)

theorem onAdd_of_tracked (hkey : p.items.lookup key = some f) : p.onAdd key = p.bump key := by
  rw [onAdd, if_pos (mem_items hkey)]

theorem onAdd_of_new (hkey : p.items.lookup key = none) :
    p.onAdd key = { p.pushBack key 1 with minFreq := 1 } := by
  rw [onAdd, if_neg (AList.lookup_eq_none.mp hkey)]

theorem WellFormed.onAdd_minimal (hp : p.WellFormed)
    (hkey : p.items.lookup key = none) : (p.onAdd key).Minimal := by
  have hadded := (hp.onAdd key).1
  rw [onAdd_of_new hkey] at hadded ⊢
  refine .inl ⟨⟨key, AList.lookup_insert _⟩, ?_⟩
  · rintro g ⟨other, hother⟩
    exact hadded.pos other g hother

end Calls

end LFUPolicy

/-! ## Runs -/

def Lags (usage : Bytes → Option Usage) (key : Bytes) (least : ℕ) : Prop :=
  IsLeast {f | ∃ other, other ≠ key ∧ (usage other).map Usage.freq = some f} least ∧
    ∃ f < least, (usage key).map Usage.freq = some f

def PolicyCall.Uses (usage : Bytes → Option Usage) (call : PolicyCall) (key : Bytes) :
    Prop :=
  (call = .onAdd key ∨ call = .onAccess key) ∧ usage key ≠ none

def PolicyCall.Adds (usage : Bytes → Option Usage) (call : PolicyCall) : Prop :=
  ∃ key, call = .onAdd key ∧ usage key = none

section Calls

variable {usage : Bytes → Option Usage} {key x : Bytes}

@[simp] theorem PolicyCall.uses_onAdd : (onAdd key).Uses usage x ↔ x = key ∧ usage key ≠ none := by
  simp only [Uses, onAdd.injEq, reduceCtorEq, or_false]
  constructor <;> rintro ⟨rfl, htracked⟩ <;> exact ⟨rfl, htracked⟩

@[simp] theorem PolicyCall.uses_onAccess :
    (onAccess key).Uses usage x ↔ x = key ∧ usage key ≠ none := by
  simp only [Uses, onAccess.injEq, reduceCtorEq, false_or]
  constructor <;> rintro ⟨rfl, htracked⟩ <;> exact ⟨rfl, htracked⟩

@[simp] theorem PolicyCall.not_uses_onRemove : ¬ (onRemove key).Uses usage x := by
  simp [Uses]

@[simp] theorem PolicyCall.not_uses_evict : ¬ evict.Uses usage x := by
  simp [Uses]

@[simp] theorem PolicyCall.adds_onAdd : (onAdd key).Adds usage ↔ usage key = none := by
  simp [Adds]

@[simp] theorem PolicyCall.not_adds_onAccess : ¬ (onAccess key).Adds usage := by
  simp [Adds]

@[simp] theorem PolicyCall.not_adds_onRemove : ¬ (onRemove key).Adds usage := by
  simp [Adds]

@[simp] theorem PolicyCall.not_adds_evict : ¬ evict.Adds usage := by
  simp [Adds]

end Calls

inductive Overlooked : List PolicyCall → Bytes → ℕ → Prop where
  | used {calls : List PolicyCall} {call : PolicyCall} {key : Bytes} {least : ℕ}
      (huses : call.Uses (LFURun.after calls).usage key)
      (hlags : Lags (LFURun.after (calls ++ [call])).usage key least) :
      Overlooked (calls ++ [call]) key least
  | kept {calls : List PolicyCall} {call : PolicyCall} {key : Bytes} {least : ℕ}
      (hbefore : Overlooked calls key least)
      (hadds : ¬ call.Adds (LFURun.after calls).usage)
      (hlags : Lags (LFURun.after (calls ++ [call])).usage key least) :
      Overlooked (calls ++ [call]) key least

def Earlier (usage : Bytes → Option Usage) (key other : Bytes) : Prop :=
  ∀ use x, usage key = some use → usage other = some x → use.since < x.since

structure LFURun.Sound (r : LFURun) : Prop where
  wellFormed : r.policy.WellFormed
  settled : r.policy.Settled
  freq : ∀ key, r.policy.items.lookup key = (r.usage key).map Usage.freq
  past : ∀ key use, r.usage key = some use → use.since < r.count
  inOrder : ∀ f, (r.policy.bucket f).Pairwise (Earlier r.usage)

inductive LFURun.Change (r : LFURun) (call : PolicyCall) : LFURun → Prop where
  | idle (hadds : ¬ call.Adds r.usage) (huses : ∀ x, ¬ call.Uses r.usage x) :
      r.Change call ⟨r.policy, r.usage, r.count + 1⟩
  | remove {gone : Bytes} {policy : LFUPolicy}
      (hpolicy : policy = r.policy ∨ policy = r.policy.aimed)
      (hadds : ¬ call.Adds r.usage) (huses : ∀ x, ¬ call.Uses r.usage x) :
      r.Change call ⟨policy.onRemove gone, Function.update r.usage gone none, r.count + 1⟩
  | use {key : Bytes} {old : Usage} (hkey : r.usage key = some old)
      (hadds : ¬ call.Adds r.usage) (huses : ∀ x, call.Uses r.usage x ↔ x = key) :
      r.Change call ⟨r.policy.bump key,
        Function.update r.usage key (some (old.again r.count)), r.count + 1⟩
  | add {key : Bytes} (hkey : r.usage key = none)
      (hadds : call.Adds r.usage) (huses : ∀ x, ¬ call.Uses r.usage x) :
      r.Change call ⟨r.policy.onAdd key,
        Function.update r.usage key (some ⟨1, r.count⟩), r.count + 1⟩

namespace LFURun.Sound

section Changes

variable {r : LFURun} {key : Bytes}

theorem pairwise_update {usage : Bytes → Option Usage} {keys : List Bytes}
    (h : keys.Pairwise (Earlier usage)) (hkey : key ∉ keys) (new : Option Usage) :
    keys.Pairwise (Earlier (Function.update usage key new)) := by
  refine h.imp_of_mem fun {a b} ha hb hearlier x y hx hy => ?_
  rw [Function.update_of_ne (ne_of_mem_of_not_mem ha hkey)] at hx
  rw [Function.update_of_ne (ne_of_mem_of_not_mem hb hkey)] at hy
  exact hearlier x y hx hy

theorem fresh : LFURun.fresh.Sound where
  wellFormed := LFUPolicy.empty_wellFormed
  settled := by
    refine .inl (.inr ⟨rfl, fun key hkey => ?_⟩)
    exact absurd hkey (AList.notMem_empty key)
  freq := fun key => rfl
  past := by
    intro key use hkey
    cases hkey
  inOrder := fun f => List.Pairwise.nil

theorem idle (h : r.Sound) : LFURun.Sound ⟨r.policy, r.usage, r.count + 1⟩ :=
  { h with past := fun key use hkey => Nat.lt_succ_of_lt (h.past key use hkey) }

theorem change (h : r.Sound) {policy : LFUPolicy} {new : Option Usage}
    (hwellFormed : policy.WellFormed) (hsettled : policy.Settled)
    (hself : policy.items.lookup key = new.map Usage.freq)
    (hothers : ∀ x, x ≠ key → policy.items.lookup x = r.policy.items.lookup x)
    (hnew : ∀ use ∈ new, use.since = r.count)
    (hbucket : ∀ f, policy.bucket f = (r.policy.bucket f).erase key ∨
      policy.bucket f = (r.policy.bucket f).erase key ++ [key]) :
    LFURun.Sound ⟨policy, Function.update r.usage key new, r.count + 1⟩ := by
  have hrest (f : ℕ) : ((r.policy.bucket f).erase key).Pairwise
      (Earlier (Function.update r.usage key new)) := by
    refine pairwise_update ((h.inOrder f).sublist List.erase_sublist) ?_ new
    exact fun hmem => ((h.wellFormed.nodup f).mem_erase_iff.mp hmem).1 rfl
  refine ⟨hwellFormed, hsettled, fun x => ?_, fun x use hx => ?_, fun f => ?_⟩
  · dsimp only
    by_cases hx : x = key
    · rw [hx, Function.update_self, hself]
    · rw [Function.update_of_ne hx, hothers x hx, h.freq]
  · dsimp only at hx ⊢
    by_cases hne : x = key
    · rw [hne, Function.update_self] at hx
      exact (hnew use hx).trans_lt (Nat.lt_succ_self _)
    · rw [Function.update_of_ne hne] at hx
      exact Nat.lt_succ_of_lt (h.past x use hx)
  · dsimp only
    rcases hbucket f with hf | hf
    · rw [hf]
      exact hrest f
    · rw [hf, List.pairwise_append]
      refine ⟨hrest f, List.pairwise_singleton _ _, fun a ha b hb x y hx hy => ?_⟩
      have ha' := (h.wellFormed.nodup f).mem_erase_iff.mp ha
      rw [List.mem_singleton.mp hb, Function.update_self] at hy
      rw [Function.update_of_ne ha'.1] at hx
      rw [hnew y hy]
      exact h.past a x hx

theorem remove (h : r.Sound) (key : Bytes) : LFURun.Sound
      ⟨r.policy.onRemove key, Function.update r.usage key none, r.count + 1⟩ := by
  refine h.change (h.wellFormed.onRemove key).1
    (h.wellFormed.settled_onRemove h.settled key) ?_ (fun x hx => ?_) ?_ fun f => ?_
  · rw [LFUPolicy.onRemove_lookup, if_pos rfl, Option.map_none]
  · rw [LFUPolicy.onRemove_lookup, if_neg hx]
  · intro use hnone
    cases hnone
  · exact .inl (h.wellFormed.onRemove_bucket key f)

theorem use (h : r.Sound) {old : Usage} (hkey : r.usage key = some old) :
    LFURun.Sound ⟨r.policy.bump key,
      Function.update r.usage key (some (old.again r.count)), r.count + 1⟩ := by
  have hlookup : r.policy.items.lookup key = some old.freq := by
    rw [h.freq, hkey, Option.map_some]
  refine h.change (h.wellFormed.bump key).1
    (h.wellFormed.settled_bump h.settled hlookup) ?_ (fun x hx => ?_) ?_ fun f => ?_
  · exact LFUPolicy.bump_self hlookup
  · exact LFUPolicy.bump_other hlookup hx
  · intro use huse
    rw [← Option.some.inj huse]
    rfl
  · rw [LFUPolicy.bump_eq hlookup, LFUPolicy.pushBack_bucket]
    split_ifs with hf
    · rw [h.wellFormed.onRemove_bucket, hf]
      exact .inr rfl
    · exact .inl (h.wellFormed.onRemove_bucket key f)

theorem add (h : r.Sound) (hkey : r.usage key = none) : LFURun.Sound ⟨r.policy.onAdd key,
      Function.update r.usage key (some ⟨1, r.count⟩), r.count + 1⟩ := by
  have hlookup : r.policy.items.lookup key = none := by
    rw [h.freq, hkey, Option.map_none]
  have habsent (f : ℕ) : (r.policy.bucket f).erase key = r.policy.bucket f := by
    refine List.erase_of_not_mem fun hmem => ?_
    rw [h.wellFormed.mem_bucket, hlookup] at hmem
    cases hmem
  have hadd := LFUPolicy.onAdd_of_new hlookup
  refine h.change (h.wellFormed.onAdd key).1
    (.inl (h.wellFormed.onAdd_minimal hlookup)) ?_ (fun x hx => ?_) ?_ fun f => ?_
  · rw [hadd]
    exact AList.lookup_insert _
  · rw [hadd]
    exact AList.lookup_insert_ne hx
  · intro use huse
    rw [← Option.some.inj huse]
  · have hbucket : (r.policy.onAdd key).bucket f = (r.policy.pushBack key 1).bucket f := by
      rw [hadd]
      rfl
    rw [hbucket, LFUPolicy.pushBack_bucket, habsent]
    split_ifs with hf
    · rw [hf]
      exact .inr rfl
    · exact .inl rfl

end Changes

section Runs

variable {r : LFURun} {key : Bytes} {least : ℕ}

theorem trails_iff (h : r.Sound) : r.policy.Trails key least ↔ Lags r.usage key least := by
  unfold LFUPolicy.Trails LFUPolicy.freqsWithout Lags
  simp only [h.freq]

theorem step_change (h : r.Sound) (call : PolicyCall) : r.Change call (r.step call) := by
  cases call with
  | onAdd key =>
    cases hkey : r.usage key with
    | none =>
      have hstep : r.step (.onAdd key) = ⟨r.policy.onAdd key,
          Function.update r.usage key (some ⟨1, r.count⟩), r.count + 1⟩ := by
        simp only [step, LFUPolicy.call, nextUsage, hkey, Option.elim_none]
      rw [hstep]
      exact .add hkey (by simp [hkey]) (by simp [hkey])
    | some old =>
      have hlookup : r.policy.items.lookup key = some old.freq := by
        rw [h.freq, hkey, Option.map_some]
      have hstep : r.step (.onAdd key) = ⟨r.policy.bump key,
          Function.update r.usage key (some (old.again r.count)), r.count + 1⟩ := by
        simp only [step, LFUPolicy.call, nextUsage, hkey, Option.elim_some,
          LFUPolicy.onAdd_of_tracked hlookup]
      rw [hstep]
      exact .use hkey (by simp [hkey]) (by simp [hkey])
  | onAccess key =>
    cases hkey : r.usage key with
    | none =>
      have hlookup : r.policy.items.lookup key = none := by
        rw [h.freq, hkey, Option.map_none]
      have husage : Function.update r.usage key none = r.usage := by
        rw [← hkey, Function.update_eq_self]
      have hstep : r.step (.onAccess key) = ⟨r.policy, r.usage, r.count + 1⟩ := by
        simp only [step, LFUPolicy.call, LFUPolicy.onAccess, LFUPolicy.bump, hlookup,
          nextUsage, hkey, Option.map_none, husage]
      rw [hstep]
      exact .idle (by simp) (by simp [hkey])
    | some old =>
      have hstep : r.step (.onAccess key) = ⟨r.policy.bump key,
          Function.update r.usage key (some (old.again r.count)), r.count + 1⟩ := by
        simp only [step, LFUPolicy.call, LFUPolicy.onAccess, nextUsage, hkey, Option.map_some]
      rw [hstep]
      exact .use hkey (by simp) (by simp [hkey])
  | onRemove key => exact .remove (.inl rfl) (by simp) (by simp)
  | evict =>
    by_cases hempty : r.policy.freqs.Nonempty
    · rcases h.wellFormed.evict_eq hempty with ⟨key, rest, -, hevict⟩
      have hstep : r.step .evict = ⟨r.policy.aimed.onRemove key,
          Function.update r.usage key none, r.count + 1⟩ := by
        simp only [step, LFUPolicy.call, nextUsage, hevict, Option.elim_some]
      rw [hstep]
      exact .remove (.inr rfl) (by simp) (by simp)
    · have hevict := LFUPolicy.evict_of_empty (Set.not_nonempty_iff_eq_empty.mp hempty)
      have hstep : r.step .evict = ⟨r.policy, r.usage, r.count + 1⟩ := by
        simp only [step, LFUPolicy.call, nextUsage, hevict, Option.elim_none]
      rw [hstep]
      exact .idle (by simp) (by simp)

theorem aimed (h : r.Sound) : LFURun.Sound { r with policy := r.policy.aimed } where
  wellFormed := h.wellFormed.aimed
  settled := h.wellFormed.settled_aimed h.settled
  freq := by
    dsimp only
    rw [LFUPolicy.aimed_items]
    exact h.freq
  past := h.past
  inOrder := by
    dsimp only
    rw [LFUPolicy.aimed_bucket]
    exact h.inOrder

theorem step (h : r.Sound) (call : PolicyCall) : (r.step call).Sound := by
  have hchange := h.step_change call
  generalize r.step call = next at hchange ⊢
  cases hchange with
  | idle hadds huses => exact h.idle
  | remove hpolicy hadds huses =>
    rcases hpolicy with rfl | rfl
    · exact h.remove _
    · exact h.aimed.remove _
  | use hkey hadds huses => exact h.use hkey
  | add hkey hadds huses => exact h.add hkey

theorem after (calls : List PolicyCall) : (LFURun.after calls).Sound := by
  induction calls using List.reverseRecOn with
  | nil => exact fresh
  | append_singleton calls call ih =>
    rw [LFURun.after_append]
    exact ih.step call

theorem behind_step_iff (h : r.Sound) (call : PolicyCall) : (r.step call).policy.Behind key least ↔
      (call.Uses r.usage key ∨ r.policy.Behind key least ∧ ¬ call.Adds r.usage) ∧
        Lags (r.step call).usage key least := by
  have hafter := h.step call
  have hchange := h.step_change call
  rw [← hafter.trails_iff]
  generalize r.step call = next at hafter hchange ⊢
  cases hchange with
  | idle hadds huses =>
    simp only [huses, hadds, false_or, not_false_eq_true, and_true]
    exact ⟨fun hbehind => ⟨hbehind, hbehind.trails⟩, And.left⟩
  | remove hpolicy hadds huses =>
    simp only [huses, hadds, false_or, not_false_eq_true, and_true]
    rcases hpolicy with rfl | rfl
    · exact h.wellFormed.behind_onRemove_iff h.settled _
    · rw [h.wellFormed.aimed.behind_onRemove_iff h.aimed.settled, h.wellFormed.behind_aimed_iff]
  | @use used old hkey hadds huses =>
    have hlookup : r.policy.items.lookup used = some old.freq := by
      rw [h.freq, hkey, Option.map_some]
    simp only [huses, hadds, not_false_eq_true, and_true]
    exact h.wellFormed.behind_bump_iff h.settled hlookup
  | add hkey hadds huses =>
    simp only [huses, hadds, not_true_eq_false, and_false, or_self, false_and, iff_false]
    refine fun hbehind => hbehind.not_minimal (h.wellFormed.onAdd_minimal ?_)
    rw [h.freq, hkey, Option.map_none]

theorem behind_iff (calls : List PolicyCall) :
    (LFURun.after calls).policy.Behind key least ↔ Overlooked calls key least := by
  induction calls using List.reverseRecOn with
  | nil =>
    refine iff_of_false (fun hbehind => hbehind.not_minimal (.inr ⟨rfl, ?_⟩)) ?_
    · exact fun x hx => absurd hx (AList.notMem_empty x)
    · generalize hnil : ([] : List PolicyCall) = calls
      rintro (_ | _) <;> simp at hnil
  | append_singleton calls call ih =>
    rw [LFURun.after_append, (after calls).behind_step_iff, ih, ← LFURun.after_append]
    constructor
    · rintro ⟨huses | ⟨hbefore, hadds⟩, hlags⟩
      · exact .used huses hlags
      · exact .kept hbefore hadds hlags
    · intro hafter
      generalize hcalls : calls ++ [call] = later at hafter ⊢
      cases hafter with
      | used huses hlags =>
        rcases List.append_inj' hcalls rfl with ⟨rfl, hcall⟩
        cases hcall
        exact ⟨.inl huses, hlags⟩
      | kept hbefore hadds hlags =>
        rcases List.append_inj' hcalls rfl with ⟨rfl, hcall⟩
        cases hcall
        exact ⟨.inr ⟨hbefore, hadds⟩, hlags⟩

theorem victim (h : r.Sound) {rest : List Bytes}
    (hbucket : r.policy.bucket r.policy.aimed.minFreq = key :: rest) :
    ∃ use, r.usage key = some use ∧ use.freq = r.policy.aimed.minFreq ∧
      ∀ other x, other ≠ key → r.usage other = some x → x.freq = use.freq →
        use.since < x.since := by
  have hkey : key ∈ r.policy.bucket r.policy.aimed.minFreq := by simp [hbucket]
  rw [h.wellFormed.mem_bucket, h.freq, Option.map_eq_some_iff] at hkey
  rcases hkey with ⟨use, huse, hfreq⟩
  refine ⟨use, huse, hfreq, fun other x hne hother hsame => ?_⟩
  have hmem : other ∈ r.policy.bucket r.policy.aimed.minFreq := by
    rw [h.wellFormed.mem_bucket, h.freq, hother, Option.map_some, hsame, hfreq]
  have hpairwise := h.inOrder r.policy.aimed.minFreq
  rw [hbucket] at hmem hpairwise
  have hrest := (List.mem_cons.mp hmem).resolve_left hne
  exact (List.pairwise_cons.mp hpairwise).1 other hrest use x huse hother

theorem freqs_nonempty_iff (h : r.Sound) : r.policy.freqs.Nonempty ↔ ∃ key, r.usage key ≠ none := by
  constructor
  · rintro ⟨f, key, hkey⟩
    refine ⟨key, fun hnone => ?_⟩
    rw [h.freq, hnone] at hkey
    cases hkey
  · rintro ⟨key, hkey⟩
    rcases Option.ne_none_iff_exists'.mp hkey with ⟨use, huse⟩
    exact ⟨use.freq, key, by rw [h.freq, huse, Option.map_some]⟩

end Runs

end LFURun.Sound

theorem evict_leastUsed_iff (calls : List PolicyCall) :
    ((LFURun.after calls).policy.evict.2 = none ↔ ∀ key, (LFURun.after calls).usage key = none) ∧
      ∀ key, (LFURun.after calls).policy.evict.2 = some key →
        (LeastUsed (LFURun.after calls).usage key ↔
          ∀ other least, ¬ Overlooked calls other least) := by
  have hsound := LFURun.Sound.after calls
  by_cases hne : (LFURun.after calls).policy.freqs.Nonempty
  · rcases hsound.wellFormed.evict_eq hne with ⟨victim, rest, hbucket, hevict⟩
    refine ⟨iff_of_false (by simp [hevict]) ?_, fun key hkey => ?_⟩
    · intro hnone
      rcases hsound.freqs_nonempty_iff.mp hne with ⟨key, hkey⟩
      exact hkey (hnone key)
    · rw [hevict] at hkey
      obtain rfl : victim = key := Option.some.inj hkey
      rcases hsound.victim hbucket with ⟨use, huse, hfreq, hfirst⟩
      rcases hsound.settled.aimed hsound.wellFormed hne with
        ⟨hleast, hnot⟩ | ⟨haimed, other, least, hbehind⟩
      · refine iff_of_true ⟨use, huse, fun other x hother hx => ?_⟩ fun other least hover =>
          hnot other least ((LFURun.Sound.behind_iff calls).mpr hover)
        have hle := hleast.2 ⟨other, by rw [hsound.freq, hx, Option.map_some]⟩
        rw [← hfreq] at hle
        rcases hle.lt_or_eq with hlt | heq
        · exact .inl hlt
        · exact .inr ⟨heq, hfirst other x hother hx heq.symm⟩
      · refine iff_of_false ?_ fun hnot =>
          hnot other least ((LFURun.Sound.behind_iff calls).mp hbehind)
        rintro ⟨use', huse', hmin⟩
        obtain rfl : use = use' := Option.some.inj (huse.symm.trans huse')
        rw [haimed, hbehind.minFreq] at hfreq
        rcases hbehind.lower with ⟨f, hlower, hother⟩
        rw [hsound.freq, Option.map_eq_some_iff] at hother
        rcases hother with ⟨x, hx, rfl⟩
        have hne : other ≠ victim := by
          rintro rfl
          rw [Option.some.inj (hx.symm.trans huse)] at hlower
          omega
        have hless := hmin other x hne hx
        omega
  · have hempty := Set.not_nonempty_iff_eq_empty.mp hne
    rw [LFUPolicy.evict_of_empty hempty]
    refine ⟨iff_of_true rfl fun key => ?_, fun key hkey => by cases hkey⟩
    by_contra hkey
    exact hne (hsound.freqs_nonempty_iff.mpr ⟨key, hkey⟩)

def overlookedCalls : List PolicyCall :=
  [.onAdd [97], .onAccess [97], .onAccess [97], .onAdd [98], .onAccess [98]]

theorem evict_takes_frequent_key : (LFURun.after overlookedCalls).policy.evict.2 = some [97] ∧
      (LFURun.after overlookedCalls).usage [97] = some ⟨3, 2⟩ ∧
      (LFURun.after overlookedCalls).usage [98] = some ⟨2, 4⟩ ∧
      ¬ LeastUsed (LFURun.after overlookedCalls).usage [97] := by
  refine ⟨by decide, by decide, by decide, ?_⟩
  rintro ⟨use, huse, hmin⟩
  obtain rfl : ⟨3, 2⟩ = use := Option.some.inj huse
  have hless := hmin [98] ⟨2, 4⟩ (by decide) rfl
  revert hless
  decide

end MCache.Store
