import MCache.GoValues
import Mathlib.Data.List.AList

/-!
# Eviction policies

The LRU and LFU policies of `lru.go` and `lfu.go`.  The list nodes that the
source reaches through pointers are identified by their keys: a key is in at
most one list, and only once.
-/

namespace MCache.Store

structure LRUPolicy where
  order : List Bytes
  deriving DecidableEq

namespace LRUPolicy

def empty : LRUPolicy := ⟨[]⟩

def onAccess (p : LRUPolicy) (key : Bytes) : LRUPolicy :=
  if key ∈ p.order then ⟨key :: p.order.erase key⟩ else p

def onAdd (p : LRUPolicy) (key : Bytes) : LRUPolicy :=
  if key ∈ p.order then ⟨key :: p.order.erase key⟩ else ⟨key :: p.order⟩

def onRemove (p : LRUPolicy) (key : Bytes) : LRUPolicy := ⟨p.order.erase key⟩

def evict (p : LRUPolicy) : LRUPolicy × Option Bytes :=
  match p.order.getLast? with
  | none => (p, none)
  | some key => (⟨p.order.dropLast⟩, some key)

end LRUPolicy

structure LFUPolicy where
  items : AList fun _ : Bytes => ℕ
  freqLists : AList fun _ : ℕ => List Bytes
  minFreq : ℕ

namespace LFUPolicy

def empty : LFUPolicy where
  items := ∅
  freqLists := ∅
  minFreq := 0

def bucket (p : LFUPolicy) (freq : ℕ) : List Bytes := (p.freqLists.lookup freq).getD []

def scanMinFreq (p : LFUPolicy) : ℕ := p.freqLists.keys.min?.getD 0

def removeFromBucket (p : LFUPolicy) (key : Bytes) (freq : ℕ) : LFUPolicy :=
  let bucket := (p.bucket freq).erase key
  if bucket = [] then
    let p := { p with freqLists := p.freqLists.erase freq }
    if p.minFreq = freq then { p with minFreq := p.scanMinFreq } else p
  else { p with freqLists := p.freqLists.insert freq bucket }

def pushBack (p : LFUPolicy) (key : Bytes) (freq : ℕ) : LFUPolicy :=
  { p with
    items := p.items.insert key freq
    freqLists := p.freqLists.insert freq (p.bucket freq ++ [key]) }

def bump (p : LFUPolicy) (key : Bytes) : LFUPolicy :=
  match p.items.lookup key with
  | none => p
  | some freq => (p.removeFromBucket key freq).pushBack key (freq + 1)

def onAccess (p : LFUPolicy) (key : Bytes) : LFUPolicy := p.bump key

def onAdd (p : LFUPolicy) (key : Bytes) : LFUPolicy :=
  if key ∈ p.items then p.bump key
  else { p.pushBack key 1 with minFreq := 1 }

def onRemove (p : LFUPolicy) (key : Bytes) : LFUPolicy :=
  match p.items.lookup key with
  | none => p
  | some freq =>
    let p := p.removeFromBucket key freq
    { p with items := p.items.erase key }

def evictFront (p : LFUPolicy) : LFUPolicy × Option Bytes :=
  match p.bucket p.minFreq with
  | [] => (p, none)
  | key :: _ => (p.onRemove key, some key)

def evict (p : LFUPolicy) : LFUPolicy × Option Bytes :=
  if p.items.keys = [] then (p, none)
  else if p.bucket p.minFreq = [] then
    let p := { p with minFreq := p.scanMinFreq }
    if p.minFreq = 0 then (p, none) else p.evictFront
  else p.evictFront

end LFUPolicy

inductive PolicyKind where
  | noop
  | lru
  | lfu
  deriving DecidableEq, Repr

def getPolicyFactory : String → Option PolicyKind
  | "noop" => some .noop
  | "lru" => some .lru
  | "lfu" => some .lfu
  | _ => none

inductive Policy where
  | noop
  | lru (p : LRUPolicy)
  | lfu (p : LFUPolicy)

def PolicyKind.new : PolicyKind → Policy
  | .noop => .noop
  | .lru => .lru .empty
  | .lfu => .lfu .empty

namespace Policy

def onAccess (p : Policy) (key : Bytes) : Policy :=
  match p with
  | .noop => .noop
  | .lru p => .lru (p.onAccess key)
  | .lfu p => .lfu (p.onAccess key)

def onAdd (p : Policy) (key : Bytes) : Policy :=
  match p with
  | .noop => .noop
  | .lru p => .lru (p.onAdd key)
  | .lfu p => .lfu (p.onAdd key)

def onRemove (p : Policy) (key : Bytes) : Policy :=
  match p with
  | .noop => .noop
  | .lru p => .lru (p.onRemove key)
  | .lfu p => .lfu (p.onRemove key)

def evict (p : Policy) : Policy × Option Bytes :=
  match p with
  | .noop => (.noop, none)
  | .lru p => (.lru p.evict.1, p.evict.2)
  | .lfu p => (.lfu p.evict.1, p.evict.2)

def keys : Policy → List Bytes
  | .noop => []
  | .lru p => p.order
  | .lfu p => p.items.keys

end Policy

section LRU

variable {p : LRUPolicy}

theorem LRUPolicy.mem_onAccess {key x : Bytes} : x ∈ (p.onAccess key).order ↔ x ∈ p.order := by
  unfold LRUPolicy.onAccess
  split
  · rename_i hkey
    exact (List.perm_cons_erase hkey).mem_iff.symm
  · rfl

theorem LRUPolicy.nodup_onAccess {key : Bytes} (hp : p.order.Nodup) :
    (p.onAccess key).order.Nodup := by
  unfold LRUPolicy.onAccess
  split
  · rename_i hkey
    exact (List.perm_cons_erase hkey).nodup_iff.mp hp
  · exact hp

theorem LRUPolicy.mem_onAdd {key x : Bytes} : x ∈ (p.onAdd key).order ↔ x = key ∨ x ∈ p.order := by
  unfold LRUPolicy.onAdd
  split
  · rename_i hkey
    rw [← (List.perm_cons_erase hkey).mem_iff]
    constructor
    · exact .inr
    · rintro (rfl | hx)
      · exact hkey
      · exact hx
  · exact List.mem_cons

theorem LRUPolicy.nodup_onAdd {key : Bytes} (hp : p.order.Nodup) : (p.onAdd key).order.Nodup := by
  unfold LRUPolicy.onAdd
  split
  · rename_i hkey
    exact (List.perm_cons_erase hkey).nodup_iff.mp hp
  · rename_i hkey
    exact List.nodup_cons.mpr ⟨hkey, hp⟩

theorem LRUPolicy.evict_spec (hp : p.order.Nodup) (hne : p.order ≠ []) :
    ∃ key ∈ p.order, p.evict.2 = some key ∧ p.evict.1.order.Nodup ∧
      ∀ x, x ∈ p.evict.1.order ↔ x ≠ key ∧ x ∈ p.order := by
  have hlast : p.order.getLast? = some (p.order.getLast hne) := List.getLast?_eq_some_getLast hne
  have hsplit := List.dropLast_append_getLast hne
  have hnodup := hp
  rw [← hsplit, List.nodup_append] at hnodup
  refine ⟨p.order.getLast hne, List.getLast_mem hne, ?_, ?_, ?_⟩
  · simp [LRUPolicy.evict, hlast]
  · simpa [LRUPolicy.evict, hlast] using hnodup.1
  · intro x
    simp only [LRUPolicy.evict, hlast]
    constructor
    · intro hx
      have hne' : x ≠ p.order.getLast hne := hnodup.2.2 x hx _ (List.mem_singleton.mpr rfl)
      exact ⟨hne', List.dropLast_subset _ hx⟩
    · rintro ⟨hx, hmem⟩
      rw [← hsplit] at hmem
      rcases List.mem_append.mp hmem with hinit | hlastMem
      · exact hinit
      · exact absurd (List.mem_singleton.mp hlastMem) hx

end LRU

structure LFUPolicy.WellFormed (p : LFUPolicy) : Prop where
  mem_bucket : ∀ key freq, key ∈ p.bucket freq ↔ p.items.lookup key = some freq
  nodup : ∀ freq, (p.bucket freq).Nodup
  nonempty : ∀ freq, p.freqLists.lookup freq ≠ some []
  pos : ∀ key freq, p.items.lookup key = some freq → 0 < freq

section LFU

variable {p : LFUPolicy}

theorem LFUPolicy.empty_wellFormed : LFUPolicy.empty.WellFormed := by
  constructor <;> simp [LFUPolicy.empty, LFUPolicy.bucket, AList.lookup_empty]

theorem LFUPolicy.removeFromBucket_items (key : Bytes) (freq : ℕ) :
    (p.removeFromBucket key freq).items = p.items := by
  unfold LFUPolicy.removeFromBucket
  dsimp only
  split
  · split <;> rfl
  · rfl

theorem LFUPolicy.removeFromBucket_bucket (key : Bytes) (freq f : ℕ) :
    (p.removeFromBucket key freq).bucket f =
      if f = freq then (p.bucket freq).erase key else p.bucket f := by
  have hlists : (p.removeFromBucket key freq).freqLists =
      if (p.bucket freq).erase key = [] then p.freqLists.erase freq
      else p.freqLists.insert freq ((p.bucket freq).erase key) := by
    unfold LFUPolicy.removeFromBucket
    dsimp only
    split
    · split <;> rfl
    · rfl
  rw [LFUPolicy.bucket, hlists]
  by_cases hf : f = freq
  · subst f
    rw [if_pos rfl]
    split
    · rename_i hempty
      rw [hempty, AList.lookup_erase, Option.getD_none]
    · rw [AList.lookup_insert, Option.getD_some]
  · rw [if_neg hf]
    split
    · rw [AList.lookup_erase_ne hf, LFUPolicy.bucket]
    · rw [AList.lookup_insert_ne hf, LFUPolicy.bucket]

theorem LFUPolicy.removeFromBucket_nonempty (hp : p.WellFormed) (key : Bytes)
    (freq f : ℕ) : (p.removeFromBucket key freq).freqLists.lookup f ≠ some [] := by
  unfold LFUPolicy.removeFromBucket
  dsimp only
  by_cases hf : f = freq
  · subst f
    split
    · split <;> simp [AList.lookup_erase]
    · rename_i hne
      simpa [AList.lookup_insert] using hne
  · split
    · split <;> simpa [AList.lookup_erase_ne hf] using hp.nonempty f
    · simpa [AList.lookup_insert_ne hf] using hp.nonempty f

theorem LFUPolicy.WellFormed.onRemove (hp : p.WellFormed) (key : Bytes) :
    (p.onRemove key).WellFormed ∧ ∀ x, x ∈ (p.onRemove key).items ↔ x ≠ key ∧ x ∈ p.items := by
  unfold LFUPolicy.onRemove
  cases hkey : p.items.lookup key with
  | none =>
    refine ⟨hp, fun x => ⟨fun hx => ⟨?_, hx⟩, fun hx => hx.2⟩⟩
    rintro rfl
    exact AList.lookup_eq_none.mp hkey hx
  | some freq =>
    dsimp only
    constructor
    · constructor
      case mem_bucket =>
        intro x f
        change x ∈ (p.removeFromBucket key freq).bucket f ↔ _
        rw [LFUPolicy.removeFromBucket_bucket]
        simp only [LFUPolicy.removeFromBucket_items]
        by_cases hx : x = key
        · subst x
          rw [AList.lookup_erase]
          simp only [reduceCtorEq, iff_false]
          split
          · exact (hp.nodup freq).not_mem_erase
          · rename_i hf
            rw [hp.mem_bucket, hkey, Option.some.injEq]
            exact fun heq => hf heq.symm
        · rw [AList.lookup_erase_ne hx, ← hp.mem_bucket]
          split
          · rename_i hf
            rw [hf]
            exact List.mem_erase_of_ne hx
          · rfl
      case nodup =>
        intro f
        change ((p.removeFromBucket key freq).bucket f).Nodup
        rw [LFUPolicy.removeFromBucket_bucket]
        split
        · exact (hp.nodup freq).erase key
        · exact hp.nodup f
      case nonempty => exact LFUPolicy.removeFromBucket_nonempty hp key freq
      case pos =>
        intro x f hx
        simp only [LFUPolicy.removeFromBucket_items] at hx
        by_cases hxkey : x = key
        · subst x
          rw [AList.lookup_erase] at hx
          cases hx
        · rw [AList.lookup_erase_ne hxkey] at hx
          exact hp.pos x f hx
    · intro x
      rw [LFUPolicy.removeFromBucket_items, AList.mem_erase]

theorem LFUPolicy.pushBack_bucket (key : Bytes) (freq f : ℕ) : (p.pushBack key freq).bucket f =
      if f = freq then p.bucket freq ++ [key] else p.bucket f := by
  unfold LFUPolicy.pushBack LFUPolicy.bucket
  dsimp only
  split
  · rename_i hf
    rw [hf, AList.lookup_insert, Option.getD_some]
  · rename_i hf
    rw [AList.lookup_insert_ne hf]

theorem LFUPolicy.WellFormed.pushBack (hp : p.WellFormed) {key : Bytes}
    {freq : ℕ} (hkey : key ∉ p.items) (hfreq : 0 < freq) :
    (p.pushBack key freq).WellFormed ∧
      ∀ x, x ∈ (p.pushBack key freq).items ↔ x = key ∨ x ∈ p.items := by
  have hnone : p.items.lookup key = none := AList.lookup_eq_none.mpr hkey
  have habsent : ∀ f, key ∉ p.bucket f := by
    intro f hmem
    rw [hp.mem_bucket, hnone] at hmem
    cases hmem
  constructor
  · constructor
    case mem_bucket =>
      intro x f
      rw [LFUPolicy.pushBack_bucket]
      simp only [LFUPolicy.pushBack]
      by_cases hx : x = key
      · subst x
        rw [AList.lookup_insert, Option.some.injEq]
        split
        · rename_i hf
          simp [hf]
        · rename_i hf
          exact iff_of_false (habsent f) fun heq => hf heq.symm
      · rw [AList.lookup_insert_ne hx, ← hp.mem_bucket]
        split
        · rename_i hf
          simp [hf, hx]
        · rfl
    case nodup =>
      intro f
      rw [LFUPolicy.pushBack_bucket]
      split
      · exact List.nodup_append.mpr ⟨hp.nodup freq, List.nodup_singleton key, fun x hx y hy heq =>
            habsent freq ((List.mem_singleton.mp hy) ▸ heq ▸ hx)⟩
      · exact hp.nodup f
    case nonempty =>
      intro f
      unfold LFUPolicy.pushBack
      dsimp only
      by_cases hf : f = freq
      · subst f
        simp [AList.lookup_insert]
      · rw [AList.lookup_insert_ne hf]
        exact hp.nonempty f
    case pos =>
      intro x f hx
      simp only [LFUPolicy.pushBack] at hx
      by_cases hxkey : x = key
      · subst x
        rw [AList.lookup_insert, Option.some.injEq] at hx
        exact hx ▸ hfreq
      · rw [AList.lookup_insert_ne hxkey] at hx
        exact hp.pos x f hx
  · intro x
    simp [LFUPolicy.pushBack, AList.mem_insert]

theorem LFUPolicy.bump_eq {key : Bytes} {freq : ℕ} (hkey : p.items.lookup key = some freq) :
    p.bump key = (p.onRemove key).pushBack key (freq + 1) := by
  have hitems : p.items.insert key (freq + 1) = (p.items.erase key).insert key (freq + 1) := by
    apply AList.ext
    rw [AList.entries_insert, AList.entries_insert]
    change _ = _ :: List.kerase key (List.kerase key p.items.entries)
    rw [List.kerase_of_notMem_keys (List.notMem_keys_kerase key p.items.nodupKeys)]
  simp only [LFUPolicy.bump, LFUPolicy.onRemove, hkey, LFUPolicy.pushBack,
    LFUPolicy.removeFromBucket_items, hitems]
  rfl

variable (hp : p.WellFormed)
include hp

theorem LFUPolicy.WellFormed.bump (key : Bytes) :
    (p.bump key).WellFormed ∧ ∀ x, x ∈ (p.bump key).items ↔ x ∈ p.items := by
  cases hkey : p.items.lookup key with
  | none =>
    have hsame : p.bump key = p := by simp only [LFUPolicy.bump, hkey]
    rw [hsame]
    exact ⟨hp, fun x => Iff.rfl⟩
  | some freq =>
    rw [LFUPolicy.bump_eq hkey]
    have hremoved := hp.onRemove key
    have habsent : key ∉ (p.onRemove key).items := fun hmem => ((hremoved.2 key).mp hmem).1 rfl
    have hpushed := hremoved.1.pushBack habsent (Nat.succ_pos freq)
    refine ⟨hpushed.1, ?_⟩
    intro x
    rw [hpushed.2, hremoved.2]
    have hmem : key ∈ p.items := AList.lookup_isSome.mp (by simp [hkey])
    by_cases hx : x = key
    · simp [hx, hmem]
    · simp [hx]

theorem LFUPolicy.WellFormed.withMinFreq (freq : ℕ) :
    ({ p with minFreq := freq } : LFUPolicy).WellFormed :=
  ⟨hp.mem_bucket, hp.nodup, hp.nonempty, hp.pos⟩

theorem LFUPolicy.WellFormed.onAdd (key : Bytes) : (p.onAdd key).WellFormed ∧
      ∀ x, x ∈ (p.onAdd key).items ↔ x = key ∨ x ∈ p.items := by
  unfold LFUPolicy.onAdd
  split
  · rename_i hkey
    refine ⟨(hp.bump key).1, ?_⟩
    intro x
    rw [(hp.bump key).2]
    constructor
    · exact .inr
    · rintro (rfl | hx)
      · exact hkey
      · exact hx
  · rename_i hkey
    have hpushed := hp.pushBack hkey Nat.one_pos
    exact ⟨hpushed.1.withMinFreq 1, hpushed.2⟩

theorem LFUPolicy.WellFormed.evictFront (hne : p.bucket p.minFreq ≠ []) :
    ∃ key ∈ p.items, p.evictFront.2 = some key ∧ p.evictFront.1.WellFormed ∧
      ∀ x, x ∈ p.evictFront.1.items ↔ x ≠ key ∧ x ∈ p.items := by
  cases hbucket : p.bucket p.minFreq with
  | nil => exact absurd hbucket hne
  | cons key rest =>
    have hkey : key ∈ p.bucket p.minFreq := by simp [hbucket]
    rw [hp.mem_bucket] at hkey
    refine ⟨key, AList.lookup_isSome.mp (by simp [hkey]), ?_⟩
    simp only [LFUPolicy.evictFront, hbucket]
    exact ⟨trivial, hp.onRemove key⟩

theorem LFUPolicy.WellFormed.bucket_scanMinFreq {key : Bytes} (hkey : key ∈ p.items) :
    p.bucket p.scanMinFreq ≠ [] ∧ p.scanMinFreq ≠ 0 := by
  rcases Option.isSome_iff_exists.mp (AList.lookup_isSome.mpr hkey) with
    ⟨freq, hfreq⟩
  have hbucket : key ∈ p.bucket freq := (hp.mem_bucket key freq).mpr hfreq
  have hlisted : freq ∈ p.freqLists.keys := by
    by_contra hnot
    rw [LFUPolicy.bucket, AList.lookup_eq_none.mpr hnot] at hbucket
    cases hbucket
  cases hmin : p.freqLists.keys.min? with
  | none =>
    rw [List.min?_eq_none_iff.mp hmin] at hlisted
    cases hlisted
  | some least =>
    have hleast : least ∈ p.freqLists.keys := List.min?_mem hmin
    have hscan : p.scanMinFreq = least := by
      simp [LFUPolicy.scanMinFreq, hmin]
    rcases Option.isSome_iff_exists.mp (AList.lookup_isSome.mpr hleast) with
      ⟨bucket, hlookup⟩
    have hne : p.bucket least ≠ [] := by
      rw [LFUPolicy.bucket, hlookup, Option.getD_some]
      rintro rfl
      exact hp.nonempty least hlookup
    rw [hscan]
    refine ⟨hne, ?_⟩
    rcases List.exists_mem_of_ne_nil _ hne with ⟨other, hother⟩
    exact (hp.pos other least ((hp.mem_bucket other least).mp hother)).ne'

theorem LFUPolicy.WellFormed.evict {first : Bytes} (hfirst : first ∈ p.items) :
    ∃ key ∈ p.items, p.evict.2 = some key ∧ p.evict.1.WellFormed ∧
      ∀ x, x ∈ p.evict.1.items ↔ x ≠ key ∧ x ∈ p.items := by
  have hkeys : p.items.keys ≠ [] := List.ne_nil_of_mem hfirst
  unfold LFUPolicy.evict
  rw [if_neg hkeys]
  by_cases hempty : p.bucket p.minFreq = []
  · have hscan := hp.bucket_scanMinFreq hfirst
    simp only [if_pos hempty, if_neg hscan.2]
    exact (hp.withMinFreq _).evictFront hscan.1
  · rw [if_neg hempty]
    exact hp.evictFront hempty

end LFU

namespace Policy

def Tracking : Policy → Prop
  | .noop => False
  | .lru p => p.order.Nodup
  | .lfu p => p.WellFormed

variable {p : Policy}

variable (hp : p.Tracking)
include hp

theorem Tracking.keys_nodup : p.keys.Nodup := by
  cases p with
  | noop => cases hp
  | lru p => exact hp
  | lfu p => exact p.items.nodupKeys

theorem Tracking.onAccess (key : Bytes) :
    (p.onAccess key).Tracking ∧ ∀ x, x ∈ (p.onAccess key).keys ↔ x ∈ p.keys := by
  cases p with
  | noop => cases hp
  | lru p => exact ⟨LRUPolicy.nodup_onAccess hp, fun x => LRUPolicy.mem_onAccess⟩
  | lfu p => exact LFUPolicy.WellFormed.bump hp key

theorem Tracking.onAdd (key : Bytes) : (p.onAdd key).Tracking ∧
      ∀ x, x ∈ (p.onAdd key).keys ↔ x = key ∨ x ∈ p.keys := by
  cases p with
  | noop => cases hp
  | lru p => exact ⟨LRUPolicy.nodup_onAdd hp, fun x => LRUPolicy.mem_onAdd⟩
  | lfu p => exact LFUPolicy.WellFormed.onAdd hp key

theorem Tracking.onRemove (key : Bytes) : (p.onRemove key).Tracking ∧
      ∀ x, x ∈ (p.onRemove key).keys ↔ x ≠ key ∧ x ∈ p.keys := by
  cases p with
  | noop => cases hp
  | lru p => exact ⟨List.Nodup.erase key hp, fun x => List.Nodup.mem_erase_iff hp⟩
  | lfu p => exact LFUPolicy.WellFormed.onRemove hp key

theorem Tracking.evict (hne : p.keys ≠ []) :
    ∃ key ∈ p.keys, p.evict.2 = some key ∧ p.evict.1.Tracking ∧
      ∀ x, x ∈ p.evict.1.keys ↔ x ≠ key ∧ x ∈ p.keys := by
  cases p with
  | noop => cases hp
  | lru p => exact LRUPolicy.evict_spec hp hne
  | lfu p =>
    rcases List.exists_mem_of_ne_nil _ hne with ⟨first, hfirst⟩
    exact LFUPolicy.WellFormed.evict hp hfirst

end Policy

theorem PolicyKind.new_tracking {kind : PolicyKind} (hkind : kind ≠ .noop) :
    kind.new.Tracking ∧ kind.new.keys = [] := by
  cases kind with
  | noop => exact absurd rfl hkind
  | lru => exact ⟨List.nodup_nil, rfl⟩
  | lfu => exact ⟨LFUPolicy.empty_wellFormed, rfl⟩

end MCache.Store
