import MCache.CollectionQueries

/-!
# Increments of a field

`HIncrBy` reads the text of a field as an integer, adds to it and writes the sum
back.  It fails without a change for a text that is no integer; the hash that it
makes for a missing key is never left empty.  The sum is taken modulo `2 ^ 64`,
and so it is the sum over the integers exactly if that has 64 bits.
-/

namespace MCache.Store

section ShardOrder

variable {α : Type} (function : ParseFunction) (parse : Bytes → Except Strconv.NumError α)
  (add : α → α) (delta : α) (format : α → Bytes)

def hashIncrement (h : HashValue) (field : Bytes) : Option HashValue × Except CommandError α :=
  match h.lookup field with
  | none => (some (h.insert field (format delta)), .ok delta)
  | some text =>
    match parse text with
    | .error reason => (none, .error (.number function text reason))
    | .ok n => (some (h.insert field (format (add n))), .ok (add n))

def shardIncrement (hashes : AList fun _ : Bytes => HashValue) (key field : Bytes) :
    (AList fun _ : Bytes => HashValue) × Except CommandError α :=
  let made := if key ∈ hashes then hashes else hashes.insert key ∅
  let result := hashIncrement function parse add delta format
    ((made.lookup key).getD ∅) field
  match result.1 with
  | none => (made, result.2)
  | some h => (made.insert key h, result.2)

theorem Collections.increment_eq (c : Collections) (key field : Bytes) :
    let result := shardIncrement function parse add delta format c.hashes key field
    c.increment key field function parse add delta format =
      ({ c with hashes := result.1 }, result.2) := by
  unfold Collections.increment shardIncrement hashIncrement
  by_cases hmem : key ∈ c.hashes
  · simp only [if_pos hmem]
    cases hfield : ((c.hashes.lookup key).getD ∅).lookup field with
    | none => rfl
    | some text =>
      dsimp only
      cases parse text <;> rfl
  · have hnone : c.hashes.lookup key = none := AList.lookup_eq_none.mpr hmem
    simp only [if_neg hmem, AList.lookup_insert, hnone, Option.getD_some, Option.getD_none,
      AList.lookup_empty]
    simp [Collections.run, Collections.alterHash, alter, hnone, AList.insert_insert]

end ShardOrder

def shardHIncrBy (delta : ℤ) :=
  shardIncrement .parseInt Strconv.parseInt (fun n => int64 (n + delta)) delta Strconv.formatInt

def shardHIncrByFloat (prims : Strconv.Primitives) (delta : UInt64) :=
  shardIncrement .parseFloat prims.parseFloat (fun n => prims.addFloat n delta) delta
    prims.formatFloat

theorem Collections.hIncr_eq (c : Collections) (key field : Bytes) :
    (∀ delta, c.hIncrBy key field delta =
      ({ c with hashes := (shardHIncrBy delta c.hashes key field).1 },
        (shardHIncrBy delta c.hashes key field).2)) ∧
    ∀ prims delta, c.hIncrByFloat prims key field delta =
      ({ c with hashes := (shardHIncrByFloat prims delta c.hashes key field).1 },
        (shardHIncrByFloat prims delta c.hashes key field).2) :=
  ⟨fun _ => c.increment_eq _ _ _ _ _ key field, fun _ _ => c.increment_eq _ _ _ _ _ key field⟩

namespace Cache

def fieldText (c : Cache) (key field : Bytes) : Option Bytes :=
  (((c.table.shard key).collections.hashes.lookup key).getD ∅).lookup field

def fieldValue (c : Cache) (key field : Bytes) : Option ℤ :=
  match c.fieldText key field with
  | none => some 0
  | some text => (Strconv.parseInt text).toOption

def withField (c : Cache) (key field text : Bytes) : Cache :=
  let s := c.table.shard key
  let hashes := s.collections.hashes
  { c with
    table := c.table.withShard (c.table.index key)
      { s with
        collections :=
          { s.collections with
            hashes := hashes.insert key (((hashes.lookup key).getD ∅).insert field text) } } }

def SumOrError (c : Cache) (key field : Bytes) (delta : ℤ) : Prop :=
  (∃ n, c.fieldValue key field = some n ∧ c.hIncrBy key field delta =
      (c.withField key field (Strconv.formatInt (n + delta)), .ok (n + delta))) ∨
  ∃ e, c.hIncrBy key field delta = (c, .error e)

end Cache

section Call

variable {c : Cache} {key field : Bytes} {delta : ℤ}

theorem Cache.hIncrBy_refused (hrefused : c.closed = true ∨ key = []) :
    ∃ e, c.hIncrBy key field delta = (c, .error e) := by
  unfold Cache.hIncrBy Cache.incremented Cache.onShard
  split_ifs with hclosed hkey
  · exact ⟨_, rfl⟩
  · exact ⟨_, rfl⟩
  · rcases hrefused with hrefused | hrefused
    · exact absurd hrefused hclosed
    · exact absurd hrefused hkey

theorem Cache.hIncrBy_open (hopen : c.closed = false) (hkey : key ≠ []) :
    c.hIncrBy key field delta =
      ({ c with
          table := c.table.withShard (c.table.index key)
            { c.table.shard key with
              collections := ((c.table.shard key).collections.hIncrBy key field delta).1 } },
        ((c.table.shard key).collections.hIncrBy key field delta).2) := by
  unfold Cache.hIncrBy Cache.incremented
  rw [Cache.onShard_open hopen hkey]
  rfl

theorem Cache.hIncrBy_outcome (hopen : c.closed = false) (hkey : key ≠ [])
    (hlow : -2 ^ 63 ≤ delta) (hhigh : delta < 2 ^ 63) :
    (c.fieldValue key field = none ∧ ∃ e, c.hIncrBy key field delta = (c, .error e)) ∨
      ∃ n, c.fieldValue key field = some n ∧ c.hIncrBy key field delta =
        (c.withField key field (Strconv.formatInt (int64 (n + delta))),
          .ok (int64 (n + delta))) := by
  rw [Cache.hIncrBy_open hopen hkey, Collections.hIncrBy, Collections.increment]
  unfold Cache.fieldValue Cache.fieldText
  cases (((c.table.shard key).collections.hashes.lookup key).getD ∅).lookup field with
  | none =>
    refine .inr ⟨0, rfl, ?_⟩
    rw [zero_add, int64_of_bounds hlow hhigh]
    rfl
  | some text =>
    dsimp only
    cases Strconv.parseInt text with
    | error reason =>
      refine .inl ⟨rfl, .number .parseInt text reason, ?_⟩
      dsimp only [ShardTable.shard]
      rw [ShardTable.withShard_self]
    | ok n => exact .inr ⟨n, rfl, rfl⟩

theorem Cache.sumOrError_iff (hlow : -2 ^ 63 ≤ delta) (hhigh : delta < 2 ^ 63) :
    c.SumOrError key field delta ↔
      (c.closed = false → key ≠ [] → ∀ n, c.fieldValue key field = some n →
        -2 ^ 63 ≤ n + delta ∧ n + delta < 2 ^ 63) := by
  by_cases hrefused : c.closed = true ∨ key = []
  · refine iff_of_true (.inr (Cache.hIncrBy_refused hrefused)) fun hopen hkey => ?_
    rcases hrefused with hclosed | hempty
    · rw [hopen] at hclosed
      cases hclosed
    · exact absurd hempty hkey
  · rw [not_or, Bool.not_eq_true] at hrefused
    obtain ⟨hopen, hkey⟩ := hrefused
    rcases Cache.hIncrBy_outcome hopen hkey hlow hhigh with
      ⟨hvalue, herror⟩ | ⟨n, hvalue, hcall⟩
    · refine iff_of_true (.inr herror) fun _ _ n hn => ?_
      cases hvalue.symm.trans hn
    · constructor
      · rintro (⟨m, hm, hsum⟩ | ⟨e, herror⟩) _ _ k hk
        · cases hvalue.symm.trans hm
          cases hvalue.symm.trans hk
          have hexact : int64 (n + delta) = n + delta := by
            rw [hcall] at hsum
            exact Except.ok.inj (Prod.mk.inj hsum).2
          rw [← hexact]
          exact ⟨le_int64 _, int64_lt _⟩
        · rw [hcall] at herror
          cases (Prod.mk.inj herror).2
      · intro hfits
        obtain ⟨hmin, hmax⟩ := hfits hopen hkey n hvalue
        refine .inl ⟨n, hvalue, ?_⟩
        rw [hcall, int64_of_bounds hmin hmax]

end Call

def Cache.hIncrByAll (key field : Bytes) : Cache → List ℤ → Cache × List (Except CommandError ℤ)
  | c, [] => (c, [])
  | c, delta :: rest =>
    let first := c.hIncrBy key field delta
    let later := hIncrByAll key field first.1 rest
    (later.1, first.2 :: later.2)

section Sequence

variable {c : Cache} {key field : Bytes}

theorem Cache.withField_value (c : Cache) (key field : Bytes) {n : ℤ}
    (hlow : -2 ^ 63 ≤ n) (hhigh : n < 2 ^ 63) :
    (c.withField key field (Strconv.formatInt n)).fieldValue key field = some n := by
  have htext : (c.withField key field (Strconv.formatInt n)).fieldText key field =
      some (Strconv.formatInt n) := by
    unfold Cache.fieldText Cache.withField
    rw [ShardTable.shard_withShard]
    simp
  rw [Cache.fieldValue, htext]
  dsimp only
  rw [Strconv.parseInt_formatInt hlow hhigh]
  rfl

theorem Cache.hIncrByAll_value {deltas : List ℤ}
    (hdeltas : ∀ d ∈ deltas, -2 ^ 63 ≤ d ∧ d < 2 ^ 63) (hopen : c.closed = false)
    (hkey : key ≠ []) {n : ℤ} (hint : int64 n = n)
    (hvalue : c.fieldValue key field = some n) :
    (∀ r ∈ (c.hIncrByAll key field deltas).2, ∃ m, r = .ok m) ∧
      (c.hIncrByAll key field deltas).1.fieldValue key field = some (int64 (n + deltas.sum)) := by
  induction deltas generalizing c n with
  | nil =>
    rw [List.sum_nil, add_zero, hint]
    exact ⟨fun r hr => absurd hr List.not_mem_nil, hvalue⟩
  | cons delta rest ih =>
    obtain ⟨hlow, hhigh⟩ := hdeltas delta List.mem_cons_self
    rcases (Cache.hIncrBy_outcome hopen hkey hlow hhigh :
      c.fieldValue key field = none ∧ _ ∨ _) with ⟨hnone, _⟩ | ⟨m, hm, hcall⟩
    · cases hvalue.symm.trans hnone
    cases hvalue.symm.trans hm
    have hnext := c.withField_value key field (le_int64 (n + delta)) (int64_lt (n + delta))
    have hwrapped : int64 (int64 (n + delta)) = int64 (n + delta) :=
      int64_of_bounds (le_int64 _) (int64_lt _)
    obtain ⟨hok, hend⟩ := ih (fun d hd => hdeltas d (List.mem_cons_of_mem delta hd))
      (c := c.withField key field (Strconv.formatInt (int64 (n + delta)))) hopen hwrapped
      hnext
    rw [Cache.hIncrByAll, hcall]
    dsimp only
    refine ⟨?_, ?_⟩
    · intro r hr
      rcases List.mem_cons.mp hr with rfl | hr
      · exact ⟨_, rfl⟩
      · exact hok r hr
    · rw [hend, add_comm (int64 _), int64_add_int64, List.sum_cons]
      congr 2
      ring

end Sequence

theorem hIncrBy_sum_iff (c : Cache) (key field : Bytes) :
    (∀ delta, -2 ^ 63 ≤ delta → delta < 2 ^ 63 → (c.SumOrError key field delta ↔
        (c.closed = false → key ≠ [] → ∀ n, c.fieldValue key field = some n →
          -2 ^ 63 ≤ n + delta ∧ n + delta < 2 ^ 63))) ∧
    (∀ deltas : List ℤ, (∀ d ∈ deltas, -2 ^ 63 ≤ d ∧ d < 2 ^ 63) → c.closed = false →
      key ≠ [] → c.fieldText key field = none →
      (∀ r ∈ (c.hIncrByAll key field deltas).2, ∃ m, r = .ok m) ∧
        ((c.hIncrByAll key field deltas).1.fieldValue key field = some deltas.sum ↔
          -2 ^ 63 ≤ deltas.sum ∧ deltas.sum < 2 ^ 63)) := by
  refine ⟨fun delta hlow hhigh => Cache.sumOrError_iff hlow hhigh, ?_⟩
  intro deltas hdeltas hopen hkey hfresh
  have hvalue : c.fieldValue key field = some 0 := by
    rw [Cache.fieldValue, hfresh]
  obtain ⟨hok, hend⟩ := Cache.hIncrByAll_value hdeltas hopen hkey (by decide) hvalue
  rw [zero_add] at hend
  refine ⟨hok, ?_⟩
  rw [hend, Option.some.injEq]
  constructor
  · intro hexact
    rw [← hexact]
    exact ⟨le_int64 _, int64_lt _⟩
  · rintro ⟨hlow, hhigh⟩
    exact int64_of_bounds hlow hhigh

theorem hIncrBy_sum_iff_fresh : Cache.ofDefaults.SumOrError [97] [98] 5 ∧
      (Cache.ofDefaults.hIncrByAll [97] [98] [5, -7]).1.fieldValue [97] [98] = some (-2) := by
  obtain ⟨hcall, hsequence⟩ := hIncrBy_sum_iff Cache.ofDefaults [97] [98]
  have hfresh : Cache.ofDefaults.fieldText [97] [98] = none := by decide +kernel
  refine ⟨(hcall 5 (by decide) (by decide)).mpr ?_, ?_⟩
  · intro _ _ n hn
    rw [Cache.fieldValue, hfresh, Option.some.injEq] at hn
    omega
  · exact (hsequence [5, -7] (by decide) rfl (by decide) hfresh).2.mpr (by decide)

theorem hIncrBy_wraps : (Cache.ofDefaults.hIncrByAll [97] [98] [2 ^ 63 - 1, 1]).2 =
        [.ok (2 ^ 63 - 1), .ok (-2 ^ 63)] ∧
      (Cache.ofDefaults.hIncrByAll [97] [98] [2 ^ 63 - 1, 1]).1.fieldText [97] [98] =
        some (ascii "-9223372036854775808") := by
  decide +kernel

end MCache.Store
