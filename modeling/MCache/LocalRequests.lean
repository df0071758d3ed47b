import MCache.CollectionsResize
import MCache.DeadlineFree
import MCache.Resharding
import MCache.ServerDispatch

/-!
# Requests that stay on one server

With Raft on, a command that `isRaftWriteOp` rejects runs on the local cache
only.  Most of them leave the content alone: the live strings with their
deadlines, and the sets, hashes and lists.  The commands on deadlines and the
blocking pops do not, and neither does a `GET` that moves a migration on: the
new table may be too small, and the deadline of what is moved is computed anew.
-/

namespace MCache.Store

theorem Collections.pop_last {m : Collections} {key elem : Bytes}
    (hlist : m.lists.lookup key = some [elem]) {command : CollectionCommand}
    (hcommand : command = .lPop ∨ command = .rPop) :
    m.reply key command = .elem (some elem) ∧ (m.run key command).lists.lookup key = none := by
  rcases hcommand with rfl | rfl
  · simp [Collections.reply, Collections.run, Collections.alterList, alter, hlist, unlessNil]
  · simp [Collections.reply, Collections.run, Collections.alterList, alter, hlist, unlessNil]

theorem CacheEntry.isExpired_mono {e : CacheEntry} {now later : ℤ}
    (hexpired : e.isExpired now = true) (hle : now ≤ later) :
    e.isExpired later = true := by
  rw [CacheEntry.isExpired_iff] at hexpired ⊢
  exact ⟨hexpired.1, hexpired.2.trans hle⟩

theorem ShardTable.get_live (t : ShardTable) (key : Bytes) (now : ℤ)
    {again time : ℤ} (htime : again ≤ time) (other : Bytes) :
    ((t.get key now again).1.lookup other).filter (fun e => !e.isExpired time) =
      (t.lookup other).filter fun e => !e.isExpired time := by
  rw [t.get_lookup_readings]
  by_cases hother : other = key
  · subst other
    rw [Function.update_self]
    cases t.lookup key with
    | none => rfl
    | some e =>
      cases hdropped : e.isExpired now && e.isExpired again with
      | false => simp [Option.filter, hdropped]
      | true =>
        have hexpired : e.isExpired time = true :=
          CacheEntry.isExpired_mono (Bool.and_eq_true_iff.mp hdropped).2 htime
        simp [Option.filter, hdropped, hexpired]
  · rw [Function.update_of_ne hother]

end MCache.Store

namespace MCache.Net

open MCache.Store

variable {req : Request} {cmd : Cmd} {c : Cache} {key : Bytes}

def liveString (c : Cache) (time : ℤ) (key : Bytes) : Option CacheEntry :=
  ((c.table.lookup key).filter fun e => !e.isExpired time).or
    ((oldLookup c.migration key).filter fun e => !e.isExpired time)

structure SameContent (c later : Cache) (time : ℤ) : Prop where
  strings : ∀ key, liveString later time key = liveString c time key
  collections : ∀ key, later.table.content key = c.table.content key

theorem SameContent.refl (c : Cache) (time : ℤ) : SameContent c c time :=
  ⟨fun _ => rfl, fun _ => rfl⟩

def deadlineCmds : List Cmd := [.expire, .expireAt, .pExpire, .pExpireAt, .persist]

def blockingCmds : List Cmd := [.blPop, .brPop]

theorem processHash_local (env : Env) (c : Cache) {req : HashRequest}
    (hlocal : isRaftWriteOp req.cmd = false) : (processHash env c req).1 = c := by
  unfold processHash
  dsimp only
  split
  all_goals first
    | rfl
    | next hcmd => simp [isRaftWriteOp, hcmd] at hlocal

theorem processSet_local (env : Env) (c : Cache) {req : SetRequest}
    (hlocal : isRaftWriteOp req.cmd = false) : (processSet env c req).1 = c := by
  unfold processSet
  dsimp only
  split
  all_goals first
    | rfl
    | next hcmd => simp [isRaftWriteOp, hcmd] at hlocal

theorem processList_local (env : Env) (c : Cache) {req : ListRequest}
    (hlocal : isRaftWriteOp req.cmd = false) :
    (processList env c req).1 = c ∨ ∃ cmd ∈ blockingCmds, cmd.code = req.cmd := by
  unfold processList
  dsimp only
  split
  all_goals first
    | exact .inl rfl
    | next hcmd => simp [isRaftWriteOp, hcmd] at hlocal
    | next hcmd => exact .inr ⟨_, by decide, Cmd.code_of_ofCode? hcmd⟩

theorem process_local (env : Env) (c : Cache) (hlocal : isRaftWriteOp req.cmd = false) :
    (∃ response, process env c req = some (c, response)) ∨
      req.cmd = Cmd.get.code ∨ ∃ cmd ∈ deadlineCmds, cmd.code = req.cmd := by
  unfold process
  dsimp only
  split
  all_goals first
    | exact .inl ⟨_, rfl⟩
    | next hcmd => simp [isRaftWriteOp, hcmd] at hlocal
    | next hcmd => exact .inr (.inr ⟨_, by decide, Cmd.code_of_ofCode? hcmd⟩)
    | next hcmd => exact .inr (.inl (Cmd.code_of_ofCode? hcmd).symm)

theorem process_get (env : Env) (c : Cache) (hcmd : req.cmd = Cmd.get.code) : process env c req =
      (c.get env.order env.clock req.key).map fun result =>
        (result.1, Response.found result.2) := by
  rw [process, hcmd, Cmd.ofCode?_code]

def onDeadline (env : Env) (c : Cache) (req : Request) : Cmd → Cache × Except CacheError Bool
  | .expire => c.expire env.clock req.key (req.ttl.tdiv 1000)
  | .expireAt => c.expireAt env.clock req.key (req.ttl.tdiv 1000)
  | .pExpire => c.pExpire env.clock req.key req.ttl
  | .pExpireAt => c.pExpireAt env.clock req.key req.ttl
  | _ => c.persist env.clock req.key

theorem process_deadline (env : Env) (c : Cache) (hcmd : cmd ∈ deadlineCmds)
    (hcode : cmd.code = req.cmd) :
    process env c req = some ((onDeadline env c req cmd).1,
        .of (onDeadline env c req cmd).2 fun b => [boolByte b]) := by
  simp only [deadlineCmds, List.mem_cons, List.not_mem_nil, or_false] at hcmd
  rw [process, ← hcode, Cmd.ofCode?_code]
  rcases hcmd with rfl | rfl | rfl | rfl | rfl <;> rfl

theorem onDeadline_refused (hrefused : c.closed = true ∨ req.key = []) (env : Env)
    (cmd : Cmd) : (onDeadline env c req cmd).1 = c := by
  have honShard : ∀ f : Shard → Shard × Bool, (c.onShard req.key f).1 = c := by
    intro f
    rcases Cache.onShard_refused hrefused f with ⟨e, he⟩
    rw [he]
  unfold onDeadline
  split <;> exact honShard _

theorem popUntil_refused {pop : Cache → Cache × Except CacheError Bytes}
    {e : CacheError} (hpop : pop c = (c, .error e)) (rounds : ℕ) :
    popUntil pop rounds c = (c, none) := by
  induction rounds with
  | zero =>
    unfold popUntil
    rw [hpop]
  | succ rounds ih =>
    unfold popUntil
    rw [hpop]
    exact ih

def blockingPop (key : Bytes) : Cmd → Cache → Cache × Except CacheError Bytes
  | .blPop, c => c.lPop key
  | _, c => c.rPop key

theorem processList_blocking (env : Env) (c : Cache) {req : ListRequest}
    (hcmd : cmd ∈ blockingCmds) (hcode : cmd.code = req.cmd) :
    (processList env c req).1 =
      if 0 < req.timeout then
        (popUntil (blockingPop req.key cmd) env.rounds c).1
      else (blockingPop req.key cmd c).1 := by
  simp only [blockingCmds, List.mem_cons, List.not_mem_nil, or_false] at hcmd
  rw [processList, ← hcode, Cmd.ofCode?_code]
  rcases hcmd with rfl | rfl
  · dsimp only
    split_ifs <;> rfl
  · dsimp only
    split_ifs <;> rfl

theorem blockingPop_refused (hrefused : c.closed = true ∨ key = []) (cmd : Cmd) :
    ∃ e, blockingPop key cmd c = (c, .error e) := by
  have hcollection : ∀ command, ∃ e, c.collectionAs Reply.toElem key command = (c, .error e) := by
    intro command
    rcases Cache.onShard_refused hrefused _ with ⟨e, he⟩
    refine ⟨e, ?_⟩
    rw [Cache.collectionAs, Cache.collection, he]
    rfl
  unfold blockingPop
  split
  · exact hcollection .lPop
  · exact hcollection .rPop

theorem popUntil_ok {pop : Cache → Cache × Except CacheError Bytes} {next : Cache}
    {elem : Bytes} (hpop : pop c = (next, .ok elem)) (rounds : ℕ) :
    popUntil pop rounds c = (next, some elem) := by
  unfold popUntil
  rw [hpop]

theorem blockingPop_last {elem : Bytes} (hopen : c.closed = false) (hkey : key ≠ [])
    (hlist : (c.table.content key).2.2 = some [elem]) (hcmd : cmd ∈ blockingCmds) :
    ∃ next, blockingPop key cmd c = (next, .ok elem) ∧ (next.table.content key).2.2 = none := by
  have hcollection : ∀ command, command = .lPop ∨ command = .rPop →
      ∃ next, c.collectionAs Reply.toElem key command = (next, .ok elem) ∧
        (next.table.content key).2.2 = none := by
    intro command hcommand
    rcases Collections.pop_last hlist hcommand with ⟨hreply, hrun⟩
    rw [Cache.collectionAs, Cache.collection, Cache.onShard_open hopen hkey]
    refine ⟨_, Prod.ext rfl ?_, ?_⟩
    · rw [hreply]
      rfl
    · dsimp only
      rw [ShardTable.content, ShardTable.shard_withShard]
      exact hrun
  unfold blockingPop
  split
  · exact hcollection .lPop (.inl rfl)
  · exact hcollection .rPop (.inr rfl)

theorem processList_refused (env : Env) {req : ListRequest}
    (hrefused : c.closed = true ∨ req.key = []) (hcmd : cmd ∈ blockingCmds)
    (hcode : cmd.code = req.cmd) : (processList env c req).1 = c := by
  rcases blockingPop_refused hrefused cmd with ⟨e, hpop⟩
  rw [processList_blocking env c hcmd hcode, popUntil_refused hpop, hpop, ite_self]

def Request.Harmless (req : Request) (migrating calm : Bool) : Prop :=
  match Cmd.ofCode? req.cmd with
  | some .get => req.key = [] ∨ migrating = false ∨ calm = true
  | some .expireAt => req.key = [] ∨ unixNano (req.ttl.tdiv 1000) ≤ 0
  | some .pExpireAt => req.key = [] ∨ int64 (req.ttl * 10 ^ 6) ≤ 0
  | some .expire | some .pExpire | some .persist => req.key = []
  | _ => True

def ListRequest.Harmless (req : ListRequest) : Prop :=
  match Cmd.ofCode? req.cmd with
  | some .blPop | some .brPop => req.key = []
  | _ => True

def ClientRequest.Harmless (req : ClientRequest) (migrating calm : Bool) : Prop :=
  match req with
  | .string req => req.Harmless migrating calm
  | .list req => req.Harmless
  | .hash _ | .set _ => True

structure Calm (env : Env) (c : Cache) : Prop where
  plain : c.Plain
  still : ∃ now, env.clock = still now

def ClientRequest.KeepsContent (req : ClientRequest) (closed migrating calm : Bool) :
    Prop :=
  ∀ (env : Env) (c : Cache) (time : ℤ) (result : Cache × Bytes),
    (∀ reading key, 0 < env.clock reading key ∧ env.clock reading key ≤ time) →
    c.closed = closed → c.migration.isSome = migrating → (calm = true → Calm env c) →
    processRequest env c req = some result → SameContent c result.1 time

section Kept

variable {env : Env} {c : Cache} {time : ℤ}
variable {migrating calm : Bool}

theorem liveString_eq_some (hc : c.Plain) {key : Bytes} {e : CacheEntry} :
    liveString c time key = some e ↔ c.lookup key = some e ∧ ¬ e.DeadAt time := by
  rw [Cache.lookup, overlay_eq_some hc.apart]
  rcases hc.apart key with hnone | hnone
  · simp [liveString, hnone, CacheEntry.DeadAt]
  · simp [liveString, hnone, CacheEntry.DeadAt]

theorem get_calm_strings (hc : c.Plain) {order : MapOrder} {key : Bytes} {now : ℤ}
    (hnow : 0 < now) (htime : now ≤ time) (hkey : key ≠ [])
    {result : Cache × Except CacheError Bytes}
    (hget : c.get order (still now) key = some result) (other : Bytes) :
    liveString result.1 time other = liveString c time other := by
  obtain ⟨next, hnext, hsame⟩ := hc.get hnow order hkey
  cases hget.symm.trans hnext
  ext e
  rw [liveString_eq_some hsame.plain, liveString_eq_some hc]
  refine and_congr_left fun hlive => (hsame.live other e fun hdead => hlive ?_).symm
  exact CacheEntry.isExpired_mono hdead htime

theorem get_sameContent {key : Bytes}
    (hclock : ∀ reading key, 0 < env.clock reading key ∧ env.clock reading key ≤ time)
    (hkept : c.closed = true ∨ key = [] ∨ c.migration = none ∨ Calm env c)
    {result : Cache × Except CacheError Bytes}
    (hget : c.get env.order env.clock key = some result) :
    SameContent c result.1 time := by
  constructor
  case collections =>
      intro other
      exact ((sameCollections_relation other).effect_of_ne_resize
        (Cache.get_effect hget) trivial nofun).table.content
  by_cases hkept : c.closed = true ∨ key = [] ∨ c.migration = none
  case neg =>
      obtain ⟨hc, now, hstill⟩ : Calm env c := by tauto
      rw [hstill] at hget hclock
      obtain ⟨hnow, htime⟩ := hclock .current key
      exact get_calm_strings hc hnow htime (fun hnil => hkept (.inr (.inl hnil))) hget
  have hresult : result.1 = c ∨ result.1 =
      { c with
        table := (c.table.get key (env.clock .current key) (env.clock .currentAgain key)).1 } := by
    rcases or_assoc.mpr hkept with hrefused | hidle
    · rcases Cache.get_refused hrefused with ⟨e, he⟩
      rw [he, Option.some.injEq] at hget
      rw [← hget]
      exact .inl rfl
    · rcases Cache.get_of_idle hidle env.order env.clock with ⟨read, hread, hafter⟩
      rw [hread, Option.some.injEq] at hget
      rwa [← hget]
  intro other
  rcases hresult with hsame | htable
  · rw [hsame]
  · rw [htable]
    simp only [liveString, c.table.get_live key _ (hclock .currentAgain key).2 other]

theorem onDeadline_harmless {req : Request} {cmd : Cmd}
    (hpositive : ∀ reading key, 0 < env.clock reading key) (hcmd : cmd ∈ deadlineCmds)
    (hcode : cmd.code = req.cmd)
    (hkept : c.closed = true ∨ req.Harmless migrating calm) :
    (onDeadline env c req cmd).1 = c := by
  rcases hkept with hclosed | hharmless
  · exact onDeadline_refused (.inl hclosed) env cmd
  rw [Request.Harmless, ← hcode, Cmd.ofCode?_code] at hharmless
  have hkey := fun h : req.key = [] => onDeadline_refused (c := c) (.inr h) env cmd
  simp only [deadlineCmds, List.mem_cons, List.not_mem_nil, or_false] at hcmd
  rcases hcmd with rfl | rfl | rfl | rfl | rfl
  · exact hkey hharmless
  · rcases hharmless with hempty | hpast
    · exact hkey hempty
    · exact Cache.expireTarget_past (hpast.trans (hpositive .until req.key).le)
  · exact hkey hharmless
  · rcases hharmless with hempty | hpast
    · exact hkey hempty
    · exact Cache.expireTarget_past (hpast.trans (hpositive .until req.key).le)
  · exact hkey hharmless

theorem process_kept {req : Request} (hlocal : isRaftWriteOp req.cmd = false)
    (hclock : ∀ reading key, 0 < env.clock reading key ∧ env.clock reading key ≤ time)
    (hmigrating : c.migration.isSome = migrating)
    (hcalm : calm = true → Calm env c)
    (hkept : c.closed = true ∨ req.Harmless migrating calm) {result : Cache × Response}
    (hresult : process env c req = some result) : SameContent c result.1 time := by
  rcases process_local env c hlocal with ⟨response, hsame⟩ | hget | ⟨cmd, hcmd, hcode⟩
  · rw [hsame, Option.some.injEq] at hresult
    rw [← hresult]
    exact .refl c time
  · rw [process_get env c hget] at hresult
    rcases Option.map_eq_some_iff.mp hresult with ⟨read, hread, rfl⟩
    apply get_sameContent hclock _ hread
    rw [Request.Harmless, hget, Cmd.ofCode?_code] at hkept
    rcases hkept with hclosed | hempty | hidle | hunbounded
    · exact .inl hclosed
    · exact .inr (.inl hempty)
    · rw [hidle, Option.isSome_eq_false_iff, Option.isNone_iff_eq_none] at hmigrating
      exact .inr (.inr (.inl hmigrating))
    · exact .inr (.inr (.inr (hcalm hunbounded)))
  · have hsame := onDeadline_harmless (fun reading key => (hclock reading key).1) hcmd hcode hkept
    rw [process_deadline env c hcmd hcode, hsame, Option.some.injEq] at hresult
    rw [← hresult]
    exact .refl c time

theorem processList_kept {req : ListRequest} (hlocal : isRaftWriteOp req.cmd = false)
    (hkept : c.closed = true ∨ req.Harmless) : (processList env c req).1 = c := by
  rcases processList_local env c hlocal with hsame | ⟨cmd, hcmd, hcode⟩
  · exact hsame
  · apply processList_refused env _ hcmd hcode
    rw [ListRequest.Harmless, ← hcode, Cmd.ofCode?_code] at hkept
    simp only [blockingCmds, List.mem_cons, List.not_mem_nil, or_false] at hcmd
    rcases hcmd with rfl | rfl
    · exact hkept
    · exact hkept

theorem keepsContent_of_harmless {req : ClientRequest} {closed : Bool}
    (hlocal : isRaftWriteOp req.cmd = false)
    (hkept : closed = true ∨ req.Harmless migrating calm) :
    req.KeepsContent closed migrating calm := by
  rintro env c time result hclock rfl hmigrating hcalm hresult
  cases req with
  | string req =>
    rcases Option.map_eq_some_iff.mp hresult with ⟨answer, hanswer, rfl⟩
    exact process_kept hlocal hclock hmigrating hcalm hkept hanswer
  | hash req =>
    rw [← Option.some.inj hresult]
    dsimp only
    rw [processHash_local env c hlocal]
    exact .refl c time
  | list req =>
    rw [← Option.some.inj hresult]
    dsimp only
    rw [processList_kept hlocal hkept]
    exact .refl c time
  | set req =>
    rw [← Option.some.inj hresult]
    dsimp only
    rw [processSet_local env c hlocal]
    exact .refl c time

end Kept

def stringCache (key : Bytes) (ttl : ℤ) (migrating : Bool) : Cache :=
  { Cache.ofDefaults with
    table := Cache.ofDefaults.table.set key [118] ttl 1
    migration := if migrating then some ⟨newTable 0 .lru 0, 0⟩ else none }

theorem plain_of_table {t : ShardTable} (ht : t.Plain) (migrating : Bool) :
    Cache.Plain { Cache.ofDefaults with
      table := t
      migration := if migrating then some ⟨newTable 0 .lru 0, 0⟩ else none } where
  isOpen := rfl
  maxSize := rfl
  rehasher := nofun
  defaultTTL := le_refl _
  table := ht
  migration := by
    intro m hm
    split_ifs at hm
    cases hm
    exact ⟨newTable_plain 0 .lru, by decide, fun _ h => absurd h (Nat.not_lt_zero _)⟩
  apart := by
    intro key
    right
    split_ifs <;> rfl

section Changed

variable {key : Bytes} {ttl : ℤ} {migrating calm : Bool}

theorem stringCache_lookup : (stringCache key ttl migrating).table.lookup key =
      some (newEntry 1 [118] ttl) := by
  have hcap : (Cache.ofDefaults.table.shard key).maxSubSize = 0 := rfl
  rw [stringCache, ShardTable.set_lookup _ hcap, Function.update_self]

theorem stringCache_oldLookup (other : Bytes) :
    oldLookup (stringCache key ttl migrating).migration other = none := by
  cases migrating <;> rfl

theorem stringCache_calm (hbounded : (newEntry 1 [118] ttl).Bounded) :
    Calm (.still 1) (stringCache key ttl migrating) :=
  ⟨plain_of_table ((newTable_plain 4 .lru).set key [118] hbounded) migrating, 1, rfl⟩

theorem deadline_of_sameContent {f : Shard → Shard × Bool} {deadline : ℤ}
    (hkey : key ≠ []) (hlive : (newEntry 1 [118] ttl).isExpired 1 = false)
    (hf : (f ((stringCache key ttl migrating).table.shard key)).1.lookup key =
      some ⟨[118], deadline⟩)
    (hsame : SameContent (stringCache key ttl migrating)
      ((stringCache key ttl migrating).onShard key f).1 1) :
    deadline = (newEntry 1 [118] ttl).expiresAt := by
  have hstrings := hsame.strings key
  rw [Cache.onShard_open rfl hkey] at hstrings
  simp only [liveString, ShardTable.lookup_withShard_self, hf, stringCache_lookup,
    stringCache_oldLookup, Option.filter_some, Option.filter_none, Option.or_none,
    hlive, Bool.not_false, if_true] at hstrings
  split_ifs at hstrings
  exact congrArg CacheEntry.expiresAt (Option.some.inj hstrings)

theorem stringCache_expire (hlive : (newEntry 1 [118] ttl).isExpired 1 = false) (left : ℤ) :
    (((stringCache key ttl migrating).table.shard key).expire key left 1 1).1.lookup
      key = some ⟨[118], int64 (1 + left)⟩ :=
  (Shard.expire_live stringCache_lookup hlive left 1).2

theorem int64_even_succ_ne_zero {n : ℤ} (heven : 2 ∣ n) : int64 (1 + n) ≠ 0 := by
  intro hzero
  have hdvd := Int.dvd_of_bmod_eq_zero hzero
  omega

theorem two_dvd_int64 {n : ℤ} (heven : 2 ∣ n) : 2 ∣ int64 n := by
  unfold int64
  rw [Int.bmod_def]
  split_ifs <;> omega

theorem int64_saturated_ne_zero {target : ℤ} (htarget : 1 < target) :
    0 < saturated (target - 1) ∧ int64 (1 + saturated (target - 1)) ≠ 0 := by
  unfold saturated
  constructor
  · omega
  · by_cases hfits : target < 2 ^ 63
    · rw [int64_of_bounds (by omega) (by omega)]
      omega
    · rw [int64_of_overflow (by omega) (by omega)]
      omega

variable {req : Request} {cmd : Cmd}

variable (hkeeps : (ClientRequest.string req).KeepsContent false migrating calm)
include hkeeps

theorem ClientRequest.KeepsContent.deadline (hcmd : cmd ∈ deadlineCmds)
    (hcode : cmd.code = req.cmd) (hkey : req.key ≠ [])
    {f : Shard → Shard × Bool} {deadline : ℤ}
    (hbounded : (newEntry 1 [118] ttl).Bounded)
    (hlive : (newEntry 1 [118] ttl).isExpired 1 = false)
    (hon : (onDeadline (.still 1) (stringCache req.key ttl migrating) req cmd).1 =
      ((stringCache req.key ttl migrating).onShard req.key f).1)
    (hf : (f ((stringCache req.key ttl migrating).table.shard req.key)).1.lookup
      req.key = some ⟨[118], deadline⟩) :
    deadline = (newEntry 1 [118] ttl).expiresAt := by
  have hmigrating : (stringCache req.key ttl migrating).migration.isSome =
      migrating := by
    cases migrating <;> rfl
  have hsame := hkeeps (.still 1) (stringCache req.key ttl migrating) 1 _
    (fun _ _ => ⟨Int.one_pos, le_refl 1⟩) rfl hmigrating
    (fun _ => stringCache_calm hbounded) (congrArg (Option.map _) (process_deadline _ _ hcmd hcode))
  rw [hon] at hsame
  exact deadline_of_sameContent hkey hlive hf hsame

theorem ClientRequest.KeepsContent.expire (hcmd : cmd ∈ deadlineCmds)
    (hcode : cmd.code = req.cmd) (hkey : req.key ≠ [])
    {left : ℤ} (hleft : int64 (1 + left) ≠ 0)
    (hon : (onDeadline (.still 1) (stringCache req.key 0 migrating) req cmd).1 =
      ((stringCache req.key 0 migrating).onShard req.key fun s =>
        s.expire req.key left 1 1).1) : False :=
  hleft (hkeeps.deadline hcmd hcode hkey ⟨by decide, by decide⟩ rfl hon
    (stringCache_expire rfl left))

theorem ClientRequest.KeepsContent.harmless_deadline (hcmd : cmd ∈ deadlineCmds)
    (hcode : cmd.code = req.cmd) :
    req.Harmless migrating calm := by
  rw [Request.Harmless, ← hcode, Cmd.ofCode?_code]
  have hcmds := hcmd
  simp only [deadlineCmds, List.mem_cons, List.not_mem_nil, or_false] at hcmds
  rcases hcmds with rfl | rfl | rfl | rfl | rfl
  · by_contra hkey
    apply hkeeps.expire hcmd hcode hkey _ rfl
    rw [int64_add_int64]
    exact int64_even_succ_ne_zero (by omega)
  · by_contra hnot
    rw [not_or, not_le] at hnot
    have htarget : 1 < unixNano (req.ttl.tdiv 1000) := by
      have hpositive := hnot.2
      unfold unixNano at hpositive ⊢
      omega
    rcases int64_saturated_ne_zero htarget with ⟨hleft, hdeadline⟩
    exact hkeeps.expire hcmd hcode hnot.1 hdeadline (congrArg Prod.fst (Cache.expireTarget_future
        (stringCache req.key 0 migrating) req.key hleft))
  · by_contra hkey
    apply hkeeps.expire hcmd hcode hkey _ rfl
    rw [int64_add_int64]
    exact int64_even_succ_ne_zero (by omega)
  · by_contra hnot
    rw [not_or, not_le] at hnot
    have heven : 2 ∣ int64 (req.ttl * 10 ^ 6) := two_dvd_int64 (by omega)
    rcases int64_saturated_ne_zero
      (show 1 < int64 (req.ttl * 10 ^ 6) by omega) with ⟨hleft, hdeadline⟩
    exact hkeeps.expire hcmd hcode hnot.1 hdeadline (congrArg Prod.fst (Cache.expireTarget_future
        (stringCache req.key 0 migrating) req.key hleft))
  · by_contra hkey
    have hlookup : ((stringCache req.key 99 migrating).table.shard req.key).lookup
        req.key = some (newEntry 1 [118] 99) := stringCache_lookup
    have hzero := hkeeps.deadline hcmd hcode hkey ⟨by decide, by decide⟩ rfl rfl
      (Shard.persist_live hlookup rfl).2
    exact absurd hzero (by decide)

end Changed

section Blocking

variable {key : Bytes} {migrating calm : Bool}

def listCache (key : Bytes) (migrating : Bool) : Cache :=
  { Cache.ofDefaults with
    table := Cache.ofDefaults.table.withShard (Cache.ofDefaults.table.index key)
      { newShard .lru 0 with
        collections :=
          { Collections.empty with lists := AList.singleton key [[118]] } }
    migration := if migrating then some ⟨newTable 0 .lru 0, 0⟩ else none }

theorem listCache_list : ((listCache key migrating).table.content key).2.2 = some [[118]] := by
  rw [ShardTable.content, listCache, ShardTable.shard_withShard]
  exact AList.lookup_insert ∅

theorem listCache_calm : Calm (.still 1) (listCache key migrating) := by
  refine ⟨plain_of_table ⟨?_, ?_, ?_⟩ migrating, 1, rfl⟩
  · exact ShardTable.withShard_unbounded (newTable_plain 4 .lru).unbounded _
      (newShard_unbounded .lru)
  · exact (newTable_plain 4 .lru).routed.withShard _
      ((newTable_plain 4 .lru).routed (Cache.ofDefaults.table.index key))
  · intro other e he
    rw [ShardTable.lookup_withShard] at he
    split_ifs at he <;> cases he

theorem ClientRequest.KeepsContent.harmless_blocking {req : ListRequest}
    (hkeeps : (ClientRequest.list req).KeepsContent false migrating calm) {cmd : Cmd}
    (hcmd : cmd ∈ blockingCmds) (hcode : cmd.code = req.cmd) : req.key = [] := by
  by_contra hkey
  have hlist : ((listCache req.key migrating).table.content req.key).2.2 =
      some [[118]] := listCache_list
  rcases blockingPop_last rfl hkey hlist hcmd with ⟨next, hpop, hempty⟩
  have hmigrating : (listCache req.key migrating).migration.isSome = migrating := by
    cases migrating <;> rfl
  have hsame := hkeeps (.still 1) (listCache req.key migrating) 1 _
    (fun _ _ => ⟨Int.one_pos, le_refl 1⟩) rfl hmigrating (fun _ => listCache_calm) rfl
  have hcontent := hsame.collections req.key
  rw [processList_blocking _ _ hcmd hcode, popUntil_ok hpop, hpop, ite_self] at hcontent
  rw [hcontent, hlist] at hempty
  cases hempty

end Blocking

def crowdedCache : Cache :=
  { Cache.ofDefaults with
    table := newTable 1 .lru 8
    maxSize := 16
    migration := some ⟨[[1], [5], [9], [13]].foldl (fun t key => t.set key [118] 0 1)
        (newTable 0 .lru 16), 0⟩ }

theorem foldl_set_noDeadlines {t : ShardTable} (ht : t.NoDeadlines) (keys : List Bytes) :
    (keys.foldl (fun t key => t.set key [118] 0 1) t).NoDeadlines := by
  induction keys generalizing t with
  | nil => exact ht
  | cons key rest ih => exact ih (ht.set key [118] 1)

theorem get_noDeadlines {m : Migration} (hopen : c.closed = false)
    (hmigration : c.migration = some m) (htable : c.table.NoDeadlines)
    (hold : m.old.NoDeadlines) (order : MapOrder) (clock : Clock) (hkey : key ≠ []) :
    (c.get order clock key).map Prod.fst = c.step order clock := by
  rcases c with ⟨table, rehasher, migration, policy, maxSize, defaultTTL, closed⟩
  cases hmigration
  cases hopen
  simp only [Cache.get, Bool.false_eq_true, if_false, hkey, htable.get]
  cases table.read key with
  | none => simp only [hold.get, Option.map_map, Function.comp_def, Option.map_id']
  | some value => simp only [Option.map_map, Function.comp_def, Option.map_id']

theorem crowdedCache_get (hkey : key ≠ []) :
    ∃ result, crowdedCache.get .asStored (still 1) key = some result ∧
      liveString result.1 1 [5] = none := by
  have hget : (crowdedCache.get .asStored (still 1) key).map Prod.fst =
      crowdedCache.step .asStored (still 1) :=
    get_noDeadlines rfl rfl (newTable_noDeadlines 1 .lru 8)
      (foldl_set_noDeadlines (newTable_noDeadlines 0 .lru 16) _) .asStored
      (still 1) hkey
  have hstep : (crowdedCache.step .asStored (still 1)).map
      (fun c => liveString c 1 [5]) = some none := by
    decide +kernel
  rw [← hget, Option.map_map] at hstep
  exact Option.map_eq_some_iff.mp hstep

theorem crowdedCache_liveString : liveString crowdedCache 1 [5] = some ⟨[118], 0⟩ := by
  decide +kernel

theorem ClientRequest.KeepsContent.harmless_get {migrating calm : Bool}
    (hkeeps : (ClientRequest.string req).KeepsContent false migrating calm)
    (hcmd : req.cmd = Cmd.get.code) :
    req.key = [] ∨ migrating = false ∨ calm = true := by
  by_contra hnot
  rw [not_or, not_or, Bool.not_eq_false, Bool.not_eq_true] at hnot
  rcases hnot with ⟨hkey, rfl, rfl⟩
  rcases crowdedCache_get hkey with ⟨result, hget, hafter⟩
  have hresult : processRequest (.still 1) crowdedCache (.string req) =
      some (result.1, (Response.found result.2).encodePayload) := by
    rw [processRequest, process_get _ _ hcmd]
    simp only [Env.still, hget, Option.map_some]
  have hsame := hkeeps (.still 1) crowdedCache 1 _
    (fun _ _ => ⟨Int.one_pos, le_refl 1⟩) rfl rfl nofun hresult
  rw [hsame.strings, crowdedCache_liveString] at hafter
  cases hafter

theorem ClientRequest.KeepsContent.harmless {req : ClientRequest}
    {migrating calm : Bool} (hkeeps : req.KeepsContent false migrating calm) :
    req.Harmless migrating calm := by
  cases req with
  | string req =>
    by_cases hdeadline : ∃ cmd ∈ deadlineCmds, cmd.code = req.cmd
    · rcases hdeadline with ⟨cmd, hcmd, hcode⟩
      exact hkeeps.harmless_deadline hcmd hcode
    · change req.Harmless migrating calm
      unfold Request.Harmless
      split
      all_goals first
        | trivial
        | next hcmd => exact hkeeps.harmless_get (Cmd.code_of_ofCode? hcmd).symm
        | next hcmd => exact absurd ⟨_, by decide, Cmd.code_of_ofCode? hcmd⟩ hdeadline
  | list req =>
    change req.Harmless
    unfold ListRequest.Harmless
    split
    all_goals first
      | trivial
      | next hcmd =>
        exact hkeeps.harmless_blocking (by decide) (Cmd.code_of_ofCode? hcmd)
  | hash req => trivial
  | set req => trivial

theorem local_request_keeps_content_iff (req : ClientRequest)
    (hlocal : isRaftWriteOp req.cmd = false) (closed migrating calm : Bool) :
    req.KeepsContent closed migrating calm ↔ closed = true ∨ req.Harmless migrating calm := by
  constructor
  · intro hkeeps
    cases closed with
    | true => exact .inl rfl
    | false => exact .inr hkeeps.harmless
  · exact keepsContent_of_harmless hlocal

theorem local_request_keeps_content_iff_get :
    (ClientRequest.string ⟨Cmd.get.code, [107], none, 0⟩).KeepsContent false true true :=
  (local_request_keeps_content_iff _ (by decide) false true true).mpr (.inr (.inr (.inr rfl)))

theorem expire_outside_log : isRaftWriteOp Cmd.expire.code = false ∧
    liveString (stringCache [107] 0 false) 1 [107] = some ⟨[118], 0⟩ ∧
    (processRequest (.still 1) (stringCache [107] 0 false)
      (.string ⟨Cmd.expire.code, [107], none, 5000⟩)).map
        (fun result => liveString result.1 1 [107]) =
      some (some ⟨[118], 5000000001⟩) := by
  decide +kernel

end MCache.Net
