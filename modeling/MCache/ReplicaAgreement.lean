import MCache.LocalRequests
import MCache.RaftApply
import MCache.RaftRuns

/-!
# Replicas with different local reads

Two servers apply the same commands and answer different requests in between.
As long as no entry has a deadline and no migration runs, a request that reads
leaves the cache as it is, with the order of the eviction policies, and a
command does the same at every time and with every map order.  So the two
servers go through the same states, evict the same keys and get the same
results.
-/

namespace MCache.Net

open MCache.Store

inductive Event where
  | apply (rc : RaftCommand) (env : Env)
  | request (req : ClientRequest) (env : Env)

def Event.command? : Event → Option RaftCommand
  | .apply rc _ => some rc
  | .request _ _ => none

def commands (events : List Event) : List RaftCommand := events.filterMap Event.command?

def evictedBy (env : Env) (c : Cache) (rc : RaftCommand) : List Bytes :=
  match Cmd.ofCode? rc.op, rc.value with
  | some .set, some value =>
    if c.closed ∨ rc.key = [] then []
    else c.table.evictedBy rc.key value (c.ttlOrDefault (some (setTTL rc.ttl)))
      (env.clock .current rc.key)
  | _, _ => []

def serve : List Event → Cache → Option (Cache × List (List Bytes × RaftResult))
  | [], c => some (c, [])
  | .apply rc env :: rest, c =>
    (onRaftApply env c rc).bind fun result =>
      (serve rest result.1).map fun later =>
        (later.1, (evictedBy env c rc, result.2) :: later.2)
  | .request req env :: rest, c =>
    (processRequest env c req).bind fun result => serve rest result.1

structure Untimed (rc : RaftCommand) : Prop where
  noSPop : rc.op ≠ Cmd.sPop.code
  noTTL : rc.op = Cmd.set.code → rc.ttl ≤ 0

structure ClientRequest.Reads (req : ClientRequest) : Prop where
  notLogged : isRaftWriteOp req.cmd = false
  notUpdate : ∀ cmd ∈ deadlineCmds ++ blockingCmds, cmd.code ≠ req.cmd

def Event.Admissible (prims : Strconv.Primitives) : Event → Prop
  | .apply rc env => Untimed rc ∧ env.prims = prims
  | .request req _ => req.Reads

structure Settled (c : Cache) : Prop where
  idle : c.migration = none
  noDeadlines : c.table.NoDeadlines

theorem Settled.new {opts : Options} {c : Cache} (hnew : Cache.new opts = .ok c) : Settled c := by
  rw [(Cache.new_ok hnew).2.2]
  exact ⟨rfl, newTable_noDeadlines _ _ _⟩

section Settled

variable {c : Cache}

variable (hc : Settled c)
include hc

theorem Settled.onShard {α : Type} (key : Bytes)
    {f : Shard → Shard × α} (hf : ∀ s, s.NoDeadlines → (f s).1.NoDeadlines) :
    Settled (c.onShard key f).1 := by
  unfold Cache.onShard
  split_ifs
  · exact hc
  · exact hc
  · exact ⟨hc.idle, hc.noDeadlines.withShard _ (hf _ (hc.noDeadlines _))⟩

theorem Settled.collection (key : Bytes)
    (cmd : CollectionCommand) : Settled (c.collection key cmd).1 := by
  apply hc.onShard key
  exact fun _ hs => hs

theorem Settled.incremented {α : Type} (key : Bytes)
    (f : Collections → Collections × Except CommandError α) :
    Settled (c.incremented key f).1 := by
  apply hc.onShard key
  exact fun _ hs => hs

theorem Settled.hIncrBy (key field : Bytes) (delta : ℤ) : Settled (c.hIncrBy key field delta).1 :=
  hc.incremented key _

theorem Settled.hIncrByFloat (prims : Strconv.Primitives) (key field : Bytes) (delta : UInt64) :
    Settled (c.hIncrByFloat prims key field delta).1 :=
  hc.incremented key _

theorem Settled.get (order : MapOrder) (clock : Clock)
    (key : Bytes) : ∃ reply, c.get order clock key = some (c, reply) := by
  rcases Cache.get_of_idle hc.idle order clock with ⟨result, hget, hafter⟩
  rw [hc.noDeadlines.get] at hafter
  refine ⟨result.2, hget.trans ?_⟩
  rw [← hafter.elim id id]

theorem Settled.set (key : Bytes) (value : Option Bytes) : ∃ result, Settled result.1 ∧
      ∀ order clock, c.set order clock key value (some 0) = some result := by
  by_cases hrefused : c.closed = true ∨ key = [] ∨ value = none
  · rcases Cache.set_refused hrefused with ⟨e, he⟩
    exact ⟨_, hc, fun order clock => he order clock _⟩
  · rw [not_or, not_or, Bool.not_eq_true] at hrefused
    rcases hrefused with ⟨hopen, hkey, hvalue⟩
    rcases Option.ne_none_iff_exists'.mp hvalue with ⟨value, rfl⟩
    refine ⟨({ c with table := c.table.set key value 0 0 }, .ok ()),
      ⟨hc.idle, hc.noDeadlines.set key value 0⟩, ?_⟩
    intro order clock
    rw [Cache.set_of_idle hopen hc.idle order clock hkey,
      ShardTable.set_zero_clock _ _ _ 0 (clock .current key)]
    rfl

theorem Settled.del (key : Bytes) : ∃ result, Settled result.1 ∧
      ∀ order clock, c.del order clock key = some result := by
  by_cases hrefused : c.closed = true ∨ key = []
  · rcases Cache.del_refused hrefused with ⟨e, he⟩
    exact ⟨_, hc, he⟩
  · rw [not_or, Bool.not_eq_true] at hrefused
    rcases hrefused with ⟨hopen, hkey⟩
    exact ⟨({ c with table := c.table.del key }, .ok ()), ⟨hc.idle, hc.noDeadlines.del key⟩,
      fun order clock => Cache.del_of_idle hopen hc.idle order clock hkey⟩

theorem Settled.cleanup (now : Bytes → ℤ) : (c.cleanup now).1 = c := by
  unfold Cache.cleanup
  split_ifs
  · rfl
  · rw [hc.noDeadlines.cleanup, hc.idle, Option.map_none, ← hc.idle]

end Settled

theorem processRequest_reads {c : Cache} (hc : Settled c) {req : ClientRequest}
    (hreads : req.Reads) (env : Env) :
    ∃ answer, processRequest env c req = some (c, answer) := by
  rcases hreads with ⟨hlocal, hread⟩
  cases req with
  | string req =>
    have hprocess : ∃ response, process env c req = some (c, response) := by
      rcases process_local env c hlocal with hsame | hget | ⟨cmd, hcmd, hcode⟩
      · exact hsame
      · rcases hc.get env.order env.clock req.key with ⟨reply, hreply⟩
        exact ⟨_, (process_get env c hget).trans (congrArg (Option.map _) hreply)⟩
      · exact absurd hcode (hread cmd (List.mem_append_left _ hcmd))
    rcases hprocess with ⟨response, hresponse⟩
    exact ⟨_, congrArg (Option.map _) hresponse⟩
  | hash req => exact ⟨_, congrArg some (Prod.ext (processHash_local env c hlocal) rfl)⟩
  | list req =>
    rcases processList_local env c hlocal with hsame | ⟨cmd, hcmd, hcode⟩
    · exact ⟨_, congrArg some (Prod.ext hsame rfl)⟩
    · exact absurd hcode (hread cmd (List.mem_append_right _ hcmd))
  | set req => exact ⟨_, congrArg some (Prod.ext (processSet_local env c hlocal) rfl)⟩

theorem onRaftApply_settled {c : Cache} (hc : Settled c) {rc : RaftCommand}
    (hrc : Untimed rc) (prims : Strconv.Primitives) :
    ∃ result, Settled result.1 ∧
      ∀ env : Env, env.prims = prims → onRaftApply env c rc = some result := by
  unfold onRaftApply
  dsimp only
  split
  case h_1 hcmd =>
      have hzero : setTTL rc.ttl = 0 :=
        if_neg (not_lt.mpr (hrc.noTTL (Cmd.code_of_ofCode? hcmd).symm))
      rcases hc.set rc.key rc.value with ⟨result, hresult, hset⟩
      refine ⟨(result.1, .ofCache result.2 fun _ => {}), hresult, fun env _ => ?_⟩
      rw [hzero, hset]
      rfl
  case h_2 =>
      rcases hc.del rc.key with ⟨result, hresult, hdel⟩
      refine ⟨(result.1, .ofCache result.2 fun _ => {}), hresult, fun env _ => ?_⟩
      rw [hdel]
      rfl
  case h_3 =>
      refine ⟨(c, {}), hc, fun env _ => ?_⟩
      rw [hc.cleanup]
  case h_7 => exact ⟨_, hc.hIncrBy rc.key rc.field rc.deltaI64, fun _ _ => rfl⟩
  case h_8 =>
      refine ⟨((c.hIncrByFloat prims rc.key rc.field rc.deltaF64).1,
        .of (c.hIncrByFloat prims rc.key rc.field rc.deltaF64).2 fun n =>
          { floatResult := n }), hc.hIncrByFloat prims _ _ _, ?_⟩
      rintro env rfl
      rfl
  case h_20 hcmd => exact absurd (Cmd.code_of_ofCode? hcmd).symm hrc.noSPop
  case h_21 => exact ⟨_, hc, fun _ _ => rfl⟩
  all_goals
    refine ⟨_, ?_, fun _ _ => rfl⟩
    exact hc.collection rc.key _

theorem evictedBy_settled (c : Cache) {rc : RaftCommand} (hrc : Untimed rc)
    (env other : Env) : evictedBy env c rc = evictedBy other c rc := by
  unfold evictedBy
  split
  case h_1 value hcmd hvalue =>
      have hzero : setTTL rc.ttl = 0 :=
        if_neg (not_lt.mpr (hrc.noTTL (Cmd.code_of_ofCode? hcmd).symm))
      rw [hzero, show c.ttlOrDefault (some 0) = 0 from rfl, ShardTable.evictedBy,
        ShardTable.evictedBy, Shard.set_zero_clock _ _ _ (env.clock .current rc.key)
          (other.clock .current rc.key)]
  case h_2 => rfl

def replay (env : Env) (rcs : List RaftCommand) : List Event := rcs.map fun rc => .apply rc env

theorem serve_eq_replay {c : Cache} (hc : Settled c) (env : Env)
    {events : List Event} (hevents : ∀ e ∈ events, e.Admissible env.prims) :
    ∃ result, serve events c = some result ∧
      serve (replay env (commands events)) c = some result := by
  induction events generalizing c with
  | nil => exact ⟨_, rfl, rfl⟩
  | cons e rest ih =>
    have hrest := fun later hlater => hevents later (List.mem_cons_of_mem e hlater)
    have he := hevents e List.mem_cons_self
    cases e with
    | apply rc met =>
      rcases onRaftApply_settled hc he.1 env.prims with ⟨applied, hsettled, happly⟩
      rcases ih hsettled hrest with ⟨result, hserve, hreplay⟩
      refine ⟨(result.1, (evictedBy env c rc, applied.2) :: result.2), ?_, ?_⟩
      · simp only [serve, happly met he.2, Option.bind_some, hserve,
          Option.map_some, evictedBy_settled c he.1 met env]
      · change serve (.apply rc env :: replay env (commands rest)) c = _
        simp only [serve, happly env rfl, Option.bind_some, hreplay, Option.map_some]
    | request req met =>
      rcases processRequest_reads hc he met with ⟨answer, hanswer⟩
      rcases ih hc hrest with ⟨result, hserve, hreplay⟩
      refine ⟨result, ?_, hreplay⟩
      simp only [serve, hanswer, Option.bind_some, hserve]

theorem serve_agree {c : Cache} (hc : Settled c) {prims : Strconv.Primitives}
    {first second : List Event} (hfirst : ∀ e ∈ first, e.Admissible prims)
    (hsecond : ∀ e ∈ second, e.Admissible prims)
    (hcommands : commands first = commands second) :
    ∃ last outcomes, serve first c = some (last, outcomes) ∧
      serve second c = some (last, outcomes) := by
  rcases serve_eq_replay hc { Env.still 1 with prims } hfirst with
    ⟨result, hserve, hreplay⟩
  rcases serve_eq_replay hc { Env.still 1 with prims } hsecond with
    ⟨other, hserve', hreplay'⟩
  rw [hcommands, hreplay', Option.some.injEq] at hreplay
  exact ⟨result.1, result.2, hserve, hserve'.trans (congrArg some hreplay)⟩

theorem replicas_agree {opts : Options} {c : Cache} (hnew : Cache.new opts = .ok c)
    {prims : Strconv.Primitives} {first second : List Event}
    (hfirst : ∀ e ∈ first, e.Admissible prims)
    (hsecond : ∀ e ∈ second, e.Admissible prims)
    (hcommands : commands first = commands second) :
    ∃ last outcomes, serve first c = some (last, outcomes) ∧
      serve second c = some (last, outcomes) :=
  serve_agree (.new hnew) hfirst hsecond hcommands

def plainSet (key : Bytes) : RaftCommand := reqToRaft ⟨Cmd.set.code, key, some [118], 0⟩

theorem plainSet_untimed (key : Bytes) : Untimed (plainSet key) :=
  ⟨(by decide : Cmd.set.code ≠ Cmd.sPop.code), fun _ => le_refl (0 : ℤ)⟩

def readBetween : List Event := [.apply (plainSet [97]) (.still 1),
    .request (.string ⟨Cmd.get.code, [97], none, 0⟩) (.still 2),
    .apply (plainSet [98]) (.still 3)]

def writesOnly : List Event :=
  [.apply (plainSet [97]) (.still 7), .apply (plainSet [98]) (.still 8)]

theorem apply_plainSet_admissible (key : Bytes) (now : ℤ) :
    (Event.apply (plainSet key) (.still now)).Admissible (Env.still 1).prims :=
  ⟨plainSet_untimed key, rfl⟩

theorem readBetween_admissible : ∀ e ∈ readBetween, e.Admissible (Env.still 1).prims := by
  have hget : (ClientRequest.string ⟨Cmd.get.code, [97], none, 0⟩).Reads := ⟨by decide, by decide⟩
  exact List.forall_mem_cons.mpr ⟨apply_plainSet_admissible [97] 1, List.forall_mem_cons.mpr ⟨hget,
      List.forall_mem_singleton.mpr (apply_plainSet_admissible [98] 3)⟩⟩

theorem writesOnly_admissible : ∀ e ∈ writesOnly, e.Admissible (Env.still 1).prims :=
  List.forall_mem_cons.mpr ⟨apply_plainSet_admissible [97] 7,
    List.forall_mem_singleton.mpr (apply_plainSet_admissible [98] 8)⟩

def oneEntryOptions : Options := { newOptions with shardCount := 1, maxSize := 1 }

def oneEntryCache : Cache :=
  { Cache.ofDefaults with table := newTable 0 .lru 1, maxSize := 1 }

theorem oneEntryCache_new : Cache.new oneEntryOptions = .ok oneEntryCache := rfl

theorem readBetween_outcomes {last : Cache}
    {outcomes : List (List Bytes × RaftResult)}
    (hserve : serve readBetween oneEntryCache = some (last, outcomes)) :
    outcomes.map Prod.fst = [[], [[97]]] := by
  have hrun : (serve readBetween oneEntryCache).map (fun served =>
      served.2.map Prod.fst) = some [[], [[97]]] := by
    decide +kernel
  rw [hserve] at hrun
  exact Option.some.inj hrun

theorem replicas_agree_readBetween :
    ∃ last outcomes, serve readBetween oneEntryCache = some (last, outcomes) ∧
      serve writesOnly oneEntryCache = some (last, outcomes) ∧
      outcomes.map Prod.fst = [[], [[97]]] := by
  rcases replicas_agree oneEntryCache_new readBetween_admissible
    writesOnly_admissible rfl with ⟨last, outcomes, hfirst, hsecond⟩
  exact ⟨last, outcomes, hfirst, hsecond, readBetween_outcomes hfirst⟩

theorem cluster_replicas_agree {C : Type} [Inhabited C] {n i j : ℕ}
    {cluster : Consensus.Cluster C}
    (hreach : (Consensus.system C n).ReachableBy Consensus.Cluster.NoStaleAppend cluster)
    (hlength : (cluster.emitted i).length = (cluster.emitted j).length)
    (unmarshal : C → Option RaftCommand) {opts : Options} {c : Cache}
    (hnew : Cache.new opts = .ok c) {prims : Strconv.Primitives}
    {first second : List Event} (hfirst : ∀ e ∈ first, e.Admissible prims)
    (hsecond : ∀ e ∈ second, e.Admissible prims)
    (hi : commands first = (cluster.emitted i).filterMap (unmarshal ·.command))
    (hj : commands second = (cluster.emitted j).filterMap (unmarshal ·.command)) :
    ∃ last outcomes, serve first c = some (last, outcomes) ∧
      serve second c = some (last, outcomes) := by
  have hsame := (Consensus.emitted_prefix hreach hlength.le).eq_of_length hlength
  exact serve_agree (.new hnew) hfirst hsecond (by rw [hi, hsame, hj])

def commitTwo : List (Consensus.Action Bytes) :=
  Consensus.electFirst ++ [.propose 1 [97], .deliver 1, .deliver 2, .propose 1 [98],
    .deliver 2, .deliver 3, .heartbeatTimeout 1, .deliver 3]

theorem cluster_replicas_agree_commitTwo : ∃ cluster, (Consensus.system Bytes 3).ReachableBy
        Consensus.Cluster.NoStaleAppend cluster ∧
      (cluster.emitted 1).map (·.command) = [[97], [98]] ∧
      ∃ last outcomes, serve readBetween oneEntryCache = some (last, outcomes) ∧
        serve writesOnly oneEntryCache = some (last, outcomes) ∧
        outcomes.map Prod.fst = [[], [[97]]] := by
  have hrun : ((Consensus.system Bytes 3).runBy Consensus.Cluster.NoStaleAppend
      Consensus.threeNodes commitTwo).map
      (fun cluster => (cluster.emitted 1, cluster.emitted 2)) =
      some ([⟨1, [97]⟩, ⟨2, [98]⟩], [⟨1, [97]⟩, ⟨2, [98]⟩]) := by decide +kernel
  obtain ⟨cluster, hreach, hfinal⟩ :=
    TransitionSystem.exists_reachableBy Consensus.threeNodes_init hrun
  obtain ⟨h1, h2⟩ := Prod.mk.inj hfinal
  obtain ⟨last, outcomes, hfirst, hsecond⟩ := cluster_replicas_agree
    (i := 1) (j := 2) hreach (by rw [h1, h2]) (fun key => some (plainSet key))
    oneEntryCache_new readBetween_admissible writesOnly_admissible
    (by rw [h1]; rfl) (by rw [h2]; rfl)
  exact ⟨cluster, hreach, by rw [h1]; rfl, last, outcomes, hfirst, hsecond,
    readBetween_outcomes hfirst⟩

end MCache.Net
