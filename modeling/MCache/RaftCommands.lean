import MCache.RaftReplicationSteps

/-!
# Where commands come from

Raft never makes a command up: every command in a log, in a packet or in a
delivered message was handed to `Propose`.  The statement is about an
arbitrary property of commands, so that the layers above can attach to a
command whatever they know about its proposal.
-/

namespace MCache.Consensus

variable {C : Type} {P : C → Prop}
variable {c : Cluster C} {r : Raft C}

def Packet.Carries (P : C → Prop) : Packet C → Prop
  | .appendEntries _ _ req => ∀ e ∈ req.entries, P e.command
  | _ => True

def Effect.Carries (P : C → Prop) : Effect C → Prop
  | .sendAppendEntries _ req => ∀ e ∈ req.entries, P e.command
  | .apply msg => P msg.command
  | _ => True

def Log.Carries (P : C → Prop) (log : Log C) : Prop := ∀ e ∈ log.entries, P e.command

structure Cluster.Carries (P : C → Prop) (c : Cluster C) : Prop where
  log : ∀ i, (c.nodes i).log.Carries P
  packet : ∀ p ∈ c.network, p.Carries P
  applied : ∀ i msg, (i, msg) ∈ c.applied → P msg.command

theorem Cluster.Carries.mono {Q : C → Prop} (hc : c.Carries P)
    (himp : ∀ cmd, P cmd → Q cmd) : c.Carries Q where
  log := fun i e he => himp _ (hc.log i e he)
  packet := by
    intro p hp
    have hold := hc.packet p hp
    cases p with
    | appendEntries source target req => exact fun e he => himp _ (hold e he)
    | _ => trivial
  applied := fun i msg hmem => himp _ (hc.applied i msg hmem)

theorem Cluster.initial_carries [Inhabited C] (peers : ℕ → List String)
    (hdefault : P default) : (Cluster.initial peers : Cluster C).Carries P where
  log := by
    intro i e he
    rw [List.mem_singleton.mp he]
    exact hdefault
  packet := fun p hp => by cases hp
  applied := fun i msg hmem => by cases hmem

theorem Log.Carries.get {log : Log C} (hlog : log.Carries P) {k : ℕ}
    {e : LogEntry C} (hget : log.get k = some e) : P e.command :=
  hlog e (List.mem_of_getElem? (Log.get_eq_some_iff.mp hget).2)

theorem Log.Carries.slice {log : Log C} (hlog : log.Carries P)
    (start stop : ℕ) : ∀ e ∈ log.slice start stop, P e.command := by
  intro e he
  simp only [Log.slice] at he
  generalize (if start < 1 then 1 else start) = first at he
  generalize (if log.entries.length < stop then log.entries.length else stop) = last at he
  split at he
  · cases he
  · exact hlog e (List.mem_of_mem_drop (List.mem_of_mem_take he))

theorem Raft.sendAppendEntriesTo_carries (hlog : r.log.Carries P) (peer : ℕ) :
    ∀ e ∈ r.sendAppendEntriesTo peer, e.Carries P := by
  intro e he
  unfold Raft.sendAppendEntriesTo at he
  split at he
  · cases he
  · rw [List.mem_singleton.mp he]
    exact hlog.slice _ _

theorem Raft.broadcastAppendEntries_carries (hlog : r.log.Carries P) :
    ∀ e ∈ r.broadcastAppendEntries, e.Carries P := by
  intro e he
  rcases List.mem_flatMap.mp he with ⟨peer, _, hsend⟩
  exact Raft.sendAppendEntriesTo_carries hlog peer e hsend

structure Carried (P : C → Prop) (result : Raft C × List (Effect C)) : Prop where
  log : result.1.log.Carries P
  effects : ∀ e ∈ result.2, e.Carries P

theorem Carried.silent (hlog : r.log.Carries P) : Carried P (r, []) where
  log := hlog
  effects := fun e he => by cases he

theorem Raft.applyCommitted_carried (hlog : r.log.Carries P) : Carried P r.applyCommitted where
  log := hlog
  effects := by
    intro e he
    rcases mem_applyFrom he with ⟨k, ent, _, _, hget, rfl⟩
    exact hlog.get hget

theorem Raft.advanceCommitIndex_carried (hlog : r.log.Carries P) :
    Carried P r.advanceCommitIndex := by
  unfold Raft.advanceCommitIndex
  split
  · exact .silent hlog
  · exact Raft.applyCommitted_carried hlog

theorem Raft.becomeFollower_log (r : Raft C) (term : ℕ) : (r.becomeFollower term).log = r.log := by
  unfold Raft.becomeFollower
  split <;> rfl

theorem Raft.handleElectionTimeout_carried (hlog : r.log.Carries P) :
    Carried P r.handleElectionTimeout := by
  unfold Raft.handleElectionTimeout
  split
  · exact .silent hlog
  · refine ⟨hlog, ?_⟩
    intro e he
    rcases List.mem_map.mp he with ⟨pid, _, rfl⟩
    trivial

theorem Raft.handleHeartbeatTimeout_carried (hlog : r.log.Carries P) :
    Carried P r.handleHeartbeatTimeout := by
  unfold Raft.handleHeartbeatTimeout
  split
  · exact .silent hlog
  · exact ⟨hlog, Raft.broadcastAppendEntries_carries hlog⟩

theorem Raft.handlePropose_carried (hlog : r.log.Carries P) {cmd : C} (hcmd : P cmd) :
    Carried P (r.handlePropose cmd) := by
  unfold Raft.handlePropose
  split
  · exact .silent hlog
  · let entry : LogEntry C :=
      { index := r.log.last.1 + 1, term := r.currentTerm, command := cmd }
    have hnew : (r.log.append [entry]).Carries P := by
      intro e he
      rcases List.mem_append.mp he with hold | hlast
      · exact hlog e hold
      · rw [List.mem_singleton.mp hlast]
        exact hcmd
    have hadvance := Raft.advanceCommitIndex_carried
      (r := { r with log := r.log.append [entry] }) hnew
    refine ⟨hadvance.log, ?_⟩
    intro e he
    rcases List.mem_append.mp he with hsend | happly
    · exact Raft.broadcastAppendEntries_carries hnew e hsend
    · exact hadvance.effects e happly

theorem Raft.appendNewEntries_carries {req : AppendEntriesRequest C}
    (hlog : r.log.Carries P) (hreq : ∀ e ∈ req.entries, P e.command) :
    (r.appendNewEntries req).log.Carries P := by
  unfold Raft.appendNewEntries
  split
  · exact hlog
  · intro e he
    rcases List.mem_append.mp he with hold | hnew
    · rw [Log.truncate_entries] at hold
      exact hlog e (List.mem_of_mem_take hold)
    · exact hreq e hnew

theorem Raft.handleAppendEntries_carried {req : AppendEntriesRequest C}
    (hlog : r.log.Carries P) (hreq : ∀ e ∈ req.entries, P e.command) :
    Carried P ((r.handleAppendEntries req).1, (r.handleAppendEntries req).2.2) := by
  unfold Raft.handleAppendEntries
  split
  · exact .silent hlog
  · have hfollow : (r.followLeader req).log.Carries P := by
      unfold Raft.followLeader
      split
      · exact (Raft.becomeFollower_log r req.term).symm ▸ hlog
      · exact hlog
    dsimp only
    split
    · have hnew := Raft.appendNewEntries_carries hfollow hreq
      unfold Raft.updateCommit
      split
      · exact Raft.applyCommitted_carried hnew
      · exact .silent hnew
    · exact .silent hfollow

theorem Raft.handleAppendEntriesResponse_carried (hlog : r.log.Carries P) (source : ℕ)
    (resp : AppendEntriesResponse) :
    Carried P (r.handleAppendEntriesResponse source resp) := by
  unfold Raft.handleAppendEntriesResponse
  split
  · exact .silent ((Raft.becomeFollower_log r resp.term).symm ▸ hlog)
  split
  · exact .silent hlog
  split
  · dsimp only
    split <;> exact Raft.advanceCommitIndex_carried hlog
  · dsimp only
    constructor
    case log => split <;> exact hlog
    case effects =>
      apply Raft.sendAppendEntriesTo_carries
      split <;> exact hlog

theorem Raft.handleRequestVote_carries (hlog : r.log.Carries P)
    (req : RequestVoteRequest) : (r.handleRequestVote req).1.log.Carries P := by
  have hfollow : (r.becomeFollower req.term).log.Carries P :=
    (Raft.becomeFollower_log r req.term).symm ▸ hlog
  unfold Raft.handleRequestVote
  split
  · exact hlog
  · dsimp only
    split <;> split
    · exact hfollow
    · exact hfollow
    · exact hlog
    · exact hlog

theorem Raft.handleRequestVoteResponse_carried (hlog : r.log.Carries P)
    (resp : RequestVoteResponse) : Carried P (r.handleRequestVoteResponse resp) := by
  unfold Raft.handleRequestVoteResponse
  split
  · exact .silent ((Raft.becomeFollower_log r resp.term).symm ▸ hlog)
  split
  · exact .silent hlog
  split
  · dsimp only
    split
    · refine ⟨hlog, ?_⟩
      intro e he
      rw [List.mem_singleton.mp he]
      trivial
    · exact .silent hlog
  · exact .silent hlog

theorem Cluster.Carries.perform (hc : c.Carries P) {i : ℕ}
    {result : Raft C × List (Effect C)} (hresult : Carried P result) :
    (c.perform i result).Carries P where
  log := by
    intro j
    by_cases hj : j = i
    · subst j
      simpa [Cluster.perform] using hresult.log
    · simpa [Cluster.perform, hj] using hc.log j
  packet := by
    intro p hp
    rcases List.mem_append.mp hp with hold | hnew
    · exact hc.packet p hold
    · rcases List.mem_filterMap.mp hnew with ⟨e, he, hpacket⟩
      have hcarries := hresult.effects e he
      cases e with
      | sendAppendEntries peer req =>
        cases hpacket
        exact hcarries
      | sendRequestVote peer req =>
        cases hpacket
        trivial
      | apply msg => cases hpacket
      | becameLeader term => cases hpacket
  applied := by
    intro j msg hmem
    rcases List.mem_append.mp hmem with hold | hnew
    · exact hc.applied j msg hold
    · rcases List.mem_filterMap.mp hnew with ⟨e, he, happlied⟩
      have hcarries := hresult.effects e he
      cases e with
      | apply sent =>
        cases happlied
        exact hcarries
      | _ => cases happlied

theorem Cluster.Carries.post (hc : c.Carries P) {p : Packet C} (hp : p.Carries P) :
    (c.post p).Carries P :=
  { hc with
    packet := by
      intro q hq
      rcases List.mem_append.mp hq with hold | hnew
      · exact hc.packet q hold
      · exact (List.mem_singleton.mp hnew) ▸ hp }

theorem Cluster.Carries.remove (hc : c.Carries P) (k : ℕ) : (c.remove k).Carries P :=
  { hc with
    packet := fun p hp =>
      hc.packet p ((List.eraseIdx_sublist _ k).subset hp) }

theorem Cluster.Carries.receive (hc : c.Carries P) {p : Packet C} (hp : p.Carries P) :
    (c.receive p).Carries P := by
  cases p with
  | appendEntries source target req =>
    exact (hc.perform (Raft.handleAppendEntries_carried (hc.log target) hp)).post trivial
  | appendEntriesResponse source target resp =>
    exact hc.perform (Raft.handleAppendEntriesResponse_carried (hc.log target) source resp)
  | requestVote source target req =>
    exact (hc.perform (.silent (Raft.handleRequestVote_carries (hc.log target) req))).post trivial
  | requestVoteResponse source target resp =>
    exact hc.perform (Raft.handleRequestVoteResponse_carried (hc.log target) resp)

theorem Cluster.Carries.step {n : ℕ} {next : Cluster C} {a : Action C}
    (hc : c.Carries P) (hpropose : ∀ i cmd, a = .propose i cmd → P cmd)
    (hstep : c.step n a = some next) : next.Carries P := by
  cases Cluster.steps_of_step hstep with
  | electionTimeout hi =>
    exact hc.perform (Raft.handleElectionTimeout_carried (hc.log _))
  | heartbeatTimeout hi =>
    exact hc.perform (Raft.handleHeartbeatTimeout_carried (hc.log _))
  | propose cmd hi =>
    exact hc.perform (Raft.handlePropose_carried (hc.log _) (hpropose _ cmd rfl))
  | deliver hget hi =>
    exact (hc.remove _).receive (hc.packet _ (List.mem_of_getElem? hget))
  | lose hposition => exact hc.remove _

theorem Cluster.applied_prefix_receive (c : Cluster C) (p : Packet C) :
    c.applied <+: (c.receive p).applied := by
  cases p <;> exact List.prefix_append _ _

theorem Cluster.applied_prefix_step {n : ℕ} {next : Cluster C} {a : Action C}
    (hstep : c.step n a = some next) : c.applied <+: next.applied := by
  cases Cluster.steps_of_step hstep with
  | deliver hget hi => exact (c.remove _).applied_prefix_receive _
  | lose hposition => exact List.prefix_rfl
  | _ => exact List.prefix_append _ _

end MCache.Consensus
