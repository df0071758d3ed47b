import MCache.RaftCommands
import MCache.RaftSafety

/-!
# Messages on the apply channel

Every assignment of `commitIndex` is followed by `applyCommitted` in the same
handler, and it never reaches past the log that the node has at that moment.
Between two handlers `commitIndex` is therefore at most `lastApplied`, even
when a later request shortens the log below both, and the loop finds every
entry it asks for: the messages of a node carry the indices 1, 2, 3 and so on.
-/

namespace MCache.Consensus

variable {C : Type}
variable {lastApplied : ℕ}

def Effect.appliedIndex? : Effect C → Option ℕ
  | .apply msg => some msg.index
  | _ => none

def appliedIndices (effects : List (Effect C)) : List ℕ := effects.filterMap Effect.appliedIndex?

theorem appliedIndices_append (first second : List (Effect C)) : appliedIndices (first ++ second) =
      appliedIndices first ++ appliedIndices second :=
  List.filterMap_append

theorem appliedIndices_eq_nil {effects : List (Effect C)}
    (hsilent : ∀ e ∈ effects, e.appliedIndex? = none) :
    appliedIndices effects = [] :=
  List.filterMap_eq_nil_iff.mpr hsilent

structure Delivers (lastApplied : ℕ) (result : Raft C × List (Effect C)) : Prop where
  caughtUp : result.1.commitIndex ≤ result.1.lastApplied
  grows : lastApplied ≤ result.1.lastApplied
  indices : appliedIndices result.2 =
    List.range' (lastApplied + 1) (result.1.lastApplied - lastApplied)

theorem Delivers.silent {result : Raft C × List (Effect C)}
    (hcommit : result.1.commitIndex ≤ lastApplied)
    (happlied : result.1.lastApplied = lastApplied)
    (hsilent : ∀ e ∈ result.2, e.appliedIndex? = none) :
    Delivers lastApplied result where
  caughtUp := hcommit.trans_eq happlied.symm
  grows := happlied.ge
  indices := by
    rw [appliedIndices_eq_nil hsilent, happlied, Nat.sub_self]
    rfl

theorem Delivers.idle {r : Raft C} (hcommit : r.commitIndex ≤ lastApplied)
    (happlied : r.lastApplied = lastApplied) : Delivers lastApplied (r, []) :=
  .silent hcommit happlied fun _ he => absurd he List.not_mem_nil

def Cluster.emitted (c : Cluster C) (i : ℕ) : List (ApplyMsg C) :=
  c.applied.filterMap fun record => if record.1 = i then some record.2 else none

structure Cluster.InOrder (c : Cluster C) : Prop where
  caughtUp : ∀ i, (c.nodes i).commitIndex ≤ (c.nodes i).lastApplied
  indices : ∀ i, (c.emitted i).map (fun msg => msg.index) = List.range' 1 (c.nodes i).lastApplied

variable {i : ℕ} {c : Cluster C} {result : Raft C × List (Effect C)}

theorem Cluster.emitted_perform_self : ((c.perform i result).emitted i).map (fun msg => msg.index) =
      (c.emitted i).map (fun msg => msg.index) ++ appliedIndices result.2 := by
  have hnew : ((result.2.filterMap (Effect.applied? i)).filterMap fun record =>
      if record.1 = i then some record.2 else none).map (fun msg => msg.index) =
      appliedIndices result.2 := by
    rw [List.filterMap_filterMap, List.map_filterMap, appliedIndices]
    congr 1
    funext e
    cases e <;> simp [Effect.applied?, Effect.appliedIndex?]
  rw [← hnew, ← List.map_append, Cluster.emitted, Cluster.emitted, ← List.filterMap_append]
  rfl

theorem Cluster.emitted_perform_of_ne {j : ℕ} (hj : j ≠ i) :
    (c.perform i result).emitted j = c.emitted j := by
  have hnew : (result.2.filterMap (Effect.applied? i)).filterMap (fun record =>
      if record.1 = j then some record.2 else none) = [] := by
    rw [List.filterMap_filterMap]
    apply List.filterMap_eq_nil_iff.mpr
    intro e _
    cases e <;> simp [Effect.applied?, hj.symm]
  rw [Cluster.emitted, Cluster.perform, List.filterMap_append, hnew, List.append_nil]
  rfl

theorem Cluster.InOrder.perform (hc : c.InOrder)
    (hresult : Delivers (c.nodes i).lastApplied result) :
    (c.perform i result).InOrder where
  caughtUp := by
    intro j
    by_cases hj : j = i
    · subst j
      simpa [Cluster.perform] using hresult.caughtUp
    · simpa [Cluster.perform, hj] using hc.caughtUp j
  indices := by
    intro j
    by_cases hj : j = i
    · subst hj
      have hsplit : result.1.lastApplied = (c.nodes j).lastApplied +
          (result.1.lastApplied - (c.nodes j).lastApplied) :=
        (Nat.add_sub_of_le hresult.grows).symm
      rw [Cluster.emitted_perform_self, hc.indices, hresult.indices]
      simp only [Cluster.perform, Function.update_self]
      rw [hsplit, Nat.add_sub_cancel_left, Nat.add_comm _ 1, List.range'_append_1]
    · rw [Cluster.emitted_perform_of_ne hj, hc.indices]
      simp [Cluster.perform, hj]

variable {r : Raft C}

theorem Raft.sendAppendEntriesTo_silent (peer : ℕ) :
    ∀ e ∈ r.sendAppendEntriesTo peer, e.appliedIndex? = none := by
  intro e he
  unfold Raft.sendAppendEntriesTo at he
  split at he
  · cases he
  · rw [List.mem_singleton.mp he]
    rfl

theorem Raft.broadcastAppendEntries_silent :
    ∀ e ∈ r.broadcastAppendEntries, e.appliedIndex? = none := by
  intro e he
  rcases List.mem_flatMap.mp he with ⟨peer, _, hsend⟩
  exact Raft.sendAppendEntriesTo_silent peer e hsend

theorem Raft.becomeFollower_indices (r : Raft C) (term : ℕ) :
    (r.becomeFollower term).commitIndex = r.commitIndex ∧
      (r.becomeFollower term).lastApplied = r.lastApplied := by
  unfold Raft.becomeFollower
  split <;> exact ⟨rfl, rfl⟩

theorem Raft.followLeader_indices (r : Raft C) (req : AppendEntriesRequest C) :
    (r.followLeader req).commitIndex = r.commitIndex ∧
      (r.followLeader req).lastApplied = r.lastApplied := by
  unfold Raft.followLeader
  split
  · exact r.becomeFollower_indices req.term
  · exact ⟨rfl, rfl⟩

theorem Raft.appendNewEntries_indices (r : Raft C) (req : AppendEntriesRequest C) :
    (r.appendNewEntries req).commitIndex = r.commitIndex ∧
      (r.appendNewEntries req).lastApplied = r.lastApplied := by
  unfold Raft.appendNewEntries
  split <;> exact ⟨rfl, rfl⟩

theorem Raft.handleElectionTimeout_delivers (hcaught : r.commitIndex ≤ r.lastApplied) :
    Delivers r.lastApplied r.handleElectionTimeout := by
  unfold Raft.handleElectionTimeout
  split
  · exact .idle hcaught rfl
  · apply Delivers.silent
    · exact hcaught
    · rfl
    · intro e he
      rcases List.mem_map.mp he with ⟨pid, _, rfl⟩
      rfl

theorem Raft.handleHeartbeatTimeout_delivers (hcaught : r.commitIndex ≤ r.lastApplied) :
    Delivers r.lastApplied r.handleHeartbeatTimeout := by
  unfold Raft.handleHeartbeatTimeout
  split
  · exact .idle hcaught rfl
  · exact .silent hcaught rfl Raft.broadcastAppendEntries_silent

theorem Raft.handleRequestVote_delivers
    (hcaught : r.commitIndex ≤ r.lastApplied) (req : RequestVoteRequest) :
    Delivers r.lastApplied ((r.handleRequestVote req).1, []) := by
  rcases r.becomeFollower_indices req.term with ⟨hcommit, happlied⟩
  have hindices : (r.handleRequestVote req).1.commitIndex = r.commitIndex ∧
      (r.handleRequestVote req).1.lastApplied = r.lastApplied := by
    unfold Raft.handleRequestVote
    split
    · exact ⟨rfl, rfl⟩
    · dsimp only
      split <;> split
      · exact ⟨hcommit, happlied⟩
      · exact ⟨hcommit, happlied⟩
      · exact ⟨rfl, rfl⟩
      · exact ⟨rfl, rfl⟩
  exact .idle (hindices.1.trans_le hcaught) hindices.2

theorem Raft.handleRequestVoteResponse_delivers
    (hcaught : r.commitIndex ≤ r.lastApplied) (resp : RequestVoteResponse) :
    Delivers r.lastApplied (r.handleRequestVoteResponse resp) := by
  rcases r.becomeFollower_indices resp.term with ⟨hcommit, happlied⟩
  unfold Raft.handleRequestVoteResponse
  split
  · exact .idle (hcommit.trans_le hcaught) happlied
  split
  · exact .idle hcaught rfl
  split
  · dsimp only
    split
    · apply Delivers.silent
      · exact hcaught
      · rfl
      · intro e he
        rw [List.mem_singleton.mp he]
        rfl
    · exact .idle hcaught rfl
  · exact .idle hcaught rfl

variable [Inhabited C]

theorem WellFormed.get_index {log : Log C} (hlog : WellFormed log.entries)
    {k : ℕ} (hpos : 0 < k) (hlt : k < log.entries.length) :
    ∃ e, log.get k = some e ∧ e.index = k := by
  have hget : log.entries[k]? = some log.entries[k] := List.getElem?_eq_getElem hlt
  exact ⟨_, Log.get_eq_some_iff.mpr ⟨hpos, hget⟩, hlog.indexed k _ hget⟩

theorem applyFrom_indices {log : Log C} (hlog : WellFormed log.entries) {rounds : ℕ}
    (hlt : 0 < rounds → lastApplied + rounds < log.entries.length) :
    appliedIndices (Raft.applyFrom log rounds lastApplied) =
      List.range' (lastApplied + 1) rounds := by
  induction rounds generalizing lastApplied with
  | zero => rfl
  | succ rounds ih =>
    have hbound := hlt (Nat.succ_pos rounds)
    rcases hlog.get_index (Nat.succ_pos lastApplied) (by omega) with
      ⟨e, hget, hindex⟩
    rw [Raft.applyFrom, hget, appliedIndices_append, ih (by omega), List.range'_succ]
    simp [appliedIndices, Effect.appliedIndex?, hindex]

theorem Raft.applyCommitted_delivers (happlied : r.lastApplied = lastApplied)
    (hlog : WellFormed r.log.entries)
    (hcommit : r.commitIndex ≤ lastApplied ∨ r.commitIndex < r.log.entries.length) :
    Delivers lastApplied r.applyCommitted := by
  subst happlied
  constructor
  case caughtUp => exact le_max_right _ _
  case grows => exact le_max_left _ _
  case indices =>
    have hrounds : max r.lastApplied r.commitIndex - r.lastApplied =
        r.commitIndex - r.lastApplied := by omega
    simp only [Raft.applyCommitted, hrounds]
    exact applyFrom_indices hlog (by omega)

theorem Raft.advanceCommitIndex_delivers (happlied : r.lastApplied = lastApplied)
    (hlog : WellFormed r.log.entries) (hcaught : r.commitIndex ≤ lastApplied) :
    Delivers lastApplied r.advanceCommitIndex := by
  unfold Raft.advanceCommitIndex
  split
  · exact .idle hcaught happlied
  · apply Raft.applyCommitted_delivers
    case happlied => exact happlied
    case hlog => exact hlog
    case hcommit =>
      rcases advanceLoop_spec r (r.log.entries.drop (r.commitIndex + 1))
        (r.commitIndex + 1) r.commitIndex with hstay | ⟨m, ent, hget, heq, -⟩
      · left
        exact hstay.trans_le hcaught
      · right
        rw [List.getElem?_drop] at hget
        have hlt := (List.getElem?_eq_some_iff.mp hget).1
        change r.advanceLoop _ _ _ < r.log.entries.length
        omega

theorem Raft.handlePropose_delivers {cmd : C}
    (hlog : WellFormed (r.handlePropose cmd).1.log.entries)
    (hcaught : r.commitIndex ≤ r.lastApplied) :
    Delivers r.lastApplied (r.handlePropose cmd) := by
  unfold Raft.handlePropose at hlog ⊢
  split
  · exact .idle hcaught rfl
  · rename_i hleader
    rw [if_neg hleader, Raft.advanceCommitIndex_log] at hlog
    have hadvance := Raft.advanceCommitIndex_delivers rfl hlog hcaught
    constructor
    case caughtUp => exact hadvance.caughtUp
    case grows => exact hadvance.grows
    case indices =>
      rw [appliedIndices_append, appliedIndices_eq_nil Raft.broadcastAppendEntries_silent]
      exact hadvance.indices

theorem Raft.updateCommit_delivers {req : AppendEntriesRequest C} (hlog : WellFormed r.log.entries)
    (hcaught : r.commitIndex ≤ r.lastApplied) :
    Delivers r.lastApplied (r.updateCommit req) := by
  unfold Raft.updateCommit
  split
  · apply Raft.applyCommitted_delivers
    case happlied => rfl
    case hlog => exact hlog
    case hcommit =>
      right
      rcases hlog.last with ⟨e, -, hlast, hlength⟩
      change min req.leaderCommit r.log.last.1 < r.log.entries.length
      rw [hlast]
      omega
  · exact .idle hcaught rfl

theorem Raft.handleAppendEntries_delivers {req : AppendEntriesRequest C}
    (hlog : WellFormed (r.handleAppendEntries req).1.log.entries)
    (hcaught : r.commitIndex ≤ r.lastApplied) :
    Delivers r.lastApplied ((r.handleAppendEntries req).1, (r.handleAppendEntries req).2.2) := by
  rcases r.followLeader_indices req with ⟨hcommit, happlied⟩
  unfold Raft.handleAppendEntries at hlog ⊢
  split
  · exact .idle hcaught rfl
  · rename_i hterm
    rw [if_neg hterm] at hlog
    dsimp only at hlog ⊢
    split
    · rename_i hmatches
      rw [if_pos hmatches] at hlog
      rcases (r.followLeader req).appendNewEntries_indices req with
        ⟨hcommit', happlied'⟩
      have hsame : (((r.followLeader req).appendNewEntries req).updateCommit
          req).1.log = ((r.followLeader req).appendNewEntries req).log := by
        unfold Raft.updateCommit
        split <;> rfl
      rw [hsame] at hlog
      have hupdated : ((r.followLeader req).appendNewEntries req).commitIndex ≤
          ((r.followLeader req).appendNewEntries req).lastApplied := by
        rw [hcommit', hcommit, happlied', happlied]
        exact hcaught
      rw [← happlied, ← happlied']
      exact Raft.updateCommit_delivers hlog hupdated
    · exact .idle (hcommit.trans_le hcaught) happlied

theorem Raft.handleAppendEntriesResponse_delivers {source : ℕ}
    {resp : AppendEntriesResponse} (hlog : WellFormed r.log.entries)
    (hcaught : r.commitIndex ≤ r.lastApplied) :
    Delivers r.lastApplied (r.handleAppendEntriesResponse source resp) := by
  rcases r.becomeFollower_indices resp.term with ⟨hcommit, happlied⟩
  unfold Raft.handleAppendEntriesResponse
  split
  · exact .idle (hcommit.trans_le hcaught) happlied
  split
  · exact .idle hcaught rfl
  split
  · dsimp only
    split
    · exact Raft.advanceCommitIndex_delivers rfl hlog hcaught
    · exact Raft.advanceCommitIndex_delivers rfl hlog hcaught
  · dsimp only
    split
    · exact .silent hcaught rfl (Raft.sendAppendEntriesTo_silent source)
    · exact .silent hcaught rfl (Raft.sendAppendEntriesTo_silent source)

def Cluster.LogsWellFormed (n : ℕ) (c : Cluster C) : Prop :=
  ∀ i ∈ members n, WellFormed (c.nodes i).log.entries

variable {n : ℕ} {next : Cluster C}

theorem Cluster.LogsWellFormed.performed
    (hlogs : (c.perform i result).LogsWellFormed n) (hi : i ∈ members n) :
    WellFormed result.1.log.entries := by
  simpa [Cluster.perform] using hlogs i hi

theorem Cluster.InOrder.receive (hc : c.InOrder) {packet : Packet C}
    (htarget : packet.target ∈ members n) (hlogs : c.LogsWellFormed n)
    (hnext : (c.receive packet).LogsWellFormed n) :
    (c.receive packet).InOrder := by
  cases packet with
  | appendEntries source target req =>
    have hnew : WellFormed ((c.nodes target).handleAppendEntries req).1.log.entries :=
      Cluster.LogsWellFormed.performed hnext htarget
    have hdone := hc.perform (Raft.handleAppendEntries_delivers hnew (hc.caughtUp target))
    exact ⟨hdone.caughtUp, hdone.indices⟩
  | appendEntriesResponse source target resp =>
    exact hc.perform (Raft.handleAppendEntriesResponse_delivers
      (hlogs target htarget) (hc.caughtUp target))
  | requestVote source target req =>
    have hdone := hc.perform (Raft.handleRequestVote_delivers (hc.caughtUp target) req)
    exact ⟨hdone.caughtUp, hdone.indices⟩
  | requestVoteResponse source target resp =>
    exact hc.perform (Raft.handleRequestVoteResponse_delivers (hc.caughtUp target) resp)

theorem Cluster.InOrder.step {a : Action C} (hc : c.InOrder)
    (hlogs : c.LogsWellFormed n) (hnext : next.LogsWellFormed n)
    (hstep : c.step n a = some next) : next.InOrder := by
  cases Cluster.steps_of_step hstep with
  | electionTimeout hi =>
    exact hc.perform (Raft.handleElectionTimeout_delivers (hc.caughtUp _))
  | heartbeatTimeout hi =>
    exact hc.perform (Raft.handleHeartbeatTimeout_delivers (hc.caughtUp _))
  | propose cmd hi =>
    exact hc.perform (Raft.handlePropose_delivers (hnext.performed hi) (hc.caughtUp _))
  | @deliver position packet hget hi =>
    have hremoved : (c.remove position).InOrder := ⟨hc.caughtUp, hc.indices⟩
    exact hremoved.receive hi hlogs hnext
  | lose hposition => exact ⟨hc.caughtUp, hc.indices⟩

theorem reachable_logsWellFormed (hreach : (system C n).Reachable c) : c.LogsWellFormed n := by
  rcases reachable_invariant (fun hfalse : False => hfalse.elim) hreach with ⟨h, hinv⟩
  exact fun i hi => (hinv.follows.node i hi).wellFormed

theorem reachable_inOrder (hreach : (system C n).Reachable c) : c.InOrder := by
  induction hreach with
  | init hinit =>
    rcases hinit with ⟨peers, _, rfl⟩
    exact ⟨fun i => le_rfl, fun i => rfl⟩
  | step hreach _ hstep ih =>
    exact ih.step (reachable_logsWellFormed hreach)
      (reachable_logsWellFormed (.step hreach trivial hstep)) hstep

theorem emitted_indices (hreach : (system C n).Reachable c) (i : ℕ) :
    (c.emitted i).map (fun msg => msg.index) = List.range' 1 (c.emitted i).length := by
  have hindices := (reachable_inOrder hreach).indices i
  have hlength := congrArg List.length hindices
  rw [List.length_map, List.length_range'] at hlength
  rw [hindices, hlength]

theorem emitted_indices_afterCut : ∃ c, (system (List UInt8) 3).Reachable c ∧
      (c.emitted 2).map (fun msg => msg.index) = List.range' 1 (c.emitted 2).length ∧
      (c.emitted 2).length = 2 ∧ (c.nodes 2).log.last.1 = 1 := by
  have hrun : ((system (List UInt8) 3).runFrom threeNodes
      (commitBeforeFirstRequest ++ [.heartbeatTimeout 1, .deliver 4, .deliver 1])).map
      (fun c => ((c.emitted 2).length, (c.nodes 2).log.last.1)) =
      some (2, 1) := by decide
  rcases TransitionSystem.exists_reachableBy threeNodes_init hrun with
    ⟨c, hreach, hfinal⟩
  rcases Prod.mk.inj hfinal with ⟨hlength, hlast⟩
  exact ⟨c, hreach, emitted_indices hreach 2, hlength, hlast⟩

end MCache.Consensus
