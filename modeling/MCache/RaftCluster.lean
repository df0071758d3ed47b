import MCache.RaftNode
import MCache.TransitionSystem

/-!
# A cluster of Raft nodes

The nodes exchange requests and responses through a network that may delay,
reorder and lose them.  Delivering a packet takes it out of the network, so
each request and each response arrives at most once, as with
`MemoryTransport`.  The cluster also keeps the executions of `becomeLeader`
and everything the nodes have put on their apply channels.
-/

namespace MCache.Consensus

variable {C : Type}

inductive Packet (C : Type) where
  | appendEntries (source target : ℕ) (req : AppendEntriesRequest C)
  | appendEntriesResponse (source target : ℕ) (resp : AppendEntriesResponse)
  | requestVote (source target : ℕ) (req : RequestVoteRequest)
  | requestVoteResponse (source target : ℕ) (resp : RequestVoteResponse)
  deriving DecidableEq

structure Cluster (C : Type) where
  nodes : ℕ → Raft C
  network : List (Packet C)
  elections : List (ℕ × ℕ)
  applied : List (ℕ × ApplyMsg C)

inductive Action (C : Type) where
  | electionTimeout (node : ℕ)
  | heartbeatTimeout (node : ℕ)
  | propose (node : ℕ) (cmd : C)
  | deliver (position : ℕ)
  | lose (position : ℕ)

def Effect.packet? (source : ℕ) : Effect C → Option (Packet C)
  | .sendAppendEntries peer req => some (.appendEntries source peer req)
  | .sendRequestVote peer req => some (.requestVote source peer req)
  | .apply _ => none
  | .becameLeader _ => none

def Effect.election? (source : ℕ) : Effect C → Option (ℕ × ℕ)
  | .becameLeader term => some (source, term)
  | _ => none

def Effect.applied? (source : ℕ) : Effect C → Option (ℕ × ApplyMsg C)
  | .apply msg => some (source, msg)
  | _ => none

namespace Cluster

def perform (c : Cluster C) (i : ℕ) (result : Raft C × List (Effect C)) : Cluster C where
  nodes := Function.update c.nodes i result.1
  network := c.network ++ result.2.filterMap (Effect.packet? i)
  elections := c.elections ++ result.2.filterMap (Effect.election? i)
  applied := c.applied ++ result.2.filterMap (Effect.applied? i)

def post (c : Cluster C) (packet : Packet C) : Cluster C :=
  { c with network := c.network ++ [packet] }

def remove (c : Cluster C) (position : ℕ) : Cluster C :=
  { c with network := c.network.eraseIdx position }

def receive (c : Cluster C) : Packet C → Cluster C
  | .appendEntries source target req =>
    let result := (c.nodes target).handleAppendEntries req
    (c.perform target (result.1, result.2.2)).post (.appendEntriesResponse target source result.2.1)
  | .appendEntriesResponse source target resp =>
    c.perform target ((c.nodes target).handleAppendEntriesResponse source resp)
  | .requestVote source target req =>
    let result := (c.nodes target).handleRequestVote req
    (c.perform target (result.1, [])).post (.requestVoteResponse target source result.2)
  | .requestVoteResponse _ target resp =>
    c.perform target ((c.nodes target).handleRequestVoteResponse resp)

end Cluster

def Packet.target : Packet C → ℕ
  | .appendEntries _ target _ => target
  | .appendEntriesResponse _ target _ => target
  | .requestVote _ target _ => target
  | .requestVoteResponse _ target _ => target

def members (n : ℕ) : Finset ℕ := Finset.Icc 1 n

theorem Config.mem_others_iff {config : Config} {p : ℕ} :
    p ∈ config.others ↔ p ∈ members config.peers.length ∧ p ≠ config.nodeID := by
  simp only [Config.others, List.mem_filter, List.mem_map, List.mem_range,
    decide_eq_true_eq, members, Finset.mem_Icc]
  refine and_congr_left fun _ => ⟨?_, fun hp => ⟨p - 1, by omega, by omega⟩⟩
  rintro ⟨q, hq, rfl⟩
  omega

namespace Cluster

def initial [Inhabited C] (peers : ℕ → List String) : Cluster C where
  nodes := fun i => newRaft { nodeID := i, peers := peers i }
  network := []
  elections := []
  applied := []

def step (n : ℕ) (c : Cluster C) : Action C → Option (Cluster C)
  | .electionTimeout i =>
    if i ∈ members n then some (c.perform i (c.nodes i).handleElectionTimeout)
    else none
  | .heartbeatTimeout i =>
    if i ∈ members n then some (c.perform i (c.nodes i).handleHeartbeatTimeout)
    else none
  | .propose i cmd =>
    if i ∈ members n then some (c.perform i ((c.nodes i).handlePropose cmd))
    else none
  | .deliver position =>
    match c.network[position]? with
    | some packet =>
      if packet.target ∈ members n then
        some ((c.remove position).receive packet)
      else none
    | none => none
  | .lose position =>
    if position < c.network.length then some (c.remove position) else none

end Cluster

inductive Cluster.Steps (n : ℕ) (c : Cluster C) : Action C → Cluster C → Prop
  | electionTimeout {i : ℕ} (hi : i ∈ members n) :
      Steps n c (.electionTimeout i) (c.perform i (c.nodes i).handleElectionTimeout)
  | heartbeatTimeout {i : ℕ} (hi : i ∈ members n) :
      Steps n c (.heartbeatTimeout i) (c.perform i (c.nodes i).handleHeartbeatTimeout)
  | propose {i : ℕ} (cmd : C) (hi : i ∈ members n) :
      Steps n c (.propose i cmd) (c.perform i ((c.nodes i).handlePropose cmd))
  | deliver {position : ℕ} {packet : Packet C}
      (hget : c.network[position]? = some packet) (hi : packet.target ∈ members n) :
      Steps n c (.deliver position) ((c.remove position).receive packet)
  | lose {position : ℕ} (hposition : position < c.network.length) :
      Steps n c (.lose position) (c.remove position)

theorem Cluster.steps_of_step {c next : Cluster C} {n : ℕ} {a : Action C}
    (hstep : c.step n a = some next) : c.Steps n a next := by
  cases a with
  | deliver position =>
    simp only [step] at hstep
    split at hstep
    · rename_i packet hget
      simp only [Option.ite_none_right_eq_some, Option.some.injEq] at hstep
      obtain ⟨hi, rfl⟩ := hstep
      exact .deliver hget hi
    · cases hstep
  | _ =>
    simp only [step, Option.ite_none_right_eq_some, Option.some.injEq] at hstep
    obtain ⟨hi, rfl⟩ := hstep
    constructor
    exact hi

inductive Cluster.NodeStep (c : Cluster C) : Action C → ℕ → Raft C → Prop
  | electionTimeout (i : ℕ) : NodeStep c (.electionTimeout i) i (c.nodes i).handleElectionTimeout.1
  | heartbeatTimeout (i : ℕ) :
      NodeStep c (.heartbeatTimeout i) i (c.nodes i).handleHeartbeatTimeout.1
  | propose (i : ℕ) (cmd : C) : NodeStep c (.propose i cmd) i ((c.nodes i).handlePropose cmd).1
  | appendEntries {position source target : ℕ} {req : AppendEntriesRequest C}
      (hget : c.network[position]? = some (.appendEntries source target req)) :
      NodeStep c (.deliver position) target ((c.nodes target).handleAppendEntries req).1
  | appendEntriesResponse {position source target : ℕ} {resp : AppendEntriesResponse}
      (hget : c.network[position]? = some (.appendEntriesResponse source target resp)) :
      NodeStep c (.deliver position) target
        ((c.nodes target).handleAppendEntriesResponse source resp).1
  | requestVote {position source target : ℕ} {req : RequestVoteRequest}
      (hget : c.network[position]? = some (.requestVote source target req)) :
      NodeStep c (.deliver position) target ((c.nodes target).handleRequestVote req).1
  | requestVoteResponse {position source target : ℕ} {resp : RequestVoteResponse}
      (hget : c.network[position]? = some (.requestVoteResponse source target resp)) :
      NodeStep c (.deliver position) target ((c.nodes target).handleRequestVoteResponse resp).1

theorem Cluster.NodeStep.update {c : Cluster C} {n i : ℕ} {a : Action C} {r : Raft C}
    (hnode : c.NodeStep a i r) (hi : i ∈ members n) (j : ℕ) :
    Function.update c.nodes i r j = c.nodes j ∨
      j ∈ members n ∧ c.NodeStep a j (Function.update c.nodes i r j) := by
  by_cases hj : j = i
  · subst hj
    rw [Function.update_self]
    exact .inr ⟨hi, hnode⟩
  · rw [Function.update_of_ne hj]
    exact .inl rfl

theorem Cluster.nodeStep_of_step {c next : Cluster C} {n : ℕ} {a : Action C}
    (hstep : c.step n a = some next) (j : ℕ) :
    next.nodes j = c.nodes j ∨ j ∈ members n ∧ c.NodeStep a j (next.nodes j) := by
  cases Cluster.steps_of_step hstep with
  | electionTimeout hi => exact (NodeStep.electionTimeout _).update hi j
  | heartbeatTimeout hi => exact (NodeStep.heartbeatTimeout _).update hi j
  | propose cmd hi => exact (NodeStep.propose _ cmd).update hi j
  | @deliver _ packet hget hi =>
    cases packet with
    | appendEntries source target req =>
      exact (NodeStep.appendEntries hget).update hi j
    | appendEntriesResponse source target resp =>
      exact (NodeStep.appendEntriesResponse hget).update hi j
    | requestVote source target req => exact (NodeStep.requestVote hget).update hi j
    | requestVoteResponse source target resp =>
      exact (NodeStep.requestVoteResponse hget).update hi j
  | lose _ => exact .inl rfl

def system (C : Type) [Inhabited C] (n : ℕ) : TransitionSystem (Cluster C) (Action C) where
  init := fun c => ∃ peers : ℕ → List String,
    (∀ i, (peers i).length = n) ∧ c = Cluster.initial peers
  step := Cluster.step n

end MCache.Consensus
