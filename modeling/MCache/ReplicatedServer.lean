import MCache.GoValues
import MCache.RaftCluster

/-!
# Servers that replicate their writes

`raftPropose`, `onRaftApply` and the table of pending calls of
`net/raft_cmd.go`, on top of the Raft cluster.  A call of `raftPropose` is a
small state machine: it takes a request id and encodes its command, puts its
channel into `raftPending`, submits the command, and then waits for a result
or for the timeout.  The steps of all calls, of the event loops and of the
apply goroutines interleave freely.

A log entry carries bytes only.  Next to them a `Proposal` records which call
handed them in; no function of the model reads that record.
-/

namespace MCache.Net

open MCache.Consensus

structure RaftCommand where
  reqID : ℕ
  op : UInt8
  key : Bytes
  value : Option Bytes
  ttl : ℤ
  field : Bytes
  fields : List Bytes
  fvPairs : List Bytes
  deltaI64 : ℤ
  deltaF64 : UInt64
  elems : List Bytes
  index : ℤ
  start : ℤ
  stop : ℤ
  count : ℤ
  pivot : Bytes
  before : Bool
  deriving DecidableEq, Inhabited

structure Codec (D : Type) [Inhabited D] where
  marshal : RaftCommand → Option D
  unmarshal : D → Option RaftCommand
  unmarshal_nil : unmarshal default = none
  reqID_unmarshal : ∀ rc data, marshal rc = some data →
    ∃ decoded, unmarshal data = some decoded ∧ decoded.reqID = rc.reqID

structure Machine (S R D : Type) [Inhabited D] extends Codec D where
  execute : S → RaftCommand → S × R

structure Proposal (D : Type) where
  data : D
  server : ℕ
  call : ℕ
  deriving DecidableEq, Inhabited

inductive ProposeError where
  | notLeader
  | marshal
  | proposeFailed
  | applyTimeout
  deriving DecidableEq, Repr

inductive Phase (R D : Type) where
  | numbered (data : D)
  | registered (data : D)
  | waiting
  | returned (res : R)
  | failed (err : ProposeError)
  deriving DecidableEq

structure Call (R D : Type) where
  reqID : ℕ
  channel : Option R
  phase : Phase R D
  deriving DecidableEq

structure Server (S R D : Type) where
  cache : S
  raftNextReqID : ℕ
  raftPending : ℕ → Option ℕ
  calls : List (Call R D)
  proposeCh : List (Proposal D)
  consumed : ℕ
  outcomes : List (Proposal D × R)

variable {S R D : Type} [Inhabited D]

namespace Server

def initial (cache : S) : Server S R D where
  cache := cache
  raftNextReqID := 0
  raftPending := fun _ => none
  calls := []
  proposeCh := []
  consumed := 0
  outcomes := []

def beginPropose (m : Machine S R D) (s : Server S R D) (state : State)
    (rc : RaftCommand) : Server S R D :=
  if state ≠ .leader then
    { s with calls := s.calls ++ [⟨0, none, .failed .notLeader⟩] }
  else
    let id := s.raftNextReqID + 1
    let phase :=
      match m.marshal { rc with reqID := id } with
      | some data => .numbered data
      | none => .failed .marshal
    { s with raftNextReqID := id, calls := s.calls ++ [⟨id, none, phase⟩] }

def register (s : Server S R D) (k : ℕ) : Option (Server S R D) :=
  match s.calls[k]? with
  | some ⟨id, channel, .numbered data⟩ =>
    some { s with
      raftPending := Function.update s.raftPending id (some k)
      calls := s.calls.set k ⟨id, channel, .registered data⟩ }
  | _ => none

def submit (s : Server S R D) (i : ℕ) (state : State) (k : ℕ) : Option (Server S R D) :=
  match s.calls[k]? with
  | some ⟨id, channel, .registered data⟩ =>
    if state = .leader ∧ s.proposeCh.length < 64 then
      some { s with
        proposeCh := s.proposeCh ++ [⟨data, i, k⟩]
        calls := s.calls.set k ⟨id, channel, .waiting⟩ }
    else
      some { s with
        raftPending := Function.update s.raftPending id none
        calls := s.calls.set k ⟨id, channel, .failed .proposeFailed⟩ }
  | _ => none

def receive (s : Server S R D) (k : ℕ) : Option (Server S R D) :=
  match s.calls[k]? with
  | some ⟨id, some res, .waiting⟩ =>
    some { s with calls := s.calls.set k ⟨id, none, .returned res⟩ }
  | _ => none

def timeout (s : Server S R D) (k : ℕ) : Option (Server S R D) :=
  match s.calls[k]? with
  | some ⟨id, channel, .waiting⟩ =>
    some { s with
      raftPending := Function.update s.raftPending id none
      calls := s.calls.set k ⟨id, channel, .failed .applyTimeout⟩ }
  | _ => none

def notifyRaftPending (s : Server S R D) (reqID : ℕ) (res : R) : Server S R D :=
  if reqID = 0 then s
  else
    match s.raftPending reqID with
    | none => s
    | some k =>
      { s with
        raftPending := Function.update s.raftPending reqID none
        calls := s.calls.modify k fun call => { call with channel := some res } }

def onRaftApply (m : Machine S R D) (s : Server S R D) (entry : Proposal D) : Server S R D :=
  match m.unmarshal entry.data with
  | none => s
  | some rc =>
    let result := m.execute s.cache rc
    let s := { s with
      cache := result.1
      outcomes := s.outcomes ++ [(entry, result.2)] }
    if 0 < rc.reqID then s.notifyRaftPending rc.reqID result.2 else s

end Server

structure Service (S R D : Type) where
  cluster : Cluster (Proposal D)
  servers : ℕ → Server S R D

inductive ServiceAction (S D : Type) where
  | raft (a : Action (Proposal D))
  | accept (server : ℕ)
  | apply (server : ℕ)
  | beginPropose (server : ℕ) (rc : RaftCommand)
  | register (server call : ℕ)
  | submit (server call : ℕ)
  | receive (server call : ℕ)
  | timeout (server call : ℕ)
  | serve (server : ℕ) (cache : S)

namespace Service

def withServer (σ : Service S R D) (i : ℕ) (s : Server S R D) : Service S R D :=
  { σ with servers := Function.update σ.servers i s }

def delivered (σ : Service S R D) (i : ℕ) : List (ApplyMsg (Proposal D)) :=
  σ.cluster.applied.filterMap fun entry =>
    if entry.1 = i then some entry.2 else none

def upcoming (σ : Service S R D) (i : ℕ) : Option (ApplyMsg (Proposal D)) :=
  (σ.delivered i)[(σ.servers i).consumed]?

def step (m : Machine S R D) (n : ℕ) (σ : Service S R D) :
    ServiceAction S D → Option (Service S R D)
  | .raft (.propose _ _) => none
  | .raft a => (σ.cluster.step n a).map fun cluster => { σ with cluster := cluster }
  | .accept i =>
    match (σ.servers i).proposeCh with
    | [] => none
    | cmd :: rest =>
      (σ.cluster.step n (.propose i cmd)).map fun cluster =>
        { cluster := cluster
          servers := Function.update σ.servers i
            { σ.servers i with proposeCh := rest } }
  | .apply i =>
    (σ.upcoming i).map fun msg =>
      σ.withServer i
        { (σ.servers i).onRaftApply m msg.command with
          consumed := (σ.servers i).consumed + 1 }
  | .beginPropose i rc =>
    some (σ.withServer i ((σ.servers i).beginPropose m (σ.cluster.nodes i).state rc))
  | .register i k => ((σ.servers i).register k).map (σ.withServer i)
  | .submit i k =>
    ((σ.servers i).submit i (σ.cluster.nodes i).state k).map (σ.withServer i)
  | .receive i k => ((σ.servers i).receive k).map (σ.withServer i)
  | .timeout i k => ((σ.servers i).timeout k).map (σ.withServer i)
  | .serve i cache => some (σ.withServer i { σ.servers i with cache := cache })

end Service

def service (m : Machine S R D) (n : ℕ) : TransitionSystem (Service S R D) (ServiceAction S D) where
  init := fun σ => (system (Proposal D) n).init σ.cluster ∧
    ∀ i, ∃ cache, σ.servers i = Server.initial cache
  step := Service.step m n

end MCache.Net
