import Mathlib.Data.List.AList
import Mathlib.Tactic

/-!
# The Raft node

The log of `raft/log.go` and the event-loop handlers of `raft/raft.go`.  A
handler takes the node's state to its next state and lists, in order, what it
does to the outside: the requests it hands to the transport, the messages it
puts on `applyCh`, and the executions of `becomeLeader`.  A request handler
also returns the response that its deferred `respond` sends.

Commands are opaque to this code, so the command type is a parameter.  Terms,
indices and counters are natural numbers; timers and locks carry no data.
-/

namespace MCache.Consensus

variable {C : Type}

/-! ## The log -/

structure LogEntry (C : Type) where
  index : ℕ
  term : ℕ
  command : C
  deriving DecidableEq

structure Log (C : Type) where
  entries : List (LogEntry C)
  deriving DecidableEq

def dummyEntry [Inhabited C] : LogEntry C :=
  { index := 0, term := 0, command := default }

def newLog [Inhabited C] : Log C := ⟨[dummyEntry]⟩

def Log.append (l : Log C) (entries : List (LogEntry C)) : Log C := ⟨l.entries ++ entries⟩

def Log.get (l : Log C) (index : ℕ) : Option (LogEntry C) :=
  if index = 0 ∨ l.entries.length ≤ index then none else l.entries[index]?

def Log.last (l : Log C) : ℕ × ℕ :=
  match l.entries.getLast? with
  | none => (0, 0)
  | some entry => (entry.index, entry.term)

def Log.truncate (l : Log C) (start : ℕ) : Log C :=
  if start < l.entries.length then ⟨l.entries.take start⟩ else l

def Log.slice (l : Log C) (start stop : ℕ) : List (LogEntry C) :=
  let first := if start < 1 then 1 else start
  let last := if l.entries.length < stop then l.entries.length else stop
  if last ≤ first then [] else (l.entries.drop first).take (last - first)

/-! ## Messages -/

structure AppendEntriesRequest (C : Type) where
  term : ℕ
  leaderID : ℕ
  prevLogIndex : ℕ
  prevLogTerm : ℕ
  entries : List (LogEntry C)
  leaderCommit : ℕ
  deriving DecidableEq

structure AppendEntriesResponse where
  term : ℕ
  success : Bool
  lastIndex : ℕ
  deriving DecidableEq, Repr

structure RequestVoteRequest where
  term : ℕ
  candidateID : ℕ
  lastLogIndex : ℕ
  lastLogTerm : ℕ
  deriving DecidableEq, Repr

structure RequestVoteResponse where
  term : ℕ
  voteGranted : Bool
  deriving DecidableEq, Repr

structure ApplyMsg (C : Type) where
  index : ℕ
  command : C
  deriving DecidableEq

inductive Effect (C : Type) where
  | sendAppendEntries (peer : ℕ) (req : AppendEntriesRequest C)
  | sendRequestVote (peer : ℕ) (req : RequestVoteRequest)
  | apply (msg : ApplyMsg C)
  | becameLeader (term : ℕ)
  deriving DecidableEq

/-! ## The node -/

inductive State where
  | follower
  | candidate
  | leader
  deriving DecidableEq, Repr

structure Config where
  nodeID : ℕ
  peers : List String
  deriving DecidableEq, Repr

def Config.others (config : Config) : List ℕ :=
  ((List.range config.peers.length).map (· + 1)).filter (· ≠ config.nodeID)

abbrev IndexMap := AList fun _ : ℕ => ℕ

structure Raft (C : Type) where
  config : Config
  currentTerm : ℕ
  votedFor : ℕ
  log : Log C
  commitIndex : ℕ
  lastApplied : ℕ
  state : State
  leaderID : ℕ
  nextIndex : IndexMap
  matchIndex : IndexMap
  votesReceived : ℕ
  votesNeeded : ℕ

def newRaft [Inhabited C] (config : Config) : Raft C where
  config := config
  currentTerm := 0
  votedFor := 0
  log := newLog
  commitIndex := 0
  lastApplied := 0
  state := .follower
  leaderID := 0
  nextIndex := ∅
  matchIndex := ∅
  votesReceived := 0
  votesNeeded := 0

namespace Raft

/-! ### State transitions -/

def becomeFollower (r : Raft C) (term : ℕ) : Raft C :=
  let r := if r.currentTerm < term then
    { r with currentTerm := term, votedFor := 0 } else r
  { r with state := .follower, leaderID := 0 }

def becomeCandidate (r : Raft C) : Raft C :=
  { r with
    state := .candidate
    currentTerm := r.currentTerm + 1
    votedFor := r.config.nodeID
    votesReceived := 1
    votesNeeded := r.config.peers.length / 2 + 1 }

def becomeLeader (r : Raft C) : Raft C × List (Effect C) :=
  let lastIdx := r.log.last.1
  ({ r with
      state := .leader
      leaderID := r.config.nodeID
      nextIndex := r.config.others.foldl (fun next pid => next.insert pid (lastIdx + 1)) ∅
      matchIndex := r.config.others.foldl (fun matched pid => matched.insert pid 0) ∅ },
    [.becameLeader r.currentTerm])

/-! ### Commit and apply -/

def applyFrom (log : Log C) : ℕ → ℕ → List (Effect C)
  | 0, _ => []
  | rounds + 1, lastApplied =>
    (match log.get (lastApplied + 1) with
      | some ent => [.apply ⟨ent.index, ent.command⟩]
      | none => []) ++ applyFrom log rounds (lastApplied + 1)

def applyCommitted (r : Raft C) : Raft C × List (Effect C) :=
  ({ r with lastApplied := max r.lastApplied r.commitIndex },
    applyFrom r.log (r.commitIndex - r.lastApplied) r.lastApplied)

def replicaCount (r : Raft C) (n : ℕ) : ℕ :=
  1 + r.matchIndex.entries.countP fun entry => decide (n ≤ entry.2)

def advanceLoop (r : Raft C) : List (LogEntry C) → ℕ → ℕ → ℕ
  | [], _, commit => commit
  | ent :: rest, n, commit =>
    if ent.term ≠ r.currentTerm then advanceLoop r rest (n + 1) commit
    else if r.config.peers.length / 2 < r.replicaCount n then
      advanceLoop r rest (n + 1) n
    else commit

def advanceCommitIndex (r : Raft C) : Raft C × List (Effect C) :=
  if r.state ≠ .leader then (r, [])
  else
    applyCommitted
      { r with
        commitIndex := advanceLoop r (r.log.entries.drop (r.commitIndex + 1))
          (r.commitIndex + 1) r.commitIndex }

/-! ### Log replication -/

def sendAppendEntriesTo (r : Raft C) (peer : ℕ) : List (Effect C) :=
  match r.nextIndex.lookup peer with
  | none => []
  | some next =>
    let prevIdx := next - 1
    let prevTerm :=
      if 0 < prevIdx then
        match r.log.get prevIdx with
        | some ent => ent.term
        | none => 0
      else 0
    [.sendAppendEntries peer
      { term := r.currentTerm
        leaderID := r.config.nodeID
        prevLogIndex := prevIdx
        prevLogTerm := prevTerm
        entries := r.log.slice next (next + 100)
        leaderCommit := r.commitIndex }]

def broadcastAppendEntries (r : Raft C) : List (Effect C) :=
  r.config.others.flatMap r.sendAppendEntriesTo

def handleHeartbeatTimeout (r : Raft C) : Raft C × List (Effect C) :=
  if r.state ≠ .leader then (r, []) else (r, r.broadcastAppendEntries)

def handlePropose (r : Raft C) (cmd : C) : Raft C × List (Effect C) :=
  if r.state ≠ .leader then (r, [])
  else
    let entry : LogEntry C :=
      { index := r.log.last.1 + 1, term := r.currentTerm, command := cmd }
    let r := { r with log := r.log.append [entry] }
    let committed := r.advanceCommitIndex
    (committed.1, r.broadcastAppendEntries ++ committed.2)

/-! ### Elections -/

def broadcastRequestVote (r : Raft C) : List (Effect C) := r.config.others.map fun pid =>
    .sendRequestVote pid
      { term := r.currentTerm
        candidateID := r.config.nodeID
        lastLogIndex := r.log.last.1
        lastLogTerm := r.log.last.2 }

def handleElectionTimeout (r : Raft C) : Raft C × List (Effect C) :=
  if r.state = .leader then (r, [])
  else (r.becomeCandidate, r.becomeCandidate.broadcastRequestVote)

/-! ### Requests and responses -/

def appendReply (r : Raft C) (req : AppendEntriesRequest C) (success : Bool) :
    AppendEntriesResponse :=
  { term := r.currentTerm
    success := success
    lastIndex := if success then req.prevLogIndex + req.entries.length else 0 }

def followLeader (r : Raft C) (req : AppendEntriesRequest C) : Raft C :=
  let r := if r.currentTerm < req.term then r.becomeFollower req.term else r
  { r with leaderID := req.leaderID, state := .follower }

def logMatches (r : Raft C) (req : AppendEntriesRequest C) : Bool :=
  if 0 < req.prevLogIndex then
    match r.log.get req.prevLogIndex with
    | some entry => decide (entry.term = req.prevLogTerm)
    | none => false
  else true

def appendNewEntries (r : Raft C) (req : AppendEntriesRequest C) : Raft C :=
  if req.entries.length = 0 then r
  else { r with log := (r.log.truncate (req.prevLogIndex + 1)).append req.entries }

def updateCommit (r : Raft C) (req : AppendEntriesRequest C) : Raft C × List (Effect C) :=
  if r.commitIndex < req.leaderCommit then
    applyCommitted { r with commitIndex := min req.leaderCommit r.log.last.1 }
  else (r, [])

def handleAppendEntries (r : Raft C) (req : AppendEntriesRequest C) :
    Raft C × AppendEntriesResponse × List (Effect C) :=
  if req.term < r.currentTerm then (r, r.appendReply req false, [])
  else
    let r := r.followLeader req
    if r.logMatches req then
      let committed := (r.appendNewEntries req).updateCommit req
      (committed.1, committed.1.appendReply req true, committed.2)
    else (r, r.appendReply req false, [])

def handleAppendEntriesResponse (r : Raft C) (source : ℕ)
    (resp : AppendEntriesResponse) : Raft C × List (Effect C) :=
  if r.currentTerm < resp.term then (r.becomeFollower resp.term, [])
  else if resp.term < r.currentTerm ∨ r.state ≠ .leader then (r, [])
  else if resp.success then
    let r :=
      if (r.matchIndex.lookup source).getD 0 < resp.lastIndex then
        { r with
          matchIndex := r.matchIndex.insert source resp.lastIndex
          nextIndex := r.nextIndex.insert source (resp.lastIndex + 1) }
      else r
    r.advanceCommitIndex
  else
    let next := (r.nextIndex.lookup source).getD 0
    let r :=
      if 1 < next then
        { r with nextIndex := r.nextIndex.insert source (next - 1) }
      else r
    (r, r.sendAppendEntriesTo source)

def logOK (r : Raft C) (req : RequestVoteRequest) : Bool :=
  decide (r.log.last.2 < req.lastLogTerm ∨
    req.lastLogTerm = r.log.last.2 ∧ r.log.last.1 ≤ req.lastLogIndex)

def handleRequestVote (r : Raft C) (req : RequestVoteRequest) : Raft C × RequestVoteResponse :=
  if req.term < r.currentTerm then
    (r, { term := r.currentTerm, voteGranted := false })
  else
    let r := if r.currentTerm < req.term then r.becomeFollower req.term else r
    if (r.votedFor = 0 ∨ r.votedFor = req.candidateID) ∧ r.logOK req then
      ({ r with votedFor := req.candidateID },
        { term := r.currentTerm, voteGranted := true })
    else (r, { term := r.currentTerm, voteGranted := false })

def handleRequestVoteResponse (r : Raft C) (resp : RequestVoteResponse) :
    Raft C × List (Effect C) :=
  if r.currentTerm < resp.term then (r.becomeFollower resp.term, [])
  else if resp.term < r.currentTerm ∨ r.state ≠ .candidate then (r, [])
  else if resp.voteGranted then
    let r := { r with votesReceived := r.votesReceived + 1 }
    if r.votesNeeded ≤ r.votesReceived then r.becomeLeader else (r, [])
  else (r, [])

end Raft

end MCache.Consensus
