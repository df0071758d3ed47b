import MCache.RaftDeployment
import MCache.GoValues

/-!
# Servers with Raft over TCP

What `InitRaft` sets up: on every server a `TCPTransport` and a `raft.Node` that
uses it.  Inbound requests go from `handleConn` over `dispatch` to the channel of
the transport; the event loop of the node reads from a channel of its own, which
only the goroutines behind `SendRequestVote` and `SendAppendEntries` write to.

The network delivers every envelope that is written, in order.  An envelope is
taken with the message that its payload is the JSON text of.
-/

namespace MCache.Net.Wired

open Consensus

/-! ## Envelopes and connections -/

inductive Envelope where
  | appendEntries (req : AppendEntriesRequest Bytes)
  | appendEntriesResponse (resp : AppendEntriesResponse)
  | requestVote (req : RequestVoteRequest)
  | requestVoteResponse (resp : RequestVoteResponse)
  deriving DecidableEq

namespace Envelope

def term : Envelope → ℕ
  | .appendEntries req => req.term
  | .appendEntriesResponse resp => resp.term
  | .requestVote req => req.term
  | .requestVoteResponse resp => resp.term

def toAppendEntriesResponse (e : Envelope) : AppendEntriesResponse :=
  match e with
  | .appendEntriesResponse resp => resp
  | _ => ⟨e.term, false, 0⟩

def toRequestVoteResponse (e : Envelope) : RequestVoteResponse :=
  match e with
  | .requestVoteResponse resp => resp
  | _ => ⟨e.term, false⟩

end Envelope

inductive Side where
  | dialer
  | acceptor
  deriving DecidableEq

structure End where
  conn : ℕ
  side : Side
  deriving DecidableEq

structure Connection where
  dialer : ℕ
  acceptor : ℕ
  persistent : Bool
  closed : Bool
  handled : Side → Bool
  toDialer : List Envelope
  toAcceptor : List Envelope

namespace Connection

def dialed (dialer acceptor : ℕ) (persistent : Bool) : Connection where
  dialer := dialer
  acceptor := acceptor
  persistent := persistent
  closed := false
  handled
    | .dialer => persistent
    | .acceptor => true
  toDialer := []
  toAcceptor := []

def write (c : Connection) (side : Side) (e : Envelope) : Connection :=
  if c.closed then c
  else
    match side with
    | .dialer => { c with toAcceptor := c.toAcceptor ++ [e] }
    | .acceptor => { c with toDialer := c.toDialer ++ [e] }

def read (c : Connection) (side : Side) : Option (Envelope × Connection) :=
  if c.closed then none
  else
    match side with
    | .dialer =>
      match c.toDialer with
      | e :: rest => some (e, { c with toDialer := rest })
      | [] => none
    | .acceptor =>
      match c.toAcceptor with
      | e :: rest => some (e, { c with toAcceptor := rest })
      | [] => none

def node (c : Connection) : Side → ℕ
  | .dialer => c.dialer
  | .acceptor => c.acceptor

end Connection

/-! ## Servers -/

inductive RPC where
  | appendEntries (req : AppendEntriesRequest Bytes) (respond : Option End)
  | appendEntriesResponse (source : ℕ) (resp : AppendEntriesResponse)
  | requestVote (req : RequestVoteRequest) (respond : Option End)
  | requestVoteResponse (resp : RequestVoteResponse)
  deriving DecidableEq

inductive CallStage where
  | start
  | connected (conn : ℕ)
  | reading (conn : ℕ)
  | done (rpc : RPC)
  deriving DecidableEq

structure Call where
  peer : ℕ
  request : Envelope
  stage : CallStage
  deriving DecidableEq

structure Server where
  raft : Raft Bytes
  rpcCh : List RPC
  proposeCh : List Bytes
  transportCh : List RPC
  conns : ℕ → Option ℕ
  calls : List Call

def rpcChSize : ℕ := 128
def proposeChSize : ℕ := 64
def transportChSize : ℕ := 256

def callOf : Effect Bytes → Option Call
  | .sendAppendEntries peer req => some ⟨peer, .appendEntries req, .start⟩
  | .sendRequestVote peer req => some ⟨peer, .requestVote req, .start⟩
  | .apply _ => none
  | .becameLeader _ => none

def handleRPC (r : Raft Bytes) : RPC → Raft Bytes × List (Effect Bytes) × Option (End × Envelope)
  | .appendEntries req respond =>
    let result := r.handleAppendEntries req
    (result.1, result.2.2, respond.map fun e => (e, .appendEntriesResponse result.2.1))
  | .appendEntriesResponse source resp =>
    let result := r.handleAppendEntriesResponse source resp
    (result.1, result.2, none)
  | .requestVote req respond =>
    let result := r.handleRequestVote req
    (result.1, [], respond.map fun e => (e, .requestVoteResponse result.2))
  | .requestVoteResponse resp =>
    let result := r.handleRequestVoteResponse resp
    (result.1, result.2, none)

namespace Server

def perform (srv : Server) (result : Raft Bytes × List (Effect Bytes)) : Server :=
  { srv with raft := result.1, calls := srv.calls ++ result.2.filterMap callOf }

def dispatch (srv : Server) (source : End) (e : Envelope) : Option Server :=
  let rpc : RPC :=
    match e with
    | .appendEntries req => .appendEntries req (some source)
    | .appendEntriesResponse resp => .appendEntriesResponse 0 resp
    | .requestVote req => .requestVote req (some source)
    | .requestVoteResponse resp => .requestVoteResponse resp
  if srv.transportCh.length < transportChSize then
    some { srv with transportCh := srv.transportCh ++ [rpc] }
  else none

end Server

/-! ## Setups -/

structure Setup (n : ℕ) where
  bindAddr : ℕ → String
  peers : ℕ → AList fun _ : ℕ => String
  walk : ℕ → List String → List String
  walk_perm : ∀ i addrs, (walk i addrs).Perm addrs
  lookup_peers : ∀ i ∈ members n, ∀ j ∈ members n, j ≠ i → (peers i).lookup j = some (bindAddr j)
  mem_members : ∀ i ∈ members n, ∀ j ∈ peers i, j ∈ members n

inductive Event where
  | electionTimeout
  | heartbeatTimeout
  | handleRPC
  | handlePropose
  | propose (cmd : Bytes)
  | dial (peer : ℕ)
  | connect (call : ℕ)
  | write (call : ℕ)
  | read (call : ℕ)
  | fail (call : ℕ)
  | deliver (call : ℕ)

inductive Action where
  | server (i : ℕ) (e : Event)
  | handle (e : End)
  | timeout (e : End)

structure State where
  servers : ℕ → Server
  connections : List Connection

namespace State

def setServer (s : State) (i : ℕ) (srv : Server) : State :=
  { s with servers := Function.update s.servers i srv }

def setConnection (s : State) (conn : ℕ) (c : Connection) : State :=
  { s with connections := s.connections.set conn c }

def writeResponse (s : State) : Option (End × Envelope) → State
  | some (e, resp) =>
    match s.connections[e.conn]? with
    | some c => s.setConnection e.conn (c.write e.side resp)
    | none => s
  | none => s

def hangUp (s : State) (conn : ℕ) : State :=
  match s.connections[conn]? with
  | some c => if c.persistent then s else s.setConnection conn { c with closed := true }
  | none => s

def dial (s : State) (dialer acceptor : ℕ) (persistent : Bool) : State :=
  { s with connections := s.connections ++ [.dialed dialer acceptor persistent] }

/-! ## The event loop -/

def stepLoop (s : State) (i : ℕ) : Event → Option State
  | .electionTimeout =>
    some (s.setServer i ((s.servers i).perform (s.servers i).raft.handleElectionTimeout))
  | .heartbeatTimeout =>
    some (s.setServer i ((s.servers i).perform (s.servers i).raft.handleHeartbeatTimeout))
  | .handleRPC =>
    match (s.servers i).rpcCh with
    | rpc :: rest =>
      let result := handleRPC (s.servers i).raft rpc
      let srv := { s.servers i with rpcCh := rest }
      some ((s.setServer i (srv.perform (result.1, result.2.1))).writeResponse result.2.2)
    | [] => none
  | .handlePropose =>
    match (s.servers i).proposeCh with
    | cmd :: rest =>
      let srv := { s.servers i with proposeCh := rest }
      some (s.setServer i (srv.perform (srv.raft.handlePropose cmd)))
    | [] => none
  | .propose cmd =>
    let srv := s.servers i
    if srv.raft.state = .leader ∧ srv.proposeCh.length < proposeChSize then
      some (s.setServer i { srv with proposeCh := srv.proposeCh ++ [cmd] })
    else some s
  | _ => none

/-! ## Connections to peers -/

def setCall (s : State) (i k : ℕ) : Option Call → State
  | some call =>
    s.setServer i { s.servers i with calls := (s.servers i).calls.set k call }
  | none => s.setServer i { s.servers i with calls := (s.servers i).calls.eraseIdx k }

def connect {n : ℕ} (setup : Setup n) (s : State) (i k : ℕ) (call : Call) : State :=
  if call.peer = i then s.setCall i k none
  else
    match (s.servers i).conns call.peer with
    | some conn => s.setCall i k (some { call with stage := .connected conn })
    | none =>
      if (setup.peers i).lookup call.peer = some (setup.bindAddr call.peer) then
        (s.dial i call.peer false).setCall i k
          (some { call with stage := .connected s.connections.length })
      else s.setCall i k none

def stepCall (s : State) (i k : ℕ) (call : Call) : Event → Option State
  | .write _ =>
    match call.stage with
    | .connected conn =>
      (s.connections[conn]?).map fun c =>
        if c.closed then (s.setCall i k none).hangUp conn
        else
          (s.setConnection conn (c.write .dialer call.request)).setCall i k
            (some { call with stage := .reading conn })
    | _ => none
  | .read _ =>
    match call.stage with
    | .reading conn =>
      (s.connections[conn]?).bind fun c =>
        (c.read .dialer).map fun result =>
          let rpc : RPC :=
            match call.request with
            | .requestVote _ => .requestVoteResponse result.1.toRequestVoteResponse
            | _ => .appendEntriesResponse call.peer result.1.toAppendEntriesResponse
          ((s.setConnection conn result.2).setCall i k
            (some { call with stage := .done rpc })).hangUp conn
    | _ => none
  | .fail _ =>
    match call.stage with
    | .start => some (s.setCall i k none)
    | .connected conn => some ((s.setCall i k none).hangUp conn)
    | .reading conn => some ((s.setCall i k none).hangUp conn)
    | .done _ => none
  | .deliver _ =>
    match call.stage with
    | .done rpc =>
      if (s.servers i).rpcCh.length < rpcChSize then
        some ((s.setServer i
          { s.servers i with rpcCh := (s.servers i).rpcCh ++ [rpc] }).setCall i k none)
      else none
    | _ => none
  | _ => none

def connectToPeer {n : ℕ} (setup : Setup n) (s : State) (i peer : ℕ) : Option State :=
  if peer ≠ i ∧ (s.servers i).conns peer = none ∧
      (setup.peers i).lookup peer = some (setup.bindAddr peer) then
    some ((s.dial i peer true).setServer i
      { s.servers i with
        conns := Function.update (s.servers i).conns peer (some s.connections.length) })
  else none

def stepServer {n : ℕ} (setup : Setup n) (s : State) (i : ℕ) (e : Event) : Option State :=
  match e with
  | .dial peer => s.connectToPeer setup i peer
  | .connect k =>
    ((s.servers i).calls[k]?).bind fun call =>
      if call.stage = .start then some (s.connect setup i k call) else none
  | .write k | .read k | .fail k | .deliver k =>
    ((s.servers i).calls[k]?).bind fun call => s.stepCall i k call e
  | _ => s.stepLoop i e

def handleConn (s : State) (e : End) : Option State := (s.connections[e.conn]?).bind fun c =>
    if c.handled e.side then
      (c.read e.side).bind fun result =>
        ((s.servers (c.node e.side)).dispatch e result.1).map fun srv =>
          (s.setConnection e.conn result.2).setServer (c.node e.side) srv
    else none

def endConn (s : State) (e : End) : Option State := (s.connections[e.conn]?).bind fun c =>
    if c.handled e.side then
      let closed := s.setConnection e.conn
        { c with closed := true, handled := Function.update c.handled e.side false }
      some (match e.side with
        | .dialer =>
          closed.setServer c.dialer
            { s.servers c.dialer with
              conns := Function.update (s.servers c.dialer).conns c.acceptor none }
        | .acceptor => closed)
    else none

def step {n : ℕ} (setup : Setup n) (s : State) : Action → Option State
  | .server i e => if i ∈ members n then s.stepServer setup i e else none
  | .handle e => s.handleConn e
  | .timeout e => s.endConn e

def initial {n : ℕ} (setup : Setup n) : State where
  servers := fun i =>
    { raft := newRaft (initRaft (setup.walk i) i (setup.peers i))
      rpcCh := []
      proposeCh := []
      transportCh := []
      conns := fun _ => none
      calls := [] }
  connections := []

end State

def wired {n : ℕ} (setup : Setup n) : TransitionSystem State Action where
  init := fun s => s = .initial setup
  step := State.step setup

/-! ## No responses -/

structure Server.Unheard (srv : Server) : Prop where
  state : srv.raft.state ≠ .leader
  rpcCh : srv.rpcCh = []
  proposeCh : srv.proposeCh = []
  calls : ∀ call ∈ srv.calls, ∀ rpc, call.stage ≠ .done rpc

theorem Server.Unheard.perform {srv : Server} (h : srv.Unheard)
    {result : Raft Bytes × List (Effect Bytes)} (hresult : result.1.state ≠ .leader) :
    (srv.perform result).Unheard := by
  refine ⟨hresult, h.rpcCh, h.proposeCh, fun call hcall => ?_⟩
  rcases List.mem_append.mp hcall with hcall | hcall
  · exact h.calls call hcall
  · obtain ⟨effect, -, heffect⟩ := List.mem_filterMap.mp hcall
    cases effect <;> cases heffect <;> exact nofun

namespace State

variable {conn n : ℕ} {call : Call} {e : Event} {setup : Setup n}

structure Silent (s : State) : Prop where
  servers : ∀ i, (s.servers i).Unheard
  toDialer : ∀ c ∈ s.connections, c.toDialer = []

variable {s next : State} {i k : ℕ}

section

variable (h : s.Silent)
include h

theorem Silent.setServer {srv : Server} (hsrv : srv.Unheard) : (s.setServer i srv).Silent := by
  refine ⟨fun j => ?_, h.toDialer⟩
  by_cases hj : j = i
  · subst hj
    simpa [State.setServer] using hsrv
  · simpa [State.setServer, Function.update_of_ne hj] using h.servers j

theorem Silent.setConnection {c : Connection} (hc : c.toDialer = []) :
    (s.setConnection conn c).Silent := by
  refine ⟨h.servers, fun other hother => ?_⟩
  rcases List.mem_or_eq_of_mem_set hother with hold | rfl
  · exact h.toDialer other hold
  · exact hc

theorem Silent.dial {dialer acceptor : ℕ} {persistent : Bool} :
    (s.dial dialer acceptor persistent).Silent := by
  refine ⟨h.servers, fun c hc => ?_⟩
  rcases List.mem_append.mp hc with hc | hc
  · exact h.toDialer c hc
  · rw [List.mem_singleton.mp hc]
    rfl

theorem Silent.get {c : Connection} (hc : s.connections[conn]? = some c) : c.toDialer = [] :=
  h.toDialer c (List.mem_of_getElem? hc)

theorem Silent.hangUp : (s.hangUp conn).Silent := by
  unfold State.hangUp
  split
  case h_1 c hc =>
    split_ifs
    · exact h
    · have hempty := h.get hc
      exact h.setConnection hempty
  case h_2 => exact h

theorem Silent.endCall : (s.setCall i k none).Silent := by
  have hsrv := h.servers i
  exact h.setServer ⟨hsrv.state, hsrv.rpcCh, hsrv.proposeCh, fun call hcall =>
    hsrv.calls call (List.mem_of_mem_eraseIdx hcall)⟩

theorem Silent.setCall (hstage : ∀ rpc, call.stage ≠ .done rpc) :
    (s.setCall i k (some call)).Silent := by
  have hsrv := h.servers i
  refine h.setServer ⟨hsrv.state, hsrv.rpcCh, hsrv.proposeCh, fun other hother => ?_⟩
  rcases List.mem_or_eq_of_mem_set hother with hold | rfl
  · exact hsrv.calls other hold
  · exact hstage

/-! ## Steps -/

theorem Silent.stepLoop (hnext : s.stepLoop i e = some next) :
    next.Silent := by
  have hsrv := h.servers i
  cases e with
  | electionTimeout =>
    cases hnext
    refine h.setServer (hsrv.perform ?_)
    rw [Raft.handleElectionTimeout, if_neg hsrv.state]
    exact nofun
  | heartbeatTimeout =>
    cases hnext
    refine h.setServer (hsrv.perform ?_)
    rw [Raft.handleHeartbeatTimeout, if_pos hsrv.state]
    exact hsrv.state
  | handleRPC =>
    simp only [State.stepLoop, hsrv.rpcCh] at hnext
    cases hnext
  | handlePropose =>
    simp only [State.stepLoop, hsrv.proposeCh] at hnext
    cases hnext
  | propose cmd =>
    simp only [State.stepLoop, hsrv.state, false_and, if_false] at hnext
    cases hnext
    exact h
  | _ => cases hnext

theorem Silent.connect : (s.connect setup i k call).Silent := by
  unfold State.connect
  by_cases hself : call.peer = i
  · rw [if_pos hself]
    exact h.endCall
  · rw [if_neg hself]
    split
    · exact h.setCall nofun
    · split_ifs
      · exact h.dial.setCall nofun
      · exact h.endCall

theorem Silent.stepCall (hcall : call ∈ (s.servers i).calls)
    (hnext : s.stepCall i k call e = some next) : next.Silent := by
  cases e with
  | write _ =>
    unfold State.stepCall at hnext
    dsimp only at hnext
    split at hnext
    case h_1 conn hstage =>
      obtain ⟨c, hc, hnext⟩ := Option.map_eq_some_iff.mp hnext
      split_ifs at hnext with hclosed
      · exact hnext ▸ h.endCall.hangUp
      · subst hnext
        refine (h.setConnection ?_).setCall nofun
        have hempty := h.get hc
        rw [Connection.write, if_neg hclosed]
        exact hempty
    case h_2 => cases hnext
  | read _ =>
    unfold State.stepCall at hnext
    dsimp only at hnext
    split at hnext
    case h_1 conn hstage =>
      obtain ⟨c, hc, hnext⟩ := Option.bind_eq_some_iff.mp hnext
      obtain ⟨result, hresult, -⟩ := Option.map_eq_some_iff.mp hnext
      simp [Connection.read, h.get hc] at hresult
    case h_2 => cases hnext
  | fail _ =>
    unfold State.stepCall at hnext
    dsimp only at hnext
    split at hnext <;> cases hnext
    · exact h.endCall
    · exact h.endCall.hangUp
    · exact h.endCall.hangUp
  | deliver _ =>
    unfold State.stepCall at hnext
    dsimp only at hnext
    split at hnext
    case h_1 rpc hstage => exact ((h.servers i).calls call hcall rpc hstage).elim
    case h_2 => cases hnext
  | _ => cases hnext

theorem Silent.stepServer (hnext : s.stepServer setup i e = some next) :
    next.Silent := by
  have hcalls : ∀ k e, ((s.servers i).calls[k]?).bind (fun call => s.stepCall i k call e) =
      some next → next.Silent := by
    intro k e hnext
    obtain ⟨call, hcall, hnext⟩ := Option.bind_eq_some_iff.mp hnext
    exact h.stepCall (List.mem_of_getElem? hcall) hnext
  unfold State.stepServer at hnext
  split at hnext
  case h_1 peer =>
    unfold State.connectToPeer at hnext
    split_ifs at hnext
    cases hnext
    have hsrv := h.servers i
    exact h.dial.setServer ⟨hsrv.state, hsrv.rpcCh, hsrv.proposeCh, hsrv.calls⟩
  case h_2 k =>
    obtain ⟨call, -, hnext⟩ := Option.bind_eq_some_iff.mp hnext
    split_ifs at hnext
    cases hnext
    exact h.connect
  case h_7 => exact h.stepLoop hnext
  all_goals exact hcalls _ _ hnext

theorem Silent.handleConn {e : End} (hnext : s.handleConn e = some next) :
    next.Silent := by
  obtain ⟨c, hc, hnext⟩ := Option.bind_eq_some_iff.mp hnext
  split_ifs at hnext
  obtain ⟨result, hresult, hnext⟩ := Option.bind_eq_some_iff.mp hnext
  obtain ⟨srv, hsrv, rfl⟩ := Option.map_eq_some_iff.mp hnext
  have hnone := h.get hc
  have hempty : result.2.toDialer = [] := by
    unfold Connection.read at hresult
    split_ifs at hresult
    split at hresult
    · rw [hnone] at hresult
      cases hresult
    · split at hresult <;> cases hresult
      exact hnone
  refine (h.setConnection hempty).setServer ?_
  have hunheard := h.servers (c.node e.side)
  unfold Server.dispatch at hsrv
  dsimp only at hsrv
  split_ifs at hsrv
  cases hsrv
  exact ⟨hunheard.state, hunheard.rpcCh, hunheard.proposeCh, hunheard.calls⟩

theorem Silent.endConn {e : End} (hnext : s.endConn e = some next) :
    next.Silent := by
  obtain ⟨c, hc, hnext⟩ := Option.bind_eq_some_iff.mp hnext
  split_ifs at hnext
  have hclosed : (s.setConnection e.conn
      { c with closed := true, handled := Function.update c.handled e.side false }).Silent := by
    have hempty := h.get hc
    exact h.setConnection hempty
  dsimp only at hnext
  split at hnext <;> cases hnext
  · have hsrv := h.servers c.dialer
    exact hclosed.setServer ⟨hsrv.state, hsrv.rpcCh, hsrv.proposeCh, hsrv.calls⟩
  · exact hclosed

end

theorem silent_initial (setup : Setup n) : (initial setup).Silent :=
  ⟨fun _ => ⟨nofun, rfl, rfl, nofun⟩, nofun⟩

theorem Silent.step (h : s.Silent) {a : Action} (hnext : s.step setup a = some next) :
    next.Silent := by
  cases a with
  | server i e =>
    simp only [State.step] at hnext
    split_ifs at hnext
    exact h.stepServer hnext
  | handle e => exact h.handleConn hnext
  | timeout e => exact h.endConn hnext

theorem not_leader_of_reachable (h : (wired setup).Reachable s) :
    (s.servers i).raft.state ≠ .leader := by
  have hsilent := h.invariant Silent (fun s hinit => hinit ▸ silent_initial setup)
    fun s a next h _ hstep => h.step hstep
  exact (hsilent.servers i).state

end State

theorem wired_never_elects {n : ℕ} (setup : Setup n) :
    ¬ ∃ s, (wired setup).Reachable s ∧ ∃ i ∈ members n, (s.servers i).raft.state = .leader := by
  rintro ⟨s, hreach, i, -, hleader⟩
  exact State.not_leader_of_reachable hreach hleader

/-! ## The documented servers -/

def documentedSetup : Setup 3 where
  bindAddr := fun i => ((documentedNodes.find? (·.id = i)).map RaftPeerConfig.addr).getD ""
  peers := fun i => (threeNodeDeployment.file i).peerMap
  walk := fun _ addrs => addrs
  walk_perm := fun _ addrs => List.Perm.refl addrs
  lookup_peers := by decide +kernel
  mem_members := by
    intro i hi j hj
    rw [Deployment.mem_peerMap] at hj
    exact ((threeNodeDeployment.others i hi j).mp hj).1

theorem documented_servers_never_elect : ¬ ∃ s, (wired documentedSetup).Reachable s ∧
      ∃ i ∈ members 3, (s.servers i).raft.state = .leader := by
  rintro ⟨s, hreach, i, -, hleader⟩
  exact State.not_leader_of_reachable hreach hleader

end MCache.Net.Wired
