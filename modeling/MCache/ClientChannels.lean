import MCache.Frames

/-!
# Response channels of the client

`do`, `doSet`, `doHash`, `doList` and the pipelines of `net/client.go` and
`net/pipeline.go` on one connection, with its `readLoop` and `closeAllPending`.
A call takes a channel from a pool, registers it under its stream id, and gives
it back at the end.  Each access to a pending map, to a channel and to a pool is
one step.

`readLoop` looks a channel up and sends the response in two steps.  In between
the call may time out and give the channel back.
-/

namespace MCache.Net.ClientConn

inductive Message where
  | decoded (frame : Frame) (resp : ClientResponse)
  | made

structure Shared where
  nextStreamID : ℕ
  closed : Bool
  fresh : ℕ
  pool : List (Family × ℕ)
  pending : Family → ℕ → Option ℕ
  buffer : ℕ → Option Message

inductive Closer where
  | ranging
  | sending (family : Family) (id ch : ℕ)
  | deleting (family : Family) (id : ℕ)

inductive Loop where
  | reading
  | loading (frame : Frame) (resp : ClientResponse)
  | sending (ch : ℕ) (frame : Frame) (resp : ClientResponse)
  | closing (closer : Closer)
  | panicked
  | crashed

abbrev Ticket := ℕ × ℕ

inductive Stage where
  | get (id : ℕ)
  | store (id ch : ℕ)
  | write
  | wait
  | ready
  | read (rest : List Ticket)
  | delete (rest : List Ticket)
  | drain (rest : List Ticket)
  | put (rest : List Ticket)

structure Task where
  family : Family
  pipeline : Bool
  tickets : List Ticket
  stage : Stage
  written : Bool
  held : Bool
  resets : Bool

inductive Thread where
  | task (t : Task)
  | closing (closer : Closer)

inductive WriteResult where
  | ok
  | failed
  | unencodable
  deriving DecidableEq

inductive Event where
  | call (family : Family)
  | newPipeline
  | close
  | add
  | flushWrite (result : WriteResult)
  | readResponses
  | reset
  | abandon
  | get (index : Option ℕ)
  | store
  | write (result : WriteResult)
  | receive
  | timeout
  | delete
  | drain
  | put
  | range (family : Family) (id : ℕ)
  | send
  | remove

inductive LoopEvent where
  | frame (frame : Frame) (stale : Bytes)
  | fail
  | load
  | send
  | range (family : Family) (id : ℕ)
  | remove

def Shared.withPending (sh : Shared) (family : Family) (id : ℕ) (ch : Option ℕ) :
    Shared :=
  { sh with
    pending := Function.update sh.pending family (Function.update (sh.pending family) id ch) }

def Shared.withBuffer (sh : Shared) (ch : ℕ) (m : Option Message) : Shared :=
  { sh with buffer := Function.update sh.buffer ch m }

def Shared.trySend (sh : Shared) (ch : ℕ) (m : Message) : Shared :=
  match sh.buffer ch with
  | none => sh.withBuffer ch (some m)
  | some _ => sh

def Shared.newID (sh : Shared) : Option (Shared × ℕ) :=
  if sh.nextStreamID + 1 < 2 ^ 32 then
    some ({ sh with nextStreamID := sh.nextStreamID + 1 }, sh.nextStreamID + 1)
  else none

def Shared.getChannel (sh : Shared) (family : Family) : Option ℕ → Option (Shared × ℕ)
  | none => some ({ sh with fresh := sh.fresh + 1 }, sh.fresh)
  | some i =>
    match sh.pool[i]? with
    | some (other, ch) =>
      if other = family then some ({ sh with pool := sh.pool.eraseIdx i }, ch)
      else none
    | none => none

def Closer.step (sh : Shared) : Closer → Event → Option (Shared × Closer)
  | .ranging, .range family id =>
    (sh.pending family id).map fun ch => (sh, .sending family id ch)
  | .sending family id ch, .send => some (sh.trySend ch .made, .deleting family id)
  | .deleting family id, .remove => some (sh.withPending family id none, .ranging)
  | _, _ => none

namespace Task

def ofCall (family : Family) (id : ℕ) : Task where
  family := family
  pipeline := false
  tickets := []
  stage := .get id
  written := false
  held := true
  resets := false

def ofPipeline : Task where
  family := .string
  pipeline := true
  tickets := []
  stage := .ready
  written := false
  held := true
  resets := false

def cleared (t : Task) : Task :=
  { t with stage := .ready, tickets := [], written := false, held := true, resets := false }

def finish (t : Task) : Option Task :=
  if !t.pipeline then none
  else if t.resets then some t.cleared
  else some { t with stage := .ready, held := false }

def cleanup (t : Task) : Option Task :=
  if t.tickets = [] then t.finish else some { t with stage := .delete t.tickets }

def operate (sh : Shared) (t : Task) : Event → Option (Shared × Option Task)
  | .add =>
    if t.written ∨ sh.closed then some (sh, some t)
    else sh.newID.map fun result => (result.1, some { t with stage := .get result.2 })
  | .flushWrite result =>
    if t.written then some (sh, some t)
    else
      let t := { t with written := true }
      if sh.closed then some (sh, t.cleanup)
      else if t.tickets = [] then some (sh, some t)
      else
        match result with
        | .ok => some (sh, some t)
        | .failed => some ({ sh with closed := true }, t.cleanup)
        | .unencodable => none
  | .readResponses =>
    if !t.written then some (sh, some t)
    else if t.tickets = [] then some (sh, t.cleanup)
    else some (sh, some { t with stage := .read t.tickets })
  | .reset =>
    if !t.written then some (sh, { t with resets := true }.cleanup)
    else some (sh, some t.cleared)
  | .abandon => some (sh, none)
  | _ => none

def step (sh : Shared) (t : Task) (e : Event) :
    Option (Shared × Option Task × Option (ℕ × Message)) :=
  match t.stage, e with
  | .get id, .get index =>
    (sh.getChannel t.family index).map fun result =>
      (result.1, some { t with stage := .store id result.2 }, none)
  | .store id ch, .store =>
    some (sh.withPending t.family id (some ch),
      some { t with
        tickets := t.tickets ++ [(id, ch)]
        stage := if t.pipeline then .ready else .write }, none)
  | .write, .write .ok => some (sh, some { t with stage := .wait }, none)
  | .write, .write .failed => some ({ sh with closed := true }, t.cleanup, none)
  | .write, .write .unencodable =>
    if t.family = .string then none else some (sh, t.cleanup, none)
  | .wait, .receive =>
    t.tickets.head?.bind fun x =>
      (sh.buffer x.2).map fun m =>
        (sh.withBuffer x.2 none, t.cleanup, some (x.1, m))
  | .wait, .timeout => some (sh, t.cleanup, none)
  | .read (x :: rest), .receive =>
    (sh.buffer x.2).map fun m =>
      (sh.withBuffer x.2 none,
        if rest = [] then t.cleanup else some { t with stage := .read rest },
        some (x.1, m))
  | .read _, .timeout => some (sh, t.cleanup, none)
  | .delete (x :: rest), .delete =>
    some (sh.withPending t.family x.1 none, some { t with stage := .drain (x :: rest) }, none)
  | .drain (x :: rest), .drain =>
    some (sh.withBuffer x.2 none, some { t with stage := .put (x :: rest) }, none)
  | .put (x :: rest), .put =>
    some ({ sh with pool := sh.pool ++ [(t.family, x.2)] },
      if rest = [] then t.finish else some { t with stage := .delete rest }, none)
  | .ready, e => (t.operate sh e).map fun result => (result.1, result.2, none)
  | _, _ => none

end Task

structure State (n : ℕ) where
  shared : Shared
  loop : Loop
  threads : Fin n → Option Thread
  received : List (ℕ × Message)

inductive Action (n : ℕ) where
  | thread (p : Fin n) (e : Event)
  | loop (e : LoopEvent)

namespace State

variable {n : ℕ}

def initial : State n where
  shared := ⟨0, false, 0, [], fun _ _ => none, fun _ => none⟩
  loop := .reading
  threads := fun _ => none
  received := []

def withThread (s : State n) (p : Fin n) (sh : Shared) (t : Option Thread) : State n :=
  { s with shared := sh, threads := Function.update s.threads p t }

def begin (s : State n) (p : Fin n) : Event → Option (State n)
  | .call family =>
    if s.shared.closed then some s
    else s.shared.newID.map fun result =>
      s.withThread p result.1 (some (.task (.ofCall family result.2)))
  | .newPipeline => some (s.withThread p s.shared (some (.task .ofPipeline)))
  | .close =>
    some (s.withThread p { s.shared with closed := true } (some (.closing .ranging)))
  | _ => none

def stepThread (s : State n) (p : Fin n) (e : Event) : Option (State n) :=
  match s.threads p with
  | none => s.begin p e
  | some (.closing closer) =>
    (closer.step s.shared e).map fun result =>
      s.withThread p result.1 (some (.closing result.2))
  | some (.task t) =>
    (t.step s.shared e).map fun result =>
      { s.withThread p result.1 (result.2.1.map .task) with
        received := s.received ++ result.2.2.toList }

def stepLoop (s : State n) : LoopEvent → Option (State n)
  | .frame f stale =>
    match s.loop with
    | .reading =>
      if f.type ≠ frameTypeResponse then some s
      else
        match readResponse (.of f.payload stale) with
        | .ok (some resp) => some { s with loop := .loading f resp }
        | .ok none => some s
        | .error _ => some { s with loop := .panicked }
    | _ => none
  | .fail =>
    match s.loop with
    | .reading => some { s with loop := .closing .ranging }
    | _ => none
  | .load =>
    match s.loop with
    | .loading f resp =>
      match s.shared.pending resp.family f.streamID.toNat with
      | some ch => some { s with loop := .sending ch f resp }
      | none => some { s with loop := .reading }
    | _ => none
  | .send =>
    match s.loop with
    | .sending ch f resp =>
      some { s with
        shared := s.shared.trySend ch (.decoded f resp)
        loop := .reading }
    | .closing closer =>
      (closer.step s.shared .send).map fun result =>
        { s with shared := result.1, loop := .closing result.2 }
    | _ => none
  | .range family id =>
    match s.loop with
    | .closing closer =>
      (closer.step s.shared (.range family id)).map fun result =>
        { s with shared := result.1, loop := .closing result.2 }
    | .panicked => (s.shared.pending family id).map fun _ => { s with loop := .crashed }
    | _ => none
  | .remove =>
    match s.loop with
    | .closing closer =>
      (closer.step s.shared .remove).map fun result =>
        { s with shared := result.1, loop := .closing result.2 }
    | _ => none

def step (s : State n) : Action n → Option (State n)
  | .thread p e =>
    match s.loop with
    | .crashed => none
    | _ => s.stepThread p e
  | .loop e => s.stepLoop e

end State

def LoopEvent.closes : LoopEvent → Option Event
  | .send => some .send
  | .range family id => some (.range family id)
  | .remove => some .remove
  | _ => none

namespace State

variable {n : ℕ} {s next : State n}

inductive LoopStep (s : State n) : LoopEvent → State n → Prop
  | skip {f : Frame} {stale : Bytes} (hloop : s.loop = .reading) : LoopStep s (.frame f stale) s
  | decode {f : Frame} {stale : Bytes} {resp : ClientResponse} (hloop : s.loop = .reading) :
      LoopStep s (.frame f stale) { s with loop := .loading f resp }
  | panic {f : Frame} {stale : Bytes} {fault : Fault} (hloop : s.loop = .reading)
      (htype : f.type = frameTypeResponse)
      (hfault : readResponse (.of f.payload stale) = .error fault) :
      LoopStep s (.frame f stale) { s with loop := .panicked }
  | fail (hloop : s.loop = .reading) : LoopStep s .fail { s with loop := .closing .ranging }
  | found {f : Frame} {resp : ClientResponse} {ch : ℕ} (hloop : s.loop = .loading f resp)
      (hch : s.shared.pending resp.family f.streamID.toNat = some ch) :
      LoopStep s .load { s with loop := .sending ch f resp }
  | missing {f : Frame} {resp : ClientResponse} (hloop : s.loop = .loading f resp) :
      LoopStep s .load { s with loop := .reading }
  | deliver {f : Frame} {resp : ClientResponse} {ch : ℕ} (hloop : s.loop = .sending ch f resp) :
      LoopStep s .send
        { s with shared := s.shared.trySend ch (.decoded f resp), loop := .reading }
  | close {e : LoopEvent} {event : Event} {closer : Closer} {result : Shared × Closer}
      (hloop : s.loop = .closing closer) (hevent : e.closes = some event)
      (hresult : closer.step s.shared event = some result) :
      LoopStep s e { s with shared := result.1, loop := .closing result.2 }
  | crash {family : Family} {id ch : ℕ} (hloop : s.loop = .panicked)
      (hch : s.shared.pending family id = some ch) :
      LoopStep s (.range family id) { s with loop := .crashed }

theorem loopStep_of_stepLoop {e : LoopEvent} (h : s.stepLoop e = some next) :
    s.LoopStep e next := by
  unfold stepLoop at h
  cases e with
  | frame f stale =>
    dsimp only at h
    split at h
    case h_1 hloop =>
      split_ifs at h with htype
      · cases h
        exact .skip hloop
      · split at h
        case h_1 =>
          cases h
          exact .decode hloop
        case h_2 =>
          cases h
          exact .skip hloop
        case h_3 hfault =>
          cases h
          exact .panic hloop (not_not.mp htype) hfault
    case h_2 => cases h
  | fail =>
    dsimp only at h
    split at h
    case h_1 hloop =>
      cases h
      exact .fail hloop
    case h_2 => cases h
  | load =>
    dsimp only at h
    split at h
    case h_1 f resp hloop =>
      split at h
      case h_1 ch hch =>
        cases h
        exact .found hloop hch
      case h_2 =>
        cases h
        exact .missing hloop
    case h_2 => cases h
  | send =>
    dsimp only at h
    split at h
    case h_1 ch f resp hloop =>
      cases h
      exact .deliver hloop
    case h_2 closer hloop =>
      obtain ⟨result, hresult, rfl⟩ := Option.map_eq_some_iff.mp h
      exact .close hloop rfl hresult
    case h_3 => cases h
  | range family id =>
    dsimp only at h
    split at h
    case h_1 closer hloop =>
      obtain ⟨result, hresult, rfl⟩ := Option.map_eq_some_iff.mp h
      exact .close hloop rfl hresult
    case h_2 hloop =>
      obtain ⟨ch, hch, rfl⟩ := Option.map_eq_some_iff.mp h
      exact .crash hloop hch
    case h_3 => cases h
  | remove =>
    dsimp only at h
    split at h
    case h_1 closer hloop =>
      obtain ⟨result, hresult, rfl⟩ := Option.map_eq_some_iff.mp h
      exact .close hloop rfl hresult
    case h_2 => cases h

theorem stepThread_of_step {p : Fin n} {e : Event} (h : s.step (.thread p e) = some next) :
    s.stepThread p e = some next := by
  unfold step at h
  dsimp only at h
  split at h
  · cases h
  · exact h

end State

def connection (n : ℕ) : TransitionSystem (State n) (Action n) where
  init := fun s => s = .initial
  step := State.step

end MCache.Net.ClientConn
