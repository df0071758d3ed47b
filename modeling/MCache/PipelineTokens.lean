import MCache.TokenPools
import MCache.TransitionSystem

/-!
# Owners of pooled buffers and channels

`bufPool` and `respChPool` with the calls of `do` (`net/client.go`) and the
pipelines of `net/pipeline.go` that take payload buffers and response channels from
them.  Each access to a pool is one step, and so is each operation that a pipeline
begins; the goroutines interleave.

`FlushWrite` puts the payloads back through `payloads` while the frames keep them,
and `cleanup` puts back what the frames and `chs` have without taking it from them.
-/

namespace MCache.Net.Pooled

structure Buffer where
  id : ℕ
  cap : ℕ
  deriving DecidableEq

inductive Token where
  | buffer (b : Buffer)
  | channel (id : ℕ)
  deriving DecidableEq

def Token.number : Token → ℕ
  | .buffer b => b.id
  | .channel id => id

abbrev Pools := TokenPool Token

namespace Pools

def makeBuf (s : Pools) (size : ℕ) : Pools × Buffer := (s.make, ⟨s.fresh, size⟩)

def putBuf (s : Pools) (b : Buffer) : Pools :=
  if b.cap ≤ 4096 then s.put (.buffer b) else s

def getBuf (s : Pools) (size : ℕ) (choice : Option Buffer) : Option (Pools × Buffer) :=
  if 4096 < size then some (s.makeBuf size)
  else
    match choice with
    | some b =>
      if .buffer b ∈ s.pool then
        if size ≤ b.cap then some (s.take (.buffer b), b)
        -- The buffer is too small and goes back.
        else some (makeBuf ((s.take (.buffer b)).put (.buffer b)) size)
      else none
    | none =>
      let (s, b) := s.makeBuf 256
      if size ≤ b.cap then some (s, b) else some (makeBuf (s.put (.buffer b)) size)

def getChannel (s : Pools) (choice : Option ℕ) : Option (Pools × ℕ) :=
  match choice with
  | some ch => if .channel ch ∈ s.pool then some (s.take (.channel ch), ch) else none
  | none => some (s.make, s.fresh)

end Pools

structure Payload where
  buf : Buffer
  len : ℕ

def Pools.encodePayload (s : Pools) (body : ℕ) (choice : Option Buffer) :
    Option (Pools × Payload) :=
  (s.getBuf (15 + body) choice).map fun result => (result.1, ⟨result.2, 15 + body⟩)

def Pools.frameBuf (s : Pools) (x : Payload) (choice : Option Buffer) : Option (Pools × Buffer) :=
  if 10 + x.len ≤ 4096 then s.getBuf (10 + x.len) choice
  else some (s.makeBuf (10 + x.len))

def Pools.putFrameBuf (s : Pools) (x : Payload) (buf : Buffer) : Pools :=
  if 10 + x.len ≤ 4096 then s.putBuf buf else s

inductive Event where
  | call (closed : Bool) (body : ℕ)
  | newPipeline
  | add (closed : Bool) (body : ℕ)
  | flushWrite (closed : Bool)
  | readResponses
  | reset
  | abandon
  | getChannel (choice : Option ℕ)
  | getBuf (choice : Option Buffer)
  | write (ok : Bool)
  | receive
  | timeout
  | put
  | next

inductive Call where
  | channel (body : ℕ)
  | payload (body ch : ℕ)
  | encode (ch : ℕ) (x : Payload)
  | write (ch : ℕ) (x : Payload) (buf : Buffer)
  | putPayload (ch : ℕ) (x : Payload) (ok : Bool)
  | wait (ch : ℕ)
  | putChannel (ch : ℕ)

def Call.step (s : Pools) : Call → Event → Option (Pools × Option Call)
  | .channel body, .getChannel choice =>
    (s.getChannel choice).map fun result => (result.1, some (.payload body result.2))
  | .payload body ch, .getBuf choice =>
    (s.encodePayload body choice).map fun result => (result.1, some (.encode ch result.2))
  | .encode ch x, .getBuf choice =>
    (s.frameBuf x choice).map fun result => (result.1, some (.write ch x result.2))
  | .write ch x buf, .write ok => some (s.putFrameBuf x buf, some (.putPayload ch x ok))
  | .putPayload ch x ok, .put =>
    some (s.putBuf x.buf, some (if ok then .wait ch else .putChannel ch))
  | .wait ch, .receive => some (s, some (.putChannel ch))
  | .wait ch, .timeout => some (s, some (.putChannel ch))
  | .putChannel ch, .put => some (s.put (.channel ch), none)
  | _, _ => none

structure Pipeline where
  frames : List Payload
  payloads : List Payload
  chs : List ℕ
  written : Bool

def Pipeline.empty : Pipeline where
  frames := []
  payloads := []
  chs := []
  written := false

inductive Stage where
  | ready
  | channel (body : ℕ)
  | payload (body ch : ℕ)
  | encode (rest : List Payload)
  | write (rest : List Payload) (buf : Buffer)
  | putPayloads (rest : List Payload)
  | read (rest : List ℕ)
  | putFrames (rest : List Payload) (resets : Bool)
  | putChannels (rest : List ℕ) (resets : Bool)

namespace Pipeline

def operate (p : Pipeline) : Event → Option (Option (Pipeline × Stage))
  | .add closed body =>
    if p.written ∨ closed then some (some (p, .ready)) else some (some (p, .channel body))
  | .flushWrite closed =>
    if p.written then some (some (p, .ready))
    else
      let p := { p with written := true }
      if closed then some (some (p, .putFrames p.frames false))
      else if p.frames.isEmpty then some (some (p, .ready))
      else some (some (p, .encode p.frames))
  | .readResponses =>
    if !p.written then some (some (p, .ready)) else some (some (p, .read p.chs))
  | .reset =>
    if !p.written then some (some (p, .putFrames p.frames true))
    else some (some (empty, .ready))
  | .abandon => some none
  | _ => none

def step (s : Pools) (p : Pipeline) : Stage → Event → Option (Pools × Option (Pipeline × Stage))
  | .ready, e => (p.operate e).map fun rest => (s, rest)
  | .channel body, .getChannel choice =>
    (s.getChannel choice).map fun result => (result.1, some (p, .payload body result.2))
  | .payload body ch, .getBuf choice =>
    (s.encodePayload body choice).map fun result =>
      (result.1, some
        ({ p with
            frames := p.frames ++ [result.2]
            payloads := p.payloads ++ [result.2]
            chs := p.chs ++ [ch] }, .ready))
  | .encode (x :: rest), .getBuf choice =>
    (s.frameBuf x choice).map fun result =>
      (result.1, some (p, .write (x :: rest) result.2))
  | .encode [], .next => some (s, some (p, .putPayloads p.payloads))
  | .write (x :: rest) buf, .write ok =>
    some (s.putFrameBuf x buf, some (p, if ok then .encode rest else .putFrames p.frames false))
  | .putPayloads (x :: rest), .put => some (s.putBuf x.buf, some (p, .putPayloads rest))
  | .putPayloads [], .next => some (s, some ({ p with payloads := [] }, .ready))
  | .read (_ :: rest), .receive => some (s, some (p, .read rest))
  | .read (_ :: _), .timeout => some (s, some (p, .putFrames p.frames false))
  | .read [], .next => some (s, some (p, .putFrames p.frames false))
  | .putFrames (x :: rest) resets, .put =>
    some (s.putBuf x.buf, some (p, .putFrames rest resets))
  | .putFrames [] resets, .next => some (s, some (p, .putChannels p.chs resets))
  | .putChannels (ch :: rest) resets, .put =>
    some (s.put (.channel ch), some (p, .putChannels rest resets))
  | .putChannels [] resets, .next =>
    some (s, some (if resets then empty else p, .ready))
  | _, _ => none

end Pipeline

inductive Owner where
  | call (c : Call)
  | pipeline (p : Pipeline) (stage : Stage)

def Owner.begin : Event → Option (Option Owner)
  | .call closed body => if closed then some none else some (some (.call (.channel body)))
  | .newPipeline => some (some (.pipeline .empty .ready))
  | _ => none

def Owner.step (s : Pools) : Owner → Event → Option (Pools × Option Owner)
  | .call c, e => (c.step s e).map fun result => (result.1, result.2.map .call)
  | .pipeline p stage, e =>
    (p.step s stage e).map fun result =>
      (result.1, result.2.map fun rest => .pipeline rest.1 rest.2)

structure State (n : ℕ) where
  pools : Pools
  owners : Fin n → Option Owner

structure Action (n : ℕ) where
  owner : Fin n
  event : Event

namespace State

variable {n : ℕ}

def initial : State n where
  pools := ⟨0, 0⟩
  owners := fun _ => none

def step (s : State n) (a : Action n) : Option (State n) :=
  match s.owners a.owner with
  | none =>
    (Owner.begin a.event).map fun rest =>
      { s with owners := Function.update s.owners a.owner rest }
  | some owner =>
    (owner.step s.pools a.event).map fun result =>
      ⟨result.1, Function.update s.owners a.owner result.2⟩

end State

def clients (n : ℕ) : TransitionSystem (State n) (Action n) where
  init := fun s => s = .initial
  step := State.step

end MCache.Net.Pooled
