import MCache.RaftApply
import MCache.RequestCodec
import MCache.ResponseCodec

/-!
# Both ends of a connection

What `handleConn` of `net/server.go` does with one request frame and what
`readLoop` of `net/client.go` does with one response frame.  Both look at the
first byte of the payload to tell the four families of commands apart: in a
request it is the command, in a response the command or, for the string
family, the status.
-/

namespace MCache.Net

open MCache.Store

def maxPayloadSize : ℕ := 16 * 1024 * 1024

inductive Family where
  | string
  | hash
  | list
  | set
  deriving DecidableEq

def Family.ofByte (b : UInt8) : Family :=
  if isHashCmd b then .hash
  else if isListCmd b then .list
  else if isSetCmd b then .set
  else .string

def ClientRequest.family : ClientRequest → Family
  | .string _ => .string
  | .hash _ => .hash
  | .list _ => .list
  | .set _ => .set

def ClientRequest.encode : ClientRequest → Option Bytes
  | .string req => some req.encodePayload
  | .hash req => encodeHashRequest req
  | .list req => encodeListRequest req
  | .set req => encodeSetRequest req

def decodeClientRequest (p : Slice) : Family → Go ClientRequest
  | .string => (decodeRequestPayload p).map .string
  | .hash => (decodeHashRequest p).map .hash
  | .list => (decodeListRequest p).map .list
  | .set => (decodeSetRequest p).map .set

def invalidText : Family → Bytes
  | .string => ascii "invalid request"
  | .hash => ascii "invalid hash request"
  | .list => ascii "invalid list request"
  | .set => ascii "invalid set request"

def proposeErrorText (deltaF64 : UInt64) : ProposeError → Bytes
  | .notLeader => ascii "not leader"
  | .marshal => ascii "json: unsupported value: " ++
      (if deltaF64 = 0x7FF0000000000000 then ascii "+Inf"
      else if deltaF64 = 0xFFF0000000000000 then ascii "-Inf"
      else ascii "NaN")
  | .proposeFailed => ascii "raft propose failed"
  | .applyTimeout => ascii "raft apply timeout"

inductive Replication where
  | off
  | refused (e : ProposeError)
  | applied (cache : Cache)

namespace Replication

def replicates (repl : Replication) (cmd : UInt8) : Bool :=
  match repl with
  | .off => false
  | _ => isRaftWriteOp cmd

def raftPropose (repl : Replication) (env : Env) (c : Cache) (rc : RaftCommand) :
    Option (Cache × Except Bytes RaftResult) :=
  match repl with
  | .off => some (c, .error (ascii "raft not initialized"))
  | .refused e => some (c, .error (proposeErrorText rc.deltaF64 e))
  | .applied cache => (onRaftApply env cache rc).map fun result => (result.1, .ok result.2)

variable (repl : Replication) (env : Env) (c : Cache)

def process (req : Request) : Option (Cache × Response) :=
  if repl.replicates req.cmd then
    (repl.raftPropose env c (reqToRaft req)).map fun result =>
      (result.1, respond result.2 (fun _ => { status := statusOK }) Response.err)
  else Net.process env c req

def processHash (req : HashRequest) : Option (Cache × Bytes) :=
  if repl.replicates req.cmd then
    (repl.raftPropose env c (hashReqToRaft req)).map fun result =>
      (result.1, respond result.2 (raftResultToHashResponseBytes env req.cmd)
        fun text => encodeHashResponse env.keyOrder (.err req.cmd text))
  else some (Net.processHash env c req)

def processList (req : ListRequest) : Option (Cache × Bytes) :=
  if repl.replicates req.cmd then
    (repl.raftPropose env c (listReqToRaft req)).map fun result =>
      (result.1, respond result.2 (raftResultToListResponseBytes env req.cmd)
        fun text => encodeListResponse (.err req.cmd text))
  else some (Net.processList env c req)

def processSet (req : SetRequest) : Option (Cache × Bytes) :=
  if repl.replicates req.cmd then
    (repl.raftPropose env c (setReqToRaft req)).map fun result =>
      (result.1, respond result.2 (raftResultToSetResponseBytes env req.cmd)
        fun text => encodeSetResponse (.err req.cmd text))
  else some (Net.processSet env c req)

def processRequest : ClientRequest → Option (Cache × Bytes)
  | .string req =>
    (repl.process env c req).map fun result => (result.1, result.2.encodePayload)
  | .hash req =>
    (repl.processHash env c req).map fun result => (result.1, req.cmd :: result.2)
  | .list req =>
    (repl.processList env c req).map fun result => (result.1, req.cmd :: result.2)
  | .set req =>
    (repl.processSet env c req).map fun result => (result.1, req.cmd :: result.2)

variable {repl} in
theorem processRequest_local {req : ClientRequest} (hlocal : repl.replicates req.cmd = false) :
    repl.processRequest env c req = Net.processRequest env c req := by
  cases req <;> rw [ClientRequest.cmd] at hlocal <;>
    simp [processRequest, process, processHash, processList, processSet, Net.processRequest, hlocal]

end Replication

def handleFrame (repl : Replication) (env : Env) (c : Cache) (p : Slice) : Option (Cache × Bytes) :=
  match p.content with
  | [] => some (c, (Response.err (ascii "empty request")).encodePayload)
  | cmd :: _ =>
    match decodeClientRequest p (.ofByte cmd) with
    | .ok req => repl.processRequest env c req
    | .error (.error _) =>
      some (c, (Response.err (invalidText (.ofByte cmd))).encodePayload)
    | .error .panic => none

inductive ClientResponse where
  | string (resp : Response)
  | hash (resp : HashResponse)
  | list (resp : ListResponse)
  | set (resp : SetResponse)

def ClientResponse.family : ClientResponse → Family
  | .string _ => .string
  | .hash _ => .hash
  | .list _ => .list
  | .set _ => .set

def orMalformed {α : Type} (result : Go α) (malformed : α) : Go α :=
  match result with
  | .error (.error _) => .ok malformed
  | _ => result

def readResponse (p : Slice) : Go (Option ClientResponse) :=
  match p.content with
  | [] => .ok none
  | cmd :: _ =>
    match Family.ofByte cmd with
    | .hash =>
      (orMalformed (decodeHashResponse p.tail cmd)
        { cmd := 0, status := statusErr
          errMsg := ascii "malformed hash response" }).map (some ∘ .hash)
    | .list =>
      (orMalformed (decodeListResponse p.tail cmd)
        { cmd := 0, status := statusErr
          errMsg := ascii "malformed list response" }).map (some ∘ .list)
    | .set =>
      (orMalformed (decodeSetResponse p.tail cmd)
        { cmd := 0, status := statusErr
          errMsg := ascii "malformed set response" }).map (some ∘ .set)
    | .string =>
      (orMalformed (decodeResponsePayload p)
        { status := statusErr
          errMsg := ascii "malformed response" }).map (some ∘ .string)

end MCache.Net
