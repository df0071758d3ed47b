import MCache.FrameStream
import MCache.NativeDecoders

/-!
# Responses in the C and C++ clients

Both clients read the ten bytes of a frame header, hand them to a decoder that
was written for a whole frame, and read the payload after that.  The decoder
wants the payload among its bytes and refuses the header of every frame that
has one.  A response is never empty, so no response gets through: the C client
reports a protocol error, and the C++ client fails all pending requests and
stops reading.
-/

namespace MCache.Sdk

open Net (Frame Response headerSize maxPayloadSize frameTypeResponse)

inductive ReadError where
  | timeout
  | failed
  deriving DecidableEq

structure Socket where
  parts : List Bytes
  after : ReadError

def Socket.bytes (s : Socket) : Bytes := s.parts.flatten

def readLoop (after : ReadError) (size : ℕ) :
    List Bytes → Bytes → Except ReadError Bytes × List Bytes
  | [], got => (if size ≤ got.length then .ok got else .error after, [])
  | part :: parts, got =>
    if size ≤ got.length then (.ok got, part :: parts)
    else if part = [] then (.error .failed, parts)
    else if size - got.length < part.length then
      (.ok (got ++ part.take (size - got.length)), part.drop (size - got.length) :: parts)
    else readLoop after size parts (got ++ part)

def Socket.readExact (s : Socket) (size : ℕ) : Except ReadError Bytes × Socket :=
  let result := readLoop s.after size s.parts []
  (result.1, { s with parts := result.2 })

structure Socket.Arrives (s : Socket) (b : Bytes) : Prop where
  bytes : s.bytes = b
  parts : ∀ part ∈ s.parts, part ≠ []

theorem readLoop_arrives (after : ReadError) {size : ℕ} {parts : List Bytes}
    (hparts : ∀ part ∈ parts, part ≠ []) {got : Bytes} (hgot : got.length ≤ size)
    (hsize : size ≤ (got ++ parts.flatten).length) :
    (readLoop after size parts got).1 = .ok ((got ++ parts.flatten).take size) ∧
      (readLoop after size parts got).2.flatten = (got ++ parts.flatten).drop size ∧
      ∀ part ∈ (readLoop after size parts got).2, part ≠ [] := by
  induction parts generalizing got with
  | nil =>
    have hall : size = got.length := by
      simp at hsize
      omega
    simp [readLoop, hall]
  | cons part parts ih =>
    have hpart := hparts part List.mem_cons_self
    have hrest := fun p hp => hparts p (List.mem_cons_of_mem part hp)
    unfold readLoop
    split_ifs with hfull hmore
    · have hall : got.length = size := by omega
      refine ⟨?_, ?_, hparts⟩
      · simp [← hall]
      · simp [← hall]
    · have hcut : part.drop (size - got.length) ≠ [] := by
        rw [ne_eq, List.drop_eq_nil_iff]
        omega
      refine ⟨?_, ?_, ?_⟩
      · simp [List.take_append, List.take_of_length_le hgot, Nat.sub_eq_zero_of_le hmore.le]
      · simp [List.drop_append, List.drop_of_length_le hgot, Nat.sub_eq_zero_of_le hmore.le]
      · intro p hp
        rcases List.mem_cons.mp hp with rfl | hp
        · exact hcut
        · exact hrest p hp
    · have hshort : (got ++ part).length ≤ size := by
        simp
        omega
      simpa using ih hrest hshort (by simpa using hsize)

theorem Socket.Arrives.readExact {s : Socket} {b rest : Bytes}
    (h : s.Arrives (b ++ rest)) {size : ℕ} (hsize : b.length = size) :
    ∃ left, s.readExact size = (.ok b, left) ∧ left.Arrives rest := by
  have hbytes : s.parts.flatten = b ++ rest := h.bytes
  have hempty : ([] : Bytes).length ≤ size := Nat.zero_le size
  have henough : size ≤ ([] ++ s.parts.flatten).length := by
    rw [hbytes, ← hsize]
    simp
  obtain ⟨hread, hleft, hparts⟩ := readLoop_arrives s.after h.parts hempty henough
  rw [List.nil_append, hbytes, List.take_left' hsize] at hread
  rw [List.nil_append, hbytes, List.drop_left' hsize] at hleft
  exact ⟨_, Prod.ext hread rfl, ⟨hleft, hparts⟩⟩

structure NativeFrame where
  streamID : UInt32
  type : UInt8
  flags : UInt8
  payload : Bytes

inductive FrameRefusal where
  | tooShort
  | tooLarge
  | truncated
  | noMemory
  deriving DecidableEq

def decodeFrame (alloc : Allocator) (data : Bytes) : Except FrameRefusal NativeFrame :=
  if data.length < headerSize then .error .tooShort
  else if maxPayloadSize < number data 4 0 then .error .tooLarge
  else if data.length < headerSize + number data 4 0 then .error .truncated
  else if 0 < number data 4 0 ∧ alloc 0 (number data 4 0) = false then .error .noMemory
  else
    .ok
      { streamID := .ofNat (number data 4 4)
        type := data[8]?.getD 0
        flags := data[9]?.getD 0
        payload := part data headerSize (number data 4 0) }

def mcacheFrameDecode (alloc : Allocator) (data : Bytes) : Option NativeFrame :=
  (decodeFrame alloc data).toOption

def frameDecode (alloc : Allocator) (data : Bytes) : Except FrameRefusal NativeFrame :=
  decodeFrame alloc data

theorem decodeFrame_header {alloc : Allocator} {data : Bytes} {f : NativeFrame}
    (hheader : data.length = headerSize) (hf : decodeFrame alloc data = .ok f) :
    f.payload = [] := by
  unfold decodeFrame at hf
  split_ifs at hf
  cases hf
  rw [part, List.drop_eq_nil_of_le hheader.le, List.take_nil]

theorem decodeFrame_of_payload (alloc : Allocator) {f : Frame} (hpayload : f.payload ≠ [])
    (hsize : f.payload.length ≤ maxPayloadSize) :
    decodeFrame alloc f.header = .error .truncated := by
  have hlen : number f.header 4 0 = f.payload.length := by
    change Net.payloadLen f.header = _
    rw [Net.payloadLen_header, Nat.mod_eq_of_lt (hsize.trans_lt (by decide))]
  have hpos := List.length_pos_iff.mpr hpayload
  unfold decodeFrame
  rw [hlen, Frame.header_length, if_neg (lt_irrefl _), if_neg (not_lt.mpr hsize), if_pos (by omega)]

inductive ErrorCode where
  | ok
  | timeout
  | notFound
  | protocol
  | io
  | memory
  deriving DecidableEq

def ReadError.code : ReadError → ErrorCode
  | .timeout => .timeout
  | .failed => .io

structure ReceivedResponse where
  status : UInt8
  value : Bytes
  errMsg : Bytes
  deriving DecidableEq

def Copy.read (payload : Bytes) (copy : Copy) : Bytes := part payload copy.offset copy.length

def NativeResponse.read (payload : Bytes) (r : NativeResponse) : ReceivedResponse where
  status := r.status
  value := (r.value.map (Copy.read payload)).getD []
  errMsg := (r.errMsg.map (Copy.read payload)).getD []

def statusErr : UInt8 := 1
def statusNotFound : UInt8 := 2

def ReceivedResponse.code (r : ReceivedResponse) : ErrorCode :=
  if r.status = statusNotFound then .notFound
  else if r.status = statusErr then .protocol
  else .ok

def Allocator.from (alloc : Allocator) (n : ℕ) : Allocator := fun k => alloc (n + k)

def readPayload (alloc : Allocator) (s : Socket) (size : ℕ) : Except ErrorCode Bytes × Socket :=
  if size = 0 then (.ok [], s)
  else if alloc 0 size = false then (.error .memory, s)
  else
    let read := s.readExact size
    (read.1.mapError ReadError.code, read.2)

def doRequest (alloc : Allocator) (s : Socket) : ErrorCode × Option ReceivedResponse × Socket :=
  match s.readExact headerSize with
  | (.error e, s) => (e.code, none, s)
  | (.ok header, s) =>
    match mcacheFrameDecode alloc header with
    | none => (.protocol, none, s)
    | some f =>
      match readPayload (alloc.from 1) s f.payload.length with
      | (.error code, s) => (code, none, s)
      | (.ok payload, s) =>
        match mcacheResponseDecode (alloc.from 2) payload with
        | none => (.protocol, none, s)
        | some r => ((r.read payload).code, some (r.read payload), s)

def ReadError.what : ReadError → String
  | .timeout => "operation timed out"
  | .failed => "read failed"

def FrameRefusal.what : FrameRefusal → String
  | .tooShort => "frame too short"
  | .tooLarge => "payload too large"
  | .truncated => "frame truncated"
  | .noMemory => "std::bad_alloc"

def Refusal.what : Refusal → String
  | .tooShort => "response payload too short"
  | .truncated => "response payload truncated"
  | .noMemory _ => "std::bad_alloc"

structure Connection where
  socket : Socket
  pending : AList fun _ : UInt32 => ℕ
  settled : List (ℕ × Except String ReceivedResponse)
  ended : Bool

namespace Connection

def failAllPending (c : Connection) (message : String) : Connection :=
  { c with
    pending := ∅
    settled := c.settled ++ c.pending.entries.map fun entry => (entry.2, .error message)
    ended := true }

def deliver (c : Connection) (streamID : UInt32) (r : ReceivedResponse) : Connection :=
  match c.pending.lookup streamID with
  | none => c
  | some promise =>
    { c with
      pending := c.pending.erase streamID
      settled := c.settled ++ [(promise, .ok r)] }

def round (alloc : Allocator) (c : Connection) : Connection :=
  match c.socket.readExact headerSize with
  | (.error e, s) => failAllPending { c with socket := s } e.what
  | (.ok header, s) =>
    match frameDecode alloc header with
    | .error e => failAllPending { c with socket := s } e.what
    | .ok f =>
      match (if f.payload = [] then (.ok [], s)
        else s.readExact f.payload.length : Except ReadError Bytes × Socket) with
      | (.error e, s) => failAllPending { c with socket := s } e.what
      | (.ok payload, s) =>
        if f.type ≠ frameTypeResponse then { c with socket := s }
        else
          match responseDecode (alloc.from 1) payload with
          | .error e => failAllPending { c with socket := s } e.what
          | .ok r => deliver { c with socket := s } f.streamID (r.read payload)

end Connection

def responseFrame (streamID : UInt32) (resp : Response) : Frame :=
  ⟨streamID, frameTypeResponse, 0, resp.encodePayload⟩

def oneByte : Response := { status := 0, value := some [5] }

theorem encodePayload_length (resp : Response) : 7 ≤ resp.encodePayload.length := by
  simp [Response.encodePayload]
  omega

section Lost

variable (alloc : Allocator) {resp : Response} (streamID : UInt32) {rest : Bytes}
    (hsize : resp.encodePayload.length ≤ maxPayloadSize)

include hsize

theorem responseFrame_refused :
    decodeFrame alloc (responseFrame streamID resp).header = .error .truncated := by
  refine decodeFrame_of_payload alloc (fun hnil => ?_) hsize
  have hlength := encodePayload_length resp
  rw [show resp.encodePayload = [] from hnil] at hlength
  cases hlength

theorem doRequest_protocol {s : Socket}
    (h : s.Arrives ((responseFrame streamID resp).bytes ++ rest)) :
    ∃ left, doRequest alloc s = (.protocol, none, left) ∧
      left.Arrives (resp.encodePayload ++ rest) := by
  rw [Frame.bytes_eq, List.append_assoc] at h
  obtain ⟨left, hread, hleft⟩ := h.readExact (Frame.header_length _)
  refine ⟨left, ?_, hleft⟩
  unfold doRequest
  rw [hread]
  dsimp only
  rw [mcacheFrameDecode, responseFrame_refused alloc streamID hsize]
  rfl

theorem round_failsAll {c : Connection}
    (h : c.socket.Arrives ((responseFrame streamID resp).bytes ++ rest)) :
    ∃ left, c.round alloc = Connection.failAllPending { c with socket := left } "frame truncated" ∧
      left.Arrives (resp.encodePayload ++ rest) := by
  rw [Frame.bytes_eq, List.append_assoc] at h
  obtain ⟨left, hread, hleft⟩ := h.readExact (Frame.header_length _)
  refine ⟨left, ?_, hleft⟩
  unfold Connection.round
  rw [hread]
  dsimp only
  rw [frameDecode, responseFrame_refused alloc streamID hsize]
  rfl

end Lost

theorem readLoop_length (after : ReadError) {size : ℕ} {parts : List Bytes} {got b : Bytes}
    (hgot : got.length ≤ size) (hread : (readLoop after size parts got).1 = .ok b) :
    b.length = size := by
  induction parts generalizing got with
  | nil =>
    unfold readLoop at hread
    dsimp only at hread
    split_ifs at hread
    cases hread
    omega
  | cons part parts ih =>
    unfold readLoop at hread
    split_ifs at hread with hfull hnil hmore
    · cases hread
      omega
    · cases hread
      rw [List.length_append, List.length_take]
      omega
    · refine ih ?_ hread
      rw [List.length_append]
      omega

theorem Socket.readExact_length {s left : Socket} {size : ℕ} {b : Bytes}
    (hread : s.readExact size = (.ok b, left)) : b.length = size :=
  readLoop_length s.after (show ([] : Bytes).length ≤ size from Nat.zero_le size)
    (Prod.mk.inj hread).1

theorem doRequest_no_response (alloc : Allocator) (s : Socket) :
    (doRequest alloc s).2.1 = none := by
  unfold doRequest
  split
  · rfl
  rename_i header left hread
  split
  · rfl
  rename_i f hf
  have hpayload : f.payload = [] := by
    unfold mcacheFrameDecode at hf
    cases hdecode : decodeFrame alloc header with
    | error e =>
      rw [hdecode] at hf
      cases hf
    | ok g =>
      rw [hdecode] at hf
      cases hf
      exact decodeFrame_header (Socket.readExact_length hread) hdecode
  rw [hpayload]
  rfl

namespace Connection

theorem round_settled (alloc : Allocator) (c : Connection) : (c.round alloc).settled = c.settled ∨
      ∃ message, (c.round alloc).settled =
        c.settled ++ c.pending.entries.map fun entry => (entry.2, .error message) := by
  unfold round
  split
  · exact .inr ⟨_, rfl⟩
  rename_i header left hread
  split
  · exact .inr ⟨_, rfl⟩
  rename_i f hf
  have hpayload := decodeFrame_header (Socket.readExact_length hread) hf
  rw [if_pos hpayload]
  dsimp only
  split_ifs
  · exact .inl rfl
  · exact .inr ⟨_, rfl⟩

def readLoop (allocs : ℕ → Allocator) : ℕ → Connection → Connection
  | 0, c => c
  | n + 1, c => if c.ended then c else readLoop allocs n (c.round (allocs n))

theorem readLoop_no_response (allocs : ℕ → Allocator) (n : ℕ) (c : Connection) :
    ∀ entry ∈ (readLoop allocs n c).settled,
      entry ∈ c.settled ∨ ∃ message, entry.2 = .error message := by
  induction n generalizing c with
  | zero => exact fun entry hentry => .inl hentry
  | succ n ih =>
    intro entry hentry
    unfold readLoop at hentry
    split_ifs at hentry
    · exact .inl hentry
    · rcases ih _ entry hentry with hround | herror
      · rcases c.round_settled (allocs n) with hsame | ⟨message, hfailed⟩
        · rw [hsame] at hround
          exact .inl hround
        · rw [hfailed] at hround
          rcases List.mem_append.mp hround with hold | hnew
          · exact .inl hold
          · obtain ⟨pending, -, rfl⟩ := List.mem_map.mp hnew
            exact .inr ⟨message, rfl⟩
      · exact .inr herror

def twoPending : Connection where
  socket := ⟨[Frame.bytes ⟨0, 0, 0, []⟩, (responseFrame 1 oneByte).bytes], .timeout⟩
  pending := AList.insert 1 20 (AList.insert 2 10 ∅)
  settled := []
  ended := false

theorem readLoop_no_response_twoPending :
    (readLoop (fun _ _ _ => true) 2 twoPending).settled.map Prod.fst = [20, 10] ∧
      ∀ entry ∈ (readLoop (fun _ _ _ => true) 2 twoPending).settled,
        ∃ message, entry.2 = .error message := by
  refine ⟨by decide +kernel, fun entry hentry => ?_⟩
  exact (readLoop_no_response _ 2 twoPending entry hentry).resolve_left List.not_mem_nil

end Connection

def received (resp : Response) : ReceivedResponse := ⟨resp.status, resp.value.getD [], resp.errMsg⟩

def DecodesExactly (resp : Response) (rest : Bytes)
    (result : ErrorCode × Option ReceivedResponse × Socket) : Prop :=
  result.2.1 = some (received resp) ∧ result.2.2.bytes = rest

def FulfilsExactly (streamID : UInt32) (resp : Response) (rest : Bytes)
    (c next : Connection) : Prop :=
  next.socket.bytes = rest ∧ ∃ promise, c.pending.lookup streamID = some promise ∧
    next.pending = c.pending.erase streamID ∧
    next.settled = c.settled ++ [(promise, .ok (received resp))]

theorem native_clients_lose_response (alloc : Allocator) (resp : Response)
    (hsize : resp.encodePayload.length ≤ maxPayloadSize) (streamID : UInt32)
    (rest : Bytes) :
    (∀ s : Socket, s.Arrives ((responseFrame streamID resp).bytes ++ rest) →
      (∃ left, doRequest alloc s = (.protocol, none, left) ∧
        left.Arrives (resp.encodePayload ++ rest)) ∧
      ¬ DecodesExactly resp rest (doRequest alloc s)) ∧
    (∀ c : Connection, c.socket.Arrives ((responseFrame streamID resp).bytes ++ rest) →
      (∃ left, c.round alloc =
          Connection.failAllPending { c with socket := left } "frame truncated" ∧
        left.Arrives (resp.encodePayload ++ rest)) ∧
      ¬ FulfilsExactly streamID resp rest c (c.round alloc)) := by
  refine ⟨fun s hs => ⟨doRequest_protocol alloc streamID hsize hs, ?_⟩,
    fun c hc => ⟨round_failsAll alloc streamID hsize hc, ?_⟩⟩
  · rintro ⟨hdecoded, -⟩
    rw [doRequest_no_response] at hdecoded
    cases hdecoded
  · rintro ⟨hconsumed, -⟩
    obtain ⟨left, hround, hleft⟩ := round_failsAll alloc streamID hsize hc
    have hbytes : left.bytes = rest := by
      rw [hround] at hconsumed
      exact hconsumed
    have hlength := congrArg List.length (hleft.bytes.symm.trans hbytes)
    rw [List.length_append] at hlength
    have := encodePayload_length resp
    omega

def oneByteSocket : Socket := ⟨[(responseFrame 1 oneByte).bytes], .timeout⟩

theorem oneByteSocket_arrives : oneByteSocket.Arrives ((responseFrame 1 oneByte).bytes ++ []) :=
  ⟨by decide, by decide⟩

theorem native_clients_lose_response_oneByte :
    (∃ left, doRequest (fun _ _ => true) oneByteSocket = (.protocol, none, left) ∧
        left.bytes = [0, 0, 0, 0, 1, 0, 0, 5]) ∧
      ∃ left, Connection.round (fun _ _ => true) ⟨oneByteSocket, ∅, [], false⟩ =
          ⟨left, ∅, [], true⟩ ∧ left.bytes = [0, 0, 0, 0, 1, 0, 0, 5] := by
  obtain ⟨hc, hcpp⟩ := native_clients_lose_response (fun _ _ => true) oneByte (by decide) 1 []
  obtain ⟨left, hresult, hleft⟩ := (hc oneByteSocket oneByteSocket_arrives).1
  obtain ⟨left', hresult', hleft'⟩ := (hcpp ⟨oneByteSocket, ∅, [], false⟩ oneByteSocket_arrives).1
  exact ⟨⟨left, hresult, hleft.bytes⟩, left', hresult', hleft'.bytes⟩

theorem response_lost_by_both :
    (doRequest (fun _ _ => true) oneByteSocket).1 = .protocol ∧
      (doRequest (fun _ _ => true) oneByteSocket).2.1 = none ∧
      (Connection.round (fun _ _ => true)
          ⟨oneByteSocket, AList.insert 1 20 (AList.insert 2 10 ∅), [], false⟩).settled =
        [(20, .error "frame truncated"), (10, .error "frame truncated")] := by
  refine ⟨by decide +kernel, by decide +kernel, by decide +kernel⟩

end MCache.Sdk
