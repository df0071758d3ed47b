import MCache.Frames

/-!
# Reading frames from a connection

The loop of `handleConn` with `DecodeFrame` and the two calls of `io.ReadFull`
in it, one step for each `Read` on the connection.  A `Read` returns any number
of the bytes that are left, up to what is asked for, and possibly an error.
After a timeout the loop goes on with a new frame, so that the bytes of a frame
that was read in part are gone.
-/

namespace MCache.Net

def headerSize : ℕ := 10

def Frame.header (f : Frame) : Bytes :=
  bigEndian 4 f.payload.length ++ bigEndian 4 f.streamID.toNat ++ [f.type] ++ [f.flags]

def payloadLen (head : Bytes) : ℕ := ofBigEndian (head.take 4)

def frameOf (head payload : Bytes) : Frame where
  streamID := .ofNat (ofBigEndian ((head.drop 4).take 4))
  type := head[8]?.getD 0
  flags := head[9]?.getD 0
  payload := payload

theorem Frame.bytes_eq (f : Frame) : f.bytes = f.header ++ f.payload := rfl

@[simp] theorem Frame.header_length (f : Frame) : f.header.length = headerSize := by
  simp [Frame.header, headerSize]

theorem payloadLen_header (f : Frame) : payloadLen f.header = f.payload.length % 2 ^ 32 := by
  unfold payloadLen Frame.header
  rw [List.append_assoc, List.append_assoc, List.take_left' (by simp), ofBigEndian_bigEndian]
  rfl

theorem frameOf_header (f : Frame) : frameOf f.header f.payload = f := by
  have hstream : (f.header.drop 4).take 4 = bigEndian 4 f.streamID.toNat := by
    rw [Frame.header, List.append_assoc, List.append_assoc, List.drop_left' (by simp),
      List.take_left' (by simp)]
  have htype : f.header[8]? = some f.type := by
    simp [Frame.header]
  have hflags : f.header[9]? = some f.flags := by
    simp [Frame.header]
  unfold frameOf
  rw [hstream, htype, hflags, ofBigEndian_bigEndian,
    Nat.mod_eq_of_lt (show _ < 256 ^ 4 from f.streamID.toNat_lt)]
  simp

inductive ReadError where
  | timeout
  | other
  deriving DecidableEq

inductive Reading where
  | header (got : Bytes) (unfinished : got.length < headerSize)
  | payload (head got : Bytes) (head_length : head.length = headerSize)
      (unfinished : got.length < payloadLen head)
  | closed

def Reading.start : Reading := .header [] (by decide)

structure Conn where
  unread : Bytes
  reading : Reading
  taken : List Frame

inductive ConnEvent where
  | read (n : ℕ) (err : Option ReadError)
  | panic

namespace Conn

def interrupted (s : Conn) (reading : Reading) : Option ReadError → Conn
  | none => { s with reading := reading }
  | some .timeout => { s with reading := .start }
  | some .other => { s with reading := .closed }

def take (s : Conn) (f : Frame) : Conn :=
  { s with
    reading := .start
    taken := if f.type ≠ frameTypeRequest then s.taken else s.taken ++ [f] }

def headerRead (s : Conn) (head : Bytes) (hhead : head.length = headerSize) : Conn :=
  if maxPayloadSize < payloadLen head then { s with reading := .closed }
  else if h : 0 < payloadLen head then { s with reading := .payload head [] hhead h }
  else s.take (frameOf head [])

def step (s : Conn) : ConnEvent → Option Conn
  | .read n err =>
    let rest : Conn := { s with unread := s.unread.drop n }
    match s.reading with
    | .header got hgot =>
      if hn : n ≤ headerSize - got.length ∧ n ≤ s.unread.length then
        let got := got ++ s.unread.take n
        if h : got.length < headerSize then
          some (rest.interrupted (.header got h) err)
        else some (rest.headerRead got (by simp [got] at h ⊢; omega))
      else none
    | .payload head got hhead hgot =>
      if n ≤ payloadLen head - got.length ∧ n ≤ s.unread.length then
        let got := got ++ s.unread.take n
        if h : got.length < payloadLen head then
          some (rest.interrupted (.payload head got hhead h) err)
        else some (rest.take (frameOf head got))
      else none
    | .closed => none
  | .panic =>
    match s.reading with
    | .header [] _ => some { s with reading := .closed }
    | _ => none

end Conn

def Conn.accepted (frames : List Frame) : Conn := ⟨frames.flatMap Frame.bytes, .start, []⟩

def connection (frames : List Frame) : TransitionSystem Conn ConnEvent where
  init := fun s => s = .accepted frames
  step := Conn.step

def Reading.consumed : Reading → Bytes
  | .header got _ => got
  | .payload head got _ _ => head ++ got
  | .closed => []

theorem Reading.consumed_start : Reading.start.consumed = [] := rfl

def Reading.wanted : Reading → ℕ
  | .header got _ => headerSize - got.length
  | .payload head got _ _ => payloadLen head - got.length
  | .closed => 0

structure Aligned (frames : List Frame) (s : Conn) : Prop where
  taken : s.taken <+: frames
  resumes : s.reading ≠ .closed → s.taken.flatMap Frame.bytes ++ (s.reading.consumed ++ s.unread) =
      frames.flatMap Frame.bytes

def BetweenFrames (s : Conn) : ConnEvent → Prop
  | .read n (some .timeout) =>
    n < s.reading.wanted → s.reading.consumed = [] ∧ n = 0
  | _ => True

instance (s : Conn) (a : ConnEvent) : Decidable (BetweenFrames s a) := by
  unfold BetweenFrames
  split <;> infer_instance

section Alignment

variable {frames : List Frame} {s next : Conn}

theorem Aligned.rest (h : Aligned frames s) (hopen : s.reading ≠ .closed) :
    ∃ rest, frames = s.taken ++ rest ∧
      s.reading.consumed ++ s.unread = rest.flatMap Frame.bytes := by
  rcases h.taken with ⟨rest, rfl⟩
  have hbytes := h.resumes hopen
  rw [List.flatMap_append] at hbytes
  exact ⟨rest, rfl, List.append_cancel_left hbytes⟩

theorem exists_frame {head more : Bytes} {rest : List Frame}
    (hhead : head.length = headerSize) (hbytes : head ++ more = rest.flatMap Frame.bytes) :
    ∃ f others, rest = f :: others ∧ head = f.header ∧
      more = f.payload ++ others.flatMap Frame.bytes := by
  cases rest with
  | nil =>
    have hlength := congrArg List.length hbytes
    simp [hhead, headerSize] at hlength
  | cons f others =>
    rw [List.flatMap_cons, Frame.bytes_eq, List.append_assoc] at hbytes
    rcases List.append_inj hbytes (by simp [hhead]) with ⟨hheader, hmore⟩
    exact ⟨f, others, rfl, hheader, hmore⟩

theorem Aligned.take {f : Frame} {others : List Frame} (hframes : frames = s.taken ++ f :: others)
    (htype : f.type = frameTypeRequest) (hunread : s.unread = others.flatMap Frame.bytes) :
    Aligned frames (s.take f) := by
  have htaken : (s.take f).taken = s.taken ++ [f] := if_neg (not_not.mpr htype)
  constructor
  case taken => exact ⟨others, by simp [htaken, hframes]⟩
  case resumes =>
    intro _
    rw [htaken]
    simp [Conn.take, Reading.consumed_start, hunread, hframes]

theorem Aligned.interrupted_iff {reading : Reading} {n : ℕ} (err : Option ReadError)
    (h : Aligned frames s) (hopen : s.reading ≠ .closed) (hn : n ≤ s.unread.length)
    (hconsumed : reading.consumed = s.reading.consumed ++ s.unread.take n) :
    Aligned frames (Conn.interrupted { s with unread := s.unread.drop n } reading err) ↔
      (err = some .timeout → s.reading.consumed = [] ∧ n = 0) := by
  have hbytes := h.resumes hopen
  rcases err with - | - | -
  · refine ⟨nofun, fun _ => ⟨h.taken, fun _ => ?_⟩⟩
    rw [← hbytes]
    simp [Conn.interrupted, hconsumed]
  · constructor
    · intro hnext _
      have hlost := (hnext.resumes nofun).trans hbytes.symm
      have hlength := congrArg List.length (List.append_cancel_left hlost)
      simp only [Conn.interrupted, Reading.consumed_start, List.nil_append,
        List.length_append, List.length_drop] at hlength
      exact ⟨List.length_eq_zero_iff.mp (by omega), by omega⟩
    · intro hkept
      rcases hkept rfl with ⟨hnone, rfl⟩
      refine ⟨h.taken, fun _ => ?_⟩
      rw [← hbytes, hnone]
      rfl
  · exact ⟨nofun, fun _ => ⟨h.taken, fun hclosed => (hclosed rfl).elim⟩⟩

section Complete

variable {head : Bytes} {rest : List Frame} (hrequests : ∀ f ∈ frames, f.type = frameTypeRequest)
  (hsizes : ∀ f ∈ frames, f.payload.length < 2 ^ 32)
  (hframes : frames = s.taken ++ rest)

include hrequests hsizes hframes

theorem Aligned.headerRead (hhead : head.length = headerSize)
    (hbytes : head ++ s.unread = rest.flatMap Frame.bytes) :
    Aligned frames (s.headerRead head hhead) := by
  rcases exists_frame hhead hbytes with ⟨f, others, rfl, rfl, hmore⟩
  have hf : f ∈ frames := by simp [hframes]
  have hlen : payloadLen f.header = f.payload.length := by
    rw [payloadLen_header, Nat.mod_eq_of_lt (hsizes f hf)]
  have htaken : s.taken <+: frames := ⟨_, hframes.symm⟩
  unfold Conn.headerRead
  split_ifs with hlarge hpayload
  · exact ⟨htaken, fun hclosed => (hclosed rfl).elim⟩
  · refine ⟨htaken, fun _ => ?_⟩
    simp only [Reading.consumed, List.append_nil]
    rw [hbytes, hframes, List.flatMap_append]
  · have hempty : f.payload = [] := List.length_eq_zero_iff.mp (by omega)
    have hframe : frameOf f.header [] = f := hempty ▸ frameOf_header f
    rw [hframe]
    rw [hempty, List.nil_append] at hmore
    exact Aligned.take hframes (hrequests f hf) hmore

theorem Aligned.payloadRead {got : Bytes} (hhead : head.length = headerSize)
    (hgot : got.length = payloadLen head)
    (hbytes : head ++ got ++ s.unread = rest.flatMap Frame.bytes) :
    Aligned frames (s.take (frameOf head got)) := by
  rw [List.append_assoc] at hbytes
  rcases exists_frame hhead hbytes with ⟨f, others, rfl, rfl, hmore⟩
  have hf : f ∈ frames := by simp [hframes]
  rw [payloadLen_header, Nat.mod_eq_of_lt (hsizes f hf)] at hgot
  rcases List.append_inj hmore hgot with ⟨rfl, hunread⟩
  rw [frameOf_header]
  exact Aligned.take hframes (hrequests f hf) hunread

end Complete

theorem betweenFrames_read {n : ℕ} {err : Option ReadError} :
    BetweenFrames s (.read n err) ↔ (err = some .timeout →
      n < s.reading.wanted → s.reading.consumed = [] ∧ n = 0) := by
  rcases err with - | - | - <;> simp [BetweenFrames]

theorem Aligned.read_iff (hrequests : ∀ f ∈ frames, f.type = frameTypeRequest)
    (hsizes : ∀ f ∈ frames, f.payload.length < 2 ^ 32) (h : Aligned frames s) {n : ℕ}
    {err : Option ReadError} (hstep : s.step (.read n err) = some next) :
    Aligned frames next ↔ BetweenFrames s (.read n err) := by
  rw [betweenFrames_read]
  obtain ⟨unread, reading, taken⟩ := s
  cases reading with
  | header got hgot =>
    rcases h.rest nofun with ⟨rest, hframes, hbytes⟩
    simp only [Reading.consumed] at hbytes
    simp only [Conn.step] at hstep
    split_ifs at hstep with hn hshort
    · cases hstep
      rw [h.interrupted_iff err nofun hn.2 rfl]
      simp only [List.length_append, List.length_take] at hshort
      simp [Reading.wanted, show n < headerSize - got.length by omega]
    · cases hstep
      simp only [List.length_append, List.length_take] at hshort
      simp only [Reading.wanted, show ¬ n < headerSize - got.length by omega,
        false_implies, implies_true, iff_true]
      refine Aligned.headerRead (s := ⟨unread.drop n, _, taken⟩) hrequests hsizes hframes _ ?_
      simpa using hbytes
  | payload head got hhead hgot =>
    rcases h.rest nofun with ⟨rest, hframes, hbytes⟩
    simp only [Reading.consumed] at hbytes
    simp only [Conn.step] at hstep
    split_ifs at hstep with hn hshort
    · cases hstep
      rw [h.interrupted_iff err nofun hn.2 (by simp [Reading.consumed])]
      simp only [List.length_append, List.length_take] at hshort
      simp [Reading.wanted, show n < payloadLen head - got.length by omega]
    · cases hstep
      simp only [List.length_append, List.length_take] at hshort
      simp only [Reading.wanted, show ¬ n < payloadLen head - got.length by omega,
        false_implies, implies_true, iff_true]
      refine Aligned.payloadRead (s := ⟨unread.drop n, _, taken⟩) hrequests hsizes
        hframes hhead ?_ ?_
      · simp only [List.length_append, List.length_take]
        omega
      · simpa using hbytes
  | closed => cases hstep

theorem Aligned.step_iff (hrequests : ∀ f ∈ frames, f.type = frameTypeRequest)
    (hsizes : ∀ f ∈ frames, f.payload.length < 2 ^ 32) (h : Aligned frames s)
    {a : ConnEvent} (hstep : s.step a = some next) :
    Aligned frames next ↔ BetweenFrames s a := by
  cases a with
  | read n err => exact h.read_iff hrequests hsizes hstep
  | panic =>
    simp only [Conn.step] at hstep
    split at hstep <;> cases hstep
    exact ⟨fun _ => trivial, fun _ => ⟨h.taken, fun hclosed => (hclosed rfl).elim⟩⟩

end Alignment

theorem Aligned.accepted (frames : List Frame) : Aligned frames (.accepted frames) :=
  ⟨List.nil_prefix, fun _ => rfl⟩

theorem handleConn_aligned_iff {frames : List Frame}
    (hrequests : ∀ f ∈ frames, f.type = frameTypeRequest)
    (hsizes : ∀ f ∈ frames, f.payload.length < 2 ^ 32) {events : List ConnEvent}
    {final : Conn}
    (hrun : (connection frames).runFrom (.accepted frames) events = some final) :
    (∀ before, before <+: events → ∀ s,
      (connection frames).runFrom (.accepted frames) before = some s → Aligned frames s) ↔
      (connection frames).runBy BetweenFrames (.accepted frames) events = some final :=
  TransitionSystem.along_iff (fun _ _ _ h => h.step_iff hrequests hsizes) (.accepted frames) hrun

def lenFrame : Frame := ⟨7, frameTypeRequest, 0, [Cmd.len.code]⟩

def carrierFrame : Frame := ⟨9, frameTypeRequest, 0, lenFrame.bytes⟩

theorem handleConn_aligned_lenFrame : (connection [lenFrame]).runFrom (.accepted [lenFrame])
        [.read 0 (some .timeout), .read 4 none, .read 6 none, .read 1 none] =
      some ⟨[], .start, [lenFrame]⟩ ∧
    ∀ before, before <+: [.read 0 (some .timeout), .read 4 none, .read 6 none, .read 1 none] →
        ∀ s, (connection [lenFrame]).runFrom (.accepted [lenFrame]) before = some s →
          Aligned [lenFrame] s := by
  have hrun : (connection [lenFrame]).runFrom (.accepted [lenFrame])
      [.read 0 (some .timeout), .read 4 none, .read 6 none, .read 1 none] =
        some ⟨[], .start, [lenFrame]⟩ := rfl
  exact ⟨hrun, (handleConn_aligned_iff (by decide) (by decide) hrun).mpr rfl⟩

theorem payload_taken_for_frame : ((connection [carrierFrame]).runFrom (.accepted [carrierFrame])
        [.read 10 none, .read 0 (some .timeout), .read 10 none, .read 1 none]).map
      Conn.taken = some [lenFrame] ∧ ¬ [lenFrame] <+: [carrierFrame] := by
  decide +kernel

end MCache.Net
