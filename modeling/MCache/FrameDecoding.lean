import MCache.FrameStream

/-!
# Decoding a stream of frames

`DecodeFrame` on a reader that hands out the bytes of a stream in parts of any
size.  `io.ReadFull` collects the parts, so that each call consumes the bytes of
one frame, whatever the parts are and whatever the pooled buffers hold.
-/

namespace MCache.Net

structure Reader where
  parts : List Bytes
  eofWithLast : Bool

def Reader.bytes (r : Reader) : Bytes := r.parts.flatten

def readLoop (eofWithLast : Bool) (size : ℕ) : List Bytes → Bytes → Bytes × List Bytes
  | [], got => (got, [])
  | part :: parts, got =>
    if size ≤ got.length then (got, part :: parts)
    else if size - got.length < part.length then
      (got ++ part.take (size - got.length), part.drop (size - got.length) :: parts)
    else if eofWithLast ∧ parts = [] then (got ++ part, [])
    else readLoop eofWithLast size parts (got ++ part)

inductive ReadFullError where
  | eof
  | unexpectedEOF
  deriving DecidableEq

def Reader.readFull (r : Reader) (size : ℕ) : Except ReadFullError Bytes × Reader :=
  let (got, parts) := readLoop r.eofWithLast size r.parts []
  let rest : Reader := { r with parts := parts }
  if size ≤ got.length then (.ok got, rest)
  else if 0 < got.length then (.error .unexpectedEOF, rest)
  else (.error .eof, rest)

theorem readLoop_spec (eofWithLast : Bool) {size : ℕ} (parts : List Bytes)
    {got : Bytes} (hgot : got.length ≤ size) :
    (readLoop eofWithLast size parts got).1 = (got ++ parts.flatten).take size ∧
      (readLoop eofWithLast size parts got).2.flatten = (got ++ parts.flatten).drop size := by
  induction parts generalizing got with
  | nil => simp [readLoop, List.take_of_length_le hgot, List.drop_of_length_le hgot]
  | cons part parts ih =>
    unfold readLoop
    split_ifs with hfull hmore hlast
    · have hsize : got.length = size := by omega
      simp [← hsize]
    · simp [List.take_append, List.drop_append, List.take_of_length_le hgot,
        List.drop_of_length_le hgot, Nat.sub_eq_zero_of_le hmore.le]
    · have hall : (got ++ part).length ≤ size := by
        simp
        omega
      simp [hlast.2, List.take_of_length_le hall, List.drop_of_length_le hall]
    · have hshort : (got ++ part).length ≤ size := by
        simp
        omega
      simpa using ih hshort

section ReadFull

variable {r : Reader} {b rest : Bytes} {size : ℕ}

theorem Reader.readFull_ok (hbytes : r.bytes = b ++ rest) (hsize : b.length = size) :
    ∃ left, r.readFull size = (.ok b, left) ∧ left.bytes = rest := by
  have hempty : ([] : Bytes).length ≤ size := Nat.zero_le size
  rcases readLoop_spec r.eofWithLast r.parts hempty with ⟨hgot, hleft⟩
  have hstream : r.parts.flatten = b ++ rest := hbytes
  rw [List.nil_append, hstream, List.take_left' hsize] at hgot
  rw [List.nil_append, hstream, List.drop_left' hsize] at hleft
  refine ⟨{ r with parts := (readLoop r.eofWithLast size r.parts []).2 }, ?_, hleft⟩
  simp [Reader.readFull, hgot, hsize]

theorem Reader.readFull_eof (hbytes : r.bytes = []) (hsize : 0 < size) :
    ∃ left, r.readFull size = (.error .eof, left) ∧ left.bytes = [] := by
  have hempty : ([] : Bytes).length ≤ size := Nat.zero_le size
  rcases readLoop_spec r.eofWithLast r.parts hempty with ⟨hgot, hleft⟩
  have hstream : r.parts.flatten = [] := hbytes
  rw [List.nil_append, hstream, List.take_nil] at hgot
  rw [List.nil_append, hstream, List.drop_nil] at hleft
  refine ⟨{ r with parts := (readLoop r.eofWithLast size r.parts []).2 }, ?_, hleft⟩
  simp [Reader.readFull, hgot, hsize.ne']

end ReadFull

inductive DecodeFrameError where
  | read (err : ReadFullError)
  | payloadTooLarge (payloadLen : ℕ)
  deriving DecidableEq

def decodeFrame (recycled : Bytes) (r : Reader) : Except DecodeFrameError Frame × Reader :=
  match r.readFull headerSize with
  | (.error err, r) => (.error (.read err), r)
  | (.ok head, r) =>
    if maxPayloadSize < payloadLen head then
      (.error (.payloadTooLarge (payloadLen head)), r)
    else if 0 < payloadLen head then
      match r.readFull (payloadLen head) with
      | (.error err, r) => (.error (.read err), r)
      | (.ok payload, r) =>
        (.ok (frameOf head (readPayload recycled payload).content), r)
    else (.ok (frameOf head []), r)

section DecodeFrame

variable {r : Reader} {rest : Bytes} (recycled : Bytes)

theorem decodeFrame_bytes {f : Frame} (hsize : f.payload.length ≤ maxPayloadSize)
    (hbytes : r.bytes = f.bytes ++ rest) :
    ∃ left, decodeFrame recycled r = (.ok f, left) ∧ left.bytes = rest := by
  have hlen : payloadLen f.header = f.payload.length := by
    rw [payloadLen_header, Nat.mod_eq_of_lt (hsize.trans_lt (by decide))]
  rw [Frame.bytes_eq, List.append_assoc] at hbytes
  rcases Reader.readFull_ok hbytes f.header_length with ⟨behind, hheader, hbehind⟩
  unfold decodeFrame
  rw [hheader]
  simp only [hlen, hsize.not_gt, if_false]
  split_ifs with hpayload
  · rcases Reader.readFull_ok hbehind rfl with ⟨left, hread, hleft⟩
    refine ⟨left, ?_, hleft⟩
    simp only [hread, readPayload_content, frameOf_header]
  · have hempty : f.payload = [] := List.length_eq_zero_iff.mp (by omega)
    refine ⟨behind, ?_, by rw [hbehind, hempty, List.nil_append]⟩
    rw [← hempty, frameOf_header]

theorem decodeFrame_eof (hbytes : r.bytes = []) :
    ∃ left, decodeFrame recycled r = (.error (.read .eof), left) ∧ left.bytes = [] := by
  rcases Reader.readFull_eof hbytes (show 0 < headerSize by decide) with
    ⟨left, hread, hleft⟩
  refine ⟨left, ?_, hleft⟩
  rw [decodeFrame, hread]

theorem decodeFrame_tooLarge {head : Bytes} (hhead : head.length = headerSize)
    (hlarge : maxPayloadSize < payloadLen head) (hbytes : r.bytes = head ++ rest) :
    ∃ left, decodeFrame recycled r = (.error (.payloadTooLarge (payloadLen head)), left) ∧
      left.bytes = rest := by
  rcases Reader.readFull_ok hbytes hhead with ⟨left, hread, hleft⟩
  refine ⟨left, ?_, hleft⟩
  rw [decodeFrame, hread]
  simp only [hlarge, if_true]

end DecodeFrame

def decodeFrames : List Bytes → Reader → List (Except DecodeFrameError Frame)
  | [], _ => []
  | recycled :: pool, r =>
    let (result, r) := decodeFrame recycled r
    result :: decodeFrames pool r

theorem decodeFrames_eof (pool : List Bytes) {r : Reader} (hbytes : r.bytes = []) :
    decodeFrames pool r = List.replicate pool.length (.error (.read .eof)) := by
  induction pool generalizing r with
  | nil => rfl
  | cons recycled pool ih =>
    rcases decodeFrame_eof recycled hbytes with ⟨left, hdecode, hleft⟩
    rw [decodeFrames, hdecode]
    simp [ih hleft, List.replicate_succ]

theorem decodeFrames_bytes {frames : List Frame}
    (hsizes : ∀ f ∈ frames, f.payload.length ≤ maxPayloadSize) {r : Reader}
    (hbytes : r.bytes = frames.flatMap Frame.bytes) {pool : List Bytes} {more : ℕ}
    (hpool : pool.length = frames.length + more) :
    decodeFrames pool r = frames.map .ok ++ List.replicate more (.error (.read .eof)) := by
  induction frames generalizing r pool with
  | nil =>
    rw [decodeFrames_eof pool hbytes, hpool]
    simp
  | cons f frames ih =>
    rcases List.exists_cons_of_length_eq_add_one (n := frames.length + more)
      (by rw [hpool, List.length_cons]; omega) with ⟨recycled, pool, rfl⟩
    rcases decodeFrame_bytes recycled (hsizes f List.mem_cons_self) hbytes with
      ⟨left, hdecode, hleft⟩
    have hrest := ih (fun g hg => hsizes g (List.mem_cons_of_mem f hg)) hleft
      (by simpa [Nat.add_right_comm] using hpool)
    rw [decodeFrames, hdecode]
    simp [hrest]

theorem frame_stream_survives {sent : List (Frame × Bytes)}
    (hsizes : ∀ s ∈ sent, s.1.payload.length ≤ maxPayloadSize) {r : Reader}
    (hbytes : r.bytes = sent.flatMap fun s => s.1.encode s.2) {pool : List Bytes}
    {more : ℕ} (hpool : pool.length = sent.length + more) :
    decodeFrames pool r = sent.map (fun s => .ok s.1) ++ List.replicate more (.error (.read .eof)) ∧
      ∀ (recycled head rest : Bytes) (r : Reader), head.length = headerSize →
        maxPayloadSize < payloadLen head → r.bytes = head ++ rest → ∃ left, decodeFrame recycled r =
            (.error (.payloadTooLarge (payloadLen head)), left) ∧ left.bytes = rest := by
  constructor
  · have hframes : r.bytes = (sent.map Prod.fst).flatMap Frame.bytes := by
      simp [hbytes, List.flatMap_map, Frame.encode_eq]
    rw [decodeFrames_bytes (by simpa using hsizes) hframes (by simpa using hpool)]
    simp
  · intro recycled head rest r hhead hlarge hbytes
    exact decodeFrame_tooLarge recycled hhead hlarge hbytes

theorem frame_stream_survives_cut : decodeFrames [[1, 2, 3], [], []]
        ⟨[lenFrame.bytes.take 3, lenFrame.bytes.drop 3 ++ carrierFrame.bytes.take 5,
          carrierFrame.bytes.drop 5], true⟩ =
      [.ok lenFrame, .ok carrierFrame, .error (.read .eof)] := by
  have hbytes : (Reader.mk [lenFrame.bytes.take 3,
      lenFrame.bytes.drop 3 ++ carrierFrame.bytes.take 5,
      carrierFrame.bytes.drop 5] true).bytes =
        [(lenFrame, [7]), (carrierFrame, [])].flatMap fun s => s.1.encode s.2 := by
    decide +kernel
  exact (frame_stream_survives (by decide) hbytes
    (show [[1, 2, 3], [], []].length = 2 + 1 from rfl)).1

end MCache.Net
