import MCache.ConnectionHandler

/-!
# Frames and recycled buffers

A frame is a header of ten bytes and a payload.  Payloads and encoded frames
live in buffers that `getBuf` takes from a pool and that still hold what was
written into them before.  What an encoder writes covers its whole buffer.
-/

namespace MCache

namespace Slice

variable {p : Slice} {i : ℕ} {b d : Bytes}

def write (p : Slice) (i : ℕ) (b : Bytes) : Slice where
  array := p.array.mapIdx fun j x =>
    if i ≤ j ∧ j < p.len then b[j - i]?.getD x else x
  len := p.len
  len_le := by
    rw [List.length_mapIdx]
    exact p.len_le

@[simp] theorem write_len : (p.write i b).len = p.len := rfl

@[simp] theorem write_array_length : (p.write i b).array.length = p.array.length :=
  List.length_mapIdx

theorem Holds.write (h : p.Holds 0 b) (hi : i = b.length)
    (hfits : b.length + d.length ≤ p.len) : (p.write i d).Holds 0 (b ++ d) := by
  obtain ⟨before, after, harray, hlength⟩ := h
  cases List.length_eq_zero_iff.mp hlength
  subst hi
  refine ⟨[], after.drop d.length, ?_, rfl⟩
  apply List.ext_getElem?
  intro j
  simp only [Slice.write, List.getElem?_mapIdx, harray, List.nil_append, List.append_assoc]
  by_cases hb : j < b.length
  · rw [List.getElem?_append_left hb, List.getElem?_append_left hb]
    simp [hb]
  · have hb : b.length ≤ j := Nat.le_of_not_lt hb
    rw [List.getElem?_append_right hb, List.getElem?_append_right hb]
    by_cases hd : j - b.length < d.length
    · have hafter : j - b.length < after.length := by
        have := p.len_le
        rw [harray] at this
        simp at this
        omega
      rw [List.getElem?_append_left hd, List.getElem?_eq_getElem hafter,
        List.getElem?_eq_getElem hd]
      simp [hb, show j < p.len by omega]
    · have hd : d.length ≤ j - b.length := Nat.le_of_not_lt hd
      rw [List.getElem?_append_right hd, List.getElem?_drop,
        Nat.add_sub_cancel' hd, List.getElem?_eq_none hd]
      simp

theorem holds_nil (p : Slice) : p.Holds 0 [] := ⟨[], p.array, rfl, rfl⟩

end Slice

namespace Net

def getBuf (recycled : Bytes) (size : ℕ) : Slice :=
  if h : size ≤ 4096 ∧ size ≤ recycled.length then ⟨recycled, size, h.2⟩
  else ⟨List.replicate size 0, size, by simp⟩

theorem getBuf_len (recycled : Bytes) (size : ℕ) : (getBuf recycled size).len = size := by
  unfold getBuf
  split_ifs <;> rfl

theorem getBuf_cap {recycled other : Bytes} (h : recycled.length = other.length) (size : ℕ) :
    (getBuf recycled size).array.length = (getBuf other size).array.length := by
  unfold getBuf
  by_cases hpooled : size ≤ 4096 ∧ size ≤ recycled.length
  · rw [dif_pos hpooled, dif_pos (h ▸ hpooled)]
    exact h
  · rw [dif_neg hpooled, dif_neg (h ▸ hpooled)]

def readPayload (recycled payload : Bytes) : Slice :=
  (getBuf recycled payload.length).write 0 payload

theorem readPayload_content (recycled payload : Bytes) :
    (readPayload recycled payload).content = payload := by
  have hlen := getBuf_len recycled payload.length
  have hholds : (readPayload recycled payload).Holds 0 ([] ++ payload) :=
    (Slice.holds_nil _).write rfl (by simp [hlen])
  exact hholds.content_eq (by simp [readPayload, hlen])

theorem readPayload_agrees {recycled other : Bytes}
    (h : recycled.length = other.length) (payload : Bytes) :
    (readPayload recycled payload).Agrees (readPayload other payload) where
  len := by simp [readPayload, getBuf_len]
  cap := by simp [readPayload, getBuf_cap h]
  content := by simp [readPayload_content]

def Response.encodeInto (recycled : Bytes) (resp : Response) : Bytes :=
  let value := resp.value.getD []
  let payload := getBuf recycled (1 + 4 + 2 + value.length + resp.errMsg.length)
  let payload := payload.write 0 [resp.status]
  let payload := payload.write 1 (bigEndian 4 value.length)
  let payload := payload.write 5 (bigEndian 2 resp.errMsg.length)
  let payload := payload.write 7 value
  let payload := payload.write (7 + value.length) resp.errMsg
  payload.content

theorem Response.encodeInto_eq (recycled : Bytes) (resp : Response) :
    resp.encodeInto recycled = resp.encodePayload := by
  unfold Response.encodeInto Response.encodePayload
  dsimp only
  generalize resp.value.getD [] = value
  have hlen := getBuf_len recycled (1 + 4 + 2 + value.length + resp.errMsg.length)
  generalize getBuf recycled _ = p at hlen ⊢
  have hstatus := p.holds_nil.write (d := [resp.status]) rfl (by simp; omega)
  have hvalLen := hstatus.write (d := bigEndian 4 value.length) (i := 1) (by simp) (by simp; omega)
  have herrLen := hvalLen.write (d := bigEndian 2 resp.errMsg.length) (i := 5)
    (by simp) (by simp; omega)
  have hvalue := herrLen.write (d := value) (i := 7) (by simp) (by simp; omega)
  have herrMsg := hvalue.write (d := resp.errMsg) (i := 7 + value.length)
    (by simp; omega) (by simp; omega)
  exact herrMsg.content_eq (by simp; omega)

def typedPayload (recycled : Bytes) (cmd : UInt8) (raw : Bytes) : Bytes :=
  (((getBuf recycled (1 + raw.length)).write 0 [cmd]).write 1 raw).content

theorem typedPayload_eq (recycled : Bytes) (cmd : UInt8) (raw : Bytes) :
    typedPayload recycled cmd raw = cmd :: raw := by
  unfold typedPayload
  have hlen := getBuf_len recycled (1 + raw.length)
  generalize getBuf recycled _ = p at hlen ⊢
  have hcmd := p.holds_nil.write (d := [cmd]) rfl (by simp; omega)
  have hraw := hcmd.write (d := raw) (i := 1) (by simp) (by simp; omega)
  exact hraw.content_eq (by simp; omega)

def frameTypeRequest : UInt8 := 0

def frameTypeResponse : UInt8 := 1

structure Frame where
  streamID : UInt32
  type : UInt8
  flags : UInt8
  payload : Bytes
  deriving DecidableEq

def Frame.bytes (f : Frame) : Bytes :=
  bigEndian 4 f.payload.length ++ bigEndian 4 f.streamID.toNat ++ [f.type] ++ [f.flags] ++ f.payload

theorem Frame.bytes_injective (streamID : UInt32) (type flags : UInt8) :
    Function.Injective fun payload =>
      Frame.bytes ⟨streamID, type, flags, payload⟩ := by
  intro payload other hbytes
  have hlength := congrArg List.length hbytes
  simp [Frame.bytes] at hlength
  exact List.append_inj_right' hbytes hlength

def Frame.encode (recycled : Bytes) (f : Frame) : Bytes :=
  let buf := getBuf recycled (10 + f.payload.length)
  let buf := buf.write 0 (bigEndian 4 f.payload.length)
  let buf := buf.write 4 (bigEndian 4 f.streamID.toNat)
  let buf := buf.write 8 [f.type]
  let buf := buf.write 9 [f.flags]
  let buf := buf.write 10 f.payload
  buf.content

theorem Frame.encode_eq (recycled : Bytes) (f : Frame) : f.encode recycled = f.bytes := by
  unfold Frame.encode
  dsimp only
  have hlen := getBuf_len recycled (10 + f.payload.length)
  generalize getBuf recycled _ = p at hlen ⊢
  have hpayloadLen := p.holds_nil.write (d := bigEndian 4 f.payload.length) rfl (by simp; omega)
  have hstream := hpayloadLen.write (d := bigEndian 4 f.streamID.toNat) (i := 4)
    (by simp) (by simp; omega)
  have htype := hstream.write (d := [f.type]) (i := 8) (by simp) (by simp; omega)
  have hflags := htype.write (d := [f.flags]) (i := 9) (by simp) (by simp; omega)
  have hpayload := hflags.write (d := f.payload) (i := 10) (by simp) (by simp; omega)
  exact hpayload.content_eq (by simp; omega)

end Net

end MCache
