import MCache.DecoderTotality

/-!
# Payload decoders of the C and C++ clients

The decoders of `sdk/c` and `sdk/cpp` read two announced lengths, check their
sum with the header against the size of the payload, and copy the parts out.
The sum is one of 32-bit numbers: it wraps, and with it the check.  A copy is
given by its place in the payload, which need not be inside of it.
-/

namespace MCache.Sdk

structure Copy where
  offset : ℕ
  length : ℕ
  deriving DecidableEq

inductive Refusal where
  | tooShort
  | truncated
  | noMemory (made : List Copy)
  deriving DecidableEq

abbrev Allocator := ℕ → ℕ → Bool

def expected (header first second : ℕ) : ℕ := (header + first + second) % 2 ^ 32

def partAt (offset length : ℕ) : Option Copy :=
  if 0 < length then some ⟨offset, length⟩ else none

theorem mem_partAt {offset length : ℕ} {copy : Copy}
    (hcopy : copy ∈ (partAt offset length).toList) : copy = ⟨offset, length⟩ := by
  unfold partAt at hcopy
  split_ifs at hcopy
  · exact List.mem_singleton.mp hcopy
  · exact absurd hcopy List.not_mem_nil

def decodeParts (alloc : Allocator) (size header first second : ℕ) (bytes : ℕ × ℕ)
    (behind : ℕ) : Except Refusal (Option Copy × Option Copy) :=
  if size < expected header first second then .error .truncated
  else if 0 < first ∧ alloc 0 bytes.1 = false then .error (.noMemory [])
  else if 0 < second ∧ alloc 1 bytes.2 = false then
    .error (.noMemory (partAt header first).toList)
  else .ok (partAt header first, partAt behind second)

theorem decodeParts_ok_iff {alloc : Allocator} {size header first second behind : ℕ}
    {bytes : ℕ × ℕ} {parts : Option Copy × Option Copy} :
    decodeParts alloc size header first second bytes behind = .ok parts ↔
      expected header first second ≤ size ∧
        ((0 < first → alloc 0 bytes.1 = true) ∧ (0 < second → alloc 1 bytes.2 = true)) ∧
        (partAt header first, partAt behind second) = parts := by
  have hgranted (n : ℕ) (b : Bool) : ¬ (0 < n ∧ b = false) ↔ (0 < n → b = true) := by
    rw [not_and, Bool.not_eq_false]
  unfold decodeParts
  rw [← hgranted, ← hgranted, ← not_lt]
  by_cases htruncated : size < expected header first second
  · simp [htruncated]
  · by_cases hfirst : 0 < first ∧ alloc 0 bytes.1 = false
    · simp [htruncated, hfirst]
    · by_cases hsecond : 0 < second ∧ alloc 1 bytes.2 = false
      · rw [if_neg htruncated, if_neg hfirst, if_pos hsecond]
        simp [hsecond]
      · rw [if_neg htruncated, if_neg hfirst, if_neg hsecond, Except.ok.injEq]
        exact ⟨fun h => ⟨htruncated, ⟨hfirst, hsecond⟩, h⟩, fun h => h.2.2⟩

structure NativeRequest where
  cmd : UInt8
  ttlMs : ℤ
  key : Option Copy
  value : Option Copy
  deriving DecidableEq

structure NativeResponse where
  status : UInt8
  value : Option Copy
  errMsg : Option Copy
  deriving DecidableEq

def requestHeader : ℕ := 15
def responseHeader : ℕ := 7

section Decoders

variable (alloc : Allocator) (payload : Bytes)

def keyLen : ℕ := number payload 2 1
def requestValueLen : ℕ := number payload 4 3
def responseValueLen : ℕ := number payload 4 1
def errLen : ℕ := number payload 2 5

def decodeRequest (bytes : ℕ) : Except Refusal NativeRequest :=
  if payload.length < requestHeader then .error .tooShort
  else
    (decodeParts alloc payload.length requestHeader (keyLen payload)
      (requestValueLen payload) (bytes, requestValueLen payload)
      (requestHeader + keyLen payload)).map fun parts =>
        { cmd := payload[0]?.getD 0
          ttlMs := int64 (number payload 8 7)
          key := parts.1
          value := parts.2 }

def decodeResponse (bytes behind : ℕ) : Except Refusal NativeResponse :=
  if payload.length < responseHeader then .error .tooShort
  else
    (decodeParts alloc payload.length responseHeader (responseValueLen payload)
      (errLen payload) (responseValueLen payload, bytes) behind).map fun parts =>
        { status := payload[0]?.getD 0
          value := parts.1
          errMsg := parts.2 }

def mcacheRequestDecode : Option NativeRequest :=
  (decodeRequest alloc payload (keyLen payload + 1)).toOption

def mcacheResponseDecode : Option NativeResponse :=
  (decodeResponse alloc payload (errLen payload + 1)
    (responseHeader + responseValueLen payload)).toOption

def requestDecode : Except Refusal NativeRequest := decodeRequest alloc payload (keyLen payload)

def responseDecode : Except Refusal NativeResponse := decodeResponse alloc payload (errLen payload)
    ((responseHeader + responseValueLen payload) % 2 ^ 32)

end Decoders

inductive NativeDecoder where
  | cRequest
  | cResponse
  | cppRequest
  | cppResponse
  deriving DecidableEq

section Copies

variable (alloc : Allocator) (payload : Bytes)

theorem toOption_map_map {α : Type} (f : Option Copy × Option Copy → α)
    (g : α → List Copy) (parts : Except Refusal (Option Copy × Option Copy)) :
    (parts.map f).toOption.map g = parts.toOption.map (g ∘ f) := by
  cases parts <;> rfl

theorem decodeRequest_copies (bytes : ℕ) : (decodeRequest alloc payload bytes).toOption.map
        (fun r => r.key.toList ++ r.value.toList) =
      if payload.length < requestHeader then none
      else
        (decodeParts alloc payload.length requestHeader (keyLen payload)
          (requestValueLen payload) (bytes, requestValueLen payload)
          (requestHeader + keyLen payload)).toOption.map
            fun parts => parts.1.toList ++ parts.2.toList := by
  unfold decodeRequest
  split
  · rfl
  · rw [toOption_map_map]
    rfl

theorem decodeResponse_copies (bytes behind : ℕ) :
    (decodeResponse alloc payload bytes behind).toOption.map
        (fun r => r.value.toList ++ r.errMsg.toList) =
      if payload.length < responseHeader then none
      else
        (decodeParts alloc payload.length responseHeader (responseValueLen payload)
          (errLen payload) (responseValueLen payload, bytes) behind).toOption.map
            fun parts => parts.1.toList ++ parts.2.toList := by
  unfold decodeResponse
  split
  · rfl
  · rw [toOption_map_map]
    rfl

end Copies

namespace NativeDecoder

def header : NativeDecoder → ℕ
  | .cRequest | .cppRequest => requestHeader
  | .cResponse | .cppResponse => responseHeader

def lengths (payload : Bytes) : NativeDecoder → ℕ × ℕ
  | .cRequest | .cppRequest => (keyLen payload, requestValueLen payload)
  | .cResponse | .cppResponse => (responseValueLen payload, errLen payload)

def announced (d : NativeDecoder) (payload : Bytes) : ℕ :=
  d.header + (d.lengths payload).1 + (d.lengths payload).2

def allocated (payload : Bytes) : NativeDecoder → ℕ × ℕ
  | .cRequest => (keyLen payload + 1, requestValueLen payload)
  | .cResponse => (responseValueLen payload, errLen payload + 1)
  | .cppRequest => (keyLen payload, requestValueLen payload)
  | .cppResponse => (responseValueLen payload, errLen payload)

def behind (payload : Bytes) : NativeDecoder → ℕ
  | .cRequest | .cppRequest => requestHeader + keyLen payload
  | .cResponse => responseHeader + responseValueLen payload
  | .cppResponse => (responseHeader + responseValueLen payload) % 2 ^ 32

def Granted (d : NativeDecoder) (alloc : Allocator) (payload : Bytes) : Prop :=
  (0 < (d.lengths payload).1 → alloc 0 (d.allocated payload).1 = true) ∧
    (0 < (d.lengths payload).2 → alloc 1 (d.allocated payload).2 = true)

def copies (alloc : Allocator) (payload : Bytes) : NativeDecoder → Option (List Copy)
  | .cRequest =>
    (mcacheRequestDecode alloc payload).map fun r => r.key.toList ++ r.value.toList
  | .cResponse =>
    (mcacheResponseDecode alloc payload).map fun r => r.value.toList ++ r.errMsg.toList
  | .cppRequest =>
    (requestDecode alloc payload).toOption.map fun r => r.key.toList ++ r.value.toList
  | .cppResponse =>
    (responseDecode alloc payload).toOption.map fun r =>
      r.value.toList ++ r.errMsg.toList

def Complete (d : NativeDecoder) (payload : Bytes) (copies : List Copy) : Prop :=
  d.announced payload ≤ payload.length ∧ ∀ copy ∈ copies, copy.offset + copy.length ≤ payload.length

section Acceptance

variable (d : NativeDecoder) (alloc : Allocator) (payload : Bytes)

theorem copies_eq : d.copies alloc payload =
      if payload.length < d.header then none
      else
        (decodeParts alloc payload.length d.header (d.lengths payload).1
          (d.lengths payload).2 (d.allocated payload) (d.behind payload)).toOption.map
            fun parts => parts.1.toList ++ parts.2.toList := by
  cases d with
  | cRequest => exact decodeRequest_copies alloc payload _
  | cResponse => exact decodeResponse_copies alloc payload _ _
  | cppRequest => exact decodeRequest_copies alloc payload _
  | cppResponse => exact decodeResponse_copies alloc payload _ _

theorem announced_lt : d.announced payload < 2 * 2 ^ 32 := by
  have hkey := number_lt payload 2 1
  have hvalue := number_lt payload 4 3
  have hresponse := number_lt payload 4 1
  have herr := number_lt payload 2 5
  cases d <;>
    simp only [announced, header, lengths, keyLen, requestValueLen, responseValueLen, errLen,
      requestHeader, responseHeader] <;>
    omega

theorem copies_eq_some_iff {list : List Copy} : d.copies alloc payload = some list ↔
      d.header ≤ payload.length ∧ d.announced payload % 2 ^ 32 ≤ payload.length ∧
        d.Granted alloc payload ∧
        (partAt d.header (d.lengths payload).1).toList ++
          (partAt (d.behind payload) (d.lengths payload).2).toList = list := by
  have hok {parts : Except Refusal (Option Copy × Option Copy)} :
      (parts.toOption.map fun parts => parts.1.toList ++ parts.2.toList) = some list ↔
        ∃ pair, parts = .ok pair ∧ pair.1.toList ++ pair.2.toList = list := by
    cases parts <;> simp [Except.toOption]
  rw [copies_eq, ← not_lt]
  split
  · rename_i hshort
    simp [hshort]
  · rename_i hlong
    rw [hok]
    simp only [decodeParts_ok_iff]
    constructor
    · rintro ⟨pair, ⟨hfits, hgranted, rfl⟩, hlist⟩
      exact ⟨hlong, hfits, hgranted, hlist⟩
    · rintro ⟨-, hfits, hgranted, hlist⟩
      exact ⟨_, ⟨hfits, hgranted, rfl⟩, hlist⟩

variable {d alloc payload}

theorem mem_copies {list : List Copy} (hlist : d.copies alloc payload = some list)
    {copy : Copy} (hcopy : copy ∈ list) :
    copy = ⟨d.header, (d.lengths payload).1⟩ ∨
      copy = ⟨d.behind payload, (d.lengths payload).2⟩ := by
  obtain ⟨-, -, -, rfl⟩ := (d.copies_eq_some_iff alloc payload).mp hlist
  rcases List.mem_append.mp hcopy with hfirst | hsecond
  · exact .inl (mem_partAt hfirst)
  · exact .inr (mem_partAt hsecond)

theorem copies_inside (hsize : payload.length < 2 ^ 32)
    (hfits : d.announced payload ≤ payload.length) {list : List Copy}
    (hlist : d.copies alloc payload = some list) :
    ∀ copy ∈ list, copy.offset + copy.length ≤ payload.length := by
  intro copy hcopy
  have hbehind : d.behind payload = d.header + (d.lengths payload).1 := by
    cases d with
    | cppResponse =>
      simp only [announced, header, lengths] at hfits
      exact Nat.mod_eq_of_lt (by omega)
    | _ => rfl
  unfold announced at hfits
  rcases mem_copies hlist hcopy with rfl | rfl
  · dsimp only
    omega
  · rw [hbehind]
    dsimp only
    omega

end Acceptance

end NativeDecoder

theorem native_decoders_complete_iff (d : NativeDecoder) (alloc : Allocator)
    {payload : Bytes} (hsize : payload.length ≤ 2 ^ 24) :
    (∀ list, d.copies alloc payload = some list → d.Complete payload list) ↔
      ¬ (d.header ≤ payload.length ∧ 2 ^ 32 ≤ d.announced payload ∧
        d.announced payload - 2 ^ 32 ≤ payload.length ∧ d.Granted alloc payload) := by
  have hlt := d.announced_lt payload
  constructor
  · rintro hcomplete ⟨hheader, hwraps, hfits, hgranted⟩
    have hmod : d.announced payload % 2 ^ 32 ≤ payload.length := by omega
    have hlist := (d.copies_eq_some_iff alloc payload).mpr ⟨hheader, hmod, hgranted, rfl⟩
    have := (hcomplete _ hlist).1
    omega
  · intro hno list hlist
    obtain ⟨hheader, hmod, hgranted, -⟩ := (d.copies_eq_some_iff alloc payload).mp hlist
    have hfits : d.announced payload ≤ payload.length := by
      by_contra hlong
      exact hno ⟨hheader, by omega, by omega, hgranted⟩
    exact ⟨hfits, NativeDecoder.copies_inside (by omega) hfits hlist⟩

theorem native_decoders_complete_iff_plain :
    NativeDecoder.cppResponse.Complete [0, 0, 0, 0, 1, 0, 2, 5, 6, 7] [⟨7, 1⟩, ⟨8, 2⟩] :=
  (native_decoders_complete_iff .cppResponse (fun _ _ => true)
    (show [0, 0, 0, 0, 1, 0, 2, 5, 6, 7].length ≤ 2 ^ 24 by decide)).mpr
      (fun h => absurd h.2.1 (by decide)) _ (by decide)

theorem header_announces_gigabytes : NativeDecoder.cRequest.copies (fun _ _ => true)
        [2, 0, 0, 255, 255, 255, 241, 0, 0, 0, 0, 0, 0, 0, 0] =
      some [⟨15, 4294967281⟩] ∧
    NativeDecoder.cppRequest.copies (fun _ _ => true)
        [2, 0, 0, 255, 255, 255, 241, 0, 0, 0, 0, 0, 0, 0, 0] =
      some [⟨15, 4294967281⟩] ∧
    NativeDecoder.cResponse.copies (fun _ _ => true) [0, 255, 255, 255, 249, 0, 0] =
      some [⟨7, 4294967289⟩] ∧
    NativeDecoder.cppResponse.copies (fun _ _ => true) [0, 255, 255, 255, 249, 0, 0] =
      some [⟨7, 4294967289⟩] := by
  decide

end MCache.Sdk
