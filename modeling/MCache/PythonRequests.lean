import MCache.DecoderTotality
import MCache.RequestWire

/-!
# Requests of the Python SDK

The encoders of `sdk/python/mcache/protocol.py` with the decoders of the server.
The arguments of an encoder are the fields of the request that the server should
get; a text is given by its UTF-8 bytes.
-/

namespace MCache.Net

open MCache.Store

inductive PackCode where
  | B | H | I | q

def packUnsigned (width : ℕ) (x : ℤ) : Option Bytes :=
  if 0 ≤ x ∧ x < 256 ^ width then some (bigEndian width x.toNat) else none

def PackCode.pack : PackCode → ℤ → Option Bytes
  | .B, x => packUnsigned 1 x
  | .H, x => packUnsigned 2 x
  | .I, x => packUnsigned 4 x
  | .q, x => if -2 ^ 63 ≤ x ∧ x < 2 ^ 63 then some (bigEndian 8 (uint64 x)) else none

def pack : List (PackCode × ℤ) → Option Bytes
  | [] => some []
  | (code, x) :: numbers => do
      let first ← code.pack x
      let others ← pack numbers
      return first ++ others

def packTexts (code : PackCode) : List Bytes → Option Bytes
  | [] => some []
  | text :: texts => do
      let len ← pack [(code, text.length)]
      let others ← packTexts code texts
      return len ++ text ++ others

def pyEncodeKvRequest (req : Request) : Option Bytes := do
  let value := req.value.getD []
  let head ← pack [(.B, req.cmd.toNat), (.H, req.key.length), (.I, value.length), (.q, req.ttl)]
  return head ++ req.key ++ value

def pyEncodeSetRequest (req : SetRequest) : Option Bytes :=
  match Cmd.ofCode? req.cmd with
  | some .sMembers | some .sCard | some .sPop => do
      let head ← pack [(.B, req.cmd.toNat), (.H, req.key.length)]
      return head ++ req.key
  | some .sAdd | some .sRem => do
      let head ← pack [(.B, req.cmd.toNat), (.H, req.key.length), (.I, req.elems.length)]
      let elems ← packTexts .I req.elems
      return head ++ req.key ++ elems
  | some .sIsMember => do
      let elem := req.elems.head?.getD []
      let head ← pack [(.B, req.cmd.toNat), (.H, req.key.length), (.I, elem.length)]
      return head ++ req.key ++ elem
  | some .sRandMember => do
      let head ← pack [(.B, req.cmd.toNat), (.H, req.key.length), (.I, req.count)]
      return head ++ req.key
  | some .sUnion | some .sInter | some .sDiff => do
      let head ← pack [(.B, req.cmd.toNat), (.H, req.keys.length)]
      let keys ← packTexts .H req.keys
      return head ++ keys
  | _ => none

def pyEncodeHashRequest (req : HashRequest) : Option Bytes :=
  match Cmd.ofCode? req.cmd with
  | some .hGetAll | some .hKeys | some .hVals | some .hLen => do
      let head ← pack [(.B, req.cmd.toNat), (.H, req.key.length)]
      return head ++ req.key
  | some .hGet | some .hExists | some .hStrLen => do
      let head ← pack [(.B, req.cmd.toNat), (.H, req.key.length), (.H, req.field.length)]
      return head ++ req.key ++ req.field
  | some .hSet | some .hSetNX => do
      let head ← pack [(.B, req.cmd.toNat), (.H, req.key.length), (.H, req.field.length),
        (.I, req.value.length)]
      return head ++ req.key ++ req.field ++ req.value
  | some .hDel | some .hmGet => do
      let head ← pack [(.B, req.cmd.toNat), (.H, req.key.length), (.H, req.fields.length)]
      let fields ← packTexts .H req.fields
      return head ++ req.key ++ fields
  | some .hIncrBy => do
      let head ← pack [(.B, req.cmd.toNat), (.H, req.key.length), (.H, req.field.length),
        (.q, req.deltaI64)]
      return head ++ req.key ++ req.field
  | some .hIncrByFloat => do
      let head ← pack [(.B, req.cmd.toNat), (.H, req.key.length), (.H, req.field.length)]
      return head ++ bigEndian 8 req.deltaF64.toNat ++ req.key ++ req.field
  | some .hmSet => do
      let head ← pack [(.B, req.cmd.toNat), (.H, req.key.length),
        (.H, (req.fvPairs.length / 2 : ℕ))]
      let pairs ← packTexts .H (evenPart req.fvPairs)
      return head ++ req.key ++ pairs
  | _ => none

def pyEncodeListRequest (req : ListRequest) : Option Bytes :=
  match Cmd.ofCode? req.cmd with
  | some .lPop | some .rPop | some .lLen => do
      let head ← pack [(.B, req.cmd.toNat), (.H, req.key.length)]
      return head ++ req.key
  | some .lPush | some .rPush => do
      let head ← pack [(.B, req.cmd.toNat), (.H, req.key.length), (.I, req.elements.length)]
      let elements ← packTexts .H req.elements
      return head ++ req.key ++ elements
  | some .lRange | some .lTrim => do
      let head ← pack [(.B, req.cmd.toNat), (.H, req.key.length), (.q, req.start), (.q, req.stop)]
      return head ++ req.key
  | some .lIndex => do
      let head ← pack [(.B, req.cmd.toNat), (.H, req.key.length), (.q, req.index)]
      return head ++ req.key
  | some .lSet => do
      let head ← pack [(.B, req.cmd.toNat), (.H, req.key.length), (.q, req.index),
        (.I, req.value.length)]
      return head ++ req.key ++ req.value
  | some .lRem => do
      let head ← pack [(.B, req.cmd.toNat), (.H, req.key.length), (.q, req.count),
        (.I, req.value.length)]
      return head ++ req.key ++ req.value
  | some .lInsert => do
      let head ← pack [(.B, req.cmd.toNat), (.H, req.key.length)]
      let lens ← pack [(.H, req.pivot.length), (.I, req.value.length)]
      return head ++ [if req.before then 1 else 0] ++ lens ++ req.key ++ req.pivot ++ req.value
  | some .blPop | some .brPop => do
      let head ← pack [(.B, req.cmd.toNat), (.H, req.key.length), (.q, req.timeout)]
      return head ++ req.key
  | some .lPos => do
      let head ← pack [(.B, req.cmd.toNat), (.H, req.key.length), (.q, req.rank),
        (.q, req.count), (.q, req.maxLen), (.I, req.value.length)]
      return head ++ req.key ++ req.value
  | _ => none

def keyNumber (cmd : UInt8) (extra : ℤ) : ℤ :=
  match Cmd.ofCode? cmd with
  | some .expire | some .expireAt => extra * 1000
  | some .pExpire | some .pExpireAt => extra
  | _ => 0

def pyEncodeKeyRequest (cmd : UInt8) (key : Bytes) (extra : ℤ) : Option Bytes := do
  let head ← pack [(.B, cmd.toNat), (.H, key.length), (.q, keyNumber cmd extra)]
  return head ++ key

inductive SetCall : SetRequest → Prop where
  | fits {req : SetRequest} (h : req.Fits) (hisMember : req.cmd ≠ Cmd.sIsMember.code)
      (hrandMember : req.cmd ≠ Cmd.sRandMember.code) : SetCall req
  | sIsMember {key : Bytes} {elems : List Bytes} (hkey : key.length < 2 ^ 16)
      (hfits : ∀ e ∈ elems, e.length < 2 ^ 32) :
      SetCall ⟨Cmd.sIsMember.code, key, elems, 0, []⟩
  | sRandMember {key : Bytes} {count : ℤ} (hkey : key.length < 2 ^ 16)
      (hcount : -2 ^ 31 ≤ count ∧ count < 2 ^ 32) :
      SetCall ⟨Cmd.sRandMember.code, key, [], count, []⟩

inductive HashCall : HashRequest → Prop where
  | fits {req : HashRequest} (h : req.Fits) (hmSet : req.cmd ≠ Cmd.hmSet.code) : HashCall req
  | hmSet {key : Bytes} {fvPairs : List Bytes} (hkey : key.length < 2 ^ 16)
      (hcount : fvPairs.length / 2 < 2 ^ 16)
      (hfits : ∀ text ∈ fvPairs, text.length < 2 ^ 16) :
      HashCall ⟨Cmd.hmSet.code, key, [], [], [], fvPairs, 0, 0⟩

inductive PyCall where
  | kv (req : Request)
  | set (req : SetRequest)
  | hash (req : HashRequest)
  | list (req : ListRequest)
  | keyManagement (cmd : UInt8) (key : Bytes) (extra : ℤ)

def PyCall.Fits : PyCall → Prop
  | .kv req => req.Fits
  | .set req => SetCall req
  | .hash req => HashCall req
  | .list req => req.Fits
  | .keyManagement _ key _ => key.length < 2 ^ 16

def PyCall.Delivered (stale : Bytes) : PyCall → Prop
  | .kv req => ∃ payload, pyEncodeKvRequest req = some payload ∧
      ∃ got, decodeRequestPayload (.of payload stale) = .ok got ∧ got.Same req
  | .set req => ∃ payload, pyEncodeSetRequest req = some payload ∧
      decodeSetRequest (.of payload stale) = .ok req
  | .hash req => ∃ payload, pyEncodeHashRequest req = some payload ∧
      decodeHashRequest (.of payload stale) = .ok req
  | .list req => ∃ payload, pyEncodeListRequest req = some payload ∧
      decodeListRequest (.of payload stale) = .ok req
  | .keyManagement cmd key extra =>
    ∃ payload, pyEncodeKeyRequest cmd key extra = some payload ∧
      ∃ got, decodeRequestPayload (.of payload stale) = .ok got ∧
        got.Same ⟨cmd, key, none, keyNumber cmd extra⟩

def PyCall.Deliverable : PyCall → Prop
  | .kv _ | .list _ => True
  | .set req => req.keyEnd < 2 ^ 16 ∧ (req.cmd = Cmd.sIsMember.code → req.elems.length = 1) ∧
      (req.cmd = Cmd.sRandMember.code → 0 ≤ req.count ∧ req.count < 2 ^ 31)
  | .hash req => req.cmd = Cmd.hmSet.code → Even req.fvPairs.length
  | .keyManagement _ _ _ => False

theorem packUnsigned_of_lt {width n : ℕ} (h : n < 256 ^ width) :
    packUnsigned width n = some (bigEndian width n) := by
  unfold packUnsigned
  rw [if_pos ⟨Int.natCast_nonneg n, by exact_mod_cast h⟩, Int.toNat_natCast]

theorem pack_B (cmd : UInt8) : PackCode.B.pack cmd.toNat = some [cmd] := by
  refine (packUnsigned_of_lt cmd.toNat_lt).trans ?_
  simp [bigEndian]

theorem pack_H {n : ℕ} (h : n < 2 ^ 16) : PackCode.H.pack n = some (bigEndian 2 n) :=
  packUnsigned_of_lt h

theorem pack_I {n : ℕ} (h : n < 2 ^ 32) : PackCode.I.pack n = some (bigEndian 4 n) :=
  packUnsigned_of_lt h

theorem pack_count {x : ℤ} (hmin : 0 ≤ x) (hmax : x < 2 ^ 32) :
    PackCode.I.pack x = some (bigEndian 4 (uint32 x)) := by
  rw [uint32, Int.emod_eq_of_lt hmin hmax]
  exact if_pos ⟨hmin, hmax.trans_eq (by norm_num)⟩

theorem pack_q {x : ℤ} (h : int64 x = x) : PackCode.q.pack x = some (bigEndian 8 (uint64 x)) := by
  refine if_pos ?_
  rw [← h]
  exact ⟨le_int64 x, int64_lt x⟩

theorem pack_cons {code : PackCode} {x : ℤ} {numbers : List (PackCode × ℤ)}
    {first others : Bytes} (hfirst : code.pack x = some first)
    (hothers : pack numbers = some others) :
    pack ((code, x) :: numbers) = some (first ++ others) := by
  rw [pack, hfirst, hothers]
  rfl

theorem pack_nil : pack [] = some [] := rfl

theorem pack_head (cmd : UInt8) {key : Bytes} (hkey : key.length < 2 ^ 16)
    {numbers : List (PackCode × ℤ)} {others : Bytes}
    (hothers : pack numbers = some others) :
    pack ((.B, cmd.toNat) :: (.H, key.length) :: numbers) =
      some (cmd :: (bigEndian 2 key.length ++ others)) :=
  pack_cons (pack_B cmd) (pack_cons (pack_H hkey) hothers)

theorem packTexts_eq {code : PackCode} {width : ℕ} {texts : List Bytes}
    (h : ∀ text ∈ texts, code.pack text.length = some (bigEndian width text.length)) :
    packTexts code texts = some (texts.flatMap (sized width)) := by
  induction texts with
  | nil => rfl
  | cons text texts ih =>
    have hothers := ih fun other hother => h other (List.mem_cons_of_mem text hother)
    rw [packTexts, pack_cons (h text List.mem_cons_self) pack_nil, hothers]
    simp [sized]

theorem pyEncodeKvRequest_eq {req : Request} (h : req.Fits) :
    pyEncodeKvRequest req = some req.encodePayload := by
  have hhead := pack_head req.cmd h.key
    (pack_cons (pack_I h.value) (pack_cons (pack_q h.ttl) pack_nil))
  simp only [pyEncodeKvRequest, hhead]
  simp [Request.encodePayload]

theorem pyEncodeHashRequest_eq {req : HashRequest} (h : req.Fits)
    (hmSet : req.cmd ≠ Cmd.hmSet.code) :
    pyEncodeHashRequest req = encodeHashRequest req := by
  unfold pyEncodeHashRequest encodeHashRequest
  cases h with
  | @key c key hc hkey =>
    have hhead := pack_head c.code hkey pack_nil
    rcases hc with rfl | rfl | rfl | rfl <;> simp only [Cmd.ofCode?_code, hhead] <;>
      simp
  | @field c key field hc hkey hfield =>
    have hhead := pack_head c.code hkey (pack_cons (pack_H hfield) pack_nil)
    rcases hc with rfl | rfl | rfl <;> simp only [Cmd.ofCode?_code, hhead] <;> simp
  | @value c key field value hc hkey hfield hvalue =>
    have hhead := pack_head c.code hkey
      (pack_cons (pack_H hfield) (pack_cons (pack_I hvalue) pack_nil))
    rcases hc with rfl | rfl <;> simp only [Cmd.ofCode?_code, hhead] <;> simp
  | @fields c key fields hc hkey hcount hfits =>
    have hhead := pack_head c.code hkey (pack_cons (pack_H hcount) pack_nil)
    have htexts := packTexts_eq fun t ht => pack_H (hfits t ht)
    rcases hc with rfl | rfl <;> simp only [Cmd.ofCode?_code, hhead, htexts] <;> simp
  | hIncrBy hkey hfield hdelta =>
    have hhead := pack_head Cmd.hIncrBy.code hkey
      (pack_cons (pack_H hfield) (pack_cons (pack_q hdelta) pack_nil))
    simp only [Cmd.ofCode?_code, hhead]
    simp
  | hIncrByFloat hkey hfield =>
    have hhead := pack_head Cmd.hIncrByFloat.code hkey (pack_cons (pack_H hfield) pack_nil)
    simp only [Cmd.ofCode?_code, hhead]
    simp
  | hmSet => exact absurd rfl hmSet

theorem pyEncodeListRequest_eq {req : ListRequest} (h : req.Fits) :
    pyEncodeListRequest req = encodeListRequest req := by
  unfold pyEncodeListRequest encodeListRequest
  cases h with
  | @key c key hc hkey =>
    have hhead := pack_head c.code hkey pack_nil
    rcases hc with rfl | rfl | rfl <;> simp only [Cmd.ofCode?_code, hhead] <;> simp
  | @push c key elements hc hkey hcount hfits =>
    have hhead := pack_head c.code hkey (pack_cons (pack_I hcount) pack_nil)
    have htexts := packTexts_eq fun t ht => pack_H (hfits t ht)
    rcases hc with rfl | rfl <;> simp only [Cmd.ofCode?_code, hhead, htexts] <;> simp
  | @range c key start stop hc hkey hstart hstop =>
    have hhead := pack_head c.code hkey
      (pack_cons (pack_q hstart) (pack_cons (pack_q hstop) pack_nil))
    rcases hc with rfl | rfl <;> simp only [Cmd.ofCode?_code, hhead] <;> simp
  | lIndex hkey hindex =>
    have hhead := pack_head Cmd.lIndex.code hkey (pack_cons (pack_q hindex) pack_nil)
    simp only [Cmd.ofCode?_code, hhead]
    simp
  | lSet hkey hvalue hindex =>
    have hhead := pack_head Cmd.lSet.code hkey
      (pack_cons (pack_q hindex) (pack_cons (pack_I hvalue) pack_nil))
    simp only [Cmd.ofCode?_code, hhead]
    simp
  | lRem hkey hvalue hcount =>
    have hhead := pack_head Cmd.lRem.code hkey
      (pack_cons (pack_q hcount) (pack_cons (pack_I hvalue) pack_nil))
    simp only [Cmd.ofCode?_code, hhead]
    simp
  | lInsert hkey hpivot hvalue =>
    have hhead := pack_head Cmd.lInsert.code hkey pack_nil
    have hlens := pack_cons (pack_H hpivot) (pack_cons (pack_I hvalue) pack_nil)
    simp only [Cmd.ofCode?_code, hhead, hlens]
    simp [boolByte]
  | @timeout c key timeout hc hkey htimeout =>
    have hhead := pack_head c.code hkey (pack_cons (pack_q htimeout) pack_nil)
    rcases hc with rfl | rfl <;> simp only [Cmd.ofCode?_code, hhead] <;> simp
  | lPos hkey hvalue hrank hcount hmaxLen =>
    have hhead := pack_head Cmd.lPos.code hkey (pack_cons (pack_q hrank)
      (pack_cons (pack_q hcount) (pack_cons (pack_q hmaxLen) (pack_cons (pack_I hvalue) pack_nil))))
    simp only [Cmd.ofCode?_code, hhead]
    simp

theorem pyEncodeSetRequest_eq {req : SetRequest} (h : req.Fits)
    (hrandMember : req.cmd ≠ Cmd.sRandMember.code) :
    pyEncodeSetRequest req = encodeSetRequest req := by
  unfold pyEncodeSetRequest encodeSetRequest
  cases h with
  | @key c key hc hkey =>
    have hhead := pack_head c.code hkey pack_nil
    rcases hc with rfl | rfl | rfl <;> simp only [Cmd.ofCode?_code, hhead] <;>
      simp [sized]
  | @elems c key elems hc hkey hcount hfits =>
    have hhead := pack_head c.code hkey (pack_cons (pack_I hcount) pack_nil)
    have htexts := packTexts_eq fun t ht => pack_I (hfits t ht)
    rcases hc with rfl | rfl <;> simp only [Cmd.ofCode?_code, hhead, htexts] <;> simp
  | sIsMember hkey helem =>
    have hhead := pack_head Cmd.sIsMember.code hkey (pack_cons (pack_I helem) pack_nil)
    simp only [Cmd.ofCode?_code, List.head?_cons, Option.getD_some, hhead]
    simp
  | sRandMember => exact absurd rfl hrandMember
  | @keys c keys hc hcount hfits =>
    have hhead := pack_cons (pack_B c.code) (pack_cons (pack_H hcount) pack_nil)
    have htexts := packTexts_eq fun t ht => pack_H (hfits t ht)
    rcases hc with rfl | rfl | rfl <;> simp only [Cmd.ofCode?_code, hhead, htexts] <;>
      simp

theorem singleton_head_eq_iff (elems : List Bytes) :
    [elems.head?.getD []] = elems ↔ elems.length = 1 := by
  cases elems with
  | nil => simp
  | cons elem others => simp [eq_comm]

theorem int32_uint32_eq_iff {count : ℤ} (hmin : 0 ≤ count) :
    int32 (uint32 count) = count ↔ count < 2 ^ 31 := by
  constructor
  · intro heq
    rw [← heq]
    exact Int.bmod_lt (by norm_num)
  · exact int32_uint32 (by omega)

theorem if_ok_eq_ok_iff {α : Type} {fits : Prop} [Decidable fits] {got want : α} :
    (if fits then .ok got else .error .panic : Go α) = .ok want ↔ fits ∧ got = want := by
  by_cases h : fits <;> simp [h]

theorem exists_payload_iff {encoded : Option Bytes} {bytes : Bytes} {P : Bytes → Prop}
    (h : encoded = some bytes) :
    (∃ payload, encoded = some payload ∧ P payload) ↔ P bytes := by
  simp [h]

theorem setCall_delivered_iff {req : SetRequest} (h : SetCall req) (stale : Bytes) :
    (PyCall.set req).Delivered stale ↔ (PyCall.set req).Deliverable := by
  simp only [PyCall.Delivered, PyCall.Deliverable]
  cases h with
  | fits h hisMember hrandMember =>
    rcases decodeSetRequest_encodeSetRequest h stale with ⟨payload, hencode, hdecode⟩
    rw [exists_payload_iff ((pyEncodeSetRequest_eq h hrandMember).trans hencode),
      hdecode, if_ok_eq_ok_iff]
    simp [hisMember, hrandMember]
  | @sIsMember key elems hkey hfits =>
    have helem : (elems.head?.getD []).length < 2 ^ 32 := by
      cases elems with
      | nil => norm_num
      | cons elem others => exact hfits elem List.mem_cons_self
    have hencode : pyEncodeSetRequest ⟨Cmd.sIsMember.code, key, elems, 0, []⟩ =
        some (Cmd.sIsMember.code :: (bigEndian 2 key.length ++
          bigEndian 4 (elems.head?.getD []).length ++ key ++ elems.head?.getD [])) := by
      unfold pyEncodeSetRequest
      simp only [Cmd.ofCode?_code, pack_head Cmd.sIsMember.code hkey
        (pack_cons (pack_I helem) pack_nil)]
      simp
    have hother : Cmd.sIsMember.code ≠ Cmd.sRandMember.code := by decide
    rw [exists_payload_iff hencode,
      decodeSetRequest_sIsMember (Slice.rest_of _ stale) hkey helem, if_ok_eq_ok_iff,
      SetRequest.mk.injEq, singleton_head_eq_iff]
    exact ⟨fun h => ⟨h.1, fun _ => h.2.2.2.1, fun heq => absurd heq hother⟩,
      fun h => ⟨h.1, rfl, rfl, h.2.1 rfl, rfl, rfl⟩⟩
  | @sRandMember key count hkey hcount =>
    have hother : Cmd.sRandMember.code ≠ Cmd.sIsMember.code := by decide
    by_cases hsign : 0 ≤ count
    · have hencode : pyEncodeSetRequest ⟨Cmd.sRandMember.code, key, [], count, []⟩ =
          some (Cmd.sRandMember.code :: (bigEndian 2 key.length ++
            bigEndian 4 (uint32 count) ++ key)) := by
        unfold pyEncodeSetRequest
        simp only [Cmd.ofCode?_code, pack_head Cmd.sRandMember.code hkey
          (pack_cons (pack_count hsign hcount.2) pack_nil)]
        simp
      rw [exists_payload_iff hencode,
        decodeSetRequest_sRandMember (Slice.rest_of _ stale) hkey, if_ok_eq_ok_iff,
        SetRequest.mk.injEq, int32_uint32_eq_iff hsign]
      exact ⟨fun h => ⟨h.1, fun heq => absurd heq hother, fun _ => ⟨hsign, h.2.2.2.2.1⟩⟩,
        fun h => ⟨h.1, rfl, rfl, rfl, (h.2.2 rfl).2, rfl⟩⟩
    · have hencode : pyEncodeSetRequest ⟨Cmd.sRandMember.code, key, [], count, []⟩ =
          none := by
        have hfield : PackCode.I.pack count = none := if_neg fun h => hsign h.1
        unfold pyEncodeSetRequest
        simp only [Cmd.ofCode?_code, pack, pack_B, pack_H hkey, hfield]
        rfl
      rw [hencode]
      refine iff_of_false ?_ fun h => hsign (h.2.2 rfl).1
      rintro ⟨payload, hpayload, -⟩
      cases hpayload

theorem even_length_evenPart (texts : List Bytes) : Even (evenPart texts).length := by
  induction texts using evenPart.induct with
  | case1 field value rest ih => simpa [evenPart, Nat.even_add_one] using ih
  | case2 texts hshort => simp [evenPart]

theorem length_evenPart_div (texts : List Bytes) :
    (evenPart texts).length / 2 = texts.length / 2 := by
  induction texts using evenPart.induct with
  | case1 field value rest ih =>
    simp only [evenPart, List.length_cons]
    omega
  | case2 texts hshort =>
    rcases texts with - | ⟨field, - | ⟨value, rest⟩⟩
    · simp [evenPart]
    · simp [evenPart]
    · exact (hshort field value rest rfl).elim

theorem evenPart_sublist (texts : List Bytes) : List.Sublist (evenPart texts) texts := by
  induction texts using evenPart.induct with
  | case1 field value rest ih => exact (ih.cons_cons value).cons_cons field
  | case2 texts hshort => simp [evenPart]

theorem hashCall_delivered_iff {req : HashRequest} (h : HashCall req) (stale : Bytes) :
    (PyCall.hash req).Delivered stale ↔ (PyCall.hash req).Deliverable := by
  simp only [PyCall.Delivered, PyCall.Deliverable]
  cases h with
  | fits h hmSet =>
    rcases decodeHashRequest_encodeHashRequest h stale with ⟨payload, hencode, hdecode⟩
    refine iff_of_true ⟨payload, ?_, hdecode⟩ fun heq => absurd heq hmSet
    rw [pyEncodeHashRequest_eq h hmSet, hencode]
  | @hmSet key fvPairs hkey hcount hfits =>
    have hsent : ∀ text ∈ evenPart fvPairs, text.length < 2 ^ 16 := fun text htext =>
      hfits text ((evenPart_sublist fvPairs).mem htext)
    have hencode : pyEncodeHashRequest ⟨Cmd.hmSet.code, key, [], [], [], fvPairs, 0, 0⟩ =
        some (Cmd.hmSet.code :: (bigEndian 2 key.length ++
          bigEndian 2 ((evenPart fvPairs).length / 2) ++ key ++
          (evenPart fvPairs).flatMap (sized 2))) := by
      have hhead := pack_head Cmd.hmSet.code hkey (pack_cons (pack_H hcount) pack_nil)
      unfold pyEncodeHashRequest
      simp only [Cmd.ofCode?_code, hhead, packTexts_eq fun t ht => pack_H (hsent t ht),
        length_evenPart_div]
      simp
    rw [exists_payload_iff hencode, decodeHashRequest_hmSet (Slice.rest_of _ stale) hkey
      (even_length_evenPart fvPairs) (by rwa [length_evenPart_div]) hsent]
    constructor
    · intro hsame _
      have hall : evenPart fvPairs = fvPairs := congrArg HashRequest.fvPairs (Except.ok.inj hsame)
      exact hall ▸ even_length_evenPart fvPairs
    · intro heven
      rw [evenPart_eq (heven rfl)]

theorem decodeRequestPayload_keyManagement (cmd : UInt8) {key : Bytes} (n : ℕ)
    (hkey : key.length < 2 ^ 16) (stale : Bytes) (got : Request) :
    decodeRequestPayload (.of (cmd :: (bigEndian 2 key.length ++ (bigEndian 8 n ++ key)))
      stale) ≠ .ok got := by
  have hp := Slice.rest_of (cmd :: (bigEndian 2 key.length ++ (bigEndian 8 n ++ key))) stale
  have hlen : (Slice.of (cmd :: (bigEndian 2 key.length ++ (bigEndian 8 n ++ key)))
      stale).len = 11 + key.length := by
    simp [Slice.of]
    omega
  generalize Slice.of _ stale = p at hp hlen ⊢
  rcases hp.byte with ⟨hcmd, hp⟩
  rcases hp.uint (by simpa using hkey) with ⟨hkeyLen, -⟩
  unfold decodeRequestPayload
  by_cases hshort : 15 ≤ p.len
  · rw [ensure_bind hshort, hcmd, ok_bind, hkeyLen, ok_bind, Slice.uint_eq (by omega),
      ok_bind, Slice.uint_eq (by omega), ok_bind, ensure_bind_not (by omega)]
    intro h
    cases h
  · rw [ensure_bind_not hshort]
    intro h
    cases h

theorem python_call_delivered_iff {call : PyCall} (h : call.Fits) (stale : Bytes) :
    call.Delivered stale ↔ call.Deliverable := by
  cases call with
  | kv req =>
    refine iff_of_true ⟨_, pyEncodeKvRequest_eq h, ?_⟩ trivial
    exact decodeRequestPayload_encodePayload h stale
  | set req => exact setCall_delivered_iff h stale
  | hash req => exact hashCall_delivered_iff h stale
  | list req =>
    rcases decodeListRequest_encodeListRequest h stale with ⟨payload, hencode, hdecode⟩
    exact iff_of_true ⟨payload, (pyEncodeListRequest_eq h).trans hencode, hdecode⟩ trivial
  | keyManagement cmd key extra =>
    refine iff_of_false ?_ not_false
    rintro ⟨payload, hencode, got, hdecode, -⟩
    unfold pyEncodeKeyRequest at hencode
    by_cases hnumber : -2 ^ 63 ≤ keyNumber cmd extra ∧ keyNumber cmd extra < 2 ^ 63
    · have hfield : PackCode.q.pack (keyNumber cmd extra) =
          some (bigEndian 8 (uint64 (keyNumber cmd extra))) := if_pos hnumber
      rw [pack_head cmd h (pack_cons hfield pack_nil)] at hencode
      cases hencode
      refine decodeRequestPayload_keyManagement cmd (uint64 (keyNumber cmd extra)) h stale got ?_
      simpa using hdecode
    · have hfield : PackCode.q.pack (keyNumber cmd extra) = none := if_neg hnumber
      simp only [pack, pack_B, pack_H h, hfield] at hencode
      cases hencode

def hmSetCall : PyCall :=
  .hash ⟨Cmd.hmSet.code, ascii "h", [], [], [], [ascii "f", ascii "v"], 0, 0⟩

theorem hmSetCall_delivered : hmSetCall.Fits ∧ hmSetCall.Delivered [7] := by
  have hfits : hmSetCall.Fits := .hmSet (by decide) (by decide) (by decide)
  exact ⟨hfits, (python_call_delivered_iff hfits [7]).mpr fun _ => by decide⟩

theorem python_calls_lost :
    pyEncodeSetRequest ⟨Cmd.sRandMember.code, ascii "s", [], -1, []⟩ = none ∧
      (pyEncodeKeyRequest Cmd.keyExists.code (ascii "k") 0).map (fun payload =>
        decodeRequestPayload (.of payload [])) =
          some (.error (.error (ascii "request payload too short"))) := by
  constructor <;> decide +kernel

end MCache.Net
