import MCache.RequestRoundTrip

/-!
# Requests survive the wire

The requests that the client builds have only the fields of their command, and
lengths and counts that fit the fields they are written into.  String, hash and
list requests come back from the decoder as they were.  A set request comes back
unless the end of its key does not fit in 16 bits; then the decoder panics.
-/

namespace MCache.Net

open MCache.Store

structure Request.Fits (req : Request) : Prop where
  key : req.key.length < 2 ^ 16
  value : (req.value.getD []).length < 2 ^ 32
  ttl : int64 req.ttl = req.ttl

def Request.Same (a b : Request) : Prop :=
  a.cmd = b.cmd ∧ a.key = b.key ∧ a.value.getD [] = b.value.getD [] ∧ a.ttl = b.ttl

inductive SetRequest.Fits : SetRequest → Prop where
  | key {c : Cmd} {key : Bytes} (hc : c = .sMembers ∨ c = .sCard ∨ c = .sPop)
      (hkey : key.length < 2 ^ 16) : Fits ⟨c.code, key, [], 0, []⟩
  | elems {c : Cmd} {key : Bytes} {elems : List Bytes} (hc : c = .sAdd ∨ c = .sRem)
      (hkey : key.length < 2 ^ 16) (hcount : elems.length < 2 ^ 32)
      (hfits : ∀ e ∈ elems, e.length < 2 ^ 32) : Fits ⟨c.code, key, elems, 0, []⟩
  | sIsMember {key elem : Bytes} (hkey : key.length < 2 ^ 16)
      (helem : elem.length < 2 ^ 32) : Fits ⟨Cmd.sIsMember.code, key, [elem], 0, []⟩
  | sRandMember {key : Bytes} {count : ℤ} (hkey : key.length < 2 ^ 16)
      (hcount : -2 ^ 31 ≤ count ∧ count < 2 ^ 31) :
      Fits ⟨Cmd.sRandMember.code, key, [], count, []⟩
  | keys {c : Cmd} {keys : List Bytes} (hc : c = .sUnion ∨ c = .sInter ∨ c = .sDiff)
      (hcount : keys.length < 2 ^ 16) (hfits : ∀ key ∈ keys, key.length < 2 ^ 16) :
      Fits ⟨c.code, [], [], 0, keys⟩

inductive HashRequest.Fits : HashRequest → Prop where
  | key {c : Cmd} {key : Bytes} (hc : c = .hGetAll ∨ c = .hKeys ∨ c = .hVals ∨ c = .hLen)
      (hkey : key.length < 2 ^ 16) : Fits ⟨c.code, key, [], [], [], [], 0, 0⟩
  | field {c : Cmd} {key field : Bytes} (hc : c = .hGet ∨ c = .hExists ∨ c = .hStrLen)
      (hkey : key.length < 2 ^ 16) (hfield : field.length < 2 ^ 16) :
      Fits ⟨c.code, key, field, [], [], [], 0, 0⟩
  | value {c : Cmd} {key field value : Bytes} (hc : c = .hSet ∨ c = .hSetNX)
      (hkey : key.length < 2 ^ 16) (hfield : field.length < 2 ^ 16)
      (hvalue : value.length < 2 ^ 32) :
      Fits ⟨c.code, key, field, value, [], [], 0, 0⟩
  | fields {c : Cmd} {key : Bytes} {fields : List Bytes} (hc : c = .hDel ∨ c = .hmGet)
      (hkey : key.length < 2 ^ 16) (hcount : fields.length < 2 ^ 16)
      (hfits : ∀ field ∈ fields, field.length < 2 ^ 16) :
      Fits ⟨c.code, key, [], [], fields, [], 0, 0⟩
  | hIncrBy {key field : Bytes} {delta : ℤ} (hkey : key.length < 2 ^ 16)
      (hfield : field.length < 2 ^ 16) (hdelta : int64 delta = delta) :
      Fits ⟨Cmd.hIncrBy.code, key, field, [], [], [], delta, 0⟩
  | hIncrByFloat {key field : Bytes} {delta : UInt64} (hkey : key.length < 2 ^ 16)
      (hfield : field.length < 2 ^ 16) :
      Fits ⟨Cmd.hIncrByFloat.code, key, field, [], [], [], 0, delta⟩
  | hmSet {key : Bytes} {fvPairs : List Bytes} (hkey : key.length < 2 ^ 16)
      (heven : Even fvPairs.length) (hcount : fvPairs.length / 2 < 2 ^ 16)
      (hfits : ∀ text ∈ fvPairs, text.length < 2 ^ 16) :
      Fits ⟨Cmd.hmSet.code, key, [], [], [], fvPairs, 0, 0⟩

inductive ListRequest.Fits : ListRequest → Prop where
  | key {c : Cmd} {key : Bytes} (hc : c = .lPop ∨ c = .rPop ∨ c = .lLen)
      (hkey : key.length < 2 ^ 16) :
      Fits ⟨c.code, key, [], [], 0, 0, 0, 0, [], false, 0, 0, 0⟩
  | push {c : Cmd} {key : Bytes} {elements : List Bytes} (hc : c = .lPush ∨ c = .rPush)
      (hkey : key.length < 2 ^ 16) (hcount : elements.length < 2 ^ 32)
      (hfits : ∀ e ∈ elements, e.length < 2 ^ 16) :
      Fits ⟨c.code, key, elements, [], 0, 0, 0, 0, [], false, 0, 0, 0⟩
  | range {c : Cmd} {key : Bytes} {start stop : ℤ} (hc : c = .lRange ∨ c = .lTrim)
      (hkey : key.length < 2 ^ 16) (hstart : int64 start = start)
      (hstop : int64 stop = stop) :
      Fits ⟨c.code, key, [], [], 0, start, stop, 0, [], false, 0, 0, 0⟩
  | lIndex {key : Bytes} {index : ℤ} (hkey : key.length < 2 ^ 16) (hindex : int64 index = index) :
      Fits ⟨Cmd.lIndex.code, key, [], [], index, 0, 0, 0, [], false, 0, 0, 0⟩
  | lSet {key value : Bytes} {index : ℤ} (hkey : key.length < 2 ^ 16)
      (hvalue : value.length < 2 ^ 32) (hindex : int64 index = index) :
      Fits ⟨Cmd.lSet.code, key, [], value, index, 0, 0, 0, [], false, 0, 0, 0⟩
  | lRem {key value : Bytes} {count : ℤ} (hkey : key.length < 2 ^ 16)
      (hvalue : value.length < 2 ^ 32) (hcount : int64 count = count) :
      Fits ⟨Cmd.lRem.code, key, [], value, 0, 0, 0, count, [], false, 0, 0, 0⟩
  | lInsert {key pivot value : Bytes} {before : Bool} (hkey : key.length < 2 ^ 16)
      (hpivot : pivot.length < 2 ^ 16) (hvalue : value.length < 2 ^ 32) :
      Fits ⟨Cmd.lInsert.code, key, [], value, 0, 0, 0, 0, pivot, before, 0, 0, 0⟩
  | timeout {c : Cmd} {key : Bytes} {timeout : ℤ} (hc : c = .blPop ∨ c = .brPop)
      (hkey : key.length < 2 ^ 16) (htimeout : int64 timeout = timeout) :
      Fits ⟨c.code, key, [], [], 0, 0, 0, 0, [], false, timeout, 0, 0⟩
  | lPos {key value : Bytes} {rank count maxLen : ℤ} (hkey : key.length < 2 ^ 16)
      (hvalue : value.length < 2 ^ 32) (hrank : int64 rank = rank)
      (hcount : int64 count = count) (hmaxLen : int64 maxLen = maxLen) :
      Fits ⟨Cmd.lPos.code, key, [], value, 0, 0, 0, count, [], false, 0, rank, maxLen⟩

theorem decodeRequestPayload_encodePayload {req : Request} (h : req.Fits) (stale : Bytes) :
    ∃ got, decodeRequestPayload (.of req.encodePayload stale) = .ok got ∧ got.Same req := by
  refine ⟨_, decodeRequestPayload_layout (Slice.rest_of _ stale) h.key h.value, rfl,
    rfl, ?_, h.ttl⟩
  dsimp only
  split_ifs with hempty
  · exact hempty.symm
  · rfl

theorem decodeHashRequest_encodeHashRequest {req : HashRequest} (h : req.Fits) (stale : Bytes) :
    ∃ payload, encodeHashRequest req = some payload ∧
      decodeHashRequest (.of payload stale) = .ok req := by
  cases h with
  | key hc hkey =>
    refine ⟨_, ?_, decodeHashRequest_key (Slice.rest_of _ stale) hc hkey⟩
    rcases hc with rfl | rfl | rfl | rfl <;> rfl
  | field hc hkey hfield =>
    refine ⟨_, ?_, decodeHashRequest_field (Slice.rest_of _ stale) hc hkey hfield⟩
    rcases hc with rfl | rfl | rfl <;> rfl
  | value hc hkey hfield hvalue =>
    refine ⟨_, ?_, decodeHashRequest_value (Slice.rest_of _ stale) hc hkey hfield hvalue⟩
    rcases hc with rfl | rfl <;> rfl
  | fields hc hkey hcount hfits =>
    refine ⟨_, ?_, decodeHashRequest_fields (Slice.rest_of _ stale) hc hkey hcount hfits⟩
    rcases hc with rfl | rfl <;> rfl
  | hIncrBy hkey hfield hdelta =>
    refine ⟨_, rfl, ?_⟩
    rw [decodeHashRequest_hIncrBy (Slice.rest_of _ stale) hkey hfield, hdelta]
  | hIncrByFloat hkey hfield =>
    exact ⟨_, rfl, decodeHashRequest_hIncrByFloat (Slice.rest_of _ stale) hkey hfield⟩
  | @hmSet key fvPairs hkey heven hcount hfits =>
    have hencode : encodeHashRequest ⟨Cmd.hmSet.code, key, [], [], [], fvPairs, 0, 0⟩ =
        some (Cmd.hmSet.code :: (bigEndian 2 key.length ++
          bigEndian 2 (fvPairs.length / 2) ++ key ++
          (evenPart fvPairs).flatMap (sized 2))) := rfl
    rw [evenPart_eq heven] at hencode
    exact ⟨_, hencode, decodeHashRequest_hmSet (Slice.rest_of _ stale) hkey heven hcount hfits⟩

theorem decodeListRequest_encodeListRequest {req : ListRequest} (h : req.Fits) (stale : Bytes) :
    ∃ payload, encodeListRequest req = some payload ∧
      decodeListRequest (.of payload stale) = .ok req := by
  cases h with
  | key hc hkey =>
    refine ⟨_, ?_, decodeListRequest_key (Slice.rest_of _ stale) hc hkey⟩
    rcases hc with rfl | rfl | rfl <;> rfl
  | push hc hkey hcount hfits =>
    refine ⟨_, ?_, decodeListRequest_push (Slice.rest_of _ stale) hc hkey hcount hfits⟩
    rcases hc with rfl | rfl <;> rfl
  | range hc hkey hstart hstop =>
    rcases hc with rfl | rfl
    · refine ⟨_, rfl, ?_⟩
      rw [decodeListRequest_range (Slice.rest_of _ stale) (.inl rfl) hkey, hstart, hstop]
    · refine ⟨_, rfl, ?_⟩
      rw [decodeListRequest_range (Slice.rest_of _ stale) (.inr rfl) hkey, hstart, hstop]
  | lIndex hkey hindex =>
    refine ⟨_, rfl, ?_⟩
    rw [decodeListRequest_lIndex (Slice.rest_of _ stale) hkey, hindex]
  | lSet hkey hvalue hindex =>
    refine ⟨_, rfl, ?_⟩
    rw [decodeListRequest_element (Slice.rest_of _ stale) (.inl rfl) hkey hvalue, hindex]
    rfl
  | lRem hkey hvalue hcount =>
    refine ⟨_, rfl, ?_⟩
    rw [decodeListRequest_element (Slice.rest_of _ stale) (.inr rfl) hkey hvalue, hcount]
    rfl
  | lInsert hkey hpivot hvalue =>
    exact ⟨_, rfl, decodeListRequest_lInsert (Slice.rest_of _ stale) hkey hpivot hvalue⟩
  | timeout hc hkey htimeout =>
    rcases hc with rfl | rfl
    · refine ⟨_, rfl, ?_⟩
      rw [decodeListRequest_timeout (Slice.rest_of _ stale) (.inl rfl) hkey, htimeout]
    · refine ⟨_, rfl, ?_⟩
      rw [decodeListRequest_timeout (Slice.rest_of _ stale) (.inr rfl) hkey, htimeout]
  | lPos hkey hvalue hrank hcount hmaxLen =>
    refine ⟨_, rfl, ?_⟩
    rw [decodeListRequest_lPos (Slice.rest_of _ stale) hkey hvalue, hrank, hcount, hmaxLen]

theorem requests_survive (stale : Bytes) : (∀ req : Request, req.Fits →
      ∃ got, decodeRequestPayload (.of req.encodePayload stale) = .ok got ∧ got.Same req) ∧
    (∀ req : HashRequest, req.Fits → ∃ payload, encodeHashRequest req = some payload ∧
        decodeHashRequest (.of payload stale) = .ok req) ∧
    (∀ req : ListRequest, req.Fits → ∃ payload, encodeListRequest req = some payload ∧
        decodeListRequest (.of payload stale) = .ok req) :=
  ⟨fun _ h => decodeRequestPayload_encodePayload h stale,
    fun _ h => decodeHashRequest_encodeHashRequest h stale,
    fun _ h => decodeListRequest_encodeListRequest h stale⟩

theorem requests_survive_hmSet :
    ∃ payload, encodeHashRequest ⟨Cmd.hmSet.code, ascii "h", [], [], [],
        [ascii "f", ascii "v"], 0, 0⟩ = some payload ∧
      decodeHashRequest (.of payload [7]) = .ok ⟨Cmd.hmSet.code, ascii "h", [], [], [],
        [ascii "f", ascii "v"], 0, 0⟩ :=
  (requests_survive [7]).2.1 _ (.hmSet (by decide) (by decide) (by decide) (by decide))

def SetRequest.keyEnd (req : SetRequest) : ℕ :=
  match Cmd.ofCode? req.cmd with
  | some .sMembers | some .sCard | some .sPop => 3 + req.key.length
  | some .sAdd | some .sRem | some .sIsMember | some .sRandMember =>
    7 + req.key.length
  | _ => 0

theorem decodeSetRequest_encodeSetRequest {req : SetRequest} (h : req.Fits) (stale : Bytes) :
    ∃ payload, encodeSetRequest req = some payload ∧ decodeSetRequest (.of payload stale) =
        if req.keyEnd < 2 ^ 16 then .ok req else .error .panic := by
  cases h with
  | key hc hkey =>
    refine ⟨_, ?_, (decodeSetRequest_key (Slice.rest_of _ stale) hc hkey).trans ?_⟩ <;>
      rcases hc with rfl | rfl | rfl <;> rfl
  | elems hc hkey hcount hfits =>
    refine ⟨_, ?_, (decodeSetRequest_elems (Slice.rest_of _ stale) hc hkey hcount
      hfits).trans ?_⟩ <;> rcases hc with rfl | rfl <;> rfl
  | sIsMember hkey helem =>
    exact ⟨_, rfl, decodeSetRequest_sIsMember (Slice.rest_of _ stale) hkey helem⟩
  | sRandMember hkey hcount =>
    refine ⟨_, rfl, ?_⟩
    rw [decodeSetRequest_sRandMember (Slice.rest_of _ stale) hkey, int32_uint32 hcount.1 hcount.2]
    rfl
  | @keys c keys hc hcount hfits =>
    have hend : (SetRequest.mk c.code [] [] 0 keys).keyEnd = 0 := by
      rcases hc with rfl | rfl | rfl <;> rfl
    refine ⟨_, ?_, (decodeSetRequest_keys (Slice.rest_of _ stale) hc hcount
      hfits).trans (if_pos (hend ▸ Nat.two_pow_pos 16)).symm⟩
    rcases hc with rfl | rfl | rfl <;> rfl

theorem setRequest_survives_iff {req : SetRequest} (h : req.Fits) (stale : Bytes) :
    (∃ payload, encodeSetRequest req = some payload ∧
      decodeSetRequest (.of payload stale) = .ok req) ↔ req.keyEnd < 2 ^ 16 := by
  rcases decodeSetRequest_encodeSetRequest h stale with ⟨payload, hencode, hdecode⟩
  constructor
  · rintro ⟨other, hother, hok⟩
    cases hencode.symm.trans hother
    by_contra hend
    rw [hdecode, if_neg hend] at hok
    cases hok
  · intro hend
    exact ⟨payload, hencode, hdecode.trans (if_pos hend)⟩

theorem setRequest_survives_iff_scard :
    ∃ payload, encodeSetRequest ⟨Cmd.sCard.code, ascii "s", [], 0, []⟩ = some payload ∧
      decodeSetRequest (.of payload []) = .ok ⟨Cmd.sCard.code, ascii "s", [], 0, []⟩ :=
  (setRequest_survives_iff (.key (.inr (.inl rfl)) (by decide)) []).mpr (by decide)

theorem sMembers_longest_key :
    decodeSetRequest (.of (Cmd.sMembers.code :: sized 2 (List.replicate 65533 0)) []) =
      .error .panic := by
  rw [decodeSetRequest_key (Slice.rest_of _ []) (.inl rfl)
    (by rw [List.length_replicate]; norm_num),
    if_neg (by rw [List.length_replicate]; norm_num)]

end MCache.Net
