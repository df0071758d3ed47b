import MCache.ResponseRoundTrip
import MCache.ServerDispatch

/-!
# Responses survive the wire

String, hash and list responses come back from the decoder of the client as the
server built them.  The set encoder has no branch for errors and writes the
result of the command in place of the message; the answer to `SPOP` does not
tell an empty element from none and ends in 16 bits.
-/

namespace MCache.Net

open MCache.Store

structure Response.Fits (resp : Response) : Prop where
  value : (resp.value.getD []).length < 2 ^ 32
  errMsg : resp.errMsg.length < 2 ^ 16

def Response.Same (a b : Response) : Prop :=
  a.status = b.status ∧ a.value.getD [] = b.value.getD [] ∧ a.errMsg = b.errMsg

inductive HashResponse.Fits : HashResponse → Prop where
  | error {cmd : UInt8} {errMsg : Bytes} (herrMsg : errMsg.length < 2 ^ 16) :
      Fits { cmd := cmd, status := statusErr, errMsg := errMsg }
  | int {c : Cmd} {status : UInt8} {n : ℤ}
      (hc : c = .hSet ∨ c = .hDel ∨ c = .hLen ∨ c = .hStrLen ∨ c = .hIncrBy)
      (hstatus : status ≠ statusErr) (hn : int64 n = n) :
      Fits { cmd := c.code, status := status, intResult := n }
  | flag {c : Cmd} {status : UInt8} {b : Bool} (hc : c = .hExists ∨ c = .hSetNX)
      (hstatus : status ≠ statusErr) :
      Fits { cmd := c.code, status := status, boolResult := b }
  | hGet {status : UInt8} {value : Bytes} (hstatus : status ≠ statusErr)
      (hvalue : value.length < 2 ^ 32) :
      Fits { cmd := Cmd.hGet.code, status := status, strResult := value }
  | hGetAll {status : UInt8} {fields : HashValue} (hstatus : status ≠ statusErr)
      (hcount : fields.keys.length < 2 ^ 32)
      (hfield : ∀ field ∈ fields, field.length < 2 ^ 16)
      (hvalue : ∀ field value, fields.lookup field = some value → value.length < 2 ^ 32) :
      Fits { cmd := Cmd.hGetAll.code, status := status, mapResult := fields }
  | texts {c : Cmd} {status : UInt8} {texts : List Bytes} (hc : c = .hKeys ∨ c = .hVals)
      (hstatus : status ≠ statusErr) (hcount : texts.length < 2 ^ 32)
      (hfits : ∀ text ∈ texts, text.length < 2 ^ 16) :
      Fits { cmd := c.code, status := status, sliceResult := texts }
  | hIncrByFloat {status : UInt8} {n : UInt64} (hstatus : status ≠ statusErr) :
      Fits { cmd := Cmd.hIncrByFloat.code, status := status, floatResult := n }
  | hmGet {status : UInt8} {values : List (Option Bytes)} (hstatus : status ≠ statusErr)
      (hcount : values.length < 2 ^ 32)
      (hfits : ∀ text, some text ∈ values → text.length < 2 ^ 32) :
      Fits { cmd := Cmd.hmGet.code, status := status, anySlice := values }
  | hmSet {status : UInt8} (hstatus : status ≠ statusErr) :
      Fits { cmd := Cmd.hmSet.code, status := status }

def HashResponse.Same (a b : HashResponse) : Prop := a = { b with mapResult := a.mapResult } ∧
    ∀ field, a.mapResult.lookup field = b.mapResult.lookup field

inductive ListResponse.Fits : ListResponse → Prop where
  | error {cmd : UInt8} {errMsg : Bytes} (herrMsg : errMsg.length < 2 ^ 16) :
      Fits { cmd := cmd, status := statusErr, errMsg := errMsg }
  | int {c : Cmd} {status : UInt8} {n : ℤ}
      (hc : c = .lPush ∨ c = .rPush ∨ c = .lLen ∨ c = .lRem ∨ c = .lInsert)
      (hstatus : status ≠ statusErr) (hn : int64 n = n) :
      Fits { cmd := c.code, status := status, intResult := n }
  | value {c : Cmd} {status : UInt8} {value : Bytes}
      (hc : c = .lPop ∨ c = .rPop ∨ c = .blPop ∨ c = .brPop ∨ c = .lIndex)
      (hstatus : status ≠ statusErr) (hvalue : value.length < 2 ^ 32) :
      Fits { cmd := c.code, status := status, strResult := value }
  | lRange {status : UInt8} {texts : List Bytes} (hstatus : status ≠ statusErr)
      (hcount : texts.length < 2 ^ 32) (hfits : ∀ text ∈ texts, text.length < 2 ^ 16) :
      Fits { cmd := Cmd.lRange.code, status := status, sliceResult := texts }
  | lSet {status : UInt8} {b : Bool} (hstatus : status ≠ statusErr) :
      Fits { cmd := Cmd.lSet.code, status := status, boolResult := b }
  | lTrim {status : UInt8} (hstatus : status ≠ statusErr) :
      Fits { cmd := Cmd.lTrim.code, status := status }
  | lPos {status : UInt8} {positions : List ℤ} (hstatus : status ≠ statusErr)
      (hcount : positions.length < 2 ^ 32)
      (hfits : ∀ pos ∈ positions, int64 pos = pos) :
      Fits { cmd := Cmd.lPos.code, status := status, posResult := positions }

theorem decodeResponsePayload_encodePayload {resp : Response} (h : resp.Fits) (stale : Bytes) :
    ∃ got, decodeResponsePayload (.of resp.encodePayload stale) = .ok got ∧ got.Same resp := by
  refine ⟨_, decodeResponsePayload_layout (Slice.rest_of _ stale) h.value h.errMsg, rfl, ?_, rfl⟩
  dsimp only
  split_ifs with hempty
  · exact hempty.symm
  · rfl

theorem HashResponse.Same.refl (resp : HashResponse) : resp.Same resp := ⟨rfl, fun _ => rfl⟩

theorem lookup_seenFields {fields : HashValue} {order : List Bytes}
    (horder : order.Perm fields.keys)
    (hfits : ∀ field ∈ order, field.length < 2 ^ 16) (field : Bytes) :
    (seenFields (fun field => (fields.lookup field).getD []) order).lookup field =
      fields.lookup field := by
  rw [seenFields, if_pos hfits]
  by_cases hmem : field ∈ order
  · refine (lookup_foldl_insert ∅ (.inl hmem)).trans ?_
    have hfield : field ∈ fields := AList.mem_keys.mp (horder.subset hmem)
    rcases Option.isSome_iff_exists.mp (AList.lookup_isSome.mpr hfield) with
      ⟨value, hvalue⟩
    rw [hvalue]
    rfl
  · rw [lookup_foldl_insert_of_notMem ∅ hmem]
    have hfield : field ∉ fields := fun h => hmem (horder.symm.subset (AList.mem_keys.mp h))
    exact (AList.lookup_eq_none.mpr hfield).symm

theorem decodeHashResponse_encodeHashResponse {resp : HashResponse} (h : resp.Fits)
    (order : KeyOrder) (stale : Bytes) :
    ∃ got, decodeHashResponse (.of (encodeHashResponse order resp) stale) resp.cmd =
      .ok got ∧ got.Same resp := by
  cases h with
  | error herrMsg =>
    rw [encodeHashResponse, if_pos rfl]
    exact ⟨_, (decodeResponse_error _ (Slice.rest_of _ stale) herrMsg).1, .refl _⟩
  | @int c status n hc hstatus hn =>
    have hencode : encodeHashResponse order
        { cmd := c.code, status := status, intResult := n } = status :: bigEndian 8 (uint64 n) := by
      rw [encodeHashResponse, if_neg hstatus]
      rcases hc with rfl | rfl | rfl | rfl | rfl <;> rfl
    rw [hencode]
    refine ⟨_, decodeHashResponse_int hstatus (Slice.rest_of _ stale) hc, ?_⟩
    rw [hn]
    exact .refl _
  | @flag c status b hc hstatus =>
    have hencode : encodeHashResponse order
        { cmd := c.code, status := status, boolResult := b } = [status, boolByte b] := by
      rw [encodeHashResponse, if_neg hstatus]
      rcases hc with rfl | rfl <;> rfl
    rw [hencode]
    exact ⟨_, decodeHashResponse_flag hstatus (Slice.rest_of _ stale) hc, .refl _⟩
  | hGet hstatus hvalue =>
    rw [encodeHashResponse, if_neg hstatus]
    exact ⟨_, decodeHashResponse_hGet hstatus (Slice.rest_of _ stale) hvalue, .refl _⟩
  | @hGetAll status fields hstatus hcount hfield hvalue =>
    have hperm := order.perm fields.keys
    have hencode : encodeHashResponse order
        { cmd := Cmd.hGetAll.code, status := status, mapResult := fields } =
          status :: (bigEndian 4 (order.arrange fields.keys).length ++
            fieldBytes (fun field => (fields.lookup field).getD [])
              (order.arrange fields.keys)) := by
      rw [encodeHashResponse, if_neg hstatus, hperm.length_eq]
      rfl
    rw [hencode]
    refine ⟨_, decodeHashResponse_hGetAll hstatus (Slice.rest_of _ stale)
      (hperm.length_eq ▸ hcount) (fun field _ => ?_), rfl,
      lookup_seenFields hperm fun field h => hfield field (AList.mem_keys.mp (hperm.subset h))⟩
    cases hlookup : fields.lookup field with
    | none => simp
    | some value => exact hvalue field value hlookup
  | @texts c status texts hc hstatus hcount hfits =>
    have hencode : encodeHashResponse order
        { cmd := c.code, status := status, sliceResult := texts } = status :: counted texts := by
      rw [encodeHashResponse, if_neg hstatus]
      rcases hc with rfl | rfl <;> rfl
    rw [hencode]
    refine ⟨_, decodeHashResponse_texts hstatus (Slice.rest_of _ stale) hc hcount, ?_⟩
    rw [seen, if_pos hfits]
    exact .refl _
  | hIncrByFloat hstatus =>
    rw [encodeHashResponse, if_neg hstatus]
    exact ⟨_, decodeHashResponse_hIncrByFloat hstatus (Slice.rest_of _ stale), .refl _⟩
  | hmGet hstatus hcount hfits =>
    rw [encodeHashResponse, if_neg hstatus]
    exact ⟨_, decodeHashResponse_hmGet hstatus (Slice.rest_of _ stale) hcount hfits, .refl _⟩
  | hmSet hstatus =>
    rw [encodeHashResponse, if_neg hstatus]
    exact ⟨_, decodeHashResponse_hmSet hstatus (Slice.rest_of _ stale), .refl _⟩

theorem decodeListResponse_encodeListResponse {resp : ListResponse} (h : resp.Fits)
    (stale : Bytes) :
    decodeListResponse (.of (encodeListResponse resp) stale) resp.cmd = .ok resp := by
  cases h with
  | error herrMsg =>
    rw [encodeListResponse, if_pos rfl]
    exact (decodeResponse_error _ (Slice.rest_of _ stale) herrMsg).2
  | @int c status n hc hstatus hn =>
    have hencode : encodeListResponse
        { cmd := c.code, status := status, intResult := n } = status :: bigEndian 8 (uint64 n) := by
      rw [encodeListResponse, if_neg hstatus]
      rcases hc with rfl | rfl | rfl | rfl | rfl <;> rfl
    rw [hencode, decodeListResponse_int hstatus (Slice.rest_of _ stale) hc, hn]
  | @value c status value hc hstatus hvalue =>
    have hencode : encodeListResponse
        { cmd := c.code, status := status, strResult := value } = status :: sized 4 value := by
      rw [encodeListResponse, if_neg hstatus]
      rcases hc with rfl | rfl | rfl | rfl | rfl <;> rfl
    rw [hencode]
    exact decodeListResponse_value hstatus (Slice.rest_of _ stale) hc hvalue
  | lRange hstatus hcount hfits =>
    rw [encodeListResponse, if_neg hstatus]
    refine (decodeListResponse_lRange hstatus (Slice.rest_of _ stale) hcount).trans ?_
    rw [seen, if_pos hfits]
  | lSet hstatus =>
    rw [encodeListResponse, if_neg hstatus]
    exact decodeListResponse_lSet hstatus (Slice.rest_of _ stale)
  | lTrim hstatus =>
    rw [encodeListResponse, if_neg hstatus]
    exact decodeListResponse_lTrim hstatus (Slice.rest_of _ stale)
  | lPos hstatus hcount hfits =>
    rw [encodeListResponse, if_neg hstatus]
    exact decodeListResponse_lPos hstatus (Slice.rest_of _ stale) hcount hfits

theorem responses_survive (order : KeyOrder) (stale : Bytes) : (∀ resp : Response, resp.Fits →
      ∃ got, decodeResponsePayload (.of resp.encodePayload stale) = .ok got ∧ got.Same resp) ∧
    (∀ resp : HashResponse, resp.Fits →
      ∃ got, decodeHashResponse (.of (encodeHashResponse order resp) stale) resp.cmd =
        .ok got ∧ got.Same resp) ∧
    (∀ resp : ListResponse, resp.Fits →
      decodeListResponse (.of (encodeListResponse resp) stale) resp.cmd = .ok resp) :=
  ⟨fun _ h => decodeResponsePayload_encodePayload h stale,
    fun _ h => decodeHashResponse_encodeHashResponse h order stale,
    fun _ h => decodeListResponse_encodeListResponse h stale⟩

theorem responses_survive_lPos : decodeListResponse (.of (encodeListResponse
        { cmd := Cmd.lPos.code, status := statusOK, posResult := [0, 3] }) [7])
      Cmd.lPos.code =
      .ok { cmd := Cmd.lPos.code, status := statusOK, posResult := [0, 3] } :=
  (responses_survive .asStored [7]).2.2 _ (.lPos (by decide) (by decide) (by decide))

def setCmds : List Cmd :=
  [.sAdd, .sRem, .sIsMember, .sMembers, .sCard, .sPop, .sRandMember, .sUnion, .sInter, .sDiff]

inductive SetResponse.Built : SetResponse → Prop where
  | changed {c : Cmd} {n : ℕ} (hc : c = .sAdd ∨ c = .sRem) (hn : n < 2 ^ 64) :
      Built { cmd := c.code, status := statusOK, changed := n }
  | isMember {b : Bool} : Built { cmd := Cmd.sIsMember.code, status := statusOK, isMember := b }
  | card {n : ℕ} (hn : n < 2 ^ 64) : Built { cmd := Cmd.sCard.code, status := statusOK, card := n }
  | popped {elem : Bytes} : Built { cmd := Cmd.sPop.code, status := statusOK, elems := [elem] }
  | listed {c : Cmd} {elems : List Bytes}
      (hc : c = .sRandMember ∨ c = .sMembers ∨ c = .sUnion ∨ c = .sInter ∨ c = .sDiff) :
      Built { cmd := c.code, status := statusOK, elems := elems }
  | notFound {c : Cmd} (hc : c ∈ setCmds) : Built { cmd := c.code, status := statusNotFound }
  | err {c : Cmd} {errMsg : Bytes} (hc : c ∈ setCmds) : Built (.err c.code errMsg)

def zeroBody (cmd : UInt8) : Bytes :=
  match Cmd.ofCode? cmd with
  | some .sAdd | some .sRem | some .sCard => List.replicate 8 0
  | some .sIsMember => [0]
  | some .sPop => [0, 0]
  | _ => List.replicate 4 0

def SetResponse.Readable (resp : SetResponse) : Prop :=
  (resp.status = statusErr → resp.errMsg = zeroBody resp.cmd) ∧ (Cmd.ofCode? resp.cmd = some .sPop →
      ∀ e ∈ resp.elems, e ≠ [] ∧ 3 + e.length < 2 ^ 16)

theorem bigEndian_zero (width : ℕ) : bigEndian width 0 = List.replicate width 0 := by
  induction width with
  | zero => rfl
  | succ width ih =>
    rw [bigEndian, Nat.zero_div, ih, List.replicate_succ']
    rfl

theorem encodeSetResponse_noResult {c : Cmd} (hc : c ∈ setCmds) (status : UInt8) (errMsg : Bytes) :
    encodeSetResponse { cmd := c.code, status := status, errMsg := errMsg } =
      status :: zeroBody c.code := by
  simp only [setCmds, List.mem_cons, List.not_mem_nil, or_false] at hc
  rcases hc with rfl | rfl | rfl | rfl | rfl | rfl | rfl | rfl | rfl | rfl
  all_goals
    simp [encodeSetResponse, zeroBody, Cmd.ofCode?_code, sized, counted, boolByte,
      bigEndian_zero, List.replicate]

theorem zeroBody_ne_nil (cmd : UInt8) : zeroBody cmd ≠ [] := by
  unfold zeroBody
  split <;> simp

theorem decodeSetResponse_listed {c : Cmd} {status : UInt8} {elems : List Bytes}
    (hc : c = .sRandMember ∨ c = .sMembers ∨ c = .sUnion ∨ c = .sInter ∨ c = .sDiff)
    (hstatus : status ≠ statusErr) (hcount : elems.length < 2 ^ 32)
    (hfits : ∀ e ∈ elems, e.length < 2 ^ 16) (stale : Bytes) :
    decodeSetResponse (.of (encodeSetResponse
        { cmd := c.code, status := status, elems := elems }) stale) c.code =
      .ok { cmd := c.code, status := status, elems := elems } := by
  have hencode : encodeSetResponse { cmd := c.code, status := status, elems := elems } =
      status :: counted elems := by
    rcases hc with rfl | rfl | rfl | rfl | rfl <;> rfl
  rw [hencode, decodeSetResponse_texts hstatus (Slice.rest_of _ stale) hc hcount, seen,
    if_pos hfits]

theorem decodeSetResponse_noResult {c : Cmd} (hc : c ∈ setCmds) {status : UInt8}
    (hstatus : status ≠ statusErr) (stale : Bytes) :
    decodeSetResponse (.of (encodeSetResponse { cmd := c.code, status := status }) stale)
      c.code = .ok { cmd := c.code, status := status } := by
  have hzero : 0 < 2 ^ 64 := by norm_num
  by_cases hlisted : c = .sRandMember ∨ c = .sMembers ∨ c = .sUnion ∨ c = .sInter ∨ c = .sDiff
  · exact decodeSetResponse_listed hlisted hstatus (by simp) (by simp) stale
  · have hsingle : c ∈ [Cmd.sAdd, .sRem, .sIsMember, .sCard, .sPop] := by
      simp only [setCmds, List.mem_cons, List.not_mem_nil, or_false] at hc ⊢
      tauto
    simp only [List.mem_cons, List.not_mem_nil, or_false] at hsingle
    rcases hsingle with rfl | rfl | rfl | rfl | rfl
    · exact decodeSetResponse_changed hstatus (Slice.rest_of _ stale) (.inl rfl) hzero
    · exact decodeSetResponse_changed hstatus (Slice.rest_of _ stale) (.inr rfl) hzero
    · exact decodeSetResponse_sIsMember hstatus (Slice.rest_of _ stale)
    · exact decodeSetResponse_sCard hstatus (Slice.rest_of _ stale) hzero
    · exact decodeSetResponse_sPop hstatus (Slice.rest_of (status :: sized 2 []) stale) (by simp)

theorem decodeSetResponse_err {c : Cmd} (hc : c ∈ setCmds) (errMsg stale : Bytes) :
    decodeSetResponse (.of (encodeSetResponse (.err c.code errMsg)) stale) c.code =
      .ok (.err c.code (zeroBody c.code)) := by
  rw [SetResponse.err, encodeSetResponse_noResult hc]
  exact decodeSetResponse_error _ (Slice.rest_of _ stale) (zeroBody_ne_nil _)

theorem setResponse_survives_iff {resp : SetResponse} (h : resp.Built)
    (hcount : resp.elems.length < 2 ^ 32) (hfits : ∀ e ∈ resp.elems, e.length < 2 ^ 16)
    (stale : Bytes) :
    decodeSetResponse (.of (encodeSetResponse resp) stale) resp.cmd = .ok resp ↔ resp.Readable := by
  have hok : statusOK ≠ statusErr := by decide
  cases h with
  | @changed c n hc hn =>
    have hencode : encodeSetResponse { cmd := c.code, status := statusOK, changed := n } =
        statusOK :: bigEndian 8 n := by
      rcases hc with rfl | rfl <;> rfl
    have hdecode := decodeSetResponse_changed hok
      (Slice.rest_of (statusOK :: bigEndian 8 n) stale) hc hn
    rw [hencode]
    exact iff_of_true hdecode ⟨fun h => absurd h hok, by simp⟩
  | isMember =>
    exact iff_of_true (decodeSetResponse_sIsMember hok (Slice.rest_of _ stale))
      ⟨fun h => absurd h hok, by simp⟩
  | card hn =>
    exact iff_of_true (decodeSetResponse_sCard hok (Slice.rest_of _ stale) hn)
      ⟨fun h => absurd h hok, by simp⟩
  | @popped elem =>
    have helem : elem.length < 2 ^ 16 := hfits elem List.mem_cons_self
    have hdecode := decodeSetResponse_sPop hok
      (Slice.rest_of (statusOK :: sized 2 elem) stale) helem
    refine (Eq.congr_left hdecode).trans ?_
    constructor
    · intro hread
      split_ifs at hread with hempty hend
      · cases hread
      · exact ⟨fun h => absurd h hok, fun _ e he => List.mem_singleton.mp he ▸ ⟨hempty, hend⟩⟩
    · intro hreadable
      rcases hreadable.2 rfl elem List.mem_cons_self with ⟨hempty, hend⟩
      rw [if_neg hempty, if_pos hend]
  | @listed c elems hc =>
    refine iff_of_true (decodeSetResponse_listed hc hok hcount hfits stale)
      ⟨fun h => absurd h hok, ?_⟩
    rcases hc with rfl | rfl | rfl | rfl | rfl <;> simp [Cmd.ofCode?_code]
  | notFound hc =>
    have hnotFound : statusNotFound ≠ statusErr := by decide
    exact iff_of_true (decodeSetResponse_noResult hc hnotFound stale)
      ⟨fun h => absurd h hnotFound, by simp⟩
  | @err c errMsg hc =>
    refine (Eq.congr_left (decodeSetResponse_err hc errMsg stale)).trans ?_
    constructor
    · intro hread
      have hmsg : zeroBody c.code = errMsg := by
        injection hread with hread
        exact congrArg SetResponse.errMsg hread
      exact ⟨fun _ => hmsg.symm, fun _ e he => by simp [SetResponse.err] at he⟩
    · intro hreadable
      rw [show errMsg = zeroBody c.code from hreadable.1 rfl]

theorem setResponse_survives_iff_popped : decodeSetResponse (.of (encodeSetResponse
        { cmd := Cmd.sPop.code, status := statusOK, elems := [ascii "a"] }) [])
      Cmd.sPop.code = .ok { cmd := Cmd.sPop.code, status := statusOK, elems := [ascii "a"] } :=
  (setResponse_survives_iff .popped (by decide) (by decide) []).mpr ⟨by decide, by decide⟩

theorem sAdd_error_lost : decodeSetResponse (.of (encodeSetResponse
        (.err Cmd.sAdd.code (ascii "cache is closed"))) []) Cmd.sAdd.code =
      .ok (.err Cmd.sAdd.code (List.replicate 8 0)) ∧
    ascii "cache is closed" ≠ List.replicate 8 0 :=
  ⟨decodeSetResponse_err (by decide) _ [], by decide⟩

end MCache.Net
