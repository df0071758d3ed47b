import MCache.AnswerDelivery
import MCache.ResponseRoundTrip

/-!
# Collections over the wire

A write to a set, a hash or a list followed by a read of the same key, both
encoded by the client, executed by the server and decoded by the client.  The
response of `SMEMBERS`, `HVALS` and `LRANGE` has two bytes for the length of an
element, while `SADD`, `HSET`, `LSET` and `LINSERT` accept longer ones.
-/

namespace MCache.Net

open MCache.Store

/-! ## Calls -/

structure Line where
  env : Env
  stale : Bytes
  staleAtClient : Bytes

def Line.answer (l : Line) (c : Cache) (req : ClientRequest) : Option (Cache × Bytes) :=
  req.encode.bind fun payload =>
    if payload.length ≤ maxPayloadSize then
      handleFrame .off l.env c (.of payload l.stale)
    else none

def Line.call (l : Line) (c : Cache) (req : ClientRequest) : Option (Cache × ClientResponse) :=
  (l.answer c req).bind fun result =>
    if result.2.length ≤ maxPayloadSize then
      match readResponse (.of result.2 l.staleAtClient) with
      | .ok (some resp) => some (result.1, resp)
      | _ => none
    else none

def Line.takes (l : Line) (req : ClientRequest) : Option ClientRequest :=
  req.encode.bind fun payload =>
    if payload.length ≤ maxPayloadSize then
      (decodeClientRequest (.of payload l.stale) req.family).toOption
    else none

def ClientResponse.status : ClientResponse → UInt8
  | .string resp => resp.status
  | .hash resp => resp.status
  | .list resp => resp.status
  | .set resp => resp.status

inductive Write where
  | sAdd (elems : List Bytes)
  | hSet (field value : Bytes)
  | hSetNX (field value : Bytes)
  | lPush (elems : List Bytes)
  | rPush (elems : List Bytes)
  | lSet (index : ℤ) (value : Bytes)
  | lInsert (before : Bool) (pivot value : Bytes)

def Write.request (key : Bytes) : Write → ClientRequest
  | .sAdd elems => .set ⟨Cmd.sAdd.code, key, elems, 0, []⟩
  | .hSet field value => .hash ⟨Cmd.hSet.code, key, field, value, [], [], 0, 0⟩
  | .hSetNX field value => .hash ⟨Cmd.hSetNX.code, key, field, value, [], [], 0, 0⟩
  | .lPush elems =>
    .list ⟨Cmd.lPush.code, key, elems, [], 0, 0, 0, 0, [], false, 0, 0, 0⟩
  | .rPush elems =>
    .list ⟨Cmd.rPush.code, key, elems, [], 0, 0, 0, 0, [], false, 0, 0, 0⟩
  | .lSet index value =>
    .list ⟨Cmd.lSet.code, key, [], value, index, 0, 0, 0, [], false, 0, 0, 0⟩
  | .lInsert before pivot value =>
    .list ⟨Cmd.lInsert.code, key, [], value, 0, 0, 0, 0, pivot, before, 0, 0, 0⟩

def Write.command : Write → CollectionCommand
  | .sAdd elems => .sAdd elems
  | .hSet field value => .hSet field value
  | .hSetNX field value => .hSetNX field value
  | .lPush elems => .lPush elems
  | .rPush elems => .rPush elems
  | .lSet index value => .lSet index value
  | .lInsert before pivot value => .lInsert before pivot value

abbrev Content := Option (List Bytes) × Option HashValue × Option (List Bytes)

inductive Read where
  | sMembers
  | hGet (field : Bytes)
  | hVals
  | hGetAll
  | lRange (start stop : ℤ)
  | lPop

def Read.request (key : Bytes) : Read → ClientRequest
  | .sMembers => .set ⟨Cmd.sMembers.code, key, [], 0, []⟩
  | .hGet field => .hash ⟨Cmd.hGet.code, key, field, [], [], [], 0, 0⟩
  | .hVals => .hash ⟨Cmd.hVals.code, key, [], [], [], [], 0, 0⟩
  | .hGetAll => .hash ⟨Cmd.hGetAll.code, key, [], [], [], [], 0, 0⟩
  | .lRange start stop =>
    .list ⟨Cmd.lRange.code, key, [], [], 0, start, stop, 0, [], false, 0, 0, 0⟩
  | .lPop => .list ⟨Cmd.lPop.code, key, [], [], 0, 0, 0, 0, [], false, 0, 0, 0⟩

def Read.Contains (e : Bytes) : Read → ClientResponse → Prop
  | .sMembers, .set resp => resp.status = statusOK ∧ e ∈ resp.elems
  | .hGet _, .hash resp => resp.status = statusOK ∧ resp.strResult = e
  | .hVals, .hash resp => resp.status = statusOK ∧ e ∈ resp.sliceResult
  | .hGetAll, .hash resp =>
    resp.status = statusOK ∧ ∃ field, resp.mapResult.lookup field = some e
  | .lRange _ _, .list resp => resp.status = statusOK ∧ e ∈ resp.sliceResult
  | .lPop, .list resp => resp.status = statusOK ∧ resp.strResult = e
  | _, _ => False

def Faithful (l later : Line) (c : Cache) (key e : Bytes) (w : Write) (r : Read) :
    Prop :=
  ∀ next resp, l.call c (w.request key) = some (next, resp) → resp.status = statusOK →
      ∃ result, later.answer next (r.request key) = some result ∧
        (result.2.length ≤ maxPayloadSize →
          ∃ resp, later.call next (r.request key) = some (result.1, resp) ∧ r.Contains e resp)

/-! ## What is stored and what is found -/

def Write.Accepted (c : Cache) (key : Bytes) (w : Write) : Prop := c.closed = false ∧ key ≠ [] ∧
    match w with
    | .lSet index _ => ∃ l, (c.table.content key).2.2 = some l ∧
        -(l.length : ℤ) ≤ index ∧ index < l.length
    | _ => True

def Write.after (old : Content) : Write → Content
  | .sAdd elems =>
    let s := old.1.getD []
    (some (s ++ (elems.filter (· ∉ s)).eraseDups), old.2)
  | .hSet field value => (old.1, some ((old.2.1.getD ∅).insert field value), old.2.2)
  | .hSetNX field value =>
    let h := old.2.1.getD ∅
    (old.1, some (if field ∈ h then h else h.insert field value), old.2.2)
  | .lPush elems => (old.1, old.2.1, some (elems.reverse ++ old.2.2.getD []))
  | .rPush elems => (old.1, old.2.1, some (old.2.2.getD [] ++ elems))
  | .lSet index value =>
    (old.1, old.2.1, old.2.2.map fun l => l.set (index % l.length).toNat value)
  | .lInsert before pivot value =>
    (old.1, old.2.1, old.2.2.map fun l =>
      if pivot ∈ l then
        l.insertIdx (if before then l.idxOf pivot else l.idxOf pivot + 1) value
      else l)

def Listed (texts : List Bytes) (e : Bytes) : Prop :=
  6 + textBytes texts ≤ maxPayloadSize → e ∈ seen texts

def Alone (value e : Bytes) : Prop := 6 + value.length ≤ maxPayloadSize → value = e

def hashBytes (h : HashValue) : ℕ :=
  (h.keys.map fun field => 6 + field.length + ((h.lookup field).getD []).length).sum

def Read.Finds (order : KeyOrder) (content : Content) (e : Bytes) : Read → Prop
  | .sMembers => Listed (order.arrange (content.1.getD [])) e
  | .hGet field => ∃ h ∈ content.2.1, ∃ value ∈ h.lookup field, Alone value e
  | .hVals => ∃ h ∈ content.2.1, Listed ((order.arrange h.keys).filterMap h.lookup) e
  | .hGetAll => ∃ h ∈ content.2.1, 6 + hashBytes h ≤ maxPayloadSize →
      ∃ field, (seenFields (fun field => (h.lookup field).getD [])
        (order.arrange h.keys)).lookup field = some e
  | .lRange start stop =>
    ∃ l ∈ content.2.2, ∃ elems ∈ listLRange l start stop, Listed elems e
  | .lPop => ∃ l ∈ content.2.2, ∃ value ∈ l.head?, Alone value e

def Write.Fits (key : Bytes) : Write → Prop
  | .sAdd _ => 7 + key.length < 2 ^ 16
  | .hSet field _ | .hSetNX field _ => key.length < 2 ^ 16 ∧ field.length < 2 ^ 16
  | .lPush elems | .rPush elems =>
    key.length < 2 ^ 16 ∧ ∀ e ∈ elems, e.length < 2 ^ 16
  | .lSet index _ => key.length < 2 ^ 16 ∧ int64 index = index
  | .lInsert _ pivot _ => key.length < 2 ^ 16 ∧ pivot.length < 2 ^ 16

def Read.Fits (key : Bytes) : Read → Prop
  | .sMembers => 3 + key.length < 2 ^ 16
  | .hGet field => key.length < 2 ^ 16 ∧ field.length < 2 ^ 16
  | .lRange start stop =>
    key.length < 2 ^ 16 ∧ int64 start = start ∧ int64 stop = stop
  | _ => key.length < 2 ^ 16

/-! ## Requests that fit -/

theorem maxPayloadSize_lt {n : ℕ} (h : n ≤ maxPayloadSize) : n < 2 ^ 32 := h.trans_lt (by decide)

section Requests

variable {l : Line} {key payload : Bytes}

theorem flatMap_sized_fits {width : ℕ} (hwidth : 0 < width) {elems : List Bytes}
    (hsize : (elems.flatMap (sized width)).length ≤ maxPayloadSize) :
    elems.length < 2 ^ 32 ∧ ∀ e ∈ elems, e.length < 2 ^ 32 := by
  constructor
  · refine maxPayloadSize_lt (le_trans ?_ hsize)
    exact (Nat.le_mul_of_pos_left _ hwidth).trans (length_flatMap_sized width elems)
  · exact fun e he => maxPayloadSize_lt ((length_le_flatMap_sized he).trans hsize)

theorem Line.takes_eq {req : ClientRequest} (hencode : req.encode = some payload)
    (hsize : payload.length ≤ maxPayloadSize) :
    l.takes req = (decodeClientRequest (.of payload l.stale) req.family).toOption := by
  rw [Line.takes, hencode, Option.bind_some, if_pos hsize]

theorem toOption_map_ok {α : Type} {result : Go α} {a : α} (wrap : α → ClientRequest)
    (h : result = .ok a) : (result.map wrap).toOption = some (wrap a) := by
  rw [h]
  rfl

theorem Write.takes_self {w : Write} (hfits : w.Fits key)
    (hencode : (w.request key).encode = some payload)
    (hsize : payload.length ≤ maxPayloadSize) :
    l.takes (w.request key) = some (w.request key) := by
  rw [Line.takes_eq hencode hsize]
  cases w
  all_goals
    cases hencode
    simp only [List.length_cons, List.length_append, bigEndian_length] at hsize
  case sAdd elems =>
    have hkey : 7 + key.length < 2 ^ 16 := hfits
    have hshort : key.length < 2 ^ 16 := by omega
    obtain ⟨hcount, helems⟩ := flatMap_sized_fits (by decide)
      (show (elems.flatMap (sized 4)).length ≤ maxPayloadSize by omega)
    exact toOption_map_ok .set ((decodeSetRequest_elems (Slice.rest_of _ l.stale)
      (.inl rfl) hshort hcount helems).trans (if_pos hkey))
  case hSet field value | hSetNX field value =>
    have hvalue : value.length < 2 ^ 32 := maxPayloadSize_lt (by omega)
    exact toOption_map_ok .hash (decodeHashRequest_value (Slice.rest_of _ l.stale)
      (by simp) hfits.1 hfits.2 hvalue)
  case lPush elems | rPush elems =>
    obtain ⟨hcount, -⟩ := flatMap_sized_fits (by decide)
      (show (elems.flatMap (sized 2)).length ≤ maxPayloadSize by omega)
    exact toOption_map_ok .list (decodeListRequest_push (Slice.rest_of _ l.stale)
      (by simp) hfits.1 hcount hfits.2)
  case lSet index value =>
    have hvalue : value.length < 2 ^ 32 := maxPayloadSize_lt (by omega)
    refine toOption_map_ok .list ?_
    rw [decodeListRequest_element (Slice.rest_of _ l.stale) (.inl rfl) hfits.1 hvalue, hfits.2]
    rfl
  case lInsert before pivot value =>
    have hvalue : value.length < 2 ^ 32 := maxPayloadSize_lt (by omega)
    exact toOption_map_ok .list (decodeListRequest_lInsert (Slice.rest_of _ l.stale)
      hfits.1 hfits.2 hvalue)

theorem Read.takes_self {r : Read} (hfits : r.Fits key) :
    l.takes (r.request key) = some (r.request key) := by
  have hmax : maxPayloadSize = 2 ^ 24 := by decide
  obtain ⟨payload, hencode, hsize⟩ : ∃ payload, (r.request key).encode = some payload ∧
      payload.length ≤ maxPayloadSize := by
    cases r
    all_goals
      refine ⟨_, rfl, ?_⟩
      simp only [Read.Fits] at hfits
      simp only [sized_length, List.length_cons, List.length_append, bigEndian_length]
      omega
  rw [Line.takes_eq hencode hsize]
  cases r
  all_goals cases hencode
  case sMembers =>
    have hkey : 3 + key.length < 2 ^ 16 := hfits
    have hshort : key.length < 2 ^ 16 := by omega
    exact toOption_map_ok .set ((decodeSetRequest_key (Slice.rest_of _ l.stale)
      (.inl rfl) hshort).trans (if_pos hkey))
  case hGet field =>
    exact toOption_map_ok .hash (decodeHashRequest_field (Slice.rest_of _ l.stale)
      (.inl rfl) hfits.1 hfits.2)
  case hVals | hGetAll =>
    exact toOption_map_ok .hash (decodeHashRequest_key (Slice.rest_of _ l.stale) (by simp) hfits)
  case lRange start stop =>
    refine toOption_map_ok .list ?_
    rw [decodeListRequest_range (Slice.rest_of _ l.stale) (.inl rfl) hfits.1, hfits.2.1, hfits.2.2]
  case lPop =>
    exact toOption_map_ok .list (decodeListRequest_key (Slice.rest_of _ l.stale) (.inl rfl) hfits)

theorem Returns.map {α β : Type} {result : Go α} {f : α → β} {P : β → Prop}
    (h : Returns result fun a => P (f a)) : Returns (result.map f) P := by
  cases result with
  | ok a => exact returns_ok (h a rfl)
  | error fault => exact returns_error _ _

theorem Write.decode_returns {p : Slice} (w : Write) (hcmd : p.byte 0 = .ok (w.request key).cmd) :
    Returns (decodeClientRequest p (w.request key).family) fun req =>
      ∃ (w' : Write) (at' : Bytes), req = w'.request at' := by
  cases w
  all_goals
    simp only [Write.request, ClientRequest.cmd] at hcmd
    simp only [Write.request, ClientRequest.family, decodeClientRequest,
      decodeSetRequest, decodeHashRequest, decodeListRequest, hcmd]
    refine Returns.map (Returns.bind fun _ _ => ?_)
    simp only [ok_bind, Cmd.ofCode?_code]
    repeat refine Returns.bind fun _ _ => ?_
  case sAdd => exact returns_ok ⟨.sAdd _, _, rfl⟩
  case hSet => exact returns_ok ⟨.hSet _ _, _, rfl⟩
  case hSetNX => exact returns_ok ⟨.hSetNX _ _, _, rfl⟩
  case lPush => exact returns_ok ⟨.lPush _, _, rfl⟩
  case rPush => exact returns_ok ⟨.rPush _, _, rfl⟩
  case lSet => exact returns_ok ⟨.lSet _ _, _, rfl⟩
  case lInsert => exact returns_ok ⟨.lInsert _ _ _, _, rfl⟩

theorem Read.decode_returns {p : Slice} (r : Read) (hcmd : p.byte 0 = .ok (r.request key).cmd) :
    Returns (decodeClientRequest p (r.request key).family) fun req =>
      ∃ (r' : Read) (at' : Bytes), req = r'.request at' := by
  cases r
  all_goals
    simp only [Read.request, ClientRequest.cmd] at hcmd
    simp only [Read.request, ClientRequest.family, decodeClientRequest,
      decodeSetRequest, decodeHashRequest, decodeListRequest, hcmd]
    refine Returns.map (Returns.bind fun _ _ => ?_)
    simp only [ok_bind, Cmd.ofCode?_code]
    repeat refine Returns.bind fun _ _ => ?_
  case sMembers => exact returns_ok ⟨.sMembers, _, rfl⟩
  case hGet => exact returns_ok ⟨.hGet _, _, rfl⟩
  case hVals => exact returns_ok ⟨.hVals, _, rfl⟩
  case hGetAll => exact returns_ok ⟨.hGetAll, _, rfl⟩
  case lRange => exact returns_ok ⟨.lRange _ _, _, rfl⟩
  case lPop => exact returns_ok ⟨.lPop, _, rfl⟩

end Requests

/-! ## Answers -/

section Answers

variable {l : Line} {c : Cache} {req taken : ClientRequest}

theorem Line.takes_iff : l.takes req = some taken ↔
    ∃ payload, req.encode = some payload ∧ payload.length ≤ maxPayloadSize ∧
      decodeClientRequest (.of payload l.stale) req.family = .ok taken := by
  have hok : ∀ result : Go ClientRequest, result.toOption = some taken ↔ result = .ok taken := by
    intro result
    cases result <;> simp [Except.toOption]
  rw [Line.takes, Option.bind_eq_some_iff]
  refine exists_congr fun payload => and_congr_right fun _ => ?_
  split_ifs with hsize
  · simp [hsize, hok]
  · simp [hsize]

theorem Line.first_byte {payload : Bytes} (hencode : req.encode = some payload) :
    (Slice.of payload l.stale).byte 0 = .ok req.cmd := by
  obtain ⟨⟨rest, rfl⟩, -⟩ := encode_eq_cons hencode
  exact (Slice.of_holds (req.cmd :: rest) l.stale).byte (by simp [Slice.of])

theorem Line.takes_cmd (htaken : l.takes req = some taken) : taken.cmd = req.cmd := by
  obtain ⟨payload, hencode, -, hdecode⟩ := Line.takes_iff.mp htaken
  have hcmd := (decodeClientRequest_spec hdecode).2
  exact Except.ok.inj (hcmd.symm.trans (Line.first_byte hencode))

theorem Line.takes_write {w : Write} {key : Bytes} (htaken : l.takes (w.request key) = some taken) :
    ∃ (w' : Write) (at' : Bytes), taken = w'.request at' := by
  obtain ⟨payload, hencode, -, hdecode⟩ := Line.takes_iff.mp htaken
  exact w.decode_returns (Line.first_byte hencode) taken hdecode

theorem Line.takes_read {r : Read} {key : Bytes} (htaken : l.takes (r.request key) = some taken) :
    ∃ (r' : Read) (at' : Bytes), taken = r'.request at' := by
  obtain ⟨payload, hencode, -, hdecode⟩ := Line.takes_iff.mp htaken
  exact r.decode_returns (Line.first_byte hencode) taken hdecode

theorem Line.answer_of_takes (htyped : req.family ≠ .string) (htaken : l.takes req = some taken) :
    l.answer c req = processRequest l.env c taken := by
  obtain ⟨payload, hencode, hsize, hdecode⟩ := Line.takes_iff.mp htaken
  have hfamily := (encode_eq_cons hencode).2 htyped
  rw [Line.answer, hencode, Option.bind_some, if_pos hsize, handleFrame_eq hencode,
    hfamily, hdecode]
  exact Replication.processRequest_local _ _ rfl

theorem Line.answer_of_not_takes (htyped : req.family ≠ .string)
    (hnone : l.takes req = none) {result : Cache × Bytes}
    (hanswer : l.answer c req = some result) :
    result.2 = (Response.err (invalidText req.family)).encodePayload := by
  obtain ⟨payload, hencode, hframe⟩ := Option.bind_eq_some_iff.mp hanswer
  split_ifs at hframe with hsize
  rw [handleFrame_eq hencode, (encode_eq_cons hencode).2 htyped] at hframe
  rw [Line.takes_eq hencode hsize] at hnone
  split at hframe
  · rename_i taken hdecode
    rw [hdecode] at hnone
    cases hnone
  · cases hframe
    rfl
  · cases hframe

theorem Write.typed (w : Write) (key : Bytes) : (w.request key).family ≠ .string := by
  cases w <;> nofun

theorem Read.typed (r : Read) (key : Bytes) : (r.request key).family ≠ .string := by
  cases r <;> nofun

theorem Line.call_iff {result : Cache × Bytes} {next : Cache} {resp : ClientResponse}
    (hanswer : l.answer c req = some result) :
    l.call c req = some (next, resp) ↔ result.1 = next ∧ result.2.length ≤ maxPayloadSize ∧
      readResponse (.of result.2 l.staleAtClient) = .ok (some resp) := by
  rw [Line.call, hanswer, Option.bind_some]
  cases readResponse (.of result.2 l.staleAtClient) with
  | ok read => cases read <;> simp [and_comm, and_left_comm, and_assoc]
  | error fault => simp

end Answers

section Status

variable (p : Slice) (cmd : UInt8)

theorem decodeSetResponse_status :
    Returns (decodeSetResponse p cmd) fun resp => p.byte 0 = .ok resp.status := by
  unfold decodeSetResponse
  refine Returns.bind fun _ _ => Returns.bind fun status hstatus => ?_
  split_ifs
  · exact returns_ok hstatus
  · split
    case h_5 =>
      refine Returns.bind fun _ _ => Returns.bind fun elemLen _ => ?_
      split_ifs
      · exact Returns.bind fun elem helem => returns_ok hstatus
      · exact returns_ok hstatus
    all_goals
      repeat refine Returns.bind fun _ _ => ?_
      exact returns_ok hstatus

theorem decodeResponsePayload_status :
    Returns (decodeResponsePayload p) fun resp => p.byte 0 = .ok resp.status := by
  unfold decodeResponsePayload
  refine Returns.bind fun _ _ => Returns.bind fun status hstatus => ?_
  repeat refine Returns.bind fun _ _ => ?_
  exact returns_ok hstatus

theorem handOn_status {α : Type} {result : Go α} {malformed : α}
    {wrap : α → ClientResponse} {resp : ClientResponse}
    (hresult : Returns result fun a => p.byte 0 = .ok (wrap a).status)
    (hmalformed : (wrap malformed).status = statusErr)
    (hread : (orMalformed result malformed).map (some ∘ wrap) = .ok (some resp)) :
    resp.status = statusErr ∨ p.byte 0 = .ok resp.status := by
  cases result with
  | ok a =>
    cases hread
    exact .inr (hresult a rfl)
  | error fault =>
    cases fault with
    | error text =>
      cases hread
      exact .inl hmalformed
    | panic => cases hread

theorem readResponse_status {first : UInt8} {rest stale : Bytes} {resp : ClientResponse}
    (hread : readResponse (.of (first :: rest) stale) = .ok (some resp)) :
    resp.status = statusErr ∨
      (Slice.of (if Family.ofByte first = .string then first :: rest else rest)
        stale).byte 0 = .ok resp.status := by
  have htail : (Slice.of (first :: rest) stale).tail = .of rest stale := rfl
  unfold readResponse at hread
  rw [Slice.content_of] at hread
  dsimp only at hread
  rw [htail] at hread
  cases hfamily : Family.ofByte first
  all_goals rw [hfamily] at hread
  case string => exact handOn_status _ (decodeResponsePayload_status _) rfl hread
  case hash =>
    exact handOn_status _ (fun a ha => ((decodeHashResponse_yields _ _).2 a ha).status)
      rfl hread
  case list =>
    exact handOn_status _ (fun a ha => ((decodeListResponse_yields _ _).2 a ha).status)
      rfl hread
  case set => exact handOn_status _ (decodeSetResponse_status _ _) rfl hread

theorem Read.Contains.status {r : Read} {e : Bytes} {resp : ClientResponse}
    (h : r.Contains e resp) : resp.status = statusOK := by
  cases r <;> cases resp <;> first
    | exact h.1
    | exact h.elim

theorem rejected_not_ok {family : Family} {stale : Bytes} {resp : ClientResponse}
    (hread : readResponse (.of (Response.err (invalidText family)).encodePayload stale) =
      .ok (some resp)) : resp.status ≠ statusOK := by
  rcases readResponse_status hread with herr | hbyte
  · rw [herr]
    decide
  · have hsame : (Except.ok statusErr : Go UInt8) = .ok resp.status := hbyte
    rw [← Except.ok.inj hsame]
    decide

theorem failed_not_ok {first status : UInt8} {rest stale : Bytes} {resp : ClientResponse}
    (hfirst : Family.ofByte first ≠ .string) (hstatus : status ≠ statusOK)
    (hread : readResponse (.of (first :: status :: rest) stale) = .ok (some resp)) :
    resp.status ≠ statusOK := by
  have hfrom := readResponse_status hread
  rw [if_neg hfirst] at hfrom
  rcases hfrom with herr | hbyte
  · rw [herr]
    decide
  · cases hbyte
    exact hstatus

end Status

/-! ## Writes -/

section Writes

variable {c : Cache} {key : Bytes} {w : Write}

theorem setAdd_eq (s elems : List Bytes) :
    setAdd s elems = s ++ (elems.filter (· ∉ s)).eraseDups := by
  induction elems generalizing s with
  | nil => simp [setAdd]
  | cons e rest ih =>
    have hstep : setAdd s (e :: rest) = setAdd (if e ∈ s then s else s ++ [e]) rest := rfl
    rw [hstep, ih]
    by_cases he : e ∈ s
    · simp [he]
    · simp only [he, if_false, List.filter_cons, not_false_eq_true, decide_true, if_true,
        List.eraseDups_cons, List.append_assoc, List.singleton_append]
      congr 3
      rw [List.filter_filter]
      refine List.filter_congr fun x _ => ?_
      by_cases hx : x = e <;> simp [hx]

theorem listLPush_eq (l elems : List Bytes) : listLPush l elems = elems.reverse ++ l := by
  induction elems generalizing l with
  | nil => rfl
  | cons e rest ih =>
    refine (ih (e :: l)).trans ?_
    simp

theorem listLSet_eq {l : List Bytes} {index : ℤ} (hmin : -(l.length : ℤ) ≤ index)
    (hmax : index < l.length) (value : Bytes) :
    listLSet l index value = some (l.set (index % l.length).toNat value) := by
  unfold listLSet
  by_cases hneg : index < 0
  · have hmod : index % l.length = l.length + index := by
      rw [← Int.add_emod_left, Int.emod_eq_of_lt (by omega) (by omega)]
    simp only [hneg, if_true]
    rw [if_neg (by omega), hmod]
  · have hmod : index % l.length = index := Int.emod_eq_of_lt (by omega) hmax
    simp only [hneg, if_false, false_or]
    rw [if_neg (by omega), hmod]

theorem listLSet_isSome_iff {l : List Bytes} {index : ℤ} {value : Bytes} :
    (listLSet l index value).isSome = true ↔ -(l.length : ℤ) ≤ index ∧ index < l.length := by
  unfold listLSet
  dsimp only
  split_ifs <;> simp <;> omega

theorem listLInsert_eq (before : Bool) (pivot value : Bytes) (l : List Bytes) :
    listLInsert before pivot value l =
      if pivot ∈ l then
        some (l.insertIdx (if before then l.idxOf pivot else l.idxOf pivot + 1) value)
      else none := by
  induction l with
  | nil => rfl
  | cons e rest ih =>
    by_cases he : e = pivot
    · subst he
      cases before <;> simp [listLInsert]
    · have hne : pivot ≠ e := Ne.symm he
      simp only [listLInsert, he, if_false, List.mem_cons, hne, false_or,
        List.idxOf_cons_ne _ he, ih]
      split_ifs <;> rfl

theorem Write.run_content (h : w.Accepted c key) :
    (c.collection key w.command).1.table.content key = w.after (c.table.content key) := by
  obtain ⟨hopen, hkey, hindex⟩ := h
  rw [Cache.collection_content hopen hkey]
  cases w
  all_goals
    simp only [Write.command, Collections.run, Collections.alterSet, Collections.alterHash,
      Collections.alterList, Collections.content, Write.after, ShardTable.content,
      alter_lookup]
  case sAdd =>
    rw [setAdd_eq]
    rfl
  case hSetNX => rfl
  case lPush => rw [listLPush_eq]
  case lSet index value =>
    obtain ⟨l, hl, hmin, hmax⟩ := hindex
    have hlist : (c.table.shard key).collections.lists.lookup key = some l := hl
    simp only [hlist, Option.map_some, listLSet_eq hmin hmax, Option.getD_some]
  case lInsert before pivot value =>
    refine Prod.ext rfl (Prod.ext rfl (congrArg (Option.map · _) ?_))
    funext l
    rw [listLInsert_eq]
    split_ifs <;> rfl

end Writes

section Written

variable {env : Env} {c : Cache} {key : Bytes} {w : Write}

theorem readResponse_typed {cmd : UInt8} {raw stale : Bytes} :
    (∀ resp, decodeSetResponse (.of raw stale) cmd = .ok resp → Family.ofByte cmd = .set →
        readResponse (.of (cmd :: raw) stale) = .ok (some (.set resp))) ∧
    (∀ resp, decodeHashResponse (.of raw stale) cmd = .ok resp → Family.ofByte cmd = .hash →
        readResponse (.of (cmd :: raw) stale) = .ok (some (.hash resp))) ∧
    (∀ resp, decodeListResponse (.of raw stale) cmd = .ok resp → Family.ofByte cmd = .list →
        readResponse (.of (cmd :: raw) stale) = .ok (some (.list resp))) := by
  have htail : (Slice.of (cmd :: raw) stale).tail = .of raw stale := rfl
  unfold readResponse
  rw [Slice.content_of]
  dsimp only
  refine ⟨?_, ?_, ?_⟩
  all_goals
    intro resp hdecode hcmd
    rw [hcmd, htail, hdecode]
    rfl

theorem Write.answered_ok (h : w.Accepted c key) (env : Env) (stale : Bytes) :
    ∃ reply resp, processRequest env c (w.request key) =
        some ((c.collection key w.command).1, reply) ∧
      reply.length ≤ maxPayloadSize ∧
      readResponse (.of reply stale) = .ok (some resp) ∧ resp.status = statusOK := by
  have hok : statusOK ≠ statusErr := by decide
  have hmax : maxPayloadSize = 2 ^ 24 := by decide
  obtain ⟨hopen, hkey, hindex⟩ := h
  obtain ⟨reply, hreply⟩ : ∃ reply, (c.collection key w.command).2 = .ok reply :=
    ⟨_, congrArg Prod.snd (Cache.onShard_open hopen hkey _)⟩
  obtain ⟨n, hint⟩ : ∃ n, (c.collectionAs Reply.toInt key w.command).2 = .ok n := by
    simp only [Cache.collectionAs, hreply]
    cases reply <;> exact ⟨_, rfl⟩
  obtain ⟨b, hbool⟩ : ∃ b, (c.collectionAs Reply.toBool key w.command).2 = .ok b := by
    simp only [Cache.collectionAs, hreply]
    cases reply <;> exact ⟨_, rfl⟩
  have hnumber : ∀ cmd : UInt8, (cmd :: statusOK :: bigEndian 8 (uint64 n)).length ≤
      maxPayloadSize := by
    simp [hmax]
  cases w with
  | sAdd elems =>
    refine ⟨_, _, ?_, hnumber _, readResponse_typed.1 _ (decodeSetResponse_changed hok
      (Slice.rest_of _ stale) (.inl rfl) (uint64_lt _)) rfl, rfl⟩
    simp only [Write.request, processRequest, processSet, Cmd.ofCode?_code, Cache.sAdd,
      Write.command, respond, encodeSetResponse] at hint ⊢
    rw [hint]
    rfl
  | hSet field value =>
    refine ⟨_, _, ?_, hnumber _, readResponse_typed.2.1 _ (decodeHashResponse_int hok
      (Slice.rest_of _ stale) (.inl rfl)) rfl, rfl⟩
    simp only [Write.request, processRequest, processHash, Cmd.ofCode?_code, Cache.hSet,
      Write.command, respond] at hint ⊢
    rw [hint]
    rfl
  | hSetNX field value =>
    refine ⟨[Cmd.hSetNX.code, statusOK, boolByte b], _, ?_, by simp [hmax],
      readResponse_typed.2.1 _ (decodeHashResponse_flag hok (Slice.rest_of _ stale)
        (.inr rfl)) rfl, rfl⟩
    simp only [Write.request, processRequest, processHash, Cmd.ofCode?_code, Cache.hSetNX,
      Write.command, respond] at hbool ⊢
    rw [hbool]
    rfl
  | lPush elems =>
    refine ⟨_, _, ?_, hnumber _, readResponse_typed.2.2 _ (decodeListResponse_int hok
      (Slice.rest_of _ stale) (.inl rfl)) rfl, rfl⟩
    simp only [Write.request, processRequest, processList, Cmd.ofCode?_code, Cache.lPush,
      Write.command, respond] at hint ⊢
    rw [hint]
    rfl
  | rPush elems =>
    refine ⟨_, _, ?_, hnumber _, readResponse_typed.2.2 _ (decodeListResponse_int hok
      (Slice.rest_of _ stale) (.inr (.inl rfl))) rfl, rfl⟩
    simp only [Write.request, processRequest, processList, Cmd.ofCode?_code, Cache.rPush,
      Write.command, respond] at hint ⊢
    rw [hint]
    rfl
  | lSet index value =>
    obtain ⟨l, hl, hrange⟩ := hindex
    have hfound : (c.lSet key index value).2 = .ok () := by
      have hlist : (c.table.shard key).collections.lists.lookup key = some l := hl
      rw [Cache.lSet, Cache.collectionAs, Cache.collection, Cache.onShard_open hopen hkey]
      simp only [Collections.reply, hlist, Option.bind_some, listLSet_isSome_iff.mpr hrange]
      rfl
    refine ⟨[Cmd.lSet.code, statusOK, boolByte true], _, ?_, by simp [hmax],
      readResponse_typed.2.2 _ (decodeListResponse_lSet hok (Slice.rest_of _ stale)) rfl,
      rfl⟩
    simp only [Write.request, processRequest, processList, Cmd.ofCode?_code, hfound, respond]
    rfl
  | lInsert before pivot value =>
    refine ⟨_, _, ?_, hnumber _, readResponse_typed.2.2 _ (decodeListResponse_int hok
      (Slice.rest_of _ stale) (.inr (.inr (.inr (.inr rfl))))) rfl, rfl⟩
    simp only [Write.request, processRequest, processList, Cmd.ofCode?_code,
      Cache.lInsert, Write.command, respond] at hint ⊢
    rw [hint]
    rfl

theorem Cache.collectionAs_refused {α : Type} {read : Reply → Except CacheError α}
    (hrefused : c.closed = true ∨ key = []) (cmd : CollectionCommand) :
    ∃ err, (c.collectionAs read key cmd).2 = .error err := by
  obtain ⟨err, herror⟩ := Cache.onShard_refused hrefused fun s : Shard =>
    ({ s with collections := s.collections.run key cmd }, s.collections.reply key cmd)
  refine ⟨err, congrArg (Except.bind · read) (congrArg Prod.snd herror)⟩

theorem lSet_refused {index : ℤ} {value : Bytes}
    (hnot : ¬ (Write.lSet index value).Accepted c key) :
    ∃ err, (c.lSet key index value).2 = .error err := by
  by_cases hrefused : c.closed = true ∨ key = []
  · exact Cache.collectionAs_refused hrefused _
  · obtain ⟨hopen, hkey⟩ : c.closed = false ∧ key ≠ [] := by simpa using hrefused
    refine ⟨.keyNotFound, ?_⟩
    rw [Cache.lSet, Cache.collectionAs, Cache.collection, Cache.onShard_open hopen hkey]
    have hnone : (((c.table.shard key).collections.lists.lookup key).bind fun l =>
        listLSet l index value).isSome = false := by
      rw [← Bool.not_eq_true]
      intro hsome
      cases hlist : (c.table.shard key).collections.lists.lookup key with
      | none =>
        rw [hlist] at hsome
        cases hsome
      | some l =>
        rw [hlist] at hsome
        exact hnot ⟨hopen, hkey, l, hlist, listLSet_isSome_iff.mp hsome⟩
    simp only [Collections.reply, hnone]
    rfl

theorem Write.answered_failed (hnot : ¬ w.Accepted c key) {result : Cache × Bytes}
    (hresult : processRequest env c (w.request key) = some result) :
    ∃ status rest, status ≠ statusOK ∧ result.2 = (w.request key).cmd :: status :: rest := by
  cases w with
  | lSet index value =>
    obtain ⟨err, hcache⟩ := lSet_refused hnot
    simp only [Write.request, processRequest, processList, Cmd.ofCode?_code,
      hcache, respond] at hresult
    cases hresult
    cases err with
    | keyNotFound => exact ⟨statusNotFound, _, by decide, rfl⟩
    | _ => exact ⟨statusErr, _, by decide, rfl⟩
  | _ =>
    have hrefused : c.closed = true ∨ key = [] := by
      by_contra h
      obtain ⟨hopen, hkey⟩ : c.closed = false ∧ key ≠ [] := by simpa using h
      exact hnot ⟨hopen, hkey, trivial⟩
    obtain ⟨err, hcache⟩ := Cache.collectionAs_refused hrefused _
    simp only [Write.request, processRequest, processSet, processHash, processList,
      Cmd.ofCode?_code, Cache.sAdd, Cache.hSet, Cache.hSetNX, Cache.lPush, Cache.rPush,
      Cache.lInsert, respond] at hcache hresult
    rw [hcache] at hresult
    cases hresult
    exact ⟨statusErr, _, by decide, rfl⟩

theorem Write.accepted_of_ok {result : Cache × Bytes} {stale : Bytes}
    {resp : ClientResponse}
    (hresult : processRequest env c (w.request key) = some result)
    (hread : readResponse (.of result.2 stale) = .ok (some resp))
    (hok : resp.status = statusOK) : w.Accepted c key := by
  by_contra hnot
  obtain ⟨status, rest, hstatus, hreply⟩ := Write.answered_failed hnot hresult
  rw [hreply] at hread
  refine failed_not_ok ?_ hstatus hread hok
  cases w <;> nofun

end Written

/-! ## Reads -/

section Reads

variable {env : Env} {c : Cache} {key e stale : Bytes} {r : Read}

def Read.Shows (r : Read) (stale e reply : Bytes) : Prop := reply.length ≤ maxPayloadSize →
    ∃ resp, readResponse (.of reply stale) = .ok (some resp) ∧ r.Contains e resp

theorem Read.shows_iff {reply : Bytes} {size : ℕ} {resp : ClientResponse} {P : Prop}
    (hlength : reply.length = size)
    (hread : size ≤ maxPayloadSize → readResponse (.of reply stale) = .ok (some resp))
    (hcontains : r.Contains e resp ↔ resp.status = statusOK ∧ P)
    (hstatus : resp.status = statusOK) :
    r.Shows stale e reply ↔ (size ≤ maxPayloadSize → P) := by
  unfold Read.Shows
  rw [hlength]
  refine forall_congr' fun hsize => ?_
  simp [hread hsize, hcontains, hstatus]

theorem Read.not_shows {first status : UInt8} {rest : Bytes}
    (hsmall : (first :: status :: rest).length ≤ maxPayloadSize)
    (hfirst : Family.ofByte first ≠ .string) (hstatus : status ≠ statusOK) :
    ¬ r.Shows stale e (first :: status :: rest) := by
  intro hshows
  obtain ⟨resp, hread, hcontains⟩ := hshows hsmall
  exact failed_not_ok hfirst hstatus hread hcontains.status

theorem Read.respond_shows_iff {α ρ : Type} {ok : α → ρ} {err : CacheError → ρ}
    (write : ρ → Bytes) {result : Except CacheError α} (P : α → Prop)
    (hfail : ∀ err', ¬ r.Shows stale e (write (err err')))
    (hok : ∀ a, r.Shows stale e (write (ok a)) ↔ P a) :
    r.Shows stale e (write (respond result ok err)) ↔ ∃ a, result = .ok a ∧ P a := by
  cases result with
  | ok a => simpa [respond] using hok a
  | error err' => simpa [respond] using hfail err'

theorem readShard_ok_iff {α : Type} {f : Shard → α} {a : α} (hopen : c.closed = false) :
    c.readShard key f = .ok a ↔ key ≠ [] ∧ f (c.table.shard key) = a := by
  unfold Cache.readShard Cache.onShard
  split_ifs <;> simp_all

theorem readShard_found_iff {α : Type} {f : Shard → Option α} {a : α} (hopen : c.closed = false) :
    Cache.orNotFound (c.readShard key f) = .ok a ↔ key ≠ [] ∧ f (c.table.shard key) = some a := by
  rw [← readShard_ok_iff hopen]
  cases c.readShard key f with
  | ok found => cases found <;> simp [Cache.orNotFound]
  | error err => simp [Cache.orNotFound]

theorem bind_found_iff {α β : Type} {found : Option α} {f : α → Option β} {P : β → Prop}
    {Q : Prop} : (∃ b, (Q ∧ found.bind f = some b) ∧ P b) ↔ Q ∧ ∃ a ∈ found, ∃ b ∈ f a, P b := by
  cases found <;> simp [and_assoc]

theorem hash_not_shows {cmd : Cmd} (hcmd : cmd = .hGet ∨ cmd = .hVals ∨ cmd = .hGetAll)
    (order : KeyOrder) (err : CacheError) :
    ¬ r.Shows stale e (cmd.code :: encodeHashResponse order (.notFoundOr cmd.code err)) := by
  have hsmall := hash_notFoundOr_le order cmd.code err
  rcases hcmd with rfl | rfl | rfl <;> cases err <;>
    exact Read.not_shows hsmall (by decide) (by decide)

theorem list_not_shows {cmd : Cmd} (hcmd : cmd = .lRange ∨ cmd = .lPop) (err : CacheError) :
    ¬ r.Shows stale e (cmd.code :: encodeListResponse (.notFoundOr cmd.code err)) := by
  have hsmall := list_notFoundOr_le cmd.code err
  rcases hcmd with rfl | rfl <;> cases err <;>
    exact Read.not_shows hsmall (by decide) (by decide)

theorem listed_length (cmd status : UInt8) (texts : List Bytes) :
    (cmd :: status :: counted texts).length = 6 + textBytes texts := by
  rw [List.length_cons, List.length_cons, counted_length]
  omega

theorem listed_count {texts : List Bytes} (hsize : 6 + textBytes texts ≤ maxPayloadSize) :
    texts.length < 2 ^ 32 := by
  have hlength := counted_length texts
  refine (flatMap_sized_fits (show 0 < 2 by decide) ?_).1
  simp only [counted, List.length_append, bigEndian_length] at hlength
  omega

theorem alone_length (cmd status : UInt8) (value : Bytes) :
    (cmd :: status :: sized 4 value).length = 6 + value.length := by
  rw [List.length_cons, List.length_cons, sized_length]
  omega

theorem alone_size {value : Bytes} (hsize : 6 + value.length ≤ maxPayloadSize) :
    value.length < 2 ^ 32 :=
  maxPayloadSize_lt (by omega)

theorem hash_length (cmd status : UInt8) (h : HashValue) (order : KeyOrder) :
    (cmd :: status :: (bigEndian 4 (order.arrange h.keys).length ++
      fieldBytes (fun field => (h.lookup field).getD []) (order.arrange h.keys))).length =
      6 + hashBytes h := by
  simp only [List.length_cons, List.length_append, bigEndian_length, fieldBytes,
    fields_length, hashBytes]
  omega

theorem hash_size {h : HashValue} (hsize : 6 + hashBytes h ≤ maxPayloadSize) :
    h.keys.length < 2 ^ 32 ∧ ∀ field ∈ h.keys, ((h.lookup field).getD []).length < 2 ^ 32 := by
  unfold hashBytes at hsize
  constructor
  · have hcount := List.length_le_sum_of_one_le (h.keys.map fun field =>
      6 + field.length + ((h.lookup field).getD []).length) (by simp; omega)
    rw [List.length_map] at hcount
    exact maxPayloadSize_lt (by omega)
  · intro field hfield
    have hle := List.le_sum_of_mem (List.mem_map_of_mem hfield (f := fun field =>
      6 + field.length + ((h.lookup field).getD []).length))
    exact maxPayloadSize_lt (by omega)

theorem Read.answered (hopen : c.closed = false) (env : Env) (r : Read) (key e stale : Bytes) :
    ∃ result, processRequest env c (r.request key) = some result ∧ (r.Shows stale e result.2 ↔
        key ≠ [] ∧ r.Finds env.keyOrder (c.table.content key) e) := by
  have hok : statusOK ≠ statusErr := by decide
  refine ⟨_, (Option.some_get (show (processRequest env c (r.request key)).isSome by
    cases r <;> rfl)).symm, ?_⟩
  cases r with
  | sMembers =>
    simp only [Read.request, processRequest, processSet, Cmd.ofCode?_code, Option.get_some]
    refine (Read.respond_shows_iff (fun resp => Cmd.sMembers.code :: encodeSetResponse resp)
      (fun elems => Listed (env.keyOrder.arrange elems) e) (fun err => ?_)
      (fun elems => ?_)).trans ?_
    · exact Read.not_shows (by simp [maxPayloadSize, SetResponse.err, counted]) (by decide)
        (show statusErr ≠ statusOK by decide)
    · exact Read.shows_iff (listed_length _ _ _) (fun hsize => readResponse_typed.1 _
        (decodeSetResponse_texts hok (Slice.rest_of _ stale) (.inr (.inl rfl))
          (listed_count hsize)) rfl) .rfl rfl
    · have hcache : ∀ elems, c.sMembers key = .ok elems ↔
          key ≠ [] ∧ (c.table.content key).1.getD [] = elems :=
        fun _ => readShard_ok_iff hopen
      simp [hcache, and_assoc, Read.Finds]
  | hGet field =>
    simp only [Read.request, processRequest, processHash, Cmd.ofCode?_code, Option.get_some]
    refine (Read.respond_shows_iff
      (fun resp => Cmd.hGet.code :: encodeHashResponse env.keyOrder resp)
      (fun value => Alone value e) (hash_not_shows (.inl rfl) _) (fun value => ?_)).trans ?_
    · exact Read.shows_iff (alone_length _ _ _) (fun hsize => readResponse_typed.2.1 _
        (decodeHashResponse_hGet hok (Slice.rest_of _ stale) (alone_size hsize)) rfl) .rfl rfl
    · simp only [Cache.hGet, readShard_found_iff hopen]
      exact bind_found_iff
  | hVals =>
    simp only [Read.request, processRequest, processHash, Cmd.ofCode?_code, Option.get_some]
    refine (Read.respond_shows_iff
      (fun resp => Cmd.hVals.code :: encodeHashResponse env.keyOrder resp)
      (fun elems => Listed elems e) (hash_not_shows (.inr (.inl rfl)) _)
      (fun elems => ?_)).trans ?_
    · exact Read.shows_iff (listed_length _ _ _) (fun hsize => readResponse_typed.2.1 _
        (decodeHashResponse_texts hok (Slice.rest_of _ stale) (.inr rfl)
          (listed_count hsize)) rfl) .rfl rfl
    · simp only [Cache.hVals, readShard_found_iff hopen, Option.map_eq_bind]
      refine bind_found_iff.trans (and_congr_right fun _ => ?_)
      simp [Read.Finds]
      rfl
  | hGetAll =>
    simp only [Read.request, processRequest, processHash, Cmd.ofCode?_code, Option.get_some]
    refine (Read.respond_shows_iff
      (fun resp => Cmd.hGetAll.code :: encodeHashResponse env.keyOrder resp)
      (fun h => 6 + hashBytes h ≤ maxPayloadSize →
        ∃ field, (seenFields (fun field => (h.lookup field).getD [])
          (env.keyOrder.arrange h.keys)).lookup field = some e)
      (hash_not_shows (.inr (.inr rfl)) _) (fun h => ?_)).trans ?_
    · have hperm := env.keyOrder.perm h.keys
      have hencode : encodeHashResponse env.keyOrder
          { cmd := Cmd.hGetAll.code, status := statusOK, mapResult := h } =
            statusOK :: (bigEndian 4 (env.keyOrder.arrange h.keys).length ++
              fieldBytes (fun field => (h.lookup field).getD [])
                (env.keyOrder.arrange h.keys)) := by
        rw [encodeHashResponse, if_neg hok, hperm.length_eq]
        rfl
      rw [hencode]
      refine Read.shows_iff (hash_length _ _ _ _) (fun hsize => readResponse_typed.2.1 _
        (decodeHashResponse_hGetAll hok (Slice.rest_of _ stale) ?_ ?_) rfl) .rfl rfl
      · exact hperm.length_eq ▸ (hash_size hsize).1
      · exact fun field hfield => (hash_size hsize).2 field (hperm.subset hfield)
    · have hcache : ∀ h, c.hGetAll key = .ok h ↔ key ≠ [] ∧ (c.table.content key).2.1 = some h :=
        fun _ => readShard_found_iff hopen
      simp [hcache, and_assoc, Read.Finds]
  | lRange start stop =>
    simp only [Read.request, processRequest, processList, Cmd.ofCode?_code, Option.get_some]
    refine (Read.respond_shows_iff (fun resp => Cmd.lRange.code :: encodeListResponse resp)
      (fun elems => Listed elems e) (list_not_shows (.inl rfl)) (fun elems => ?_)).trans ?_
    · exact Read.shows_iff (listed_length _ _ _) (fun hsize => readResponse_typed.2.2 _
        (decodeListResponse_lRange hok (Slice.rest_of _ stale) (listed_count hsize)) rfl)
        .rfl rfl
    · have hcache : ∀ elems, c.lRange key start stop = .ok elems ↔ key ≠ [] ∧
          ((c.table.content key).2.2.bind fun l => listLRange l start stop) = some elems :=
        fun _ => readShard_found_iff hopen
      simp only [hcache]
      exact bind_found_iff
  | lPop =>
    simp only [Read.request, processRequest, processList, Cmd.ofCode?_code, Option.get_some]
    refine (Read.respond_shows_iff (fun resp => Cmd.lPop.code :: encodeListResponse resp)
      (fun value => Alone value e) (list_not_shows (.inr rfl)) (fun value => ?_)).trans ?_
    · exact Read.shows_iff (alone_length _ _ _) (fun hsize => readResponse_typed.2.2 _
        (decodeListResponse_value hok (Slice.rest_of _ stale) (.inl rfl)
          (alone_size hsize)) rfl) .rfl rfl
    · have hcache : ∀ value, (c.lPop key).2 = .ok value ↔ key ≠ [] ∧
          ((c.table.content key).2.2.bind List.head?) = some value := by
        intro value
        rw [Cache.lPop, c.collectionAs_elem fun _ => rfl, readShard_found_iff hopen]
        rfl
      simp only [hcache]
      exact bind_found_iff

end Reads

/-! ## A write and a read -/

section Exchange

variable {l later : Line} {c next : Cache} {key e : Bytes} {w : Write} {r : Read}

theorem Read.contains_iff_of_cmd {r r' : Read} {key' : Bytes} {resp : ClientResponse}
    (hcmd : (r'.request key').cmd = (r.request key).cmd) :
    r'.Contains e resp ↔ r.Contains e resp := by
  cases r <;> cases r' <;> cases hcmd <;> cases resp <;> exact Iff.rfl

theorem Read.shows_iff_call {result : Cache × Bytes}
    (hanswer : later.answer next (r.request key) = some result) :
    (result.2.length ≤ maxPayloadSize →
      ∃ resp, later.call next (r.request key) = some (result.1, resp) ∧
        r.Contains e resp) ↔ r.Shows later.staleAtClient e result.2 := by
  unfold Read.Shows
  refine forall_congr' fun hsize => ?_
  simp [Line.call_iff hanswer, hsize]

theorem Read.found_iff (hopen : next.closed = false) :
    (∃ result, later.answer next (r.request key) = some result ∧ (result.2.length ≤ maxPayloadSize →
        ∃ resp, later.call next (r.request key) = some (result.1, resp) ∧ r.Contains e resp)) ↔
      ∃ (r' : Read) (key' : Bytes), later.takes (r.request key) = some (r'.request key') ∧
        key' ≠ [] ∧ r'.Finds later.env.keyOrder (next.table.content key') e := by
  have hsame : ∀ {r' : Read} {key' : Bytes} {reply : Bytes},
      later.takes (r.request key) = some (r'.request key') →
        (r'.Shows later.staleAtClient e reply ↔ r.Shows later.staleAtClient e reply) := by
    intro r' key' reply htaken
    unfold Read.Shows
    simp only [Read.contains_iff_of_cmd (Line.takes_cmd htaken)]
  constructor
  · rintro ⟨result, hanswer, hfound⟩
    have hshows := (Read.shows_iff_call hanswer).mp hfound
    cases htaken : later.takes (r.request key) with
    | none =>
      have hreply := Line.answer_of_not_takes (r.typed key) htaken hanswer
      rw [hreply] at hshows
      obtain ⟨resp, hread, hcontains⟩ := hshows (invalidText_le _)
      exact absurd hcontains.status (rejected_not_ok hread)
    | some taken =>
      obtain ⟨r', key', rfl⟩ := Line.takes_read htaken
      obtain ⟨result', hresult, hiff⟩ := Read.answered hopen later.env r' key' e later.staleAtClient
      rw [Line.answer_of_takes (r.typed key) htaken, hresult] at hanswer
      cases hanswer
      exact ⟨r', key', rfl, hiff.mp ((hsame htaken).mpr hshows)⟩
  · rintro ⟨r', key', htaken, hfinds⟩
    obtain ⟨result, hresult, hiff⟩ := Read.answered hopen later.env r' key' e later.staleAtClient
    have hanswer := (Line.answer_of_takes (c := next) (r.typed key) htaken).trans hresult
    exact ⟨result, hanswer, (Read.shows_iff_call hanswer).mpr ((hsame htaken).mp (hiff.mpr hfinds))⟩

theorem collection_open (hopen : c.closed = false) (cmd : CollectionCommand) :
    (c.collection key cmd).1.closed = false := by
  unfold Cache.collection Cache.onShard
  split_ifs <;> exact hopen

def Write.holds (w : Write) (c : Cache) (written key : Bytes) : Content :=
  if key = written then w.after (c.table.content key) else c.table.content key

theorem Write.holds_eq (h : w.Accepted c key) (other : Bytes) :
    (c.collection key w.command).1.table.content other = w.holds c key other := by
  unfold Write.holds
  split_ifs with heq
  · rw [heq]
    exact Write.run_content h
  · exact Cache.collection_content_ne heq w.command

theorem Write.taken_of_ok {resp : ClientResponse}
    (hcall : l.call c (w.request key) = some (next, resp))
    (hok : resp.status = statusOK) :
    ∃ (w' : Write) (key' : Bytes), l.takes (w.request key) = some (w'.request key') ∧
      w'.Accepted c key' ∧ next = (c.collection key' w'.command).1 := by
  obtain ⟨result, hanswer, -⟩ := Option.bind_eq_some_iff.mp hcall
  obtain ⟨rfl, -, hread⟩ := (Line.call_iff hanswer).mp hcall
  cases htaken : l.takes (w.request key) with
  | none =>
    rw [Line.answer_of_not_takes (w.typed key) htaken hanswer] at hread
    exact absurd hok (rejected_not_ok hread)
  | some taken =>
    obtain ⟨w', key', rfl⟩ := Line.takes_write htaken
    rw [Line.answer_of_takes (w.typed key) htaken] at hanswer
    have haccepted := Write.accepted_of_ok hanswer hread hok
    obtain ⟨reply, -, hreply, -⟩ := Write.answered_ok haccepted l.env []
    rw [hreply] at hanswer
    cases hanswer
    exact ⟨w', key', rfl, haccepted, rfl⟩

theorem Write.call_ok {w' : Write} {key' : Bytes}
    (htaken : l.takes (w.request key) = some (w'.request key'))
    (haccepted : w'.Accepted c key') :
    ∃ resp, l.call c (w.request key) = some ((c.collection key' w'.command).1, resp) ∧
      resp.status = statusOK := by
  obtain ⟨reply, resp, hreply, hsize, hread, hok⟩ :=
    Write.answered_ok haccepted l.env l.staleAtClient
  have hanswer := (Line.answer_of_takes (c := c) (w.typed key) htaken).trans hreply
  exact ⟨resp, (Line.call_iff hanswer).mpr ⟨rfl, hsize, hread⟩, hok⟩

theorem faithful_iff : Faithful l later c key e w r ↔ ∀ (w' : Write) (written : Bytes),
        l.takes (w.request key) = some (w'.request written) → w'.Accepted c written →
          ∃ (r' : Read) (key' : Bytes),
            later.takes (r.request key) = some (r'.request key') ∧ key' ≠ [] ∧
              r'.Finds later.env.keyOrder (w'.holds c written key') e := by
  have hread : ∀ {w' : Write} {written : Bytes}, w'.Accepted c written →
      ((∃ result, later.answer (c.collection written w'.command).1 (r.request key) =
          some result ∧ (result.2.length ≤ maxPayloadSize →
        ∃ resp, later.call (c.collection written w'.command).1 (r.request key) =
          some (result.1, resp) ∧ r.Contains e resp)) ↔ _) :=
    fun haccepted => Read.found_iff (collection_open haccepted.1 _)
  constructor
  · intro hfaithful w' written htaken haccepted
    obtain ⟨resp, hcall, hok⟩ := Write.call_ok htaken haccepted
    have hfound := (hread haccepted).mp (hfaithful _ _ hcall hok)
    simpa only [Write.holds_eq haccepted] using hfound
  · intro h next resp hcall hok
    obtain ⟨w', written, htaken, haccepted, rfl⟩ := Write.taken_of_ok hcall hok
    refine (hread haccepted).mpr ?_
    simpa only [Write.holds_eq haccepted] using h w' written htaken haccepted

theorem Write.request_inj {w' : Write} {key' : Bytes}
    (h : w.request key = w'.request key') : w = w' ∧ key = key' := by
  cases w <;> cases w' <;> cases h <;> exact ⟨rfl, rfl⟩

theorem Read.request_inj {r' : Read} {key' : Bytes}
    (h : r.request key = r'.request key') : r = r' ∧ key = key' := by
  cases r <;> cases r' <;> cases h <;> exact ⟨rfl, rfl⟩

theorem faithful_iff_of_fits (hw : w.Fits key) (hr : r.Fits key) : Faithful l later c key e w r ↔
      ∀ payload, (w.request key).encode = some payload →
        payload.length ≤ maxPayloadSize → w.Accepted c key →
          r.Finds later.env.keyOrder (w.after (c.table.content key)) e := by
  have hread : later.takes (r.request key) = some (r.request key) := Read.takes_self hr
  have hholds : w.holds c key key = w.after (c.table.content key) := if_pos rfl
  rw [faithful_iff]
  constructor
  · intro h payload hencode hsize haccepted
    obtain ⟨r', key', htaken, -, hfinds⟩ := h w key (Write.takes_self hw hencode hsize) haccepted
    obtain ⟨rfl, rfl⟩ := Read.request_inj (Option.some.inj (hread.symm.trans htaken))
    rwa [hholds] at hfinds
  · intro h w' written htaken haccepted
    obtain ⟨payload, hencode, hsize, -⟩ := Line.takes_iff.mp htaken
    have hself := Write.takes_self (l := l) hw hencode hsize
    obtain ⟨rfl, rfl⟩ := Write.request_inj (Option.some.inj (hself.symm.trans htaken))
    refine ⟨r, key, hread, haccepted.2.1, ?_⟩
    rw [hholds]
    exact h payload hencode hsize haccepted

end Exchange

theorem length_lt_of_mem_textsIn {b e : Bytes} {count off : ℕ}
    (he : e ∈ textsIn b 2 count off) : e.length < 2 ^ 16 := by
  induction count generalizing off with
  | zero => cases he
  | succ count ih =>
    simp only [textsIn] at he
    split_ifs at he
    · rcases List.mem_cons.mp he with rfl | hrest
      · exact (List.length_take_le _ _).trans_lt (number_lt b 2 off)
      · exact ih hrest
    · cases he

theorem length_lt_of_mem_seen {texts : List Bytes} {e : Bytes} (he : e ∈ seen texts) :
    e.length < 2 ^ 16 := by
  unfold seen at he
  split_ifs at he with hfits
  · exact hfits e he
  · exact length_lt_of_mem_textsIn he

theorem longElement_lost {l later : Line} {c : Cache} {key e : Bytes}
    (hopen : c.closed = false) (hkey : key ≠ []) (hfits : 7 + key.length < 2 ^ 16)
    (hnew : (c.table.content key).1 = none)
    (hlong : 2 ^ 16 ≤ e.length) (hsize : e.length ≤ 2 ^ 20) :
    ¬ Faithful l later c key e (.sAdd [e]) .sMembers := by
  intro hfaithful
  have hmax : maxPayloadSize = 2 ^ 24 := by decide
  have hwrite : (Write.sAdd [e]).Fits key := hfits
  have hread : Read.sMembers.Fits key := show 3 + key.length < 2 ^ 16 by omega
  have hfinds := (faithful_iff_of_fits hwrite hread).mp hfaithful _ rfl
    (by simp [sized_length, hmax]; omega) ⟨hopen, hkey, trivial⟩
  have hstored : (Write.sAdd [e]).after (c.table.content key) =
      (some [e], (c.table.content key).2) := by
    simp [Write.after, hnew, List.eraseDups_cons]
  rw [hstored] at hfinds
  have hone : later.env.keyOrder.arrange [e] = [e] :=
    List.perm_singleton.mp (later.env.keyOrder.perm [e])
  have hseen : e ∈ seen (later.env.keyOrder.arrange [e]) := by
    refine hfinds ?_
    simp [hone, textBytes, hmax]
    omega
  exact absurd (length_lt_of_mem_seen hseen) (Nat.not_lt.mpr hlong)

end MCache.Net
