import MCache.DecoderBounds
import MCache.ReplicatedCollections
import MCache.ReplySizes

/-!
# From the answer of the server to the waiting call

A call waits in the map of its family, and `readLoop` chooses the map by the
first byte of the response.  The two fit together when the server answers with
the family of the request; its error responses are all of the string family.
-/

namespace MCache.Net

open MCache.Store

theorem decodeRequest_cmd (p : Slice) :
    Returns (decodeRequestPayload p) (fun req => p.byte 0 = .ok req.cmd) ∧
    Returns (decodeSetRequest p) (fun req => p.byte 0 = .ok req.cmd) ∧
    Returns (decodeHashRequest p) (fun req => p.byte 0 = .ok req.cmd) ∧
    Returns (decodeListRequest p) (fun req => p.byte 0 = .ok req.cmd) := by
  unfold decodeRequestPayload decodeSetRequest decodeHashRequest decodeListRequest
  refine ⟨?_, ?_, ?_, ?_⟩
  · refine Returns.bind fun _ _ => Returns.bind fun cmd hcmd => ?_
    repeat refine Returns.bind fun _ _ => ?_
    exact returns_ok hcmd
  all_goals
    refine Returns.bind fun _ _ => Returns.bind fun cmd hcmd => ?_
    refine Returns.bind fun keyLen _ => ?_
    split <;> first
      | exact returns_error _ _
      | repeat refine Returns.bind fun _ _ => ?_
        exact returns_ok hcmd

theorem encode_eq_cons {call : ClientRequest} {payload : Bytes} (h : call.encode = some payload) :
    (∃ rest, payload = call.cmd :: rest) ∧
      (call.family ≠ .string → Family.ofByte call.cmd = call.family) := by
  cases call with
  | string req =>
    cases h
    exact ⟨⟨_, rfl⟩, fun hne => absurd rfl hne⟩
  | _ req =>
    simp only [ClientRequest.encode, encodeHashRequest, encodeListRequest, encodeSetRequest] at h
    split at h <;> cases h
    all_goals
      next hcode =>
        refine ⟨⟨_, rfl⟩, fun _ => ?_⟩
        rw [ClientRequest.cmd, ← Cmd.code_of_ofCode? hcode]
        rfl

theorem Response.of_family {α : Type} (result : Except CacheError α) (value : α → Bytes) :
    Family.ofByte (Response.of result value).status = .string := by
  cases result <;> rfl

theorem process_family {env : Env} {c : Cache} {req : Request}
    {result : Cache × Response} (h : process env c req = some result) :
    Family.ofByte result.2.status = .string := by
  unfold process at h
  dsimp only at h
  split at h
  case h_1 =>
    rcases Option.map_eq_some_iff.mp h with ⟨⟨next, found⟩, -, rfl⟩
    rcases found with e | value
    · cases e <;> rfl
    · rfl
  case h_2 =>
    rcases Option.map_eq_some_iff.mp h with ⟨⟨next, done⟩, -, rfl⟩
    cases done <;> rfl
  case h_3 =>
    rcases Option.map_eq_some_iff.mp h with ⟨⟨next, done⟩, -, rfl⟩
    cases done <;> rfl
  all_goals
    cases h
    first
      | rfl
      | exact Response.of_family _ _

private theorem handOn_iff {α : Type} (result : Go α) (malformed : α)
    (wrap : α → ClientResponse) {own : Family}
    (hwrap : ∀ a, (wrap a).family = own) (family : Family) :
    (∃ resp, (orMalformed result malformed).map (some ∘ wrap) = .ok (some resp) ∧
        resp.family = family) ↔ Safe result ∧ own = family := by
  have hok : ∀ a : α, (∃ resp, (.ok (some (wrap a)) : Go (Option ClientResponse)) =
      .ok (some resp) ∧ resp.family = family) ↔ own = family := by
    intro a
    constructor
    · rintro ⟨resp, hresp, hfamily⟩
      cases hresp
      exact (hwrap a).symm.trans hfamily
    · exact fun h => ⟨wrap a, rfl, (hwrap a).trans h⟩
  cases result with
  | ok a => exact (hok a).trans ⟨fun h => ⟨safe_ok a, h⟩, And.right⟩
  | error fault =>
    cases fault with
    | error text =>
      refine (hok malformed).trans ⟨fun h => ⟨?_, h⟩, And.right⟩
      intro hpanic
      cases hpanic
    | panic =>
      refine iff_of_false ?_ fun h => h.1 rfl
      rintro ⟨resp, hresp, -⟩
      cases hresp

def DecodesSafely (reply : Slice) (cmd : UInt8) : Prop :=
  match Family.ofByte cmd with
  | .string => Safe (decodeResponsePayload reply)
  | .hash => Safe (decodeHashResponse reply.tail cmd)
  | .list => Safe (decodeListResponse reply.tail cmd)
  | .set => Safe (decodeSetResponse reply.tail cmd)

theorem readResponse_iff (b : UInt8) (rest stale : Bytes) (family : Family) :
    (∃ resp, readResponse (.of (b :: rest) stale) = .ok (some resp) ∧ resp.family = family) ↔
      DecodesSafely (.of (b :: rest) stale) b ∧ Family.ofByte b = family := by
  unfold readResponse DecodesSafely
  rw [Slice.content_of]
  dsimp only
  cases Family.ofByte b with
  | string => exact handOn_iff _ _ .string (fun _ => rfl) family
  | hash => exact handOn_iff _ _ .hash (fun _ => rfl) family
  | list => exact handOn_iff _ _ .list (fun _ => rfl) family
  | set => exact handOn_iff _ _ .set (fun _ => rfl) family

theorem responseBounded_encodePayload (resp : Response) : ResponseBounded resp.encodePayload := by
  obtain ⟨status, value, errMsg⟩ := resp
  intro _ _
  have herrMsg : number (Response.encodePayload ⟨status, value, errMsg⟩) 2 5 =
      errMsg.length % 256 ^ 2 := by
    have hencode : Response.encodePayload ⟨status, value, errMsg⟩ =
        (status :: bigEndian 4 (value.getD []).length) ++
          (bigEndian 2 errMsg.length ++ (value.getD [] ++ errMsg)) := by
      simp [Response.encodePayload]
    rw [hencode]
    exact number_append (by simp)
  have hmod := Nat.mod_le errMsg.length (256 ^ 2)
  rw [herrMsg, encodePayload_length]
  dsimp only
  omega

def SetRequest.PopReadable (env : Env) (c : Cache) (req : SetRequest) : Prop :=
  Cmd.ofCode? req.cmd = some .sPop → ∀ elem, c.drawn env.choice req.key = .ok elem →
    elem.length % 2 ^ 16 + 3 < 2 ^ 16

theorem encodeSetResponse_safe_iff (resp : SetResponse) (stale : Bytes) :
    Safe (decodeSetResponse (.of (encodeSetResponse resp) stale) resp.cmd) ↔
      (Cmd.ofCode? resp.cmd = some .sPop → resp.status ≠ statusErr →
        (resp.elems.head?.getD []).length % 2 ^ 16 + 3 < 2 ^ 16) := by
  rw [decodeSetResponse_safe_iff]
  unfold SetResponseBounded
  refine forall_congr' fun hpop => ?_
  have hencode : encodeSetResponse resp = resp.status :: sized 2 (resp.elems.head?.getD []) := by
    simp only [encodeSetResponse, hpop]
  generalize resp.elems.head?.getD [] = elem at hencode ⊢
  have hnumber : number (resp.status :: sized 2 elem) 2 1 = elem.length % 256 ^ 2 :=
    @number_append [resp.status] elem 2 elem.length 1 rfl
  have hmod := Nat.mod_le elem.length (256 ^ 2)
  rw [hencode, hnumber, List.length_cons, sized_length]
  refine forall_congr' fun _ => ⟨fun h => ?_, fun h _ _ => by omega⟩
  by_cases hpos : 0 < elem.length % 256 ^ 2
  · have hfits := h hpos (by omega)
    omega
  · omega

theorem encodeSetResponse_safe {resp : SetResponse} (stale : Bytes) (hnone : resp.elems = []) :
    Safe (decodeSetResponse (.of (encodeSetResponse resp) stale) resp.cmd) := by
  refine (encodeSetResponse_safe_iff resp stale).mpr fun _ _ => ?_
  rw [hnone]
  decide

theorem processSet_safe_iff (env : Env) (c : Cache) (req : SetRequest) (stale : Bytes) :
    Safe (decodeSetResponse (.of (processSet env c req).2 stale) req.cmd) ↔
      req.PopReadable env c := by
  by_cases hpop : Cmd.ofCode? req.cmd = some .sPop
  · simp only [processSet, hpop, SetRequest.PopReadable, true_imp_iff, Cache.sPop_value]
    cases c.drawn env.choice req.key with
    | ok elem =>
      refine (encodeSetResponse_safe_iff _ stale).trans ?_
      simp [respond, hpop, statusOK, statusErr]
    | error e =>
      refine iff_of_true ?_ (by simp)
      cases e <;> exact encodeSetResponse_safe stale rfl
  · exact iff_of_true (decodeSetResponse_yields _ hpop).1 fun h => absurd h hpop

def ClientRequest.Servable (env : Env) (c : Cache) : ClientRequest → Prop
  | .string req => (∀ a ∈ req.action env, ¬ c.Panics a) ∧ req.AnswerFits env c
  | .hash req => req.AnswerFits env c
  | .list req => req.AnswerFits c
  | .set req => req.AnswerFits env c ∧ req.PopReadable env c

def Replication.Serves (repl : Replication) (env : Env) (c : Cache) (req : ClientRequest) :
    Prop :=
  match repl with
  | .off => req.Servable env c
  | .refused _ => isRaftWriteOp req.cmd = true ∨ req.Servable env c
  | .applied cache => req.Servable env (if isRaftWriteOp req.cmd then cache else c)

def Classified (reply : Slice) (family : Family) : Prop :=
  ∃ resp, readResponse reply = .ok (some resp) ∧ resp.family = family

section Classified

variable {repl : Replication} {env : Env} {c : Cache} {family : Family}
variable {cmd : UInt8} {result : Cache × Bytes}

theorem string_classified_iff {resp : Response}
    (hstatus : Family.ofByte resp.status = .string) (stale : Bytes) :
    Classified (.of resp.encodePayload stale) family ↔ .string = family := by
  refine (readResponse_iff resp.status _ stale family).trans ?_
  unfold DecodesSafely
  rw [hstatus]
  exact and_iff_right ((responseBounded_encodePayload resp).safe stale)

theorem hash_classified_iff (hcmd : Family.ofByte cmd = .hash) (raw stale : Bytes) :
    Classified (.of (cmd :: raw) stale) family ↔ .hash = family := by
  refine (readResponse_iff cmd raw stale family).trans ?_
  unfold DecodesSafely
  rw [hcmd]
  exact and_iff_right (decodeHashResponse_yields _ _).1

theorem list_classified_iff (hcmd : Family.ofByte cmd = .list) (raw stale : Bytes) :
    Classified (.of (cmd :: raw) stale) family ↔ .list = family := by
  refine (readResponse_iff cmd raw stale family).trans ?_
  unfold DecodesSafely
  rw [hcmd]
  exact and_iff_right (decodeListResponse_yields _ _).1

theorem set_classified_iff (hcmd : Family.ofByte cmd = .set) (raw stale : Bytes) :
    Classified (.of (cmd :: raw) stale) family ↔
      Safe (decodeSetResponse (.of raw stale) cmd) ∧ .set = family := by
  refine (readResponse_iff cmd raw stale family).trans ?_
  unfold DecodesSafely
  rw [hcmd]
  rfl

end Classified

def Arrives (reply : Option Bytes) (stale : Bytes) (family : Family) : Prop :=
  ∃ bytes, reply = some bytes ∧ bytes.length ≤ maxPayloadSize ∧ Classified (.of bytes stale) family

section Arrives

variable {env : Env} {c cache : Cache} {family : Family} {stale : Bytes}

theorem arrives_iff {bytes : Bytes} {fits read : Prop} {own : Family}
    (hfits : bytes.length ≤ maxPayloadSize ↔ fits)
    (hread : Classified (.of bytes stale) family ↔ read ∧ own = family) :
    Arrives (some bytes) stale family ↔ (fits ∧ read) ∧ own = family := by
  simp [Arrives, hfits, hread, and_assoc]

theorem arrives_iff_fits {bytes : Bytes} {fits : Prop} {own : Family}
    (hfits : bytes.length ≤ maxPayloadSize ↔ fits)
    (hread : Classified (.of bytes stale) family ↔ own = family) :
    Arrives (some bytes) stale family ↔ fits ∧ own = family := by
  simp [Arrives, hfits, hread]

theorem processRequest_arrives_iff (hreach : store.Reachable c) {req : ClientRequest}
    (hcmd : Family.ofByte req.cmd = req.family) :
    Arrives ((processRequest env c req).map Prod.snd) stale family ↔
      req.Servable env c ∧ req.family = family := by
  cases req with
  | string req =>
    have hpanics : process env c req = none ↔ ∃ a ∈ req.action env, c.Panics a := by
      rw [process_eq_none_iff]
      simp only [Cache.panics_iff hreach]
    simp only [processRequest, Option.map_map]
    cases hresult : process env c req with
    | none =>
      obtain ⟨a, ha, hpanic⟩ := hpanics.mp hresult
      exact iff_of_false (by simp [Arrives]) fun h => h.1.1 a ha hpanic
    | some result =>
      have hquiet : ∀ a ∈ req.action env, ¬ c.Panics a := by
        intro a ha hpanic
        cases hresult.symm.trans (hpanics.mpr ⟨a, ha, hpanic⟩)
      refine (arrives_iff_fits (string_answer_le_iff hresult)
        (string_classified_iff (process_family hresult) stale)).trans ?_
      exact and_congr_left fun _ => (and_iff_right hquiet).symm
  | hash req => exact arrives_iff_fits (hash_answer_le_iff env c req) (hash_classified_iff hcmd _ _)
  | list req => exact arrives_iff_fits (list_answer_le_iff env c req) (list_classified_iff hcmd _ _)
  | set req =>
    refine arrives_iff (set_answer_le_iff env c req) ?_
    exact (set_classified_iff hcmd _ _).trans
      (and_congr_left fun _ => processSet_safe_iff env c req stale)

theorem ofByte_spec (b : UInt8) : (Family.ofByte b = .hash → isHashCmd b = true) ∧
      (Family.ofByte b = .list → isListCmd b = true) ∧
      (Family.ofByte b = .set → isSetCmd b = true) := by
  unfold Family.ofByte
  split_ifs <;> simp_all

theorem proposeErrorText_length (deltaF64 : UInt64) (e : ProposeError) :
    (proposeErrorText deltaF64 e).length ≤ 64 := by
  cases e with
  | marshal =>
    unfold proposeErrorText
    split_ifs <;> decide
  | _ => exact Nat.le_of_ble_eq_true rfl

theorem refused_arrives_iff (e : ProposeError) {req : ClientRequest}
    (hcmd : Family.ofByte req.cmd = req.family) (hwrite : isRaftWriteOp req.cmd = true) :
    Arrives (((Replication.refused e).processRequest env c req).map Prod.snd) stale family ↔
      req.family = family := by
  have hshort := fun rc : RaftCommand => proposeErrorText_length rc.deltaF64 e
  have hreplicates : ∀ cmd, isRaftWriteOp cmd = true →
      (Replication.refused e).replicates cmd = true := fun _ h => h
  have hfits : ∀ {bytes own}, bytes.length ≤ maxPayloadSize →
      (Classified (.of bytes stale) family ↔ own = family) →
      (Arrives (some bytes) stale family ↔ own = family) := by
    intro bytes own hle hread
    exact (arrives_iff_fits (iff_true_intro hle) hread).trans (and_iff_right trivial)
  cases req with
  | string req =>
    rw [Replication.processRequest, Replication.process, if_pos (hreplicates req.cmd hwrite)]
    exact hfits (string_small_le (Nat.zero_le _) (hshort _)) (string_classified_iff rfl stale)
  | hash req =>
    rw [Replication.processRequest, Replication.processHash, if_pos (hreplicates req.cmd hwrite)]
    exact hfits (@hash_small_le env.keyOrder (.err req.cmd _) rfl rfl rfl rfl
      (hshort (hashReqToRaft req))) (hash_classified_iff hcmd _ _)
  | list req =>
    rw [Replication.processRequest, Replication.processList, if_pos (hreplicates req.cmd hwrite)]
    exact hfits (@list_small_le (.err req.cmd _) rfl rfl rfl
      (hshort (listReqToRaft req))) (list_classified_iff hcmd _ _)
  | set req =>
    rw [Replication.processRequest, Replication.processSet, if_pos (hreplicates req.cmd hwrite)]
    refine hfits (@set_small_le (.err req.cmd _) rfl) ((set_classified_iff hcmd _ _).trans ?_)
    exact and_iff_right (@encodeSetResponse_safe (.err req.cmd _) stale rfl)

theorem applied_processRequest {req : ClientRequest} (htyped : req.family ≠ .string)
    (hcmd : Family.ofByte req.cmd = req.family) (hwrite : isRaftWriteOp req.cmd = true) :
    ((Replication.applied cache).processRequest env c req).map Prod.snd =
      (processRequest env cache req).map Prod.snd := by
  have hreplicates : ∀ cmd, isRaftWriteOp cmd = true →
      (Replication.applied cache).replicates cmd = true := fun _ h => h
  cases req with
  | string req => exact absurd rfl htyped
  | hash req =>
    have hsame := replicatedHash_eq env cache req ((ofByte_spec _).1 hcmd) hwrite
    obtain ⟨result, hresult, hbytes⟩ := Option.map_eq_some_iff.mp hsame
    rw [Replication.processRequest, Replication.processHash, if_pos (hreplicates req.cmd hwrite)]
    simp [Replication.raftPropose, processRequest, hresult, ← hbytes, respond]
  | list req =>
    have hsame := replicatedList_eq env cache req ((ofByte_spec _).2.1 hcmd) hwrite
    obtain ⟨result, hresult, hbytes⟩ := Option.map_eq_some_iff.mp hsame
    rw [Replication.processRequest, Replication.processList, if_pos (hreplicates req.cmd hwrite)]
    simp [Replication.raftPropose, processRequest, hresult, ← hbytes, respond]
  | set req =>
    have hsame := replicatedSet_eq env cache req ((ofByte_spec _).2.2 hcmd) hwrite
    obtain ⟨result, hresult, hbytes⟩ := Option.map_eq_some_iff.mp hsame
    rw [Replication.processRequest, Replication.processSet, if_pos (hreplicates req.cmd hwrite)]
    simp [Replication.raftPropose, processRequest, hresult, ← hbytes, respond]

theorem stringWrite_spec {req : Request} (hcmd : Family.ofByte req.cmd = .string)
    (hwrite : isRaftWriteOp req.cmd = true) :
    (onRaftApply env cache (reqToRaft req) = none ↔
        ∃ a ∈ req.action env, cache.apply a = none) ∧ req.AnswerFits env cache := by
  obtain ⟨cmd, hmem, hcode⟩ := @exists_write (fun b => decide (Family.ofByte b = .string))
    [.set, .del, .cleanup] (by decide) _ (decide_eq_true hcmd) hwrite
  simp only [List.mem_cons, List.not_mem_nil, or_false] at hmem
  rcases hmem with rfl | rfl | rfl <;>
    simp [onRaftApply, reqToRaft, RaftCommand.on, Request.action, Request.AnswerFits,
      Cache.apply, ← hcode, Cmd.ofCode?_code]

theorem applied_arrives_iff (hreach : store.Reachable cache) {req : ClientRequest}
    (hcmd : Family.ofByte req.cmd = req.family) (hwrite : isRaftWriteOp req.cmd = true) :
    Arrives (((Replication.applied cache).processRequest env c req).map Prod.snd) stale family ↔
      req.Servable env cache ∧ req.family = family := by
  by_cases htyped : req.family = .string
  · cases req with
    | string req =>
      obtain ⟨hnone, hanswer⟩ := @stringWrite_spec env cache req hcmd hwrite
      simp only [Cache.panics_iff hreach] at hnone
      have hreplicates : ∀ cmd, isRaftWriteOp cmd = true →
    (Replication.applied cache).replicates cmd = true := fun _ h => h
      rw [Replication.processRequest, Replication.process, if_pos (hreplicates req.cmd hwrite)]
      simp only [Replication.raftPropose, Option.map_map]
      cases hresult : onRaftApply env cache (reqToRaft req) with
      | none =>
        obtain ⟨a, ha, hpanic⟩ := hnone.mp hresult
        exact iff_of_false (by simp [Arrives]) fun h => h.1.1 a ha hpanic
      | some result =>
        have hservable : ClientRequest.Servable env cache (.string req) := by
          refine ⟨fun a ha hpanic => ?_, hanswer⟩
          cases hresult.symm.trans (hnone.mpr ⟨a, ha, hpanic⟩)
        refine arrives_iff_fits (iff_of_true ?_ hservable) (string_classified_iff rfl stale)
        exact string_small_le (Nat.zero_le _) (Nat.zero_le _)
    | _ req => cases htyped
  · rw [applied_processRequest htyped hcmd hwrite]
    exact processRequest_arrives_iff hreach hcmd

def Replication.Sound (repl : Replication) : Prop :=
  ∀ cache, repl = .applied cache → store.Reachable cache

theorem arrives_iff_serves {repl : Replication} (hreach : store.Reachable c)
    (hrepl : repl.Sound) {req : ClientRequest} (hcmd : Family.ofByte req.cmd = req.family) :
    Arrives ((repl.processRequest env c req).map Prod.snd) stale family ↔
      repl.Serves env c req ∧ req.family = family := by
  have hlocal := @processRequest_arrives_iff env c family stale hreach req hcmd
  unfold Replication.Serves
  cases hreplicates : repl.replicates req.cmd with
  | false =>
    rw [Replication.processRequest_local env c hreplicates, hlocal]
    cases repl with
    | off => rfl
    | _ =>
      change isRaftWriteOp req.cmd = false at hreplicates
      simp [hreplicates]
  | true =>
    cases repl with
    | off => cases hreplicates
    | refused e =>
      change isRaftWriteOp req.cmd = true at hreplicates
      simpa [hreplicates] using refused_arrives_iff e hcmd hreplicates
    | applied cache =>
      change isRaftWriteOp req.cmd = true at hreplicates
      rw [applied_arrives_iff (hrepl cache rfl) hcmd hreplicates]
      simp only [hreplicates, if_true]

end Arrives

/-! ## What the server makes of a call -/

def ClientRequest.key : ClientRequest → Bytes
  | .string req => req.key
  | .hash req => req.key
  | .list req => req.key
  | .set req => req.key

def Cmd.keyStart : Cmd → Option ℕ
  | .sMembers | .sCard | .sPop => some 3
  | .sAdd | .sRem | .sIsMember | .sRandMember => some 7
  | _ => none

def ClientRequest.KeyReadable (call : ClientRequest) : Prop :=
  ∀ start, (Cmd.ofCode? call.cmd).bind Cmd.keyStart = some start →
    start + call.key.length % 2 ^ 16 < 2 ^ 16

section Decoding

variable {call : ClientRequest} {payload : Bytes}

theorem ofByte_of_keyStart {b : UInt8} {start : ℕ}
    (h : (Cmd.ofCode? b).bind Cmd.keyStart = some start) : Family.ofByte b = .set := by
  obtain ⟨cmd, hcmd, hstart⟩ := Option.bind_eq_some_iff.mp h
  rw [← Cmd.code_of_ofCode? hcmd]
  cases cmd <;> first | rfl | cases hstart

theorem keyReadable_of_family (h : Family.ofByte call.cmd ≠ .set) : call.KeyReadable :=
  fun _ hstart => absurd (ofByte_of_keyStart hstart) h

theorem number_key (cmd : UInt8) (n : ℕ) (rest : Bytes) :
    number (cmd :: (bigEndian 2 n ++ rest)) 2 1 = n % 256 ^ 2 :=
  (number_append rfl : number ([cmd] ++ _) 2 1 = _)

theorem number_value (cmd : UInt8) (n m : ℕ) (rest : Bytes) :
    number (cmd :: (bigEndian 2 n ++ (bigEndian 4 m ++ rest))) 4 3 = m % 256 ^ 4 := by
  have hbefore : (cmd :: bigEndian 2 n).length = 3 := by simp
  exact (number_append hbefore : number ((cmd :: bigEndian 2 n) ++ _) 4 3 = _)

theorem encode_layout (hencode : call.encode = some payload) {start : ℕ}
    (hstart : (Cmd.ofCode? call.cmd).bind Cmd.keyStart = some start) :
    number payload 2 1 = call.key.length % 256 ^ 2 ∧ start + call.key.length ≤ payload.length ∧
      (Cmd.ofCode? call.cmd = some .sIsMember →
        7 + call.key.length + number payload 4 3 ≤ payload.length) := by
  have hfamily := (encode_eq_cons hencode).2
  cases call with
  | string req =>
    cases hencode
    simp only [Request.encodePayload, List.append_assoc, number_key, number_value,
      ClientRequest.key, List.length_cons, List.length_append, bigEndian_length]
    have hvalue := Nat.mod_le (req.value.getD []).length (256 ^ 4)
    obtain ⟨cmd, -, hcmd⟩ := Option.bind_eq_some_iff.mp hstart
    have hle : start ≤ 7 := by
      cases cmd <;> cases hcmd <;> decide
    exact ⟨trivial, by omega, fun _ => by omega⟩
  | hash req => cases (ofByte_of_keyStart hstart).symm.trans (hfamily nofun)
  | list req => cases (ofByte_of_keyStart hstart).symm.trans (hfamily nofun)
  | set req =>
    simp only [ClientRequest.encode, encodeSetRequest] at hencode
    simp only [ClientRequest.cmd, ClientRequest.key] at hstart ⊢
    split at hencode <;> cases hencode
    all_goals
      rename_i hcmd
      rw [hcmd] at hstart ⊢
      cases hstart
    all_goals
      simp only [sized, List.append_assoc, number_key, number_value,
        List.length_cons, List.length_append, bigEndian_length]
      have hvalue := Nat.mod_le (req.elems.head?.getD []).length (256 ^ 4)
      exact ⟨trivial, by omega, fun h => by cases h <;> omega⟩

theorem setRequestBounded_iff (hencode : call.encode = some payload) :
    SetRequestBounded payload ↔ call.KeyReadable := by
  obtain ⟨⟨rest, hrest⟩, -⟩ := encode_eq_cons hencode
  have hfirst : payload.getD 0 0 = call.cmd := by simp [hrest]
  have hlayout := @encode_layout _ _ hencode
  unfold SetRequestBounded ClientRequest.KeyReadable
  rw [hfirst]
  have hmod := Nat.mod_le call.key.length (256 ^ 2)
  split
  case h_8 hone htwo hthree hfour hfive hsix hseven =>
    refine iff_of_true trivial fun start hstart => ?_
    obtain ⟨cmd, hcmd, hstart⟩ := Option.bind_eq_some_iff.mp hstart
    cases cmd <;> cases hstart <;> contradiction
  all_goals
    rename_i hcmd
    rw [hcmd] at hlayout ⊢
    obtain ⟨hkey, hlength, hmember⟩ := hlayout rfl
    simp only [Option.bind_some, Cmd.keyStart, Option.some.injEq, forall_eq',
      reduceCtorEq, false_implies, true_implies, hkey] at hmember ⊢
    omega


theorem requestBounded_encodePayload (req : Request) : RequestBounded req.encodePayload := by
  intro _ _
  simp only [Request.encodePayload, List.append_assoc, number_value, List.length_cons,
    List.length_append, bigEndian_length]
  have hvalue := Nat.mod_le (req.value.getD []).length (256 ^ 4)
  omega

theorem safe_map_iff {α β : Type} {result : Go α} {f : α → β} :
    Safe (result.map f) ↔ Safe result := by
  cases result <;> simp [Safe, Except.map]

theorem decodeClientRequest_safe_iff (hencode : call.encode = some payload) (stale : Bytes) :
    Safe (decodeClientRequest (.of payload stale) (.ofByte call.cmd)) ↔ call.KeyReadable := by
  obtain ⟨⟨rest, hrest⟩, htyped⟩ := encode_eq_cons hencode
  cases hfamily : Family.ofByte call.cmd with
  | string =>
    refine iff_of_true (safe_map_iff.mpr ?_) (keyReadable_of_family (by simp [hfamily]))
    cases call with
    | string req =>
      cases hencode
      exact (requestBounded_encodePayload req).safe stale
    | _ req => cases hfamily.symm.trans (htyped nofun)
  | hash =>
    exact iff_of_true (safe_map_iff.mpr (decodeHashRequest_yields _).1)
      (keyReadable_of_family (by simp [hfamily]))
  | list =>
    exact iff_of_true (safe_map_iff.mpr (decodeListRequest_yields _).1)
      (keyReadable_of_family (by simp [hfamily]))
  | set =>
    refine safe_map_iff.trans ((yields_true_iff _).symm.trans ?_)
    refine (decodeSetRequest_yields_iff (fun _ _ => trivial) (.inr ?_)).trans
      (setRequestBounded_iff hencode)
    have hmod := Nat.mod_le call.key.length (256 ^ 2)
    have hfirst : payload.getD 0 0 = call.cmd := by simp [hrest]
    intro hcmd
    have hstart : (Cmd.ofCode? call.cmd).bind Cmd.keyStart = some 7 := by
      rw [hfirst] at hcmd
      rcases List.mem_pair.mp hcmd with h | h <;> rw [h] <;> rfl
    obtain ⟨hkey, hlength, -⟩ := encode_layout hencode hstart
    omega

end Decoding

def Rejected (p : Slice) (family : Family) : Prop :=
  ∃ text, decodeClientRequest p family = .error (.error text)

def ClientRequest.Understood (call : ClientRequest) (p : Slice) : Prop :=
  (Rejected p (.ofByte call.cmd) → call.family = .string) ∧
    (¬ Rejected p (.ofByte call.cmd) → Family.ofByte call.cmd = call.family)

def Answered (repl : Replication) (env : Env) (c : Cache)
    (stale staleAtClient : Bytes) (call : ClientRequest) : Prop :=
  ∃ payload, call.encode = some payload ∧ payload.length ≤ maxPayloadSize ∧
    Arrives ((handleFrame repl env c (.of payload stale)).map Prod.snd) staleAtClient call.family

theorem decodeClientRequest_spec {p : Slice} {family : Family} {req : ClientRequest}
    (hreq : decodeClientRequest p family = .ok req) :
    req.family = family ∧ p.byte 0 = .ok req.cmd := by
  have hmap : ∀ {α : Type} {result : Go α} {wrap : α → ClientRequest},
      result.map wrap = .ok req → ∃ a, result = .ok a ∧ wrap a = req := by
    intro α result wrap h
    cases result with
    | ok a =>
      cases h
      exact ⟨a, rfl, rfl⟩
    | error fault => cases h
  cases family with
  | string =>
    obtain ⟨r, hr, rfl⟩ := hmap hreq
    exact ⟨rfl, (decodeRequest_cmd p).1 r hr⟩
  | hash =>
    obtain ⟨r, hr, rfl⟩ := hmap hreq
    exact ⟨rfl, (decodeRequest_cmd p).2.2.1 r hr⟩
  | list =>
    obtain ⟨r, hr, rfl⟩ := hmap hreq
    exact ⟨rfl, (decodeRequest_cmd p).2.2.2 r hr⟩
  | set =>
    obtain ⟨r, hr, rfl⟩ := hmap hreq
    exact ⟨rfl, (decodeRequest_cmd p).2.1 r hr⟩

section Calls

variable {repl : Replication} {env : Env} {c : Cache} {call : ClientRequest}
  {payload stale : Bytes}

theorem handleFrame_eq (hencode : call.encode = some payload) :
    handleFrame repl env c (.of payload stale) =
      match decodeClientRequest (.of payload stale) (.ofByte call.cmd) with
      | .ok req => repl.processRequest env c req
      | .error (.error _) =>
        some (c, (Response.err (invalidText (.ofByte call.cmd))).encodePayload)
      | .error .panic => none := by
  obtain ⟨⟨rest, rfl⟩, -⟩ := encode_eq_cons hencode
  unfold handleFrame
  rw [Slice.content_of] <;> rfl

theorem handleFrame_rejected (hencode : call.encode = some payload)
    (hrejected : Rejected (.of payload stale) (.ofByte call.cmd)) :
    handleFrame repl env c (.of payload stale) =
      some (c, (Response.err (invalidText (.ofByte call.cmd))).encodePayload) := by
  obtain ⟨text, htext⟩ := hrejected
  rw [handleFrame_eq hencode, htext]

theorem invalidText_le (family : Family) :
    (Response.err (invalidText family)).encodePayload.length ≤ maxPayloadSize := by
  cases family <;> decide

theorem handleFrame_arrives_iff (hreach : store.Reachable c) (hrepl : repl.Sound)
    (hencode : call.encode = some payload) (staleAtClient : Bytes) :
    Arrives ((handleFrame repl env c (.of payload stale)).map Prod.snd) staleAtClient call.family ↔
      call.KeyReadable ∧ call.Understood (.of payload stale) ∧
        ∀ req, decodeClientRequest (.of payload stale) (.ofByte call.cmd) = .ok req →
          repl.Serves env c req := by
  have hsafe := decodeClientRequest_safe_iff hencode stale
  obtain ⟨⟨rest, rfl⟩, -⟩ := encode_eq_cons hencode
  have hbyte : (Slice.of (call.cmd :: rest) stale).byte 0 = .ok call.cmd :=
    (Slice.of_holds (call.cmd :: rest) stale).byte (by simp [Slice.of])
  unfold ClientRequest.Understood Rejected
  rw [handleFrame_eq hencode, ← hsafe]
  cases hdecoded : decodeClientRequest (.of (call.cmd :: rest) stale) (.ofByte call.cmd) with
  | ok req =>
    obtain ⟨hfamily, hcmd⟩ := decodeClientRequest_spec hdecoded
    have hfirst : Family.ofByte req.cmd = req.family := by
      rw [← Except.ok.inj (hbyte.symm.trans hcmd), hfamily]
    refine (arrives_iff_serves hreach hrepl hfirst).trans ?_
    rw [hfamily]
    simp [safe_ok, and_comm]
  | error fault =>
    cases fault with
    | error text =>
      refine (arrives_iff_fits (iff_of_true (invalidText_le _) trivial)
        (string_classified_iff rfl staleAtClient)).trans ?_
      simp [Safe, eq_comm]
    | panic => simp [Safe, Arrives]

end Calls

theorem Replication.off_sound : Replication.off.Sound := by
  rintro cache ⟨⟩

def withFields : Cache :=
  ((Cache.ofDefaults.collection [107] (.hSet [102] [118])).1.collection [107] (.hSet [103] [119])).1

theorem withFields_reachable : store.Reachable withFields := by
  have hfirst := reachable_ofDefaults.next
    (a := ⟨.collection [107] (.hSet [102] [118]), .asStored, fun _ _ => 1⟩) rfl
  exact hfirst.next (a := ⟨.collection [107] (.hSet [103] [119]), .asStored, fun _ _ => 1⟩) rfl

def longKeyPush (tail : Bytes) : ListRequest :=
  ⟨Cmd.lPush.code, 255 :: 255 :: tail, [[97], [98]], [], 0, 0, 0, 0, [], false, 0, 0, 0⟩

section LongKey

variable {tail : Bytes}

theorem longKeyPush_encode (htail : tail.length = 65534) :
    (ClientRequest.list (longKeyPush tail)).encode =
      some ([Cmd.lPush.code] ++ bigEndian 2 65536 ++ bigEndian 4 2 ++
        bigEndian 2 65535 ++ (tail ++ [0]) ++ bigEndian 2 353 ++ [0, 1, 98]) := by
  have hfirst : bigEndian 2 65535 = [255, 255] := by decide
  have hsecond : bigEndian 2 353 = [1, 97] := by decide
  have hsized : [[97], [98]].flatMap (sized 2) = [0, 1, 97, 0, 1, 98] := by decide
  have hcmd : Cmd.ofCode? (longKeyPush tail).cmd = some .lPush := rfl
  simp only [ClientRequest.encode, encodeListRequest, hcmd]
  simp [longKeyPush, htail, hsized, hfirst, hsecond]

theorem longKeyPush_rejected (htail : tail.length = 65534) (stale : Bytes)
    {payload : Bytes}
    (hencode : (ClientRequest.list (longKeyPush tail)).encode = some payload) :
    Rejected (.of payload stale) .list := by
  rw [longKeyPush_encode htail, Option.some_inj] at hencode
  subst hencode
  set p := Slice.of _ stale with hp
  have hall : p.Holds 0 _ := Slice.of_holds _ stale
  have hlen : p.len = 65549 := by
    simp [hp, Slice.of, htail]
  have hcmd : p.byte 0 = .ok Cmd.lPush.code := hall.left.left.left.left.left.left.byte (by omega)
  have hkeyLen : p.uint 2 1 = .ok 0 := hall.left.left.left.left.left.right.uint_mod rfl
  have hcount : p.uint 4 3 = .ok 2 := hall.left.left.left.left.right.uint (by norm_num) (by simp)
  have hfirst : p.uint 2 7 = .ok 65535 := hall.left.left.left.right.uint (by norm_num) (by simp)
  have hsecond : p.uint 2 65544 = .ok 353 := hall.left.right.uint (by norm_num) (by simp [htail])
  have hkind : Cmd.ofCode? Cmd.lPush.code = some .lPush := rfl
  refine ⟨ascii "list request payload truncated", ?_⟩
  unfold decodeClientRequest decodeListRequest
  rw [ensure_bind (by omega), hcmd, ok_bind, hkeyLen, ok_bind]
  simp only [hkind]
  rw [ensure_bind (by omega), hcount, ok_bind, ensure_bind (by omega)]
  rcases Slice.exists_text (p := p) (show 7 ≤ 7 + 0 by omega) (by omega) with ⟨key, hkey⟩
  rw [hkey, ok_bind]
  have helements : p.texts 2 (ascii "list request payload truncated") 2 (7 + 0) =
      .error (.error (ascii "list request payload truncated")) := by
    simp only [Slice.texts]
    rw [ensure_bind (by omega), hfirst, ok_bind, ensure_bind (by omega)]
    rcases Slice.exists_text (p := p) (show 7 + 0 + 2 ≤ 7 + 0 + 2 + 65535 by omega)
      (by omega) with ⟨elem, helem⟩
    rw [helem, ok_bind, ensure_bind (by omega), hsecond, ok_bind, ensure_bind_not (by omega)]
    rfl
  rw [helements]
  rfl

theorem longKeyPush_unanswered_of (htail : tail.length = 65534)
    {call : ClientRequest} (hcall : call = .list (longKeyPush tail)) :
    ∃ payload reply, call.encode = some payload ∧ payload.length ≤ maxPayloadSize ∧
      handleFrame .off (.still 1) .ofDefaults (.of payload []) = some (.ofDefaults, reply) ∧
      Classified (.of reply []) .string ∧
      ¬ Answered .off (.still 1) .ofDefaults [] [] call := by
  subst hcall
  have hencode := longKeyPush_encode htail
  have hrejected := longKeyPush_rejected htail [] hencode
  refine ⟨_, _, hencode, ?_, handleFrame_rejected hencode hrejected, ?_, ?_⟩
  · simp only [List.length_append, bigEndian_length, htail]
    decide
  · exact (string_classified_iff rfl []).mpr rfl
  · rintro ⟨sent, hsent, -, harrives⟩
    have hunderstood := ((handleFrame_arrives_iff reachable_ofDefaults
      Replication.off_sound hsent []).mp harrives).2.1
    cases hunderstood.1 (longKeyPush_rejected htail [] hsent)

end LongKey

end MCache.Net
