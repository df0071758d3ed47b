import MCache.CollectionsResize
import MCache.Frames

/-!
# Recycled buffers and the next client

`handleConn` with the old content of its buffers as a parameter.  Two runs on
the same frame and the same cache differ only for `SADD` and `SREM` without
elements whose key reaches past the end of the payload: there the decoder takes
the rest of the key from what the buffer held before.
-/

namespace MCache.Net

open MCache.Store

section Decoders

variable {p q : Slice}

theorem decodeHashRequest_agrees (h : p.Agrees q) : decodeHashRequest p = decodeHashRequest q := by
  unfold decodeHashRequest
  rw [← h.len]
  refine ensure_bind_congr fun hlen => h.byte_bind fun cmd => ?_
  refine h.uint_bind (by omega) fun keyLen => ?_
  dsimp only
  split
  case h_1 | h_2 | h_3 | h_4 =>
    exact ensure_bind_congr fun hkey => h.text_bind hkey fun key => rfl
  case h_5 | h_6 | h_7 =>
    refine ensure_bind_congr fun hhead => h.uint_bind hhead fun fieldLen => ?_
    refine ensure_bind_congr fun hall => h.text_bind (by omega) fun key => ?_
    exact h.text_bind hall fun field => rfl
  case h_8 | h_9 =>
    refine ensure_bind_congr fun hhead => h.uint_bind (by omega) fun fieldLen => ?_
    refine h.uint_bind hhead fun valueLen => ensure_bind_congr fun hall => ?_
    refine h.text_bind (by omega) fun key => h.text_bind (by omega) fun field => ?_
    exact h.text_bind hall fun value => rfl
  case h_10 | h_11 | h_14 =>
    refine ensure_bind_congr fun hhead => h.uint_bind hhead fun count => ?_
    refine ensure_bind_congr fun hkey => h.text_bind hkey fun key => ?_
    exact h.texts_bind fun texts => rfl
  case h_12 | h_13 =>
    refine ensure_bind_congr fun hhead => h.uint_bind (by omega) fun fieldLen => ?_
    refine h.uint_bind hhead fun delta => ensure_bind_congr fun hall => ?_
    exact h.text_bind (by omega) fun key => h.text_bind hall fun field => rfl
  case h_15 => rfl

theorem decodeListRequest_agrees (h : p.Agrees q) : decodeListRequest p = decodeListRequest q := by
  unfold decodeListRequest
  rw [← h.len]
  refine ensure_bind_congr fun hlen => h.byte_bind fun cmd => ?_
  refine h.uint_bind (by omega) fun keyLen => ?_
  dsimp only
  split
  case h_1 | h_2 | h_3 =>
    exact ensure_bind_congr fun hkey => h.text_bind hkey fun key => rfl
  case h_4 | h_5 =>
    refine ensure_bind_congr fun hhead => h.uint_bind hhead fun count => ?_
    refine ensure_bind_congr fun hkey => h.text_bind hkey fun key => ?_
    exact h.texts_bind fun elements => rfl
  case h_6 | h_7 =>
    refine ensure_bind_congr fun hhead => h.uint_bind (by omega) fun start => ?_
    refine h.uint_bind hhead fun stop => ensure_bind_congr fun hkey => ?_
    exact h.text_bind hkey fun key => rfl
  case h_8 | h_12 | h_13 =>
    refine ensure_bind_congr fun hhead => h.uint_bind hhead fun n => ?_
    exact ensure_bind_congr fun hkey => h.text_bind hkey fun key => rfl
  case h_9 | h_10 =>
    refine ensure_bind_congr fun hhead => h.uint_bind (by omega) fun n => ?_
    refine h.uint_bind hhead fun valueLen => ensure_bind_congr fun hall => ?_
    exact h.text_bind (by omega) fun key => h.text_bind hall fun value => rfl
  case h_11 =>
    refine ensure_bind_congr fun hhead => h.byte_bind fun before => ?_
    refine h.uint_bind (by omega) fun pivotLen => h.uint_bind hhead fun valueLen => ?_
    refine ensure_bind_congr fun hall => h.text_bind (by omega) fun key => ?_
    exact h.text_bind (by omega) fun pivot => h.text_bind hall fun value => rfl
  case h_14 =>
    refine ensure_bind_congr fun hhead => h.uint_bind (by omega) fun rank => ?_
    refine h.uint_bind (by omega) fun count => h.uint_bind (by omega) fun maxLen => ?_
    refine h.uint_bind hhead fun valueLen => ensure_bind_congr fun hall => ?_
    exact h.text_bind (by omega) fun key => h.text_bind hall fun value => rfl
  case h_15 => rfl

theorem decodeRequestPayload_agrees (h : p.Agrees q) :
    decodeRequestPayload p = decodeRequestPayload q ∨
      ∃ (req : Request) (value other : Option Bytes), req.key = [] ∧
        decodeRequestPayload p = .ok { req with value := value } ∧
        decodeRequestPayload q = .ok { req with value := other } := by
  unfold decodeRequestPayload
  rw [← h.len]
  by_cases hlen : 15 ≤ p.len
  swap
  · exact .inl (by rw [ensure_bind_not hlen, ensure_bind_not hlen])
  rcases Slice.exists_byte (show 0 < p.len by omega) with ⟨cmd, hcmd⟩
  rcases Slice.exists_uint (show 1 + 2 ≤ p.len by omega) with ⟨keyLen, -, hkeyLen⟩
  rcases Slice.exists_uint (show 3 + 4 ≤ p.len by omega) with ⟨valLen, -, hvalLen⟩
  rcases Slice.exists_uint (show 7 + 8 ≤ p.len by omega) with ⟨ttl, -, httl⟩
  rw [ensure_bind hlen, ensure_bind hlen, ← h.byte, ← h.uint (by omega),
    ← h.uint (by omega), ← h.uint (by omega), hcmd, hkeyLen, hvalLen, httl]
  simp only [ok_bind]
  by_cases hkey : 0 < keyLen
  · refine .inl (ensure_bind_congr fun hfits => ?_)
    have hfits := hfits hkey
    rw [if_pos hkey, if_pos hkey, h.text (by omega), h.text (by omega)]
  · rw [ensure_bind fun hpos => absurd hpos hkey,
      ensure_bind fun hpos => absurd hpos hkey, if_neg hkey, if_neg hkey]
    by_cases hval : 0 < valLen
    · rw [if_pos hval, if_pos hval]
      rcases h.text_or (15 + keyLen) (15 + keyLen + valLen) with
        ⟨value, other, hvalue, hother⟩ | ⟨hvalue, hother⟩
      · rw [hvalue, hother]
        generalize int64 (ttl : ℤ) = ttl
        exact .inr ⟨⟨cmd, [], none, ttl⟩, some value, some other, rfl, rfl, rfl⟩
      · exact .inl (by rw [hvalue, hother])
    · exact .inl (by rw [if_neg hval, if_neg hval])

structure KeyPastEnd (p : Slice) (cmd : Cmd) (key : Bytes) : Prop where
  writes : cmd = .sAdd ∨ cmd = .sRem
  long : 7 ≤ p.len
  code : p.byte 0 = .ok cmd.code
  noElems : p.uint 4 3 = .ok 0
  reads : ∃ keyLen, p.uint 2 1 = .ok keyLen ∧ p.len < 7 + keyLen ∧
    7 + keyLen < 2 ^ 16 ∧ p.text 7 (7 + keyLen) = .ok key

theorem KeyPastEnd.ne_nil {cmd : Cmd} {key : Bytes} (h : KeyPastEnd p cmd key) : key ≠ [] := by
  rcases h.reads with ⟨keyLen, -, hpast, -, hkey⟩
  have hlong := h.long
  unfold Slice.text at hkey
  split_ifs at hkey with hbounds
  have hlength := congrArg List.length (Except.ok.inj hkey)
  rintro rfl
  simp at hlength
  omega

theorem KeyPastEnd.decode {cmd : Cmd} {key : Bytes} (h : KeyPastEnd p cmd key) :
    decodeSetRequest p = .ok ⟨cmd.code, key, [], 0, []⟩ := by
  rcases h.reads with ⟨keyLen, hkeyLen, -, hlt, hkey⟩
  have hlong := h.long
  have hend : uint16 (7 + keyLen) = 7 + keyLen := Nat.mod_eq_of_lt hlt
  unfold decodeSetRequest
  rw [ensure_bind (by omega), h.code, ok_bind, hkeyLen, ok_bind]
  rcases h.writes with rfl | rfl
  all_goals
    simp only [Cmd.ofCode?_code]
    rw [ensure_bind hlong, h.noElems, ok_bind, hend, hkey]
    rfl

theorem KeyPastEnd.of_agrees {cmd : Cmd} {key : Bytes} (hpq : p.Agrees q)
    (h : KeyPastEnd p cmd key) : ∃ other, KeyPastEnd q cmd other := by
  rcases h.reads with ⟨keyLen, hkeyLen, hpast, hlt, hkey⟩
  have hlong := h.long
  rcases hpq.text_or 7 (7 + keyLen) with ⟨-, other, -, hother⟩ | ⟨hpanic, -⟩
  · exact ⟨other, h.writes, hpq.len ▸ hlong, hpq.byte 0 ▸ h.code,
      hpq.uint (show 3 + 4 ≤ p.len by omega) ▸ h.noElems, keyLen,
      hpq.uint (show 1 + 2 ≤ p.len by omega) ▸ hkeyLen, hpq.len ▸ hpast, hlt,
      hother⟩
  · cases hkey.symm.trans hpanic

theorem decodeElems_agrees (h : p.Agrees q) {keyLen : ℕ}
    (hkeyLen : p.uint 2 1 = .ok keyLen) (hkeyLt : keyLen < 2 ^ 16)
    {cmd : Cmd} (hcode : p.byte 0 = .ok cmd.code) (hwrites : cmd = .sAdd ∨ cmd = .sRem)
    (hconfined : ∀ cmd key, ¬ KeyPastEnd p cmd key) (hlen : 7 ≤ p.len)
    (elemCount : ℕ) (hcount : p.uint 4 3 = .ok elemCount) (message : Bytes)
    (result : Bytes → List Bytes → SetRequest) :
    (do
      let key ← p.text 7 (uint16 (7 + keyLen))
      let elems ← p.texts 4 message elemCount (7 + keyLen)
      return result key elems) =
    (do
      let key ← q.text 7 (uint16 (7 + keyLen))
      let elems ← q.texts 4 message elemCount (7 + keyLen)
      return result key elems : Go SetRequest) := by
  rw [h.texts]
  by_cases hend : uint16 (7 + keyLen) ≤ p.len
  · rw [h.text hend]
  have hlt : 7 + keyLen < 2 ^ 16 := by
    unfold uint16 at hend
    omega
  have hsame : uint16 (7 + keyLen) = 7 + keyLen := Nat.mod_eq_of_lt hlt
  rw [hsame] at hend ⊢
  rcases h.text_or 7 (7 + keyLen) with ⟨key, other, hkey, hother⟩ | ⟨hkey, hother⟩
  · cases elemCount with
    | zero =>
      refine absurd ?_ (hconfined cmd key)
      exact ⟨hwrites, hlen, hcode, hcount, keyLen, hkeyLen, by omega, hlt, hkey⟩
    | succ count =>
      have hstop : q.texts 4 message (count + 1) (7 + keyLen) = .error (.error message) := by
        simp only [Slice.texts]
        rw [ensure_bind_not (by rw [← h.len]; omega)]
      rw [hkey, hother, hstop]
      rfl
  · rw [hkey, hother]

theorem decodeSetRequest_agrees (h : p.Agrees q) (hconfined : ∀ cmd key, ¬ KeyPastEnd p cmd key) :
    decodeSetRequest p = decodeSetRequest q := by
  unfold decodeSetRequest
  rw [← h.len]
  refine ensure_bind_congr fun hlen => ?_
  rcases Slice.exists_byte (show 0 < p.len by omega) with ⟨code, hcode⟩
  rcases Slice.exists_uint (show 1 + 2 ≤ p.len by omega) with
    ⟨keyLen, hkeyLt, hkeyLen⟩
  rw [← h.byte, ← h.uint (by omega), hcode, hkeyLen]
  simp only [ok_bind]
  split
  case h_4 hcmd | h_5 hcmd =>
    rw [← Cmd.code_of_ofCode? hcmd] at hcode ⊢
    refine ensure_bind_congr fun hlong => ?_
    rcases Slice.exists_uint (show 3 + 4 ≤ p.len by omega) with ⟨count, -, hcount⟩
    rw [← h.uint (by omega), hcount, ok_bind, ok_bind]
    exact decodeElems_agrees h hkeyLen (by omega) hcode (by simp) hconfined hlong count hcount _ _
  case h_1 | h_2 | h_3 =>
    refine ensure_bind_congr fun hkey => ?_
    exact h.text_bind ((uint16_le _).trans hkey) fun key => rfl
  case h_6 =>
    refine ensure_bind_congr fun hhead => h.uint_bind hhead fun elemLen => ?_
    refine ensure_bind_congr fun hall => ?_
    refine h.text_bind ((uint16_le _).trans (by omega)) fun key => ?_
    exact h.text_bind hall fun elem => rfl
  case h_7 =>
    refine ensure_bind_congr fun hhead => h.uint_bind hhead fun count => ?_
    refine ensure_bind_congr fun hkey => ?_
    exact h.text_bind ((uint16_le _).trans hkey) fun key => rfl
  case h_8 | h_9 | h_10 => exact h.texts_bind fun keys => rfl
  case h_11 => rfl

end Decoders

end MCache.Net

namespace MCache.Store

def Shard.SameState (s later : Shard) : Prop :=
  ∃ collections, later = { s with collections := collections } ∧
    ∀ key, collections.content key = s.collections.content key

def Cache.SameState (c later : Cache) : Prop := ∃ table, later = { c with table := table } ∧
    c.table.Changes Shard.SameState table

section SameState

variable {c d e : Cache}

theorem Cache.SameState.refl (c : Cache) : c.SameState c :=
  ⟨c.table, rfl, c.table.shards, rfl, fun i =>
    ⟨(c.table.shards i).collections, rfl, fun _ => rfl⟩⟩

theorem Cache.SameState.of_common (hd : c.SameState d) (he : c.SameState e) : d.SameState e := by
  rcases hd with ⟨_, rfl, shards, rfl, hshards⟩
  rcases he with ⟨_, rfl, shards', rfl, hshards'⟩
  refine ⟨_, rfl, shards', rfl, fun i => ?_⟩
  rcases hshards i with ⟨m, hm, hcontent⟩
  rcases hshards' i with ⟨m', hm', hcontent'⟩
  dsimp only
  rw [hm, hm']
  exact ⟨m', rfl, fun key => (hcontent' key).trans (hcontent key).symm⟩

theorem Cache.SameState.content (h : c.SameState d) (key : Bytes) :
    d.table.content key = c.table.content key := by
  rcases h with ⟨table, rfl, hchanges⟩
  rcases hchanges with ⟨shards, rfl, hshards⟩
  rcases hshards (c.table.index key) with ⟨m, hm, hcontent⟩
  change (shards (c.table.index key)).collections.content key = _
  rw [hm]
  exact hcontent key

end SameState

def Cache.Unmoved (c : Cache) (key : Bytes) (cmd : CollectionCommand) : Prop :=
  ((c.table.shard key).collections.run key cmd).content key = c.table.content key

section Commands

variable {c : Cache} {key other : Bytes} {cmd : CollectionCommand}

theorem Cache.collection_sameState (hopen : c.closed = false) (hkey : key ≠ [])
    (hunmoved : c.Unmoved key cmd) : c.SameState (c.collection key cmd).1 := by
  rw [Cache.collection, Cache.onShard_open hopen hkey]
  refine ⟨_, rfl, Function.update c.table.shards (c.table.index key) _, rfl, ?_⟩
  intro i
  by_cases hi : i = c.table.index key
  · subst hi
    rw [Function.update_self]
    refine ⟨_, rfl, fun other => ?_⟩
    by_cases hother : other = key
    · subst hother
      exact hunmoved
    · exact Collections.content_run_ne _ hother cmd
  · rw [Function.update_of_ne hi]
    exact ⟨_, rfl, fun _ => rfl⟩

theorem Cache.collection_sameState_iff (hopen : c.closed = false) (hkey : key ≠ [])
    (hother : other ≠ []) (hne : key ≠ other) (cmd : CollectionCommand) :
    (c.collection key cmd).1.SameState (c.collection other cmd).1 ↔
      c.Unmoved key cmd ∧ c.Unmoved other cmd := by
  constructor
  · intro h
    constructor
    · rw [Cache.Unmoved, ← Cache.collection_content hopen hkey, ← h.content,
        Cache.collection_content_ne hne]
    · rw [Cache.Unmoved, ← Cache.collection_content hopen hother, h.content,
        Cache.collection_content_ne hne.symm]
  · rintro ⟨hfirst, hsecond⟩
    exact (Cache.collection_sameState hopen hkey hfirst).of_common
      (Cache.collection_sameState hopen hother hsecond)

theorem Cache.set_nil_key (c : Cache) (hkey : key = []) (order : MapOrder)
    (clock : Clock) (value other : Option Bytes) (ttl : Option ℤ) :
    c.set order clock key value ttl = c.set order clock key other ttl := by
  unfold Cache.set
  rw [if_pos hkey, if_pos hkey]

theorem Cache.collectionAs_nil_key {α : Type} (c : Cache) (hkey : key = [])
    (read : Reply → Except CacheError α) (cmd other : CollectionCommand) :
    c.collectionAs read key cmd = c.collectionAs read key other := by
  unfold Cache.collectionAs Cache.collection Cache.onShard
  rw [if_pos hkey, if_pos hkey]

theorem Cache.unmoved_sAdd_iff : c.Unmoved key (.sAdd []) ↔ (c.table.content key).1 ≠ none := by
  unfold Cache.Unmoved
  simp only [ShardTable.content, Collections.content, Collections.run,
    Collections.alterSet, alter, AList.lookup_insert, Prod.mk.injEq, and_true]
  cases (c.table.shard key).collections.sets.lookup key <;> simp [setAdd]

theorem Cache.unmoved_sRem_iff : c.Unmoved key (.sRem []) ↔ (c.table.content key).1 ≠ some [] := by
  unfold Cache.Unmoved
  simp only [ShardTable.content, Collections.content, Collections.run,
    Collections.alterSet, alter, Prod.mk.injEq, and_true]
  cases hset : (c.table.shard key).collections.sets.lookup key with
  | none => simp
  | some s => cases s <;> simp [setRem, unlessNil]

end Commands

end MCache.Store

namespace MCache.Net

open MCache.Store

structure Buffers where
  request : Bytes
  response : Bytes
  frame : Bytes

def Buffers.SameCapacity (b other : Buffers) : Prop := b.request.length = other.request.length ∧
    b.response.length = other.response.length ∧
    b.frame.length = other.frame.length

section Handler

variable (repl : Replication) (env : Env) (c : Cache)

def processInto (recycled : Bytes) : ClientRequest → Option (Cache × Bytes)
  | .string req =>
    (repl.process env c req).map fun result =>
      (result.1, result.2.encodeInto recycled)
  | .hash req =>
    (repl.processHash env c req).map fun result =>
      (result.1, typedPayload recycled req.cmd result.2)
  | .list req =>
    (repl.processList env c req).map fun result =>
      (result.1, typedPayload recycled req.cmd result.2)
  | .set req =>
    (repl.processSet env c req).map fun result =>
      (result.1, typedPayload recycled req.cmd result.2)

def answerInto (b : Buffers) (payload : Bytes) : Option (Cache × Bytes) :=
  match payload with
  | [] => some (c, (Response.err (ascii "empty request")).encodeInto b.response)
  | cmd :: rest =>
    match decodeClientRequest (readPayload b.request (cmd :: rest)) (.ofByte cmd) with
    | .ok req => processInto repl env c b.response req
    | .error (.error _) =>
      some (c, (Response.err (invalidText (.ofByte cmd))).encodeInto b.response)
    | .error .panic => none

def handleConn (b : Buffers) (f : Frame) : Option (Cache × Bytes) :=
  if maxPayloadSize < f.payload.length then none
  else if f.type ≠ frameTypeRequest then some (c, [])
  else
    (answerInto repl env c b f.payload).map fun result =>
      (result.1, Frame.encode b.frame ⟨f.streamID, frameTypeResponse, 0, result.2⟩)

theorem processInto_eq (recycled : Bytes) (req : ClientRequest) :
    processInto repl env c recycled req = repl.processRequest env c req := by
  cases req with
  | string req =>
    simp only [processInto, Replication.processRequest, Response.encodeInto_eq]
  | hash req | list req | set req =>
    simp only [processInto, Replication.processRequest, typedPayload_eq]

theorem answerInto_eq (b : Buffers) (payload : Bytes) : answerInto repl env c b payload =
      handleFrame repl env c (readPayload b.request payload) := by
  unfold answerInto handleFrame
  rw [readPayload_content]
  cases payload with
  | nil => simp only [Response.encodeInto_eq]
  | cons cmd rest =>
    simp only [processInto_eq, Response.encodeInto_eq] <;> rfl

end Handler

def SameOutcome : Option (Cache × Bytes) → Option (Cache × Bytes) → Prop :=
  Option.Rel fun result other => result.1.SameState other.1 ∧ result.2 = other.2

theorem SameOutcome.refl (result : Option (Cache × Bytes)) : SameOutcome result result := by
  cases result with
  | none => exact .none
  | some result => exact .some ⟨.refl _, rfl⟩

theorem sameOutcome_map_iff {result other : Option (Cache × Bytes)}
    {f : Bytes → Bytes} (hf : Function.Injective f) :
    SameOutcome (result.map fun r => (r.1, f r.2)) (other.map fun r => (r.1, f r.2)) ↔
      SameOutcome result other := by
  cases result <;> cases other <;>
    simp [SameOutcome, Option.rel_some_some, hf.eq_iff]

def noElems : Cmd → CollectionCommand
  | .sRem => .sRem []
  | _ => .sAdd []

def LeavesSet (c : Cache) (cmd : Cmd) (key : Bytes) : Prop :=
  if cmd = .sAdd then (c.table.content key).1 ≠ none
  else (c.table.content key).1 ≠ some []

def Replication.writesTo (repl : Replication) (c : Cache) : Option Cache :=
  match repl with
  | .off => some c
  | .refused _ => none
  | .applied cache => some cache

def Confined (repl : Replication) (c : Cache) (p q : Slice) : Prop :=
  ∀ cmd key other, KeyPastEnd p cmd key → KeyPastEnd q cmd other → key ≠ other →
    ∀ cache ∈ repl.writesTo c, cache.closed = false →
      LeavesSet cache cmd key ∧ LeavesSet cache cmd other

theorem leavesSet_iff {c : Cache} {cmd : Cmd} (hcmd : cmd = .sAdd ∨ cmd = .sRem)
    (key : Bytes) : LeavesSet c cmd key ↔ c.Unmoved key (noElems cmd) := by
  rcases hcmd with rfl | rfl
  · exact Cache.unmoved_sAdd_iff.symm
  · exact Cache.unmoved_sRem_iff.symm

theorem noElems_reply (c : Cache) (cmd : Cmd) : ∃ result, ∀ key ≠ [],
      (c.collectionAs Reply.toInt key (noElems cmd)).2 = result := by
  cases hclosed : c.closed with
  | true =>
    refine ⟨.error .cacheClosed, fun key _ => ?_⟩
    rw [Cache.collectionAs, Cache.collection, Cache.onShard, hclosed]
    rfl
  | false =>
    refine ⟨.ok 0, fun key hkey => ?_⟩
    rw [Cache.collectionAs, Cache.collection, Cache.onShard_open hclosed hkey]
    have hreply : ∀ m : Collections, m.reply key (noElems cmd) = .int 0 := by
      intro m
      unfold noElems
      split <;> simp [Collections.reply, setAdd, setRem]
    dsimp only
    rw [hreply]
    rfl

theorem processSet_noElems (env : Env) (c : Cache) {cmd : Cmd} (hcmd : cmd = .sAdd ∨ cmd = .sRem) :
    ∃ bytes, ∀ key ≠ [], processSet env c ⟨cmd.code, key, [], 0, []⟩ =
      ((c.collection key (noElems cmd)).1, bytes) := by
  rcases noElems_reply c cmd with ⟨result, hresult⟩
  refine ⟨encodeSetResponse (respond result
    (fun n => { cmd := cmd.code, status := statusOK, changed := uint64 n })
    fun e => .err cmd.code (errorText e)), fun key hkey => ?_⟩
  have hkeyResult := hresult key hkey
  rcases hcmd with rfl | rfl
  all_goals
    rw [← hkeyResult]
    rfl

theorem onRaftApply_noElems (env : Env) (c : Cache) {cmd : Cmd} (hcmd : cmd = .sAdd ∨ cmd = .sRem) :
    ∃ result, ∀ key ≠ [], onRaftApply env c (setReqToRaft ⟨cmd.code, key, [], 0, []⟩) =
        some ((c.collection key (noElems cmd)).1, result) := by
  rcases noElems_reply c cmd with ⟨result, hresult⟩
  refine ⟨.ofCache result fun n => { intResult := n }, fun key hkey => ?_⟩
  have hkeyResult := hresult key hkey
  rcases hcmd with rfl | rfl
  all_goals
    rw [← hkeyResult]
    rfl

theorem Replication.processSet_noElems (repl : Replication) (env : Env) (c : Cache)
    {cmd : Cmd} (hcmd : cmd = .sAdd ∨ cmd = .sRem) :
    ∃ bytes, ∀ key ≠ [], repl.processSet env c ⟨cmd.code, key, [], 0, []⟩ =
      some (((repl.writesTo c).map fun cache =>
        (cache.collection key (noElems cmd)).1).getD c, bytes) := by
  have hwrite : isRaftWriteOp cmd.code = true := by
    rcases hcmd with rfl | rfl <;> rfl
  cases repl with
  | off =>
    rcases Net.processSet_noElems env c hcmd with ⟨bytes, hbytes⟩
    exact ⟨bytes, fun key hkey => congrArg some (hbytes key hkey)⟩
  | refused e =>
    refine ⟨encodeSetResponse (.err cmd.code (proposeErrorText 0 e)),
      fun key hkey => (if_pos hwrite).trans ?_⟩
    rcases hcmd with rfl | rfl <;> rfl
  | applied cache =>
    rcases onRaftApply_noElems env cache hcmd with ⟨result, hresult⟩
    refine ⟨raftResultToSetResponseBytes env cmd.code result, fun key hkey => ?_⟩
    refine (if_pos hwrite).trans ?_
    rw [Replication.raftPropose, hresult key hkey]
    rfl

section Runs

variable {p q : Slice} {repl : Replication} {env : Env} {c : Cache}

theorem KeyPastEnd.handleFrame_eq {cmd : Cmd} {key : Bytes} (h : KeyPastEnd p cmd key) :
    handleFrame repl env c p = repl.processRequest env c (.set ⟨cmd.code, key, [], 0, []⟩) := by
  rcases Slice.content_of_byte h.code with ⟨rest, hrest⟩
  have hfamily : Family.ofByte cmd.code = .set := by
    rcases h.writes with rfl | rfl <;> rfl
  unfold handleFrame
  rw [hrest]
  dsimp only
  rw [hfamily, decodeClientRequest, h.decode]
  rfl

theorem KeyPastEnd.unique {cmd cmd' : Cmd} {key key' : Bytes}
    (h : KeyPastEnd p cmd key) (h' : KeyPastEnd p cmd' key') :
    cmd = cmd' ∧ key = key' := by
  rcases h.reads with ⟨keyLen, hkeyLen, -, -, hkey⟩
  rcases h'.reads with ⟨keyLen', hkeyLen', -, -, hkey'⟩
  cases hkeyLen.symm.trans hkeyLen'
  have hcode := congrArg Cmd.ofCode? (Except.ok.inj (h.code.symm.trans h'.code))
  rw [Cmd.ofCode?_code, Cmd.ofCode?_code] at hcode
  exact ⟨Option.some.inj hcode, Except.ok.inj (hkey.symm.trans hkey')⟩

theorem onRaftApply_nil_key (env : Env) (c : Cache) {rc : RaftCommand}
    (hkey : rc.key = []) (value other : Option Bytes) :
    onRaftApply env c { rc with value := value } =
      onRaftApply env c { rc with value := other } := by
  have hsame := fun {α : Type} (read : Reply → Except CacheError α) cmd cmd' =>
    Cache.collectionAs_nil_key c hkey read cmd cmd'
  unfold onRaftApply
  dsimp only
  split
  case h_1 => rw [Cache.set_nil_key c hkey _ _ value other]
  case h_4 => rw [Cache.hSet, Cache.hSet, hsame _ _ (.hSet rc.field (other.getD []))]
  case h_5 => rw [Cache.hSetNX, Cache.hSetNX, hsame _ _ (.hSetNX rc.field (other.getD []))]
  case h_14 => rw [Cache.lSet, Cache.lSet, hsame _ _ (.lSet rc.index (other.getD []))]
  case h_15 => rw [Cache.lRem, Cache.lRem, hsame _ _ (.lRem rc.count (other.getD []))]
  case h_17 =>
    rw [Cache.lInsert, Cache.lInsert, hsame _ _ (.lInsert rc.before rc.pivot (other.getD []))]
  all_goals rfl

theorem process_nil_key (repl : Replication) (env : Env) (c : Cache) {req : Request}
    (hkey : req.key = []) (value other : Option Bytes) :
    repl.process env c { req with value := value } =
      repl.process env c { req with value := other } := by
  have hlocal : process env c { req with value := value } =
      process env c { req with value := other } := by
    unfold process
    dsimp only
    rw [Cache.set_nil_key c hkey _ _ value other]
  have hpropose : repl.raftPropose env c (reqToRaft { req with value := value }) =
      repl.raftPropose env c (reqToRaft { req with value := other }) := by
    cases repl with
    | applied cache =>
      exact congrArg (Option.map _)
        (@onRaftApply_nil_key env cache (reqToRaft req) hkey value other)
    | _ => rfl
  unfold Replication.process
  rw [hlocal, hpropose]

theorem handleFrame_agrees (h : p.Agrees q) (hconfined : ∀ cmd key, ¬ KeyPastEnd p cmd key) :
    handleFrame repl env c p = handleFrame repl env c q := by
  unfold handleFrame
  rw [h.content]
  cases q.content with
  | nil => rfl
  | cons cmd rest =>
    dsimp only
    cases Family.ofByte cmd with
    | string =>
      rcases decodeRequestPayload_agrees h with
        hsame | ⟨req, value, other, hkey, hp, hq⟩
      · rw [decodeClientRequest, decodeClientRequest, hsame]
      · rw [decodeClientRequest, decodeClientRequest, hp, hq]
        change (repl.process env c _).map _ = (repl.process env c _).map _
        rw [process_nil_key repl env c hkey value other]
    | hash =>
      rw [decodeClientRequest, decodeClientRequest, decodeHashRequest_agrees h]
    | list =>
      rw [decodeClientRequest, decodeClientRequest, decodeListRequest_agrees h]
    | set =>
      rw [decodeClientRequest, decodeClientRequest, decodeSetRequest_agrees h hconfined]

theorem collection_same_iff {cmd : Cmd} (hcmd : cmd = .sAdd ∨ cmd = .sRem)
    {key other : Bytes} (hkey : key ≠ []) (hother : other ≠ []) (hne : key ≠ other) :
    (c.collection key (noElems cmd)).1.SameState (c.collection other (noElems cmd)).1 ↔
      (c.closed = false → LeavesSet c cmd key ∧ LeavesSet c cmd other) := by
  rw [leavesSet_iff hcmd, leavesSet_iff hcmd]
  cases hclosed : c.closed with
  | true =>
    have hrefused : ∀ key, (c.collection key (noElems cmd)).1 = c := by
      intro key
      rw [Cache.collection, Cache.onShard, hclosed]
      rfl
    rw [hrefused, hrefused]
    exact iff_of_true (.refl _) (by simp)
  | false =>
    rw [Cache.collection_sameState_iff hclosed hkey hother hne]
    exact ⟨fun h _ => h, fun h => h rfl⟩

theorem handleFrame_same_iff (h : p.Agrees q) :
    SameOutcome (handleFrame repl env c p) (handleFrame repl env c q) ↔ Confined repl c p q := by
  by_cases hpast : ∃ cmd key, KeyPastEnd p cmd key
  · rcases hpast with ⟨cmd, key, hp⟩
    rcases hp.of_agrees h with ⟨other, hq⟩
    rcases repl.processSet_noElems env c hp.writes with ⟨bytes, hbytes⟩
    have hconfined : Confined repl c p q ↔ (key ≠ other →
        ∀ cache ∈ repl.writesTo c, cache.closed = false →
          LeavesSet cache cmd key ∧ LeavesSet cache cmd other) := by
      constructor
      · exact fun hall => hall cmd key other hp hq
      · intro hone cmd' key' other' hp' hq'
        rcases hp.unique hp' with ⟨rfl, rfl⟩
        rcases hq.unique hq' with ⟨-, rfl⟩
        exact hone
    rw [hconfined, hp.handleFrame_eq, hq.handleFrame_eq, Replication.processRequest,
      Replication.processRequest, hbytes key hp.ne_nil, hbytes other hq.ne_nil]
    simp only [SameOutcome, Option.map_some, Option.rel_some_some, and_true]
    by_cases hne : key = other
    · subst hne
      exact iff_of_true (.refl _) fun h => absurd rfl h
    · rw [forall_prop_of_true hne]
      cases repl.writesTo c with
      | none => exact iff_of_true (.refl _) (by simp)
      | some cache =>
        rw [Option.map_some, Option.map_some, Option.getD_some, Option.getD_some,
          collection_same_iff hp.writes hp.ne_nil hq.ne_nil hne]
        exact ⟨fun h _ hcache => Option.some.inj hcache ▸ h, fun h => h cache rfl⟩
  · have hnone : ∀ cmd key, ¬ KeyPastEnd p cmd key := fun cmd key hkey => hpast ⟨cmd, key, hkey⟩
    rw [handleFrame_agrees h hnone]
    exact iff_of_true (.refl _) fun cmd key other hkey => absurd hkey (hnone cmd key)

end Runs

def keylessAdd : Frame := ⟨7, frameTypeRequest, 0, [Cmd.sAdd.code, 0, 1, 0, 0, 0, 0]⟩

def heldBefore (b : UInt8) : Buffers := ⟨[0, 0, 0, 0, 0, 0, 0, b], [], []⟩

theorem keylessAdd_keyPastEnd {b : UInt8} (hb : b = 97 ∨ b = 98) :
    KeyPastEnd (readPayload (heldBefore b).request keylessAdd.payload) .sAdd [b] := by
  rcases hb with rfl | rfl
  all_goals
    exact ⟨.inl rfl, by decide, by decide, by decide, 1, by decide, by decide,
      by decide, by decide⟩

def twoSetsCache : Cache :=
  ((Cache.ofDefaults.collection [97] (.sAdd [[1]])).1.collection [98] (.sAdd [[1]])).1

theorem SameOutcome.content {result other : Option (Cache × Bytes)}
    (h : SameOutcome result other) (key : Bytes) :
    (result.map fun r => r.1.table.content key) = other.map fun r => r.1.table.content key := by
  cases h with
  | none => rfl
  | some h => exact congrArg some (h.1.content key).symm

end MCache.Net
