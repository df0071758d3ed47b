import MCache.RaftApply

/-!
# Writes to collections through the log

A write to a hash, a list or a set takes the detour over a `RaftCommand` and a
`raftResult` when Raft is on.  On the leader, once the command is applied, the
cache and the response are those of the direct path.
-/

namespace MCache.Net

open MCache.Store

variable {α : Type} {store : α → RaftResult}

def replicatedHash (env : Env) (c : Cache) (req : HashRequest) : Option (Cache × Bytes) :=
  (onRaftApply env c (hashReqToRaft req)).map fun result =>
    (result.1, raftResultToHashResponseBytes env req.cmd result.2)

def replicatedList (env : Env) (c : Cache) (req : ListRequest) : Option (Cache × Bytes) :=
  (onRaftApply env c (listReqToRaft req)).map fun result =>
    (result.1, raftResultToListResponseBytes env req.cmd result.2)

def replicatedSet (env : Env) (c : Cache) (req : SetRequest) : Option (Cache × Bytes) :=
  (onRaftApply env c (setReqToRaft req)).map fun result =>
    (result.1, raftResultToSetResponseBytes env req.cmd result.2)

def hashWrites : List Cmd := [.hSet, .hSetNX, .hDel, .hIncrBy, .hIncrByFloat, .hmSet]

def listWrites : List Cmd := [.lPush, .rPush, .lPop, .rPop, .lSet, .lRem, .lTrim, .lInsert]

def setWrites : List Cmd := [.sAdd, .sRem, .sPop]

theorem exists_write {family : UInt8 → Bool} (writes : List Cmd)
    (hall : ∀ cmd ∈ Cmd.all, family cmd.code → isRaftWriteOp cmd.code →
      cmd ∈ writes) {code : UInt8} (hfamily : family code = true)
    (hwrite : isRaftWriteOp code = true) : ∃ cmd ∈ writes, cmd.code = code := by
  cases hcmd : Cmd.ofCode? code with
  | none => simp [isRaftWriteOp, hcmd] at hwrite
  | some cmd =>
    have hmem : cmd ∈ Cmd.all := List.mem_of_find?_eq_some hcmd
    have hcode : cmd.code = code := Cmd.code_of_ofCode? hcmd
    rw [← hcode] at hfamily hwrite
    exact ⟨cmd, hall cmd hmem hfamily hwrite, hcode⟩

theorem collectionAs_ne_keyNotFound (c : Cache) {read : Reply → Except CacheError α}
    (hread : ∀ r, ∃ a, read r = .ok a) (key : Bytes) (cmd : CollectionCommand) :
    (c.collectionAs read key cmd).2 ≠ .error .keyNotFound := by
  simp only [Cache.collectionAs, Cache.collection, Cache.onShard]
  split_ifs
  case pos => simp [Except.bind]
  case pos => simp [Except.bind]
  case neg =>
      rcases hread ((c.table.shard key).collections.reply key cmd) with ⟨a, ha⟩
      simp [Except.bind, ha]

theorem toInt_ok (r : Reply) : ∃ n, r.toInt = .ok n := by
  cases r <;> simp [Reply.toInt]

theorem toUnit_ok (r : Reply) : ∃ u, r.toUnit = .ok u := ⟨(), rfl⟩

theorem hashBytes_of (env : Env) (cmd : UInt8) (result : Except CommandError α)
    {ok : α → HashResponse}
    (hok : ∀ a, raftResultToHashResponseBytes env cmd (store a) =
      encodeHashResponse env.keyOrder (ok a)) :
    raftResultToHashResponseBytes env cmd (.of result store) =
      encodeHashResponse env.keyOrder (respond result ok fun e =>
        .err cmd (commandErrorText env.prims e)) := by
  cases result with
  | error e => rfl
  | ok a => exact hok a

theorem hashBytes_ofCache (env : Env) (cmd : UInt8) (result : Except CacheError α)
    {ok : α → HashResponse}
    (hok : ∀ a, raftResultToHashResponseBytes env cmd (store a) =
      encodeHashResponse env.keyOrder (ok a)) :
    raftResultToHashResponseBytes env cmd (.ofCache result store) =
      encodeHashResponse env.keyOrder (respond result ok fun e =>
        .err cmd (errorText e)) := by
  rw [RaftResult.ofCache, hashBytes_of env cmd _ hok]
  cases result with
  | error e => rfl
  | ok a => rfl

theorem replicatedHash_eq (env : Env) (c : Cache) (req : HashRequest)
    (hfamily : isHashCmd req.cmd = true)
    (hwrite : isRaftWriteOp req.cmd = true) :
    replicatedHash env c req = some (processHash env c req) := by
  rcases req with ⟨code, key, field, value, fields, fvPairs, deltaI64, deltaF64⟩
  rcases exists_write hashWrites (by decide) hfamily hwrite with ⟨cmd, hcmd, rfl⟩
  simp only [hashWrites, List.mem_cons, List.not_mem_nil, or_false] at hcmd
  rcases hcmd with rfl | rfl | rfl | rfl | rfl | rfl
  all_goals
    simp only [replicatedHash, hashReqToRaft, RaftCommand.on, onRaftApply,
      processHash, Cmd.ofCode?_code, Option.map_some, Option.getD_some]
    congr 2
  · exact hashBytes_ofCache env _ _ fun _ => rfl
  · exact hashBytes_ofCache env _ _ fun _ => rfl
  · exact hashBytes_ofCache env _ _ fun _ => rfl
  · exact hashBytes_of env _ _ fun _ => rfl
  · exact hashBytes_of env _ _ fun _ => rfl
  · exact hashBytes_ofCache env _ _ fun _ => rfl

theorem listBytes_ofCache (env : Env) (cmd : UInt8) {result : Except CacheError α}
    (hne : result ≠ .error .keyNotFound) {ok : α → ListResponse}
    (hok : ∀ a, raftResultToListResponseBytes env cmd (store a) = encodeListResponse (ok a)) :
    raftResultToListResponseBytes env cmd (.ofCache result store) =
      encodeListResponse (respond result ok fun e => .err cmd (errorText e)) := by
  cases result with
  | error e =>
    have he : ApplyError.command (.cache e) ≠ .keyNotFound := by
      rintro ⟨⟩
      exact hne rfl
    exact congrArg encodeListResponse (if_neg he)
  | ok a => exact hok a

theorem listBytes_notFoundOr (env : Env) (cmd : UInt8) (result : Except CacheError α)
    {ok : α → ListResponse}
    (hok : ∀ a, raftResultToListResponseBytes env cmd (store a) = encodeListResponse (ok a)) :
    raftResultToListResponseBytes env cmd (.ofCache result store) =
      encodeListResponse (respond result ok (ListResponse.notFoundOr cmd)) := by
  cases result with
  | error e => cases e <;> rfl
  | ok a => exact hok a

theorem replicatedList_eq (env : Env) (c : Cache) (req : ListRequest)
    (hfamily : isListCmd req.cmd = true)
    (hwrite : isRaftWriteOp req.cmd = true) :
    replicatedList env c req = some (processList env c req) := by
  rcases req with ⟨code, key, elements, value, index, start, stop, count, pivot,
    before, timeout, rank, maxLen⟩
  have hint := collectionAs_ne_keyNotFound c toInt_ok key
  have hunit := collectionAs_ne_keyNotFound c toUnit_ok key
  rcases exists_write listWrites (by decide) hfamily hwrite with ⟨cmd, hcmd, rfl⟩
  simp only [listWrites, List.mem_cons, List.not_mem_nil, or_false] at hcmd
  rcases hcmd with rfl | rfl | rfl | rfl | rfl | rfl | rfl | rfl
  all_goals
    simp only [replicatedList, listReqToRaft, RaftCommand.on, onRaftApply,
      processList, Cmd.ofCode?_code, Option.map_some, Option.getD_some]
    congr 2
  · exact listBytes_ofCache env _ (hint _) fun _ => rfl
  · exact listBytes_ofCache env _ (hint _) fun _ => rfl
  · exact listBytes_notFoundOr env _ _ fun _ => rfl
  · exact listBytes_notFoundOr env _ _ fun _ => rfl
  · exact listBytes_notFoundOr env _ _ fun _ => rfl
  · exact listBytes_ofCache env _ (hint _) fun _ => rfl
  · exact listBytes_ofCache env _ (hunit _) fun _ => rfl
  · exact listBytes_ofCache env _ (hint _) fun _ => rfl

theorem setBytes_ofCache (env : Env) {cmd : UInt8} (hcmd : cmd ≠ Cmd.sPop.code)
    (result : Except CacheError α) {ok : α → SetResponse}
    (hok : ∀ a, raftResultToSetResponseBytes env cmd (store a) = encodeSetResponse (ok a)) :
    raftResultToSetResponseBytes env cmd (.ofCache result store) =
      encodeSetResponse (respond result ok fun e => .err cmd (errorText e)) := by
  cases result with
  | error e => exact congrArg encodeSetResponse (if_neg fun h => hcmd h.2)
  | ok a => exact hok a

theorem setBytes_notFoundOr (env : Env) (result : Except CacheError Bytes) :
    raftResultToSetResponseBytes env Cmd.sPop.code
        (.ofCache result fun elem => { strResult := elem }) =
      encodeSetResponse (respond result (fun elem =>
          { cmd := Cmd.sPop.code, status := statusOK, elems := [elem] })
        (SetResponse.notFoundOr Cmd.sPop.code)) := by
  cases result with
  | error e => cases e <;> rfl
  | ok elem => rfl

theorem replicatedSet_eq (env : Env) (c : Cache) (req : SetRequest)
    (hfamily : isSetCmd req.cmd = true)
    (hwrite : isRaftWriteOp req.cmd = true) :
    replicatedSet env c req = some (processSet env c req) := by
  rcases req with ⟨code, key, elems, count, keys⟩
  rcases exists_write setWrites (by decide) hfamily hwrite with ⟨cmd, hcmd, rfl⟩
  simp only [setWrites, List.mem_cons, List.not_mem_nil, or_false] at hcmd
  rcases hcmd with rfl | rfl | rfl
  all_goals
    simp only [replicatedSet, setReqToRaft, RaftCommand.on, onRaftApply,
      processSet, Cmd.ofCode?_code, Option.map_some]
    congr 2
  · exact setBytes_ofCache env (by decide) _ fun _ => rfl
  · exact setBytes_ofCache env (by decide) _ fun _ => rfl
  · exact setBytes_notFoundOr env _

theorem replicated_collections_eq_direct (env : Env) (c : Cache) :
    (∀ req : HashRequest, isHashCmd req.cmd = true → isRaftWriteOp req.cmd = true →
      replicatedHash env c req = some (processHash env c req)) ∧
    (∀ req : ListRequest, isListCmd req.cmd = true → isRaftWriteOp req.cmd = true →
      replicatedList env c req = some (processList env c req)) ∧
    (∀ req : SetRequest, isSetCmd req.cmd = true → isRaftWriteOp req.cmd = true →
      replicatedSet env c req = some (processSet env c req)) := by
  constructor
  case left => exact replicatedHash_eq env c
  case right =>
      constructor
      case left => exact replicatedList_eq env c
      case right => exact replicatedSet_eq env c

theorem replicated_collections_eq_direct_empty : (replicatedHash (.still 1) .ofDefaults
      ⟨Cmd.hSet.code, [104], [102], [118], [], [], 0, 0⟩).map Prod.snd =
        some [statusOK, 0, 0, 0, 0, 0, 0, 0, 1] ∧
    (replicatedList (.still 1) .ofDefaults
      ⟨Cmd.lPop.code, [108], [], [], 0, 0, 0, 0, [], false, 0, 0, 0⟩).map
        Prod.snd = some [statusNotFound, 0, 0, 0, 0] ∧
    (replicatedSet (.still 1) .ofDefaults
      ⟨Cmd.sAdd.code, [115], [[120], [121]], 0, []⟩).map Prod.snd =
        some [statusOK, 0, 0, 0, 0, 0, 0, 0, 2] := by
  rcases replicated_collections_eq_direct (.still 1) .ofDefaults with
    ⟨hhash, hlist, hset⟩
  rw [hhash _ rfl rfl, hlist _ rfl rfl, hset _ rfl rfl]
  decide +kernel

end MCache.Net
