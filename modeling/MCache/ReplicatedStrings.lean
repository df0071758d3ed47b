import MCache.CommandEncoding
import MCache.Resharding

/-!
# String writes through the log

`SET`, `DEL` and `CLEANUP` on a leader whose proposal is applied.  `process`
drops the `raftResult` and answers OK without a value, and the key has gone
through the JSON text.  So the replicated and the direct path agree exactly for
`SET` and `DEL` on an open cache with arguments that the cache accepts and a
key that is valid UTF-8.
-/

namespace MCache.Net

open MCache.Store

variable {floats : Json.FloatText} {id : ℕ} {c : Cache} {req : Request} {key : Bytes}

def replicatedString (floats : Json.FloatText) (id : ℕ) (env : Env) (c : Cache)
    (req : Request) : Option (Cache × Response) :=
  (throughLog floats ((ClientRequest.string req).proposed id)).bind fun rc =>
    (onRaftApply env c rc).map fun result => (result.1, { status := statusOK })

theorem replicatedString_eq (floats : Json.FloatText) (id : ℕ) (env : Env)
    (c : Cache) (req : Request) :
    replicatedString floats id env c req =
      (onRaftApply env c ((ClientRequest.string req).proposed id).logged).map
        fun result => (result.1, { status := statusOK }) := by
  have hfinite : Json.finite ((ClientRequest.string req).proposed id).deltaF64 =
      true := (by decide : Json.finite 0 = true)
  rw [replicatedString, throughLog_eq hfinite, Option.bind_some]

theorem replicatedString_response {env : Env} {result : Cache × Response}
    (hresult : replicatedString floats id env c req = some result) :
    result.2 = { status := statusOK } := by
  rw [replicatedString_eq] at hresult
  rcases Option.map_eq_some_iff.mp hresult with ⟨_, _, rfl⟩
  rfl

theorem set_response (hopen : c.closed = false) (order : MapOrder) (clock : Clock)
    (hkey : key ≠ []) (value : Bytes) (ttl : Option ℤ) :
    (c.set order clock key (some value) ttl).map
        (fun result => (result.1, Response.done result.2)) =
      (c.set order clock key (some value) ttl).map
        (fun result => (result.1, { status := statusOK })) := by
  simp only [Cache.set, hopen, hkey, Bool.false_eq_true, if_false, Option.map_map]
  rfl

theorem del_response (hopen : c.closed = false) (order : MapOrder) (clock : Clock)
    (hkey : key ≠ []) :
    (c.del order clock key).map (fun result => (result.1, Response.done result.2)) =
      (c.del order clock key).map (fun result => (result.1, { status := statusOK })) := by
  simp only [Cache.del, hopen, hkey, Bool.false_eq_true, if_false, Option.map_map]
  rfl

theorem process_set (env : Env) (c : Cache) (hcmd : req.cmd = Cmd.set.code) : process env c req =
      (c.set env.order env.clock req.key req.value (some (setTTL req.ttl))).map
        fun result => (result.1, Response.done result.2) := by
  rw [process, hcmd, Cmd.ofCode?_code]

theorem process_del (env : Env) (c : Cache) (hcmd : req.cmd = Cmd.del.code) : process env c req =
      (c.del env.order env.clock req.key).map fun result => (result.1, Response.done result.2) := by
  rw [process, hcmd, Cmd.ofCode?_code]

theorem process_cleanup (env : Env) (c : Cache) (hcmd : req.cmd = Cmd.cleanup.code) :
    process env c req = some ((c.cleanup (env.clock .current)).1,
        .ok (bigEndian 8 (c.cleanup (env.clock .current)).2)) := by
  rw [process, hcmd, Cmd.ofCode?_code]

theorem replicatedString_set (floats : Json.FloatText) (id : ℕ) (env : Env) (c : Cache)
    (hcmd : req.cmd = Cmd.set.code) (hvalue : req.value ≠ some []) :
    replicatedString floats id env c req =
      (c.set env.order env.clock (Utf8.toValid req.key) req.value (some (setTTL req.ttl))).map
        fun result => (result.1, { status := statusOK }) := by
  have hop : ((ClientRequest.string req).proposed id).logged.op = Cmd.set.code := hcmd
  have hback : ((ClientRequest.string req).proposed id).logged.value = req.value := if_neg hvalue
  simp only [replicatedString_eq, onRaftApply, hop, Cmd.ofCode?_code, hback, Option.map_map]
  rfl

theorem replicatedString_del (floats : Json.FloatText) (id : ℕ) (env : Env) (c : Cache)
    (hcmd : req.cmd = Cmd.del.code) :
    replicatedString floats id env c req = (c.del env.order env.clock (Utf8.toValid req.key)).map
        fun result => (result.1, { status := statusOK }) := by
  have hop : ((ClientRequest.string req).proposed id).logged.op = Cmd.del.code := hcmd
  simp only [replicatedString_eq, onRaftApply, hop, Cmd.ofCode?_code, Option.map_map]
  rfl

theorem done_error_ne (e : CacheError) : Response.done (.error e) ≠ { status := statusOK } := by
  intro h
  exact absurd (congrArg Response.status h) (by decide : statusErr ≠ statusOK)

theorem toValid_ne_nil (hkey : key ≠ []) : Utf8.toValid key ≠ [] := by
  intro hnil
  have hlength := Utf8.length_le_toValidFrom key 0
  rw [← Utf8.toValid, hnil, List.length_nil, Nat.le_zero] at hlength
  exact hkey (List.eq_nil_of_length_eq_zero hlength)

theorem ofDefaults_set_lookup (key value : Bytes) (ttl now : ℤ) :
    (Cache.ofDefaults.table.set key value ttl now).lookup =
      Function.update (fun _ => none) key (some (newEntry now value ttl)) := by
  have hcap : (Cache.ofDefaults.table.shard key).maxSubSize = 0 := rfl
  rw [ShardTable.set_lookup _ hcap]
  rfl

theorem set_valid_of_agree (hcmd : req.cmd = Cmd.set.code) (hkey : req.key ≠ [])
    {value : Bytes} (hvalue : req.value = some value) (hnonempty : req.value ≠ some [])
    (hagree : replicatedString floats id (.still 1) .ofDefaults req =
      process (.still 1) .ofDefaults req) : Utf8.valid req.key = true := by
  rw [← Utf8.toValid_eq_self_iff]
  by_contra hne
  rw [process_set _ _ hcmd, replicatedString_set _ _ _ _ hcmd hnonempty, hvalue,
    Cache.set_of_idle rfl rfl _ _ hkey,
    Cache.set_of_idle rfl rfl _ _ (toValid_ne_nil hkey)] at hagree
  simp only [Option.map_some, Option.some.injEq, Prod.mk.injEq, Cache.mk.injEq] at hagree
  have hlookup := congrFun (congrArg ShardTable.lookup hagree.1.1) req.key
  rw [ofDefaults_set_lookup, ofDefaults_set_lookup, Function.update_self,
    Function.update_of_ne (Ne.symm hne)] at hlookup
  cases hlookup

def holding (key : Bytes) : Cache :=
  { Cache.ofDefaults with table := Cache.ofDefaults.table.set key [118] 0 1 }

theorem del_valid_of_agree (hcmd : req.cmd = Cmd.del.code) (hkey : req.key ≠ [])
    (hagree : replicatedString floats id (.still 1) (holding req.key) req =
      process (.still 1) (holding req.key) req) : Utf8.valid req.key = true := by
  rw [← Utf8.toValid_eq_self_iff]
  by_contra hne
  rw [process_del _ _ hcmd, replicatedString_del _ _ _ _ hcmd, Cache.del_of_idle rfl rfl _ _ hkey,
    Cache.del_of_idle rfl rfl _ _ (toValid_ne_nil hkey)] at hagree
  simp only [Option.map_some, Option.some.injEq, Prod.mk.injEq, Cache.mk.injEq] at hagree
  have hlookup := congrFun (congrArg ShardTable.lookup hagree.1.1) req.key
  rw [ShardTable.del_lookup, ShardTable.del_lookup, Function.update_self,
    Function.update_of_ne (Ne.symm hne), holding, ofDefaults_set_lookup,
    Function.update_self] at hlookup
  cases hlookup

def StringPathsAgree (floats : Json.FloatText) (req : Request) (closed : Bool) :
    Prop :=
  ∀ (env : Env) (c : Cache) (id : ℕ), c.closed = closed →
    replicatedString floats id env c req = process env c req

section Agree

variable {floats : Json.FloatText} {req : Request} {closed : Bool}

variable (hagree : StringPathsAgree floats req closed)
include hagree

theorem StringPathsAgree.response {env : Env} {c : Cache} (hclosed : c.closed = closed)
    {result : Cache × Response} (hresult : process env c req = some result) :
    result.2 = { status := statusOK } := by
  rw [← hagree env c 0 hclosed] at hresult
  exact replicatedString_response hresult

theorem StringPathsAgree.not_cleanup : req.cmd ≠ Cmd.cleanup.code := by
  intro hcmd
  have hresponse := hagree.response rfl
    (process_cleanup (.still 1) { Cache.ofDefaults with closed } hcmd)
  exact Option.some_ne_none _ (congrArg Response.value hresponse)

theorem StringPathsAgree.set (hcmd : req.cmd = Cmd.set.code) (hwire : req.value ≠ some []) :
    closed = false ∧ req.key ≠ [] ∧ req.value ≠ none ∧ Utf8.valid req.key = true := by
  have haccepted : ¬ (closed = true ∨ req.key = [] ∨ req.value = none) := by
    intro hrefused
    rcases Cache.set_refused (c := { Cache.ofDefaults with closed }) hrefused with
      ⟨e, hset⟩
    have hresult := (process_set (.still 1) _ hcmd).trans (congrArg (Option.map _) (hset _ _ _))
    exact done_error_ne e (hagree.response rfl hresult)
  rw [not_or, not_or, Bool.not_eq_true] at haccepted
  rcases haccepted with ⟨rfl, hkey, hvalue⟩
  rcases Option.ne_none_iff_exists'.mp hvalue with ⟨value, hsome⟩
  exact ⟨rfl, hkey, hvalue,
    set_valid_of_agree hcmd hkey hsome hwire (hagree (.still 1) .ofDefaults 0 rfl)⟩

theorem StringPathsAgree.del (hcmd : req.cmd = Cmd.del.code) :
    closed = false ∧ req.key ≠ [] ∧ Utf8.valid req.key = true := by
  have haccepted : ¬ (closed = true ∨ req.key = []) := by
    intro hrefused
    rcases Cache.del_refused (c := { Cache.ofDefaults with closed }) hrefused with
      ⟨e, hdel⟩
    have hresult := (process_del (.still 1) _ hcmd).trans (congrArg (Option.map _) (hdel _ _))
    exact done_error_ne e (hagree.response rfl hresult)
  rw [not_or, Bool.not_eq_true] at haccepted
  rcases haccepted with ⟨rfl, hkey⟩
  exact ⟨rfl, hkey, del_valid_of_agree hcmd hkey (hagree (.still 1) (holding req.key) 0 rfl)⟩

end Agree

theorem string_paths_agree_iff (floats : Json.FloatText) (req : Request)
    (hcmd : req.cmd = Cmd.set.code ∨ req.cmd = Cmd.del.code ∨ req.cmd = Cmd.cleanup.code)
    (hwire : req.value ≠ some []) (closed : Bool) :
    StringPathsAgree floats req closed ↔
      closed = false ∧ req.cmd ≠ Cmd.cleanup.code ∧ req.key ≠ [] ∧
        (req.cmd = Cmd.set.code → req.value ≠ none) ∧
        Utf8.valid req.key = true := by
  constructor
  case mp =>
      intro hagree
      have hcleanup := hagree.not_cleanup
      rcases hcmd with hset | hdel | hclean
      · rcases hagree.set hset hwire with ⟨hopen, hkey, hvalue, hvalid⟩
        exact ⟨hopen, hcleanup, hkey, fun _ => hvalue, hvalid⟩
      · rcases hagree.del hdel with ⟨hopen, hkey, hvalid⟩
        have hnotSet : req.cmd ≠ Cmd.set.code := by
          rw [hdel]
          decide
        exact ⟨hopen, hcleanup, hkey, fun h => absurd h hnotSet, hvalid⟩
      · exact absurd hclean hcleanup
  case mpr =>
      rintro ⟨rfl, hcleanup, hkey, hvalue, hvalid⟩ env c id hopen
      have hsame := Utf8.toValid_eq_self_iff.mpr hvalid
      rcases hcmd with hset | hdel | hclean
      · rcases Option.ne_none_iff_exists'.mp (hvalue hset) with ⟨value, hsome⟩
        rw [process_set _ _ hset, replicatedString_set _ _ _ _ hset hwire, hsame, hsome]
        exact (set_response hopen _ _ hkey value _).symm
      · rw [process_del _ _ hdel, replicatedString_del _ _ _ _ hdel, hsame]
        exact (del_response hopen _ _ hkey).symm
      · exact absurd hclean hcleanup

theorem string_paths_agree_iff_asciiKey :
    StringPathsAgree unaryFloats ⟨Cmd.set.code, [107], some [118], 0⟩ false :=
  (string_paths_agree_iff unaryFloats _ (.inl rfl) (by decide) false).mpr
    ⟨rfl, by decide, by decide, by decide, by decide⟩

theorem failed_set_answered_ok : (process (.still 1) .ofDefaults ⟨Cmd.set.code, [107], none, 0⟩).map
      (fun result => result.2.status) = some statusErr ∧
    (replicatedString unaryFloats 1 (.still 1) .ofDefaults ⟨Cmd.set.code, [107], none, 0⟩).map
      (fun result => result.2.status) = some statusOK := by
  rw [replicatedString_set _ _ _ _ rfl (by decide)]
  decide +kernel

end MCache.Net
