import MCache.CollectionsResize
import MCache.ConnectionHandler
import MCache.MissingSubShards

/-!
# The sizes of answers

A server answers most requests with a few bytes.  The others return what the
cache has stored, and their answers fit in a frame or not depending on what a
reading command finds before the request runs.
-/

namespace MCache.Store

def Cache.found (c : Cache) (clock : Clock) (key : Bytes) : Option Bytes :=
  if c.closed = true ∨ key = [] then none
  else
    (c.table.get key (clock .current key) (clock .currentAgain key)).2.or
      (c.migration.bind fun m => (m.old.get key (clock .old key) (clock .oldAgain key)).2)

def Cache.drawn (c : Cache) (choice : ℕ) (key : Bytes) : Except CacheError Bytes :=
  orNotFound (c.readShard key fun s =>
    (s.collections.sets.lookup key).bind fun l => l[choice % l.length]?)

section Results

variable {c next : Cache} {key : Bytes}

theorem Cache.get_value {order : MapOrder} {clock : Clock} {result : Except CacheError Bytes}
    (h : c.get order clock key = some (next, result)) :
    result.toOption = c.found clock key := by
  unfold Cache.get at h
  unfold Cache.found
  split_ifs at h with hclosed hkey
  · cases h
    rw [if_pos (.inl hclosed)]
    rfl
  · cases h
    rw [if_pos (.inr hkey)]
    rfl
  · rw [if_neg (by simp [hclosed, hkey])]
    dsimp only at h
    split at h
    case h_1 hvalue =>
      obtain ⟨later, -, hlater⟩ := Option.map_eq_some_iff.mp h
      cases hlater
      rw [hvalue]
      rfl
    case h_2 hvalue hm =>
      cases h
      rw [hvalue, hm]
      rfl
    case h_3 m hvalue hm =>
      obtain ⟨later, -, hlater⟩ := Option.map_eq_some_iff.mp h
      cases hlater
      rw [hvalue, hm, Option.none_or, Option.bind_some]
      cases (m.old.get key (clock .old key) (clock .oldAgain key)).2 <;> rfl

theorem Cache.collectionAs_elem (c : Cache) {cmd : CollectionCommand}
    {f : Shard → Option Bytes} (hreply : ∀ s : Shard, s.collections.reply key cmd = .elem (f s)) :
    (c.collectionAs Reply.toElem key cmd).2 = orNotFound (c.readShard key f) := by
  simp only [Cache.collectionAs, Cache.collection, Cache.readShard, Cache.onShard]
  split_ifs
  · rfl
  · rfl
  · simp only [Except.bind, hreply]
    cases f (c.table.shard key) <;> rfl

theorem Cache.sPop_value (c : Cache) (choice : ℕ) (key : Bytes) :
    (c.sPop choice key).2 = c.drawn choice key :=
  c.collectionAs_elem fun _ => rfl

theorem Cache.lPop_value (c : Cache) (key : Bytes) : (c.lPop key).2 = c.lIndex key 0 := by
  have hhead : ∀ l : List Bytes, listLIndex l 0 = l.head? := by
    intro l
    cases l <;> rfl
  simp only [Cache.lIndex, hhead]
  exact c.collectionAs_elem fun _ => rfl

theorem Cache.rPop_value (c : Cache) (key : Bytes) : (c.rPop key).2 = c.lIndex key (-1) := by
  have hlast : ∀ l : List Bytes, listLIndex l (-1) = l.getLast? := by
    intro l
    cases l with
    | nil => rfl
    | cons e rest => simp [listLIndex, List.getLast?_eq_getElem?]
  simp only [Cache.lIndex, hlast]
  exact c.collectionAs_elem fun _ => rfl

theorem Cache.incremented_value {α : Type} (c : Cache) (field : Bytes)
    (function : ParseFunction) (parse : Bytes → Except Strconv.NumError α) (add : α → α)
    (delta : α) (format : α → Bytes) :
    (c.incremented key fun m => m.increment key field function parse add delta format).2 =
      match c.hGet key field with
      | .error .keyNotFound => .ok delta
      | .error e => .error (.cache e)
      | .ok text =>
        match parse text with
        | .error reason => .error (.number function text reason)
        | .ok n => .ok (add n) := by
  simp only [Cache.incremented, Cache.hGet, Cache.readShard, Cache.onShard]
  split_ifs
  · rfl
  · rfl
  · simp only [CommandError.join, Collections.increment, Collections.hGetAll]
    cases (c.table.shard key).collections.hashes.lookup key with
    | none => rfl
    | some h =>
      simp only [Option.getD_some, Option.bind_some]
      cases h.lookup field with
      | none => rfl
      | some text => cases hparse : parse text <;> simp [orNotFound, hparse]

theorem Cache.pop_nothing {cmd : CollectionCommand} (hcmd : cmd = .lPop ∨ cmd = .rPop)
    {e : CacheError} (h : (c.collectionAs Reply.toElem key cmd).2 = .error e) :
    ∃ e, ((c.collectionAs Reply.toElem key cmd).1.collectionAs Reply.toElem key cmd).2 =
      .error e := by
  by_cases hrefused : c.closed = true ∨ key = []
  · obtain ⟨e, he⟩ := Cache.onShard_refused hrefused
      fun s => ({ s with collections := s.collections.run key cmd }, s.collections.reply key cmd)
    have hsame : (c.collectionAs Reply.toElem key cmd).1 = c := congrArg Prod.fst he
    rw [hsame, h]
    exact ⟨_, rfl⟩
  · obtain ⟨hopen, hkey⟩ : c.closed = false ∧ key ≠ [] := by simpa using hrefused
    simp only [Cache.collectionAs, Cache.collection, Cache.onShard, hopen, hkey,
      Bool.false_eq_true, if_false, ShardTable.shard_withShard] at h ⊢
    cases hlist : (c.table.shard key).collections.lists.lookup key with
    | none =>
      rcases hcmd with rfl | rfl <;>
        simp [Collections.reply, Collections.run, Collections.alterList, alter, hlist,
          Except.bind, Reply.toElem]
    | some l =>
      cases l with
      | nil =>
        rcases hcmd with rfl | rfl <;>
          simp [Collections.reply, Collections.run, Collections.alterList, alter, hlist,
            Except.bind, Reply.toElem]
      | cons x l =>
        rcases hcmd with rfl | rfl <;>
          simp [Collections.reply, hlist, List.getLast?_cons, Except.bind, Reply.toElem] at h

end Results

end MCache.Store

namespace MCache.Net

open MCache.Store

/-! ## How long the written forms are -/

theorem sized_length (width : ℕ) (text : Bytes) :
    (sized width text).length = width + text.length := by
  simp [sized]

def textBytes (texts : List Bytes) : ℕ := (texts.map fun text => 2 + text.length).sum

theorem counted_length (texts : List Bytes) : (counted texts).length = 4 + textBytes texts := by
  simp [counted, textBytes, List.length_flatMap, sized_length]

theorem textBytes_arrange (order : KeyOrder) (texts : List Bytes) :
    textBytes (order.arrange texts) = textBytes texts :=
  ((order.perm texts).map _).sum_eq

theorem encodePayload_length (resp : Response) :
    resp.encodePayload.length = 7 + (resp.value.getD []).length + resp.errMsg.length := by
  simp [Response.encodePayload]
  omega

theorem errorText_length (e : CacheError) : (errorText e).length ≤ 64 := by
  cases e <;> decide

def Within {ε α : Type} (result : Except ε α) (size : α → ℕ) : Prop :=
  ∀ a, result = .ok a → size a ≤ maxPayloadSize

instance {ε α : Type} (result : Except ε α) (size : α → ℕ) : Decidable (Within result size) :=
  match result with
  | .ok a => decidable_of_iff (size a ≤ maxPayloadSize) (by simp [Within])
  | .error _ => .isTrue nofun

section Answers

variable {α ε ρ : Type} {size : α → ℕ} {ok : α → ρ} {err : ε → ρ}
variable (write : ρ → Bytes)

theorem respond_le_iff (result : Except ε α) (hok : ∀ a, (write (ok a)).length = size a)
    (herr : ∀ e, (write (err e)).length ≤ maxPayloadSize) :
    (write (respond result ok err)).length ≤ maxPayloadSize ↔ Within result size := by
  cases result with
  | ok a =>
    refine ⟨fun h b hb => ?_, fun h => (hok a).trans_le (h a rfl)⟩
    cases hb
    exact (hok a).symm.trans_le h
  | error e => exact iff_of_true (herr e) nofun

theorem respond_le (result : Except ε α) (hok : ∀ a, (write (ok a)).length ≤ maxPayloadSize)
    (herr : ∀ e, (write (err e)).length ≤ maxPayloadSize) :
    (write (respond result ok err)).length ≤ maxPayloadSize := by
  cases result with
  | ok a => exact hok a
  | error e => exact herr e

end Answers

/-! ## Hashes -/

def unparsed {α : Type} (c : Cache) (req : HashRequest)
    (parse : Bytes → Except Strconv.NumError α) (function : ParseFunction) :
    Option CommandError :=
  (c.hGet req.key req.field).toOption.bind fun text =>
    match parse text with
    | .error reason => some (.number function text reason)
    | .ok _ => none

def HashRequest.AnswerFits (env : Env) (c : Cache) (req : HashRequest) : Prop :=
  match Cmd.ofCode? req.cmd with
  | some .hGet => Within (c.hGet req.key req.field) fun value => 6 + value.length
  | some .hGetAll => Within (c.hGetAll req.key) fun h =>
    6 + (h.keys.map fun field => 6 + field.length + ((h.lookup field).getD []).length).sum
  | some .hKeys => Within (c.hKeys env.keyOrder req.key) fun keys => 6 + textBytes keys
  | some .hVals => Within (c.hVals env.keyOrder req.key) fun vals => 6 + textBytes vals
  | some .hmGet => Within (c.hmGet req.key req.fields) fun vals =>
    6 + (vals.map fun value => value.elim 1 fun text => 5 + text.length).sum
  | some .hIncrBy =>
    ∀ e ∈ unparsed c req Strconv.parseInt .parseInt,
      4 + (commandErrorText env.prims e).length ≤ maxPayloadSize
  | some .hIncrByFloat =>
    ∀ e ∈ unparsed c req env.prims.parseFloat .parseFloat,
      4 + (commandErrorText env.prims e).length ≤ maxPayloadSize
  | _ => True

section Hashes

variable {env : Env} {c : Cache} {cmd : UInt8}

theorem hash_err_length (order : KeyOrder) (cmd : UInt8) (text : Bytes) :
    (cmd :: encodeHashResponse order (.err cmd text)).length = 4 + text.length := by
  simp [encodeHashResponse, HashResponse.err, errorPayload, sized_length]
  omega

theorem hash_err_le (order : KeyOrder) (cmd : UInt8) (e : CacheError) :
    (cmd :: encodeHashResponse order (.err cmd (errorText e))).length ≤ maxPayloadSize := by
  have hshort := errorText_length e
  rw [hash_err_length, maxPayloadSize]
  omega

theorem hash_small_le (order : KeyOrder) {resp : HashResponse} (hstr : resp.strResult = [])
    (hmap : resp.mapResult = ∅) (hslice : resp.sliceResult = []) (hany : resp.anySlice = [])
    (herrMsg : resp.errMsg.length ≤ 64) :
    (resp.cmd :: encodeHashResponse order resp).length ≤ maxPayloadSize := by
  unfold maxPayloadSize encodeHashResponse errorPayload
  rw [hstr, hmap, hslice, hany]
  split_ifs
  · simp [sized_length]
    omega
  · have hnil : order.arrange [] = [] := (order.perm []).eq_nil
    split <;> simp [sized_length, counted_length, textBytes, hnil]

theorem hash_notFoundOr_le (order : KeyOrder) (cmd : UInt8) (e : CacheError) :
    (cmd :: encodeHashResponse order (.notFoundOr cmd e)).length ≤ maxPayloadSize := by
  cases e with
  | keyNotFound => exact hash_small_le order rfl rfl rfl rfl (Nat.zero_le _)
  | _ => exact hash_err_le order cmd _

theorem fields_length (h : HashValue) (order : KeyOrder) :
    ((order.arrange h.keys).flatMap fun field =>
        sized 2 field ++ sized 4 ((h.lookup field).getD [])).length =
      (h.keys.map fun field => 6 + field.length + ((h.lookup field).getD []).length).sum := by
  rw [List.length_flatMap, ((order.perm h.keys).map _).sum_eq]
  congr 2
  funext field
  rw [List.length_append, sized_length, sized_length]
  omega

theorem hmGet_length (order : KeyOrder) {cmd : UInt8} (hcmd : Cmd.ofCode? cmd = some .hmGet)
    (vals : List (Option Bytes)) :
    (cmd :: encodeHashResponse order
        { cmd := cmd, status := statusOK, anySlice := vals }).length =
      6 + (vals.map fun value => value.elim 1 fun text => 5 + text.length).sum := by
  have hok : ¬ statusOK = statusErr := by decide
  simp only [encodeHashResponse, hcmd, hok, if_false, List.length_cons, List.length_append,
    bigEndian_length]
  induction vals with
  | nil => rfl
  | cons value rest ih =>
    rw [List.flatMap_cons, List.length_append, List.map_cons, List.sum_cons]
    cases value with
    | none =>
      rw [Option.elim_none, List.length_singleton]
      omega
    | some text =>
      rw [Option.elim_some, List.length_cons, sized_length]
      omega

theorem increment_le_iff {α : Type} (req : HashRequest) (function : ParseFunction)
    {parse : Bytes → Except Strconv.NumError α} {add : α → α} {delta : α}
    {format : α → Bytes} {ok : α → HashResponse}
    (hok : ∀ a, (req.cmd :: encodeHashResponse env.keyOrder (ok a)).length ≤ maxPayloadSize) :
    (req.cmd :: encodeHashResponse env.keyOrder (respond (c.incremented req.key fun m =>
          m.increment req.key req.field function parse add delta format).2 ok
        fun e => .err req.cmd (commandErrorText env.prims e))).length ≤ maxPayloadSize ↔
      ∀ e ∈ unparsed c req parse function,
        4 + (commandErrorText env.prims e).length ≤ maxPayloadSize := by
  rw [Cache.incremented_value]
  unfold unparsed
  cases c.hGet req.key req.field with
  | error e =>
    refine iff_of_true ?_ (by simp [Except.toOption])
    cases e with
    | keyNotFound => exact hok delta
    | _ =>
      simp only [respond, commandErrorText]
      exact hash_err_le env.keyOrder req.cmd _
  | ok text =>
    cases hparse : parse text with
    | ok n => simpa [Except.toOption, hparse, respond] using hok (add n)
    | error reason => simp only [hparse, respond, Except.toOption, hash_err_length,
        Option.bind_some, Option.mem_some_iff, forall_eq']

theorem hash_answer_le_iff (env : Env) (c : Cache) (req : HashRequest) :
    (req.cmd :: (processHash env c req).2).length ≤ maxPayloadSize ↔ req.AnswerFits env c := by
  have herr := hash_err_le env.keyOrder req.cmd
  have hnone := hash_notFoundOr_le env.keyOrder req.cmd
  have hok : ¬ statusOK = statusErr := by decide
  let write := fun resp => req.cmd :: encodeHashResponse env.keyOrder resp
  unfold processHash HashRequest.AnswerFits
  dsimp only
  split
  case h_3 hcmd =>
    simp only [hcmd]
    refine respond_le_iff write _ (fun value => ?_) hnone
    simp [write, encodeHashResponse, hcmd, statusOK, statusErr, sized_length]
    omega
  case h_6 hcmd =>
    simp only [hcmd]
    refine respond_le_iff write _ (fun h => ?_) hnone
    simp only [write, encodeHashResponse, hcmd, hok, if_false, List.length_cons,
      List.length_append, bigEndian_length, fields_length]
    omega
  case h_7 hcmd | h_8 hcmd =>
    simp only [hcmd]
    refine respond_le_iff write _ (fun texts => ?_) hnone
    simp [write, encodeHashResponse, hcmd, statusOK, statusErr, counted_length]
    omega
  case h_11 hcmd =>
    simp only [hcmd]
    refine increment_le_iff req .parseInt fun n => ?_
    exact hash_small_le _ rfl rfl rfl rfl (Nat.zero_le _)
  case h_12 hcmd =>
    simp only [hcmd]
    refine increment_le_iff req .parseFloat fun n => ?_
    exact hash_small_le _ rfl rfl rfl rfl (Nat.zero_le _)
  case h_13 hcmd =>
    simp only [hcmd]
    exact respond_le_iff write _ (hmGet_length env.keyOrder hcmd) herr
  case h_15 =>
    refine iff_of_true ((hash_err_length env.keyOrder _ _).trans_le (by decide)) ?_
    split <;> trivial
  all_goals
    next hcmd =>
      simp only [hcmd]
      refine iff_of_true (respond_le write _ (fun _ => ?_) herr) trivial
      exact hash_small_le _ rfl rfl rfl rfl (Nat.zero_le _)

end Hashes

/-! ## Lists -/

def ListRequest.AnswerFits (c : Cache) (req : ListRequest) : Prop :=
  match Cmd.ofCode? req.cmd with
  | some .lPop | some .blPop => Within (c.lIndex req.key 0) fun elem => 6 + elem.length
  | some .rPop | some .brPop => Within (c.lIndex req.key (-1)) fun elem => 6 + elem.length
  | some .lIndex => Within (c.lIndex req.key req.index) fun elem => 6 + elem.length
  | some .lRange =>
    Within (c.lRange req.key req.start req.stop) fun elems => 6 + textBytes elems
  | some .lPos =>
    Within (c.lPos req.key req.value req.rank req.count req.maxLen) fun positions =>
      6 + 8 * positions.length
  | _ => True

section Lists

variable {pop : Cache → Cache × Except CacheError Bytes}

theorem list_small_le {resp : ListResponse} (hstr : resp.strResult = [])
    (hslice : resp.sliceResult = []) (hpos : resp.posResult = [])
    (herrMsg : resp.errMsg.length ≤ 64) :
    (resp.cmd :: encodeListResponse resp).length ≤ maxPayloadSize := by
  unfold maxPayloadSize encodeListResponse errorPayload
  rw [hstr, hslice, hpos]
  split_ifs
  · simp [sized_length]
    omega
  · split <;> simp [sized_length, counted_length, textBytes]

theorem list_err_le (cmd : UInt8) (e : CacheError) :
    (cmd :: encodeListResponse (.err cmd (errorText e))).length ≤ maxPayloadSize :=
  list_small_le rfl rfl rfl (errorText_length e)

theorem list_notFoundOr_le (cmd : UInt8) (e : CacheError) :
    (cmd :: encodeListResponse (.notFoundOr cmd e)).length ≤ maxPayloadSize := by
  cases e with
  | keyNotFound => exact list_small_le rfl rfl rfl (Nat.zero_le _)
  | _ => exact list_err_le cmd _

theorem popUntil_value (hpop : ∀ c e, (pop c).2 = .error e → ∃ e, (pop (pop c).1).2 = .error e)
    (rounds : ℕ) (c : Cache) : (popUntil pop rounds c).2 = (pop c).2.toOption := by
  induction rounds generalizing c with
  | zero =>
    unfold popUntil
    cases hresult : pop c with
    | mk next result => cases result <;> simp [Except.toOption]
  | succ rounds ih =>
    unfold popUntil
    cases hresult : pop c with
    | mk next result =>
      cases result with
      | ok elem => simp [Except.toOption]
      | error e =>
        obtain ⟨again, hagain⟩ := hpop c e (by rw [hresult])
        rw [hresult] at hagain
        simp only [ih, hagain, Except.toOption]

theorem strResult_length {cmd : UInt8} {resp : ListResponse}
    (hcmd : Cmd.ofCode? resp.cmd ∈ [some .lPop, some .rPop, some .blPop, some .brPop,
      some .lIndex]) (hstatus : resp.status = statusOK) :
    (cmd :: encodeListResponse resp).length = 6 + resp.strResult.length := by
  have hok : ¬ statusOK = statusErr := by decide
  simp only [List.mem_cons, List.not_mem_nil, or_false] at hcmd
  rcases hcmd with hcmd | hcmd | hcmd | hcmd | hcmd <;>
    simp only [encodeListResponse, hcmd, hstatus, hok, if_false, List.length_cons, sized_length] <;>
    omega

theorem list_answer_le_iff (env : Env) (c : Cache) (req : ListRequest) :
    (req.cmd :: (processList env c req).2).length ≤ maxPayloadSize ↔ req.AnswerFits c := by
  have herr := list_err_le req.cmd
  have hnone := list_notFoundOr_le req.cmd
  have hok : ¬ statusOK = statusErr := by decide
  let write := fun resp => req.cmd :: encodeListResponse resp
  unfold processList ListRequest.AnswerFits
  dsimp only
  split
  case h_3 hcmd | h_4 hcmd | h_7 hcmd =>
    simp only [hcmd, Cache.lPop_value, Cache.rPop_value]
    refine respond_le_iff write _ (fun elem => ?_) hnone
    exact strResult_length (by simp [hcmd]) rfl
  case h_6 hcmd =>
    simp only [hcmd]
    refine respond_le_iff write _ (fun elems => ?_) hnone
    simp only [write, encodeListResponse, hcmd, hok, if_false, List.length_cons, counted_length]
    omega
  case h_12 hcmd | h_13 hcmd =>
    simp only [hcmd]
    rw [popUntil_value (fun c e => Cache.pop_nothing (by simp))]
    simp only [Cache.lPop_value, Cache.rPop_value]
    have hpopped := fun result : Except CacheError Bytes =>
      respond_le_iff write result (fun elem => @strResult_length req.cmd
          { cmd := req.cmd, status := statusOK, strResult := elem } (by simp [hcmd]) rfl)
        fun _ : CacheError => @list_small_le { cmd := req.cmd, status := statusNotFound }
          rfl rfl rfl (Nat.zero_le _)
    split_ifs
    · cases c.lIndex req.key _ with
      | ok elem => exact hpopped (.ok elem)
      | error e => exact hpopped (.error e)
    · refine respond_le_iff write _ (fun elem => ?_) hnone
      exact strResult_length (by simp [hcmd]) rfl
  case h_14 hcmd =>
    simp only [hcmd]
    refine respond_le_iff write _ (fun positions => ?_) herr
    simp [write, encodeListResponse, hcmd, hok, List.length_flatMap]
    omega
  case h_15 =>
    refine iff_of_true ?_ (by split <;> trivial)
    have hshort : invalidCommandText.length ≤ 64 := by decide
    exact @list_small_le (.err req.cmd invalidCommandText) rfl rfl rfl hshort
  all_goals
    next hcmd =>
      simp only [hcmd]
      refine iff_of_true (respond_le write _ (fun _ => ?_) ?_) trivial
      · exact list_small_le rfl rfl rfl (Nat.zero_le _)
      · first | exact herr | exact hnone

end Lists

/-! ## Sets -/

def SetRequest.AnswerFits (env : Env) (c : Cache) (req : SetRequest) : Prop :=
  match Cmd.ofCode? req.cmd with
  | some .sPop => Within (c.drawn env.choice req.key) fun elem => 4 + elem.length
  | some .sMembers => Within (c.sMembers req.key) fun elems => 6 + textBytes elems
  | some .sRandMember =>
    Within (c.sRandMember env.draws req.key req.count) fun elems => 6 + textBytes elems
  | some .sUnion => Within (c.sUnion req.keys) fun elems => 6 + textBytes elems
  | some .sInter => Within (c.sInter req.keys) fun elems => 6 + textBytes elems
  | some .sDiff => Within (c.sDiff req.keys) fun elems => 6 + textBytes elems
  | _ => True

theorem set_small_le {resp : SetResponse} (helems : resp.elems = []) :
    (resp.cmd :: encodeSetResponse resp).length ≤ maxPayloadSize := by
  unfold maxPayloadSize encodeSetResponse
  rw [helems]
  split <;> simp [sized_length, counted_length, textBytes]

theorem set_notFoundOr_le (cmd : UInt8) (e : CacheError) :
    (cmd :: encodeSetResponse (.notFoundOr cmd e)).length ≤ maxPayloadSize := by
  cases e <;> exact set_small_le rfl

theorem set_answer_le_iff (env : Env) (c : Cache) (req : SetRequest) :
    (req.cmd :: (processSet env c req).2).length ≤ maxPayloadSize ↔ req.AnswerFits env c := by
  have herr : ∀ e, (req.cmd :: encodeSetResponse (.err req.cmd (errorText e))).length ≤
      maxPayloadSize := fun _ => set_small_le rfl
  let write := fun resp => req.cmd :: encodeSetResponse resp
  unfold processSet SetRequest.AnswerFits
  dsimp only
  split
  case h_4 hcmd | h_8 hcmd | h_9 hcmd | h_10 hcmd =>
    simp only [hcmd]
    refine respond_le_iff write _ (fun elems => ?_) herr
    simp only [write, encodeSetResponse, hcmd, List.length_cons, counted_length, textBytes_arrange]
    omega
  case h_6 hcmd =>
    simp only [hcmd, Cache.sPop_value]
    refine respond_le_iff write _ (fun elem => ?_) (set_notFoundOr_le req.cmd)
    simp only [write, encodeSetResponse, hcmd, List.length_cons, sized_length, List.head?_cons,
      Option.getD_some]
    omega
  case h_7 hcmd =>
    simp only [hcmd]
    refine respond_le_iff write _ (fun elems => ?_) herr
    simp only [write, encodeSetResponse, hcmd, List.length_cons, counted_length]
    omega
  case h_11 =>
    refine iff_of_true ?_ (by split <;> trivial)
    exact @set_small_le (.err req.cmd invalidCommandText) rfl
  all_goals
    next hcmd =>
      simp only [hcmd]
      exact iff_of_true (respond_le write _ (fun _ => set_small_le rfl) herr) trivial

/-! ## Strings -/

def Request.action (env : Env) (req : Request) : Option CacheAction :=
  match Cmd.ofCode? req.cmd with
  | some .get => some ⟨.get req.key, env.order, env.clock⟩
  | some .set => some ⟨.set req.key req.value (some (setTTL req.ttl)), env.order, env.clock⟩
  | some .del => some ⟨.del req.key, env.order, env.clock⟩
  | _ => none

def Request.AnswerFits (env : Env) (c : Cache) (req : Request) : Prop :=
  match Cmd.ofCode? req.cmd with
  | some .get => ∀ value ∈ c.found env.clock req.key, 7 + value.length ≤ maxPayloadSize
  | some .stats => 7 + env.stats.length ≤ maxPayloadSize
  | some .keys => Within (c.keys env.keyOrder env.clock req.key) fun keys => 11 + textBytes keys
  | _ => True

theorem process_eq_none_iff (env : Env) (c : Cache) (req : Request) :
    process env c req = none ↔ ∃ a ∈ req.action env, c.apply a = none := by
  unfold process Request.action
  dsimp only
  split <;> simp [Cache.apply, *]

theorem string_small_le {resp : Response} (hvalue : (resp.value.getD []).length ≤ 64)
    (herrMsg : resp.errMsg.length ≤ 64) : resp.encodePayload.length ≤ maxPayloadSize := by
  rw [encodePayload_length, maxPayloadSize]
  omega

theorem string_of_le {α : Type} (result : Except CacheError α) {value : α → Bytes}
    (hvalue : ∀ a, (value a).length ≤ 64) :
    (Response.of result value).encodePayload.length ≤ maxPayloadSize := by
  cases result with
  | ok a => exact string_small_le (hvalue a) (Nat.zero_le _)
  | error e => exact string_small_le (Nat.zero_le _) (errorText_length e)

theorem string_done_le (result : Except CacheError Unit) :
    (Response.done result).encodePayload.length ≤ maxPayloadSize := by
  cases result with
  | ok a => exact string_small_le (Nat.zero_le _) (Nat.zero_le _)
  | error e => exact string_small_le (Nat.zero_le _) (errorText_length e)

theorem string_found_le_iff (result : Except CacheError Bytes) :
    (Response.found result).encodePayload.length ≤ maxPayloadSize ↔
      ∀ value ∈ result.toOption, 7 + value.length ≤ maxPayloadSize := by
  cases result with
  | ok value =>
    rw [encodePayload_length]
    simp [Response.found, Response.ok, Except.toOption]
  | error e =>
    refine iff_of_true ?_ (by simp [Except.toOption])
    cases e <;> exact string_small_le (by decide) (by decide)

theorem string_answer_le_iff {env : Env} {c : Cache} {req : Request}
    {result : Cache × Response} (h : process env c req = some result) :
    result.2.encodePayload.length ≤ maxPayloadSize ↔ req.AnswerFits env c := by
  unfold process at h
  unfold Request.AnswerFits
  dsimp only at h
  split at h
  case h_1 hcmd =>
    obtain ⟨⟨next, value⟩, hget, rfl⟩ := Option.map_eq_some_iff.mp h
    simp only [hcmd, ← Cache.get_value hget]
    exact string_found_le_iff value
  case h_2 hcmd | h_3 hcmd =>
    obtain ⟨done, -, rfl⟩ := Option.map_eq_some_iff.mp h
    simp only [hcmd]
    exact iff_of_true (string_done_le done.2) trivial
  case h_6 hcmd =>
    cases h
    simp [hcmd, encodePayload_length, Response.ok]
  case h_16 hcmd =>
    cases h
    simp only [hcmd]
    cases c.keys env.keyOrder env.clock req.key with
    | ok keys => simp [Within, encodePayload_length, Response.of, Response.ok, counted_length]; omega
    | error e => exact iff_of_true (string_small_le (Nat.zero_le _) (errorText_length e)) nofun
  case h_17 =>
    cases h
    refine iff_of_true ?_ (by split <;> trivial)
    exact @string_small_le (.err invalidCommandText) (by decide) (by decide)
  case h_4 hcmd | h_5 hcmd =>
    cases h
    simp only [hcmd]
    refine iff_of_true (string_small_le ?_ (Nat.zero_le _)) trivial
    simp [Response.ok]
  all_goals
    next hcmd =>
      cases h
      simp only [hcmd]
      refine iff_of_true (string_of_le _ fun _ => ?_) trivial
      simp

end MCache.Net
