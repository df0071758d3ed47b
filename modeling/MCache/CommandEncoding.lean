import MCache.JsonObject
import MCache.RaftApply

/-!
# Commands in the log

The JSON text of a `RaftCommand`, which `raftPropose` writes and `onRaftApply`
reads.  A command comes back with its strings as valid UTF-8, an empty value as
nil and a negative zero as zero; so it comes back as it was exactly when its
strings are valid and its delta is not the negative zero.
-/

namespace MCache.Net

open MCache.Store

variable {rc : RaftCommand} {floats : Json.FloatText}

def RaftCommand.members (floats : Json.FloatText) (rc : RaftCommand) : List Json.Field :=
  [Json.nat.field "req_id" false rc.reqID, Json.byte.field "op" false rc.op,
    Json.text.field "key" true rc.key,
    Json.bytes.field "value" true rc.value,
    Json.int.field "ttl" true rc.ttl,
    Json.text.field "field" true rc.field,
    Json.texts.field "fields" true rc.fields,
    Json.texts.field "fv_pairs" true rc.fvPairs,
    Json.int.field "delta_i64" true rc.deltaI64,
    (Json.float floats).field "delta_f64" true rc.deltaF64,
    Json.texts.field "elems" true rc.elems,
    Json.int.field "index" true rc.index,
    Json.int.field "start" true rc.start,
    Json.int.field "stop" true rc.stop,
    Json.int.field "count" true rc.count,
    Json.text.field "pivot" true rc.pivot,
    Json.bool.field "before" true rc.before]

abbrev CommandText := Option Json.Object

def marshalCommand (floats : Json.FloatText) (rc : RaftCommand) : Option CommandText :=
  (Json.marshal (rc.members floats)).map some

def unmarshalObject (floats : Json.FloatText) (obj : Json.Object) : Option RaftCommand := do
  let reqID ← Json.nat.get obj "req_id"
  let op ← Json.byte.get obj "op"
  let key ← Json.text.get obj "key"
  let value ← Json.bytes.get obj "value"
  let ttl ← Json.int.get obj "ttl"
  let field ← Json.text.get obj "field"
  let fields ← Json.texts.get obj "fields"
  let fvPairs ← Json.texts.get obj "fv_pairs"
  let deltaI64 ← Json.int.get obj "delta_i64"
  let deltaF64 ← (Json.float floats).get obj "delta_f64"
  let elems ← Json.texts.get obj "elems"
  let index ← Json.int.get obj "index"
  let start ← Json.int.get obj "start"
  let stop ← Json.int.get obj "stop"
  let count ← Json.int.get obj "count"
  let pivot ← Json.text.get obj "pivot"
  let before ← Json.bool.get obj "before"
  return ⟨reqID, op, key, value, ttl, field, fields, fvPairs, deltaI64, deltaF64,
    elems, index, start, stop, count, pivot, before⟩

def unmarshalCommand (floats : Json.FloatText) (text : CommandText) : Option RaftCommand :=
  text.bind (unmarshalObject floats)

def RaftCommand.logged (rc : RaftCommand) : RaftCommand :=
  { rc with
    key := Utf8.toValid rc.key
    value := if rc.value = some [] then none else rc.value
    field := Utf8.toValid rc.field
    fields := rc.fields.map Utf8.toValid
    fvPairs := rc.fvPairs.map Utf8.toValid
    deltaF64 := if rc.deltaF64 = Json.negZero then 0 else rc.deltaF64
    elems := rc.elems.map Utf8.toValid
    pivot := Utf8.toValid rc.pivot }

theorem nodup_members (floats : Json.FloatText) (rc : RaftCommand) :
    ((rc.members floats).map Json.Field.name).Nodup := by
  simp [RaftCommand.members, Json.Kind.field]

theorem unmarshalObject_marshal (floats : Json.FloatText) {obj : Json.Object}
    (hmarshal : Json.marshal (rc.members floats) = some obj) :
    unmarshalObject floats obj = some rc.logged := by
  have hget : ∀ {α : Type} {kind : Json.Kind α} {name : String} {omitEmpty : Bool}
      {a : α} (i : ℕ), (rc.members floats)[i]? = some (kind.field name omitEmpty a) →
      kind.get obj name = some (kind.back omitEmpty a) :=
    fun i hi => Json.Kind.get_marshal _ hmarshal (nodup_members floats rc) (List.mem_of_getElem? hi)
  simp only [unmarshalObject, hget 0 rfl, hget 1 rfl, hget 2 rfl, hget 3 rfl,
    hget 4 rfl, hget 5 rfl, hget 6 rfl, hget 7 rfl, hget 8 rfl, hget 9 rfl,
    hget 10 rfl, hget 11 rfl, hget 12 rfl, hget 13 rfl, hget 14 rfl, hget 15 rfl,
    hget 16 rfl, Json.nat_back, Json.byte_back, Json.int_back, Json.bool_back,
    Json.text_back, Json.texts_back, Json.bytes_back, Json.float_back]
  rfl

theorem marshalCommand_isSome : (marshalCommand floats rc).isSome = true ↔
      Json.finite rc.deltaF64 = true := by
  rw [marshalCommand, Option.isSome_map, Json.marshal]
  split_ifs with hall
  · simpa [RaftCommand.members, Json.Kind.field, Json.nat, Json.byte, Json.text,
      Json.bytes, Json.int, Json.texts, Json.float, Json.bool] using hall
  · simpa [RaftCommand.members, Json.Kind.field, Json.nat, Json.byte, Json.text,
      Json.bytes, Json.int, Json.texts, Json.float, Json.bool] using hall

theorem unmarshalCommand_marshalCommand {text : CommandText}
    (hmarshal : marshalCommand floats rc = some text) :
    unmarshalCommand floats text = some rc.logged := by
  rcases Option.map_eq_some_iff.mp hmarshal with ⟨obj, hobj, rfl⟩
  exact unmarshalObject_marshal floats hobj

def jsonCodec (floats : Json.FloatText) : Codec CommandText where
  marshal := marshalCommand floats
  unmarshal := unmarshalCommand floats
  unmarshal_nil := rfl
  reqID_unmarshal := fun rc _ hmarshal =>
    ⟨rc.logged, unmarshalCommand_marshalCommand hmarshal, rfl⟩

def throughLog (floats : Json.FloatText) (rc : RaftCommand) : Option RaftCommand :=
  ((jsonCodec floats).marshal rc).bind (jsonCodec floats).unmarshal

theorem throughLog_eq (hfinite : Json.finite rc.deltaF64 = true) :
    throughLog floats rc = some rc.logged := by
  have hsome : (marshalCommand floats rc).isSome = true := marshalCommand_isSome.mpr hfinite
  rcases Option.isSome_iff_exists.mp hsome with ⟨text, htext⟩
  simp only [throughLog, jsonCodec, htext, Option.bind_some, unmarshalCommand_marshalCommand htext]

def RaftCommand.Same (rc other : RaftCommand) : Prop :=
  { rc with value := some (rc.value.getD []) } =
    { other with value := some (other.value.getD []) }

instance (rc other : RaftCommand) : Decidable (rc.Same other) := inferInstanceAs (Decidable (_ = _))

def RaftCommand.texts (rc : RaftCommand) : List Bytes :=
  rc.key :: rc.field :: rc.pivot :: (rc.fields ++ rc.fvPairs ++ rc.elems)

theorem map_toValid_eq_self_iff {texts : List Bytes} :
    texts.map Utf8.toValid = texts ↔ ∀ t ∈ texts, Utf8.valid t = true := by
  induction texts with
  | nil => simp
  | cons t rest ih => simp [ih, Utf8.toValid_eq_self_iff]

theorem logged_same_iff : rc.logged.Same rc ↔
      (∀ t ∈ rc.texts, Utf8.valid t = true) ∧ rc.deltaF64 ≠ Json.negZero := by
  have hvalue : (if rc.value = some [] then none else rc.value).getD [] = rc.value.getD [] := by
    split_ifs with h
    · rw [h]
      rfl
    · rfl
  have hdelta : (if rc.deltaF64 = Json.negZero then 0 else rc.deltaF64) =
      rc.deltaF64 ↔ rc.deltaF64 ≠ Json.negZero := by
    split_ifs with h
    · rw [h]
      decide
    · simpa using h
  simp only [RaftCommand.Same, RaftCommand.logged, RaftCommand.mk.injEq, hvalue,
    hdelta, map_toValid_eq_self_iff, Utf8.toValid_eq_self_iff, RaftCommand.texts,
    List.forall_mem_cons, List.forall_mem_append, true_and, and_true]
  tauto

def ClientRequest.toRaft : ClientRequest → RaftCommand
  | .string req => reqToRaft req
  | .hash req => hashReqToRaft req
  | .list req => listReqToRaft req
  | .set req => setReqToRaft req

def ClientRequest.proposed (req : ClientRequest) (id : ℕ) : RaftCommand :=
  { req.toRaft with reqID := id }

theorem applied_command_same_iff (floats : Json.FloatText) (id : ℕ)
    (req : ClientRequest) (hfinite : Json.finite req.toRaft.deltaF64 = true) :
    (∃ rc, throughLog floats (req.proposed id) = some rc ∧ rc.Same (req.proposed id)) ↔
    (∀ t ∈ req.toRaft.texts, Utf8.valid t = true) ∧ req.toRaft.deltaF64 ≠ Json.negZero := by
  have hback : throughLog floats (req.proposed id) =
      some (req.proposed id).logged := throughLog_eq hfinite
  have hsame : (req.proposed id).logged.Same (req.proposed id) ↔
      (∀ t ∈ req.toRaft.texts, Utf8.valid t = true) ∧
        req.toRaft.deltaF64 ≠ Json.negZero := logged_same_iff
  rw [hback, ← hsame]
  simp only [Option.some.injEq, exists_eq_left']

def unaryFloats : Json.FloatText where
  format := fun bits => List.replicate bits.toNat 49
  parse := fun text => some (UInt64.ofNat text.length)
  parse_format := by simp

def setRequest (key : Bytes) : ClientRequest := .string ⟨Cmd.set.code, key, some [118], 0⟩

theorem applied_command_same_iff_asciiKey :
    ∃ rc, throughLog unaryFloats ((setRequest [107]).proposed 1) = some rc ∧
      rc.Same ((setRequest [107]).proposed 1) :=
  (applied_command_same_iff unaryFloats 1 (setRequest [107]) (by decide)).mpr ⟨by decide, by decide⟩

theorem invalid_keys_merged : (throughLog unaryFloats ((setRequest [0xFF]).proposed 1)).map
      RaftCommand.key = some Utf8.replacement ∧
    (throughLog unaryFloats ((setRequest [0xFE]).proposed 1)).map
      RaftCommand.key = some Utf8.replacement ∧
    ¬ ∃ rc, throughLog unaryFloats ((setRequest [0xFF]).proposed 1) = some rc ∧
      rc.Same ((setRequest [0xFF]).proposed 1) := by
  rw [throughLog_eq (by decide), throughLog_eq (by decide)]
  simp only [Option.some.injEq, exists_eq_left']
  decide

end MCache.Net
