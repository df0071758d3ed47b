import MCache.DecoderTotality
import MCache.RequestRoundTrip

/-!
# Responses arrive as they were sent

What the decoders of the client make of each layout that the server writes.  A
list of texts behind two-byte lengths comes back as it was when every length
fits, and nothing that comes back is longer than such a length can say.
-/

namespace MCache

section Bytes

open MCache.Store

def textsIn (b : Bytes) (width : ℕ) : ℕ → ℕ → List Bytes
  | 0, _ => []
  | count + 1, off =>
    let start := off + width
    let stop := start + number b width off
    if stop ≤ b.length then
      part b start (number b width off) :: textsIn b width count stop
    else []

def fieldsIn (b : Bytes) : ℕ → ℕ → HashValue → HashValue
  | 0, _, found => found
  | count + 1, off, found =>
    let start := off + 2
    let value := start + number b 2 off
    let stop := value + 4 + number b 4 value
    if stop ≤ b.length then
      fieldsIn b count stop (found.insert (part b start (number b 2 off))
        (part b (value + 4) (number b 4 value)))
    else found

variable (before b : Bytes)

theorem part_append (i n : ℕ) : part (before ++ b) (before.length + i) n = part b i n := by
  rw [part, part, List.drop_length_add_append]

theorem number_append_left (width i : ℕ) :
    number (before ++ b) width (before.length + i) = number b width i :=
  congrArg ofBigEndian (part_append before b i width)

theorem textsIn_append (width count off : ℕ) :
    textsIn (before ++ b) width count (before.length + off) = textsIn b width count off := by
  induction count generalizing off with
  | zero => rfl
  | succ count ih =>
    simp only [textsIn, number_append_left, Nat.add_assoc, part_append, ih,
      List.length_append, Nat.add_le_add_iff_left]

theorem fieldsIn_append (count off : ℕ) (found : HashValue) :
    fieldsIn (before ++ b) count (before.length + off) found = fieldsIn b count off found := by
  induction count generalizing off found with
  | zero => rfl
  | succ count ih =>
    simp only [fieldsIn, number_append_left, Nat.add_assoc, part_append, ih,
      List.length_append, Nat.add_le_add_iff_left]

end Bytes

namespace Slice

variable {p : Slice} {i : ℕ} {b : Bytes}

theorem textsWithin_eq (p : Slice) (width count off : ℕ) :
    p.textsWithin width count off = .ok (textsIn p.content width count off) := by
  have hlength := p.content_length
  induction count generalizing off with
  | zero => rfl
  | succ count ih =>
    simp only [Slice.textsWithin, textsIn]
    by_cases hwidth : off + width ≤ p.len
    · rw [if_pos hwidth, uint_eq hwidth, ok_bind, hlength]
      split_ifs with htext
      · rw [text_eq htext, ok_bind, ih]
        rfl
      · rfl
    · rw [if_neg hwidth, if_neg (by omega)]

theorem fieldsWithin_eq (p : Slice) (count off : ℕ) (found : Store.HashValue) :
    p.fieldsWithin count off found = .ok (fieldsIn p.content count off found) := by
  have hlength := p.content_length
  induction count generalizing off found with
  | zero => rfl
  | succ count ih =>
    simp only [Slice.fieldsWithin, fieldsIn]
    by_cases hfield : off + 2 ≤ p.len
    · rw [if_pos hfield, uint_eq hfield, ok_bind, hlength]
      by_cases hvalue : off + 2 + number p.content 2 off + 4 ≤ p.len
      · rw [if_pos hvalue, text_eq (by omega), ok_bind, uint_eq hvalue, ok_bind]
        split_ifs with hend
        · rw [text_eq hend, ok_bind, ih]
        · rfl
      · rw [if_neg hvalue, if_neg (by omega)]
    · rw [if_neg hfield, if_neg (by omega)]

theorem Rest.content_append (h : p.Rest i b) :
    ∃ before, before.length = i ∧ p.content = before ++ b := by
  obtain ⟨⟨before, after, harray, hi⟩, hlen⟩ := h
  refine ⟨before, hi, ?_⟩
  rw [content, harray, hlen, ← hi, ← List.length_append, List.take_left]

theorem Rest.textsWithin {width : ℕ} {l : List Bytes} (h : p.Rest i (l.flatMap (Net.sized width)))
    (hfits : ∀ e ∈ l, e.length < 256 ^ width) :
    p.textsWithin width l.length i = .ok l := by
  induction l generalizing i with
  | nil => rfl
  | cons e rest ih =>
    simp only [List.flatMap_cons, Net.sized, List.append_assoc] at h
    rcases h.uint (hfits e List.mem_cons_self) with ⟨hlength, h⟩
    rcases h.text with ⟨htext, h⟩
    have hlen := h.len
    simp only [List.length_cons, Slice.textsWithin]
    rw [if_pos (by omega), hlength, ok_bind, if_pos (by omega), htext, ok_bind,
      ih h fun e he => hfits e (List.mem_cons_of_mem _ he)]
    rfl

theorem Rest.optionsWithin {l : List (Option Bytes)} (h : p.Rest i (l.flatMap fun value =>
      match value with
      | some text => 1 :: Net.sized 4 text
      | none => [0]))
    (hfits : ∀ text, some text ∈ l → text.length < 2 ^ 32) :
    p.optionsWithin l.length i = .ok l := by
  induction l generalizing i with
  | nil => rfl
  | cons value rest ih =>
    have hrest : ∀ text, some text ∈ rest → text.length < 2 ^ 32 :=
      fun text htext => hfits text (List.mem_cons_of_mem _ htext)
    cases value with
    | none =>
      rcases h.byte with ⟨hflag, h⟩
      have hlen := h.len
      simp only [List.length_cons, Slice.optionsWithin]
      rw [if_pos (by omega), hflag, ok_bind, if_pos rfl, ih h hrest]
      rfl
    | some text =>
      simp only [List.flatMap_cons, Net.sized, List.cons_append, List.append_assoc] at h
      rcases h.byte with ⟨hflag, h⟩
      rcases h.uint (by simpa using hfits text List.mem_cons_self) with ⟨hlength, h⟩
      rcases h.text with ⟨htext, h⟩
      have hlen := h.len
      simp only [List.length_cons, Slice.optionsWithin]
      rw [if_pos (by omega), hflag, ok_bind, if_neg (by decide), if_pos (by omega),
        hlength, ok_bind, if_pos (by omega), htext, ok_bind, ih h hrest]
      rfl

theorem Rest.intsWithin {l : List ℤ} (h : p.Rest i (l.flatMap fun n => bigEndian 8 (uint64 n)))
    (hfits : ∀ n ∈ l, int64 n = n) : p.intsWithin l.length i = .ok l := by
  induction l generalizing i with
  | nil => rfl
  | cons n rest ih =>
    rw [List.flatMap_cons] at h
    rcases h.uint (Net.uint64_lt n) with ⟨hn, h⟩
    have hlen := h.len
    simp only [List.length_cons, Slice.intsWithin]
    rw [if_pos (by omega), hn, ok_bind,
      ih h fun m hm => hfits m (List.mem_cons_of_mem _ hm), ok_bind, Net.int64_uint64,
      hfits n List.mem_cons_self]
    rfl

end Slice

namespace Net

open MCache.Store

variable {value : Bytes → Bytes} {fields : List Bytes}

def fieldBytes (value : Bytes → Bytes) (fields : List Bytes) : Bytes :=
  fields.flatMap fun field => sized 2 field ++ sized 4 (value field)

theorem fieldsWithin_eq {p : Slice} {i : ℕ} (h : p.Rest i (fieldBytes value fields))
    (hfield : ∀ field ∈ fields, field.length < 2 ^ 16)
    (hvalue : ∀ field ∈ fields, (value field).length < 2 ^ 32) (found : HashValue) :
    p.fieldsWithin fields.length i found =
      .ok (fields.foldl (fun h field => h.insert field (value field)) found) := by
  induction fields generalizing i found with
  | nil => rfl
  | cons field rest ih =>
    have hrest : fieldBytes value (field :: rest) = bigEndian 2 field.length ++
        (field ++ (bigEndian 4 (value field).length ++ (value field ++
          fieldBytes value rest))) := by
      simp [fieldBytes, sized]
    rw [hrest] at h
    rcases h.uint (by simpa using hfield field List.mem_cons_self) with
      ⟨hfieldLen, h⟩
    rcases h.text with ⟨hfieldText, h⟩
    rcases h.uint (by simpa using hvalue field List.mem_cons_self) with
      ⟨hvalueLen, h⟩
    rcases h.text with ⟨hvalueText, h⟩
    have hlen := h.len
    simp only [List.length_cons, Slice.fieldsWithin]
    rw [if_pos (by omega), hfieldLen, ok_bind, if_pos (by omega), hfieldText,
      ok_bind, hvalueLen, ok_bind, if_pos (by omega), hvalueText, ok_bind]
    exact ih h (fun other h => hfield other (List.mem_cons_of_mem field h))
      (fun other h => hvalue other (List.mem_cons_of_mem field h)) _

def seen (texts : List Bytes) : List Bytes :=
  if ∀ text ∈ texts, text.length < 2 ^ 16 then texts
  else textsIn (texts.flatMap (sized 2)) 2 texts.length 0

def seenFields (value : Bytes → Bytes) (fields : List Bytes) : HashValue :=
  if ∀ field ∈ fields, field.length < 2 ^ 16 then
    fields.foldl (fun h field => h.insert field (value field)) ∅
  else fieldsIn (fieldBytes value fields) fields.length 0 ∅

theorem textsWithin_seen {p : Slice} {i : ℕ} {texts : List Bytes}
    (h : p.Rest i (texts.flatMap (sized 2))) :
    p.textsWithin 2 texts.length i = .ok (seen texts) := by
  unfold seen
  split_ifs with hfits
  · exact h.textsWithin (by simpa using hfits)
  · obtain ⟨before, rfl, hcontent⟩ := h.content_append
    rw [Slice.textsWithin_eq, hcontent]
    exact congrArg Except.ok (textsIn_append before _ 2 texts.length 0)

theorem fieldsWithin_seen {p : Slice} {i : ℕ} (h : p.Rest i (fieldBytes value fields))
    (hvalue : ∀ field ∈ fields, (value field).length < 2 ^ 32) :
    p.fieldsWithin fields.length i ∅ = .ok (seenFields value fields) := by
  unfold seenFields
  split_ifs with hfits
  · exact fieldsWithin_eq h hfits hvalue ∅
  · obtain ⟨before, rfl, hcontent⟩ := h.content_append
    rw [Slice.fieldsWithin_eq, hcontent]
    exact congrArg Except.ok (fieldsIn_append before _ fields.length 0 ∅)

section Layouts

variable {p : Slice} {c : Cmd} {status : UInt8} {value errMsg : Bytes}
  {texts : List Bytes}

theorem decodeResponsePayload_layout
    (hp : p.Rest 0 (status :: bigEndian 4 value.length ++ bigEndian 2 errMsg.length ++
      value ++ errMsg))
    (hvalue : value.length < 2 ^ 32) (herrMsg : errMsg.length < 2 ^ 16) :
    decodeResponsePayload p = .ok ⟨status, if value = [] then none else some value, errMsg⟩ := by
  simp only [List.cons_append, List.append_assoc] at hp
  rcases hp.byte with ⟨hstatus, hp⟩
  rcases hp.uint (by simpa using hvalue) with ⟨hvalLen, hp⟩
  rcases hp.uint (by simpa using herrMsg) with ⟨herrLen, hp⟩
  rcases hp.text with ⟨hvalueText, hp⟩
  have herrText := hp.last
  have hlen := hp.len
  have hvalueRead : (if 0 < value.length then (p.text 7 (7 + value.length)).map some
      else .ok none) = .ok (if value = [] then none else some value) := by
    cases value with
    | nil => rfl
    | cons b rest =>
      rw [if_pos (by simp), if_neg (by simp)]
      exact congrArg (Except.map some) hvalueText
  have herrRead : (if 0 < errMsg.length then
        p.text (7 + value.length) (7 + value.length + errMsg.length)
      else .ok []) = .ok errMsg := by
    split_ifs with hpos
    · exact herrText
    · rw [List.length_eq_zero_iff.mp (Nat.eq_zero_of_not_pos hpos)]
  unfold decodeResponsePayload
  rw [ensure_bind (by omega), hstatus, ok_bind, hvalLen, ok_bind, herrLen, ok_bind,
    ensure_bind (by omega), hvalueRead, ok_bind, herrRead]
  rfl

theorem decodeErrMsg_layout (hp : p.Rest 0 (errorPayload errMsg))
    (herrMsg : errMsg.length < 2 ^ 16) :
    p.byte 0 = .ok statusErr ∧ 1 ≤ p.len ∧ decodeErrMsg p = .ok errMsg := by
  rcases hp.byte with ⟨hstatus, hp⟩
  rcases hp.uint (by simpa using herrMsg) with ⟨herrLen, hp⟩
  have hlen := hp.len
  refine ⟨hstatus, by omega, ?_⟩
  unfold decodeErrMsg
  rw [if_pos (by omega), herrLen, ok_bind, if_pos (by omega)]
  exact hp.last

theorem decodeResponse_error (cmd : UInt8) (hp : p.Rest 0 (errorPayload errMsg))
    (herrMsg : errMsg.length < 2 ^ 16) :
    decodeHashResponse p cmd = .ok { cmd := cmd, status := statusErr, errMsg := errMsg } ∧
      decodeListResponse p cmd = .ok { cmd := cmd, status := statusErr, errMsg := errMsg } := by
  rcases decodeErrMsg_layout hp herrMsg with ⟨hstatus, hlen, hread⟩
  unfold decodeHashResponse decodeListResponse
  rw [ensure_bind hlen, ensure_bind hlen, hstatus, ok_bind, ok_bind]
  simp only [if_true]
  rw [hread]
  exact ⟨rfl, rfl⟩

theorem decodeSetResponse_error (cmd : UInt8) {body : Bytes}
    (hp : p.Rest 0 (statusErr :: body)) (hbody : body ≠ []) :
    decodeSetResponse p cmd = .ok { cmd := cmd, status := statusErr, errMsg := body } := by
  have hcontent := hp.content_eq
  rcases hp.byte with ⟨hbyte, hp⟩
  have hlen := hp.len
  have hpos := List.length_pos_iff.mpr hbody
  unfold decodeSetResponse
  rw [ensure_bind (by omega), hbyte, ok_bind]
  simp only [true_and]
  rw [if_pos (by omega), hcontent]
  rfl

section Sets

variable (hstatus : status ≠ statusErr)

include hstatus

theorem decodeSetResponse_changed {n : ℕ} (hp : p.Rest 0 (status :: bigEndian 8 n))
    (hc : c = .sAdd ∨ c = .sRem) (hn : n < 2 ^ 64) :
    decodeSetResponse p c.code = .ok { cmd := c.code, status := status, changed := n } := by
  rw [← List.append_nil (bigEndian 8 _)] at hp
  rcases hp.first with ⟨hbyte, hp⟩
  rcases hp.number (by simpa using hn) with ⟨hchanged, hp⟩
  unfold decodeSetResponse
  rw [hbyte]
  rcases hc with rfl | rfl
  all_goals
    simp only [hstatus, false_and, if_false, Cmd.ofCode?_code]
    rw [hchanged]
    rfl

theorem decodeSetResponse_sCard {n : ℕ} (hp : p.Rest 0 (status :: bigEndian 8 n))
    (hn : n < 2 ^ 64) :
    decodeSetResponse p Cmd.sCard.code =
      .ok { cmd := Cmd.sCard.code, status := status, card := n } := by
  rw [← List.append_nil (bigEndian 8 _)] at hp
  rcases hp.first with ⟨hbyte, hp⟩
  rcases hp.number (by simpa using hn) with ⟨hcard, hp⟩
  unfold decodeSetResponse
  rw [hbyte]
  simp only [hstatus, false_and, if_false, Cmd.ofCode?_code]
  rw [hcard]
  rfl

theorem decodeSetResponse_sIsMember {b : Bool} (hp : p.Rest 0 [status, boolByte b]) :
    decodeSetResponse p Cmd.sIsMember.code =
      .ok { cmd := Cmd.sIsMember.code, status := status, isMember := b } := by
  rcases hp.first with ⟨hbyte, hp⟩
  rcases hp.byte with ⟨hflag, hp⟩
  have hlen := hp.len
  unfold decodeSetResponse
  rw [hbyte]
  simp only [hstatus, false_and, if_false, Cmd.ofCode?_code]
  rw [ensure_bind (by omega), hflag, ok_bind, decide_boolByte]
  rfl

theorem decodeSetResponse_sPop (hp : p.Rest 0 (status :: sized 2 value))
    (hvalue : value.length < 2 ^ 16) :
    decodeSetResponse p Cmd.sPop.code =
      if value = [] then .ok { cmd := Cmd.sPop.code, status := status }
      else if 3 + value.length < 2 ^ 16 then
        .ok { cmd := Cmd.sPop.code, status := status, elems := [value] }
      else .error .panic := by
  rcases hp.first with ⟨hbyte, hp⟩
  rcases hp.number (by simpa using hvalue) with ⟨helemLen, hp⟩
  have hlen := hp.len
  have hend : p.text 3 ((3 + value.length) % 2 ^ 16) = _ := text_uint16 (by norm_num) hvalue hp.last
  unfold decodeSetResponse
  rw [hbyte]
  simp only [hstatus, false_and, if_false, Cmd.ofCode?_code]
  rw [helemLen]
  by_cases hempty : value = []
  · rw [if_neg (by simp [hempty]), if_pos hempty]
    rfl
  · have hpos := List.length_pos_iff.mpr hempty
    rw [if_pos (by omega), hend, if_neg hempty]
    split_ifs <;> rfl

theorem decodeSetResponse_texts (hp : p.Rest 0 (status :: counted texts))
    (hc : c = .sRandMember ∨ c = .sMembers ∨ c = .sUnion ∨ c = .sInter ∨ c = .sDiff)
    (hcount : texts.length < 2 ^ 32) :
    decodeSetResponse p c.code = .ok { cmd := c.code, status := status, elems := seen texts } := by
  rcases hp.first with ⟨hbyte, hp⟩
  rcases hp.number (by simpa using hcount) with ⟨hcountField, hp⟩
  unfold decodeSetResponse
  rw [hbyte]
  rcases hc with rfl | rfl | rfl | rfl | rfl
  all_goals
    simp only [hstatus, false_and, if_false, Cmd.ofCode?_code]
    rw [hcountField, textsWithin_seen hp]
    rfl

end Sets

section Hashes

variable (hstatus : status ≠ statusErr)

include hstatus

theorem decodeHashResponse_int {n : ℤ} (hp : p.Rest 0 (status :: bigEndian 8 (uint64 n)))
    (hc : c = .hSet ∨ c = .hDel ∨ c = .hLen ∨ c = .hStrLen ∨ c = .hIncrBy) :
    decodeHashResponse p c.code =
      .ok { cmd := c.code, status := status, intResult := int64 n } := by
  rw [← List.append_nil (bigEndian 8 _)] at hp
  rcases hp.first with ⟨hbyte, hp⟩
  rcases hp.number (uint64_lt n) with ⟨hn, hp⟩
  unfold decodeHashResponse
  rw [hbyte]
  rcases hc with rfl | rfl | rfl | rfl | rfl
  all_goals
    simp only [hstatus, if_false, Cmd.ofCode?_code]
    rw [hn, int64_uint64]
    rfl

theorem decodeHashResponse_flag {b : Bool} (hp : p.Rest 0 [status, boolByte b])
    (hc : c = .hExists ∨ c = .hSetNX) :
    decodeHashResponse p c.code = .ok { cmd := c.code, status := status, boolResult := b } := by
  rcases hp.first with ⟨hbyte, hp⟩
  rcases hp.byte with ⟨hflag, hp⟩
  have hlen := hp.len
  unfold decodeHashResponse
  rw [hbyte]
  rcases hc with rfl | rfl
  all_goals
    simp only [hstatus, if_false, Cmd.ofCode?_code]
    rw [ensure_bind (by omega), hflag, ok_bind, decide_boolByte]
    rfl

theorem decodeHashResponse_hGet (hp : p.Rest 0 (status :: sized 4 value))
    (hvalue : value.length < 2 ^ 32) :
    decodeHashResponse p Cmd.hGet.code =
      .ok { cmd := Cmd.hGet.code, status := status, strResult := value } := by
  rcases hp.first with ⟨hbyte, hp⟩
  rcases hp.number (by simpa using hvalue) with ⟨hvalueLen, hp⟩
  have hlen := hp.len
  unfold decodeHashResponse
  rw [hbyte]
  simp only [hstatus, if_false, Cmd.ofCode?_code]
  rw [hvalueLen]
  by_cases hpos : 0 < value.length
  · rw [if_pos ⟨hpos, by omega⟩, hp.last]
    rfl
  · rw [if_neg fun h => hpos h.1, List.length_eq_zero_iff.mp (Nat.eq_zero_of_not_pos hpos)]
    rfl

theorem decodeHashResponse_texts (hp : p.Rest 0 (status :: counted texts))
    (hc : c = .hKeys ∨ c = .hVals) (hcount : texts.length < 2 ^ 32) :
    decodeHashResponse p c.code =
      .ok { cmd := c.code, status := status, sliceResult := seen texts } := by
  rcases hp.first with ⟨hbyte, hp⟩
  rcases hp.number (by simpa using hcount) with ⟨hcountField, hp⟩
  unfold decodeHashResponse
  rw [hbyte]
  rcases hc with rfl | rfl
  all_goals
    simp only [hstatus, if_false, Cmd.ofCode?_code]
    rw [hcountField, textsWithin_seen hp]
    rfl

theorem decodeHashResponse_hIncrByFloat {n : UInt64}
    (hp : p.Rest 0 (status :: bigEndian 8 n.toNat)) :
    decodeHashResponse p Cmd.hIncrByFloat.code =
      .ok { cmd := Cmd.hIncrByFloat.code, status := status, floatResult := n } := by
  rw [← List.append_nil (bigEndian 8 _)] at hp
  rcases hp.first with ⟨hbyte, hp⟩
  rcases hp.number (by simpa using n.toNat_lt) with ⟨hn, hp⟩
  unfold decodeHashResponse
  rw [hbyte]
  simp only [hstatus, if_false, Cmd.ofCode?_code]
  rw [hn, UInt64.ofNat_toNat]
  rfl

theorem decodeHashResponse_hmGet {values : List (Option Bytes)}
    (hp : p.Rest 0 (status :: bigEndian 4 values.length ++ values.flatMap fun value =>
      match value with
      | some text => 1 :: sized 4 text
      | none => [0]))
    (hcount : values.length < 2 ^ 32)
    (hfits : ∀ text, some text ∈ values → text.length < 2 ^ 32) :
    decodeHashResponse p Cmd.hmGet.code =
      .ok { cmd := Cmd.hmGet.code, status := status, anySlice := values } := by
  rw [List.cons_append] at hp
  rcases hp.first with ⟨hbyte, hp⟩
  rcases hp.number (by simpa using hcount) with ⟨hcountField, hp⟩
  unfold decodeHashResponse
  rw [hbyte]
  simp only [hstatus, if_false, Cmd.ofCode?_code]
  rw [hcountField, hp.optionsWithin hfits]
  rfl

theorem decodeHashResponse_hmSet (hp : p.Rest 0 [status]) : decodeHashResponse p Cmd.hmSet.code =
      .ok { cmd := Cmd.hmSet.code, status := status } := by
  rcases hp.first with ⟨hbyte, hp⟩
  unfold decodeHashResponse
  rw [hbyte]
  simp only [hstatus, if_false, Cmd.ofCode?_code]
  rfl

theorem decodeHashResponse_hGetAll {value : Bytes → Bytes} {fields : List Bytes}
    (hp : p.Rest 0 (status :: (bigEndian 4 fields.length ++ fieldBytes value fields)))
    (hcount : fields.length < 2 ^ 32)
    (hvalue : ∀ field ∈ fields, (value field).length < 2 ^ 32) :
    decodeHashResponse p Cmd.hGetAll.code =
      .ok { cmd := Cmd.hGetAll.code, status := status
            mapResult := seenFields value fields } := by
  rcases hp.first with ⟨hbyte, hp⟩
  rcases hp.number (by simpa using hcount) with ⟨hcountField, hp⟩
  unfold decodeHashResponse
  rw [hbyte]
  simp only [hstatus, if_false, Cmd.ofCode?_code]
  rw [hcountField, fieldsWithin_seen hp hvalue]
  rfl

end Hashes

section Lists

variable (hstatus : status ≠ statusErr)

include hstatus

theorem decodeListResponse_int {n : ℤ} (hp : p.Rest 0 (status :: bigEndian 8 (uint64 n)))
    (hc : c = .lPush ∨ c = .rPush ∨ c = .lLen ∨ c = .lRem ∨ c = .lInsert) :
    decodeListResponse p c.code =
      .ok { cmd := c.code, status := status, intResult := int64 n } := by
  rw [← List.append_nil (bigEndian 8 _)] at hp
  rcases hp.first with ⟨hbyte, hp⟩
  rcases hp.number (uint64_lt n) with ⟨hn, hp⟩
  unfold decodeListResponse
  rw [hbyte]
  rcases hc with rfl | rfl | rfl | rfl | rfl
  all_goals
    simp only [hstatus, if_false, Cmd.ofCode?_code]
    rw [hn, int64_uint64]
    rfl

theorem decodeListResponse_value (hp : p.Rest 0 (status :: sized 4 value))
    (hc : c = .lPop ∨ c = .rPop ∨ c = .blPop ∨ c = .brPop ∨ c = .lIndex)
    (hvalue : value.length < 2 ^ 32) :
    decodeListResponse p c.code = .ok { cmd := c.code, status := status, strResult := value } := by
  rcases hp.first with ⟨hbyte, hp⟩
  rcases hp.number (by simpa using hvalue) with ⟨hvalueLen, hp⟩
  have hlen := hp.len
  unfold decodeListResponse
  rw [hbyte]
  rcases hc with rfl | rfl | rfl | rfl | rfl
  all_goals
    simp only [hstatus, if_false, Cmd.ofCode?_code]
    rw [hvalueLen]
    by_cases hpos : 0 < value.length
    · rw [if_pos ⟨hpos, by omega⟩, hp.last]
      rfl
    · rw [if_neg fun h => hpos h.1, List.length_eq_zero_iff.mp (Nat.eq_zero_of_not_pos hpos)]
      rfl

theorem decodeListResponse_lRange (hp : p.Rest 0 (status :: counted texts))
    (hcount : texts.length < 2 ^ 32) :
    decodeListResponse p Cmd.lRange.code =
      .ok { cmd := Cmd.lRange.code, status := status, sliceResult := seen texts } := by
  rcases hp.first with ⟨hbyte, hp⟩
  rcases hp.number (by simpa using hcount) with ⟨hcountField, hp⟩
  unfold decodeListResponse
  rw [hbyte]
  simp only [hstatus, if_false, Cmd.ofCode?_code]
  rw [hcountField, textsWithin_seen hp]
  rfl

theorem decodeListResponse_lSet {b : Bool} (hp : p.Rest 0 [status, boolByte b]) :
    decodeListResponse p Cmd.lSet.code =
      .ok { cmd := Cmd.lSet.code, status := status, boolResult := b } := by
  rcases hp.first with ⟨hbyte, hp⟩
  rcases hp.byte with ⟨hflag, hp⟩
  have hlen := hp.len
  unfold decodeListResponse
  rw [hbyte]
  simp only [hstatus, if_false, Cmd.ofCode?_code]
  rw [ensure_bind (by omega), hflag, ok_bind, decide_boolByte]
  rfl

theorem decodeListResponse_lTrim (hp : p.Rest 0 [status]) : decodeListResponse p Cmd.lTrim.code =
      .ok { cmd := Cmd.lTrim.code, status := status } := by
  rcases hp.first with ⟨hbyte, hp⟩
  unfold decodeListResponse
  rw [hbyte]
  simp only [hstatus, if_false, Cmd.ofCode?_code]
  rfl

theorem decodeListResponse_lPos {positions : List ℤ}
    (hp : p.Rest 0 (status :: bigEndian 4 positions.length ++
      positions.flatMap fun pos => bigEndian 8 (uint64 pos)))
    (hcount : positions.length < 2 ^ 32) (hfits : ∀ pos ∈ positions, int64 pos = pos) :
    decodeListResponse p Cmd.lPos.code =
      .ok { cmd := Cmd.lPos.code, status := status, posResult := positions } := by
  rw [List.cons_append] at hp
  rcases hp.first with ⟨hbyte, hp⟩
  rcases hp.number (by simpa using hcount) with ⟨hcountField, hp⟩
  unfold decodeListResponse
  rw [hbyte]
  simp only [hstatus, if_false, Cmd.ofCode?_code]
  rw [hcountField, hp.intsWithin hfits]
  rfl

end Lists

end Layouts

theorem lookup_foldl_insert {field : Bytes} (found : HashValue)
    (h : field ∈ fields ∨ found.lookup field = some (value field)) :
    (fields.foldl (fun h field => h.insert field (value field)) found).lookup field =
      some (value field) := by
  induction fields generalizing found with
  | nil => simpa using h
  | cons other rest ih =>
    refine ih _ ?_
    by_cases hother : field = other
    · subst hother
      exact .inr (AList.lookup_insert _)
    · rw [AList.lookup_insert_ne hother]
      exact h.imp_left fun hmem => (List.mem_cons.mp hmem).resolve_left hother

theorem lookup_foldl_insert_of_notMem {field : Bytes} (found : HashValue) (h : field ∉ fields) :
    (fields.foldl (fun h field => h.insert field (value field)) found).lookup field =
      found.lookup field := by
  induction fields generalizing found with
  | nil => rfl
  | cons other rest ih =>
    rw [List.mem_cons, not_or] at h
    exact (ih _ h.2).trans (AList.lookup_insert_ne h.1)

end Net

end MCache
