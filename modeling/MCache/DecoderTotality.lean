import MCache.RequestCodec
import MCache.ResponseCodec

/-!
# Decoders on arbitrary bytes

The decoders run on bytes from the network.  On a slice without spare capacity
every index and every bound past the length panics, so a decoder that yields a
value there has read nothing but the payload.  The hash and list decoders do so
for every payload and take all their texts from it.
-/

namespace MCache

def part (b : Bytes) (i n : ℕ) : Bytes := (b.drop i).take n

theorem part_isInfix (b : Bytes) (i n : ℕ) : part b i n <:+: b :=
  (List.take_prefix _ _).isInfix.trans (List.drop_suffix _ _).isInfix

def number (b : Bytes) (width i : ℕ) : ℕ := ofBigEndian (part b i width)

theorem number_lt (b : Bytes) (width i : ℕ) : number b width i < 256 ^ width := by
  refine (ofBigEndian_lt _).trans_le (Nat.pow_le_pow_right (by norm_num) ?_)
  exact List.length_take_le _ _

theorem number_append {before rest : Bytes} {width n i : ℕ} (hi : before.length = i) :
    number (before ++ (bigEndian width n ++ rest)) width i = n % 256 ^ width := by
  simp [number, part, ← hi, ofBigEndian_bigEndian]

def IsPart (b : Bytes) (i n : ℕ) (t : Bytes) : Prop := i + n ≤ b.length ∧ t = part b i n

def AreParts (b : Bytes) (width : ℕ) : ℕ → List Bytes → Prop
  | _, [] => True
  | off, t :: rest =>
    IsPart b (off + width) (number b width off) t ∧
      AreParts b width (off + width + number b width off) rest

theorem AreParts.isInfix {b : Bytes} {width off : ℕ} {texts : List Bytes}
    (h : AreParts b width off texts) : ∀ t ∈ texts, t <:+: b := by
  induction texts generalizing off with
  | nil => simp
  | cons t rest ih =>
    intro u hu
    rcases List.mem_cons.mp hu with rfl | hu
    · exact h.1.2 ▸ part_isInfix b _ _
    · exact ih h.2 u hu

namespace Slice

variable {p : Slice} {i n width : ℕ}

theorem content_length (p : Slice) : p.content.length = p.len := List.length_take_of_le p.len_le

theorem text_eq (h : i + n ≤ p.len) : p.text i (i + n) = .ok (part p.content i n) := by
  unfold text part content
  rw [if_pos ⟨Nat.le_add_right i n, h.trans p.len_le⟩, List.drop_take, List.take_take,
    Nat.add_sub_cancel_left, min_eq_left (by omega)]

theorem uint_eq (h : i + width ≤ p.len) : p.uint width i = .ok (number p.content width i) := by
  unfold uint
  rw [text_eq h]
  rfl

theorem byte_eq (h : i < p.len) : p.byte i = .ok (p.content.getD i 0) := by
  have hbound : i < p.array.length := h.trans_le p.len_le
  unfold byte content
  rw [if_pos h, List.getElem?_eq_getElem hbound, List.getD_eq_getElem?_getD,
    List.getElem?_take_of_lt h, List.getElem?_eq_getElem hbound]
  rfl

end Slice

namespace Yields

variable {α : Type} {p : Slice} {i n width : ℕ} {P : α → Prop}

theorem byte {f : UInt8 → Go α} (h : i < p.len)
    (hf : Yields (f (p.content.getD i 0)) P) : Yields (p.byte i >>= f) P := by
  rwa [Slice.byte_eq h]

theorem uint {f : ℕ → Go α} (h : i + width ≤ p.len)
    (hf : Yields (f (number p.content width i)) P) : Yields (p.uint width i >>= f) P := by
  rwa [Slice.uint_eq h]

theorem text {f : Bytes → Go α} (h : i + n ≤ p.len)
    (hf : Yields (f (part p.content i n)) P) : Yields (p.text i (i + n) >>= f) P := by
  rwa [Slice.text_eq h]

theorem texts (p : Slice) (width : ℕ) (message : Bytes) (count off : ℕ) :
    Yields (p.texts width message count off) fun texts =>
      texts.length = count ∧ AreParts p.content width off texts := by
  induction count generalizing off with
  | zero => exact yields_ok ⟨rfl, trivial⟩
  | succ count ih =>
    refine ensure fun hlength => uint hlength <| ensure fun htext => text htext ?_
    refine (ih _).bind fun rest hrest => yields_ok ⟨?_, ⟨?_, rfl⟩, hrest.2⟩
    · rw [List.length_cons, hrest.1]
    · rwa [Slice.content_length]

theorem textsWithin (p : Slice) (width count off : ℕ) :
    Yields (p.textsWithin width count off) (AreParts p.content width off) := by
  induction count generalizing off with
  | zero => exact yields_ok trivial
  | succ count ih =>
    simp only [Slice.textsWithin]
    split_ifs with hlength
    · refine uint hlength ?_
      split_ifs with htext
      · refine text htext <| (ih _).bind fun rest hrest => yields_ok ⟨⟨?_, rfl⟩, hrest⟩
        rwa [Slice.content_length]
      · exact yields_ok trivial
    · exact yields_ok trivial

theorem fieldsWithin (p : Slice) (count off : ℕ) {fields : Store.HashValue}
    (hfields : ∀ e ∈ fields.entries, e.1 <:+: p.content ∧ e.2 <:+: p.content) :
    Yields (p.fieldsWithin count off fields) fun fields =>
      ∀ e ∈ fields.entries, e.1 <:+: p.content ∧ e.2 <:+: p.content := by
  induction count generalizing off fields with
  | zero => exact yields_ok hfields
  | succ count ih =>
    simp only [Slice.fieldsWithin]
    split_ifs with hlength
    · refine uint hlength ?_
      split_ifs with hfield
      · refine text (by omega) <| uint hfield ?_
        split_ifs with hvalue
        · refine text hvalue <| ih _ fun e he => ?_
          rw [AList.entries_insert, List.mem_cons] at he
          rcases he with rfl | he
          · exact ⟨part_isInfix _ _ _, part_isInfix _ _ _⟩
          · exact hfields e ((List.kerase_sublist _ _).subset he)
        · exact yields_ok hfields
      · exact yields_ok hfields
    · exact yields_ok hfields

theorem optionsWithin (p : Slice) (count off : ℕ) : Yields (p.optionsWithin count off) fun values =>
      ∀ t, some t ∈ values → t <:+: p.content := by
  have hnone : ∀ n t, some t ∈ List.replicate n (none : Option Bytes) → t <:+: p.content := by
    intro n t h
    cases List.eq_of_mem_replicate h
  induction count generalizing off with
  | zero => exact yields_ok (by simp)
  | succ count ih =>
    by_cases hflag : off < p.len
    · simp only [Slice.optionsWithin, hflag, if_true]
      refine byte hflag ?_
      split_ifs with hzero hlength
      · refine (ih _).bind fun rest hrest => yields_ok fun t ht => ?_
        exact hrest t (by simpa using ht)
      · refine uint (by omega) ?_
        split_ifs with hvalue
        · refine text hvalue <| (ih _).bind fun rest hrest => yields_ok fun t ht => ?_
          rcases List.mem_cons.mp ht with ht | ht
          · cases ht
            exact part_isInfix _ _ _
          · exact hrest t ht
        · exact yields_ok (hnone _)
      · exact yields_ok (hnone _)
    · simp only [Slice.optionsWithin, hflag, if_false]
      exact yields_ok (hnone _)

theorem intsWithin (p : Slice) (count off : ℕ) : Yields (p.intsWithin count off) fun _ => True := by
  induction count generalizing off with
  | zero => exact yields_ok trivial
  | succ count ih =>
    simp only [Slice.intsWithin]
    split_ifs with hlength
    · exact uint hlength <| (ih _).bind fun rest _ => yields_ok trivial
    · exact yields_ok trivial

end Yields

namespace Net

open MCache.Store

def HashRequest.strings (req : HashRequest) : List Bytes :=
  [req.key, req.field, req.value] ++ req.fields ++ req.fvPairs

def ListRequest.strings (req : ListRequest) : List Bytes :=
  [req.key, req.value, req.pivot] ++ req.elements

theorem decodeHashRequest_yields (p : Slice) :
    Yields (decodeHashRequest p) fun req => ∀ t ∈ req.strings, t <:+: p.content := by
  have hpart := part_isInfix p.content
  refine .ensure fun hlen => .byte (by omega) <| .uint (by omega) ?_
  dsimp only
  split
  case h_1 | h_2 | h_3 | h_4 =>
    refine .ensure fun hkey => .text hkey <| yields_ok ?_
    simp [HashRequest.strings, hpart]
  case h_5 | h_6 | h_7 =>
    refine .ensure fun hhead => .uint hhead <| .ensure fun hall => ?_
    refine .text (by omega) <| .text hall <| yields_ok ?_
    simp [HashRequest.strings, hpart]
  case h_8 | h_9 =>
    refine .ensure fun hhead => .uint (by omega) <| .uint hhead <| .ensure fun hall => ?_
    refine .text (by omega) <| .text (by omega) <| .text hall <| yields_ok ?_
    simp [HashRequest.strings, hpart]
  case h_10 | h_11 =>
    refine .ensure fun hhead => .uint hhead <| .ensure fun hkey => .text hkey ?_
    refine (Yields.texts p 2 _ _ _).bind fun fields hfields => yields_ok ?_
    simpa [HashRequest.strings, hpart] using hfields.2.isInfix
  case h_12 | h_13 =>
    refine .ensure fun hhead => .uint (by omega) <| .uint hhead <| .ensure fun hall => ?_
    refine .text (by omega) <| .text hall <| yields_ok ?_
    simp [HashRequest.strings, hpart]
  case h_14 =>
    refine .ensure fun hhead => .uint hhead <| .ensure fun hkey => .text hkey ?_
    refine (Yields.texts p 2 _ _ _).bind fun fvPairs hpairs => yields_ok ?_
    simpa [HashRequest.strings, hpart] using hpairs.2.isInfix
  case h_15 => exact yields_error _ _

theorem decodeListRequest_yields (p : Slice) :
    Yields (decodeListRequest p) fun req => ∀ t ∈ req.strings, t <:+: p.content := by
  have hpart := part_isInfix p.content
  refine .ensure fun hlen => .byte (by omega) <| .uint (by omega) ?_
  dsimp only
  split
  case h_1 | h_2 | h_3 =>
    refine .ensure fun hkey => .text hkey <| yields_ok ?_
    simp [ListRequest.strings, hpart]
  case h_4 | h_5 =>
    refine .ensure fun hhead => .uint hhead <| .ensure fun hkey => .text hkey ?_
    refine (Yields.texts p 2 _ _ _).bind fun elements helements => yields_ok ?_
    simpa [ListRequest.strings, hpart] using helements.2.isInfix
  case h_6 | h_7 =>
    refine .ensure fun hhead => .uint (by omega) <| .uint hhead <| .ensure fun hkey => ?_
    refine .text hkey <| yields_ok ?_
    simp [ListRequest.strings, hpart]
  case h_8 | h_12 | h_13 =>
    refine .ensure fun hhead => .uint hhead <| .ensure fun hkey => ?_
    refine .text hkey <| yields_ok ?_
    simp [ListRequest.strings, hpart]
  case h_9 | h_10 =>
    refine .ensure fun hhead => .uint (by omega) <| .uint hhead <| .ensure fun hall => ?_
    refine .text (by omega) <| .text hall <| yields_ok ?_
    simp [ListRequest.strings, hpart]
  case h_11 =>
    refine .ensure fun hhead => .byte (by omega) <| .uint (by omega) <| .uint hhead ?_
    refine .ensure fun hall => .text (by omega) <| .text (by omega) <| .text hall ?_
    refine yields_ok ?_
    simp [ListRequest.strings, hpart]
  case h_14 =>
    refine .ensure fun hhead => .uint (by omega) <| .uint (by omega) <| .uint (by omega) ?_
    refine .uint hhead <| .ensure fun hall => .text (by omega) <| .text hall ?_
    refine yields_ok ?_
    simp [ListRequest.strings, hpart]
  case h_15 => exact yields_error _ _

def HashResponse.strings (resp : HashResponse) : List Bytes :=
  [resp.strResult, resp.errMsg] ++ resp.sliceResult ++ resp.anySlice.filterMap id ++
    resp.mapResult.entries.flatMap fun e => [e.1, e.2]

def ListResponse.strings (resp : ListResponse) : List Bytes :=
  [resp.strResult, resp.errMsg] ++ resp.sliceResult

theorem decodeErrMsg_yields (p : Slice) :
    Yields (decodeErrMsg p) fun errMsg => errMsg <:+: p.content := by
  unfold decodeErrMsg
  split_ifs with hlength
  · refine .uint (by omega) ?_
    split_ifs with htext
    · rw [Slice.text_eq htext]
      exact yields_ok (part_isInfix _ _ _)
    · exact yields_ok List.nil_infix
  · exact yields_ok List.nil_infix

structure HashResponse.ReadFrom (p : Slice) (resp : HashResponse) : Prop where
  status : p.byte 0 = .ok resp.status
  elems : AreParts p.content 2 5 resp.sliceResult
  strings : ∀ t ∈ resp.strings, t <:+: p.content

structure ListResponse.ReadFrom (p : Slice) (resp : ListResponse) : Prop where
  status : p.byte 0 = .ok resp.status
  elems : AreParts p.content 2 5 resp.sliceResult
  strings : ∀ t ∈ resp.strings, t <:+: p.content

theorem decodeHashResponse_yields (p : Slice) (cmd : UInt8) :
    Yields (decodeHashResponse p cmd) (HashResponse.ReadFrom p) := by
  have hpart := part_isInfix p.content
  refine .ensure fun hlen => .byte hlen ?_
  have hstatus := Slice.byte_eq hlen
  split_ifs
  · refine (decodeErrMsg_yields p).bind fun errMsg herrMsg => ?_
    refine yields_ok ⟨hstatus, trivial, ?_⟩
    simpa [HashResponse.strings] using herrMsg
  · split
    case h_1 | h_2 | h_3 | h_4 | h_5 | h_12 =>
      refine .ensure fun h => .uint h <| yields_ok ⟨hstatus, trivial, ?_⟩
      simp [HashResponse.strings]
    case h_6 | h_7 =>
      refine .ensure fun h => .byte h <| yields_ok ⟨hstatus, trivial, ?_⟩
      simp [HashResponse.strings]
    case h_8 =>
      refine .ensure fun h => .uint h ?_
      split_ifs with hvalue
      · refine .text hvalue.2 <| yields_ok ⟨hstatus, trivial, ?_⟩
        simp [HashResponse.strings, hpart]
      · refine yields_ok ⟨hstatus, trivial, ?_⟩
        simp [HashResponse.strings]
    case h_9 =>
      refine .ensure fun h => .uint h <|
        (Yields.fieldsWithin p _ _ (by simp)).bind fun fields hfields => ?_
      have htexts : ∀ t ∈ fields.entries.flatMap fun e => [e.1, e.2], t <:+: p.content := by
        intro t ht
        rcases List.mem_flatMap.mp ht with ⟨e, he, hte⟩
        rcases List.mem_pair.mp hte with rfl | rfl
        · exact (hfields e he).1
        · exact (hfields e he).2
      refine yields_ok ⟨hstatus, trivial, ?_⟩
      simpa [HashResponse.strings] using htexts
    case h_10 | h_11 =>
      refine .ensure fun h => .uint h <| (Yields.textsWithin p _ _ _).bind fun texts htexts => ?_
      refine yields_ok ⟨hstatus, htexts, ?_⟩
      simpa [HashResponse.strings] using htexts.isInfix
    case h_13 =>
      refine .ensure fun h => .uint h <| (Yields.optionsWithin p _ _).bind fun values hvalues => ?_
      refine yields_ok ⟨hstatus, trivial, ?_⟩
      simpa [HashResponse.strings] using hvalues
    case h_14 =>
      refine yields_ok ⟨hstatus, trivial, ?_⟩
      simp [HashResponse.strings]

theorem decodeListResponse_yields (p : Slice) (cmd : UInt8) :
    Yields (decodeListResponse p cmd) (ListResponse.ReadFrom p) := by
  have hpart := part_isInfix p.content
  refine .ensure fun hlen => .byte hlen ?_
  have hstatus := Slice.byte_eq hlen
  split_ifs
  · refine (decodeErrMsg_yields p).bind fun errMsg herrMsg => ?_
    refine yields_ok ⟨hstatus, trivial, ?_⟩
    simpa [ListResponse.strings] using herrMsg
  · split
    case h_1 | h_2 | h_3 | h_4 | h_5 =>
      refine .ensure fun h => .uint h <| yields_ok ⟨hstatus, trivial, ?_⟩
      simp [ListResponse.strings]
    case h_6 | h_7 | h_8 | h_9 | h_10 =>
      refine .ensure fun h => .uint h ?_
      split_ifs with hvalue
      · refine .text hvalue.2 <| yields_ok ⟨hstatus, trivial, ?_⟩
        simp [ListResponse.strings, hpart]
      · refine yields_ok ⟨hstatus, trivial, ?_⟩
        simp [ListResponse.strings]
    case h_11 =>
      refine .ensure fun h => .uint h <| (Yields.textsWithin p _ _ _).bind fun texts htexts => ?_
      refine yields_ok ⟨hstatus, htexts, ?_⟩
      simpa [ListResponse.strings] using htexts.isInfix
    case h_12 =>
      refine .ensure fun h => .byte h <| yields_ok ⟨hstatus, trivial, ?_⟩
      simp [ListResponse.strings]
    case h_13 =>
      refine .ensure fun h => .uint h <| (Yields.intsWithin p _ _).bind fun positions _ => ?_
      refine yields_ok ⟨hstatus, trivial, ?_⟩
      simp [ListResponse.strings]
    case h_14 =>
      refine yields_ok ⟨hstatus, trivial, ?_⟩
      simp [ListResponse.strings]

theorem hash_list_decoders_total (b : Bytes) (cmd : UInt8) :
    Yields (decodeHashRequest (.of b [])) (fun req => ∀ t ∈ req.strings, t <:+: b) ∧
    Yields (decodeHashResponse (.of b []) cmd) (fun resp => ∀ t ∈ resp.strings, t <:+: b) ∧
    Yields (decodeListRequest (.of b [])) (fun req => ∀ t ∈ req.strings, t <:+: b) ∧
    Yields (decodeListResponse (.of b []) cmd) (fun resp => ∀ t ∈ resp.strings, t <:+: b) := by
  have hhashRequest := decodeHashRequest_yields (.of b [])
  have hhashResponse := (decodeHashResponse_yields (.of b []) cmd).mono fun _ h => h.strings
  have hlistRequest := decodeListRequest_yields (.of b [])
  have hlistResponse := (decodeListResponse_yields (.of b []) cmd).mono fun _ h => h.strings
  rw [Slice.content_of] at hhashRequest hhashResponse hlistRequest hlistResponse
  exact ⟨hhashRequest, hhashResponse, hlistRequest, hlistResponse⟩

end Net

end MCache
