import MCache.DecoderTotality
import MCache.RequestRoundTrip

/-!
# The string and set decoders on arbitrary bytes

These decoders check the length of the payload on some of their paths only, and
compute the ends of set keys and of a popped element in 16 bits.  For each of
them the payloads are described on which it stays within the payload and returns
texts of the announced lengths.
-/

namespace MCache

theorem isPart_part {b : Bytes} {i n : ℕ} (h : i + n ≤ b.length) : IsPart b i n (part b i n) :=
  ⟨h, rfl⟩

namespace Slice

variable {b : Bytes} {i n : ℕ}

theorem text_of (b : Bytes) (i n : ℕ) : (Slice.of b []).text i (i + n) =
      if i + n ≤ b.length then .ok (part b i n) else .error .panic := by
  split_ifs with h
  · rw [text_eq h, content_of]
  · unfold text of
    rw [if_neg fun hbounds => h (by simpa using hbounds.2)]

theorem optional_text_of (b : Bytes) (i n : ℕ) :
    (if 0 < n then (Slice.of b []).text i (i + n) else .ok []) =
      if n = 0 ∨ i + n ≤ b.length then .ok (part b i n) else .error .panic := by
  rcases Nat.eq_zero_or_pos n with rfl | hn
  · rfl
  · rw [if_pos hn, text_of]
    simp [hn.ne']

theorem optional_value_of (b : Bytes) (i n : ℕ) :
    (if 0 < n then ((Slice.of b []).text i (i + n)).map some else .ok none) =
      if n = 0 ∨ i + n ≤ b.length then .ok (if n = 0 then none else some (part b i n))
      else .error .panic := by
  rcases Nat.eq_zero_or_pos n with rfl | hn
  · rfl
  · rw [if_pos hn, text_of]
    by_cases h : i + n ≤ b.length
    · rw [if_pos h, if_pos (.inr h), if_neg hn.ne']
      rfl
    · rw [if_neg h, if_neg (by omega)]
      rfl

theorem optional_text_safe {p : Slice} (h : 0 < n → i + n ≤ p.len) :
    Safe (if 0 < n then p.text i (i + n) else .ok []) := by
  split_ifs with hn
  · exact text_safe (Nat.le_add_right _ _) (h hn)
  · exact safe_ok _

theorem optional_value_safe {p : Slice} (h : 0 < n → i + n ≤ p.len) :
    Safe (if 0 < n then (p.text i (i + n)).map some else .ok none) := by
  split_ifs with hn
  · exact (text_safe (Nat.le_add_right _ _) (h hn)).bind fun _ => safe_ok _
  · exact safe_ok _

theorem getD_optional_value (b : Bytes) (i n : ℕ) :
    (if n = 0 then none else some (part b i n)).getD [] = part b i n := by
  split_ifs with hn
  · rw [hn]
    rfl
  · rfl

end Slice

namespace Net

open MCache.Store

variable {α : Type} {P : α → Prop} {b : Bytes}

def Request.PartsOf (b : Bytes) (req : Request) : Prop := IsPart b 15 (number b 2 1) req.key ∧
    IsPart b (15 + number b 2 1) (number b 4 3) (req.value.getD [])

def RequestBounded (b : Bytes) : Prop :=
  15 ≤ b.length → number b 2 1 = 0 → 15 + number b 4 3 ≤ b.length

theorem decodeRequestPayload_yields_iff (b : Bytes) :
    Yields (decodeRequestPayload (.of b [])) (Request.PartsOf b) ↔ RequestBounded b := by
  have hcontent := Slice.content_of b []
  have hlength : (Slice.of b []).len = b.length := rfl
  unfold decodeRequestPayload
  by_cases hlen : 15 ≤ b.length
  · rw [ensure_bind (hlength ▸ hlen), Slice.byte_eq (by omega), ok_bind,
      Slice.uint_eq (by omega), ok_bind, Slice.uint_eq (by omega), ok_bind,
      Slice.uint_eq (by omega), ok_bind, hcontent, hlength, Slice.optional_text_of,
      Slice.optional_value_of]
    constructor
    · intro h _ hkey
      by_contra hvalue
      rw [ensure_bind (by omega), if_pos (.inl hkey), ok_bind, if_neg (by omega)] at h
      exact not_yields_panic _ h
    · intro hbounded
      refine .ensure fun hchecked => ?_
      have hfits : 15 + number b 2 1 + number b 4 3 ≤ b.length := by
        rcases Nat.eq_zero_or_pos (number b 2 1) with hkey | hkey
        · have hvalue := hbounded hlen hkey
          omega
        · exact hchecked hkey
      rw [if_pos (.inr (by omega)), ok_bind, if_pos (.inr hfits)]
      refine yields_ok ⟨isPart_part (by omega), ?_⟩
      rw [Slice.getD_optional_value]
      exact isPart_part hfits
  · rw [ensure_bind_not (hlength ▸ hlen)]
    exact iff_of_true (yields_error _ _) fun h => absurd h hlen

def Response.PartsOf (b : Bytes) (resp : Response) : Prop :=
  IsPart b 7 (number b 4 1) (resp.value.getD []) ∧
    IsPart b (7 + number b 4 1) (number b 2 5) resp.errMsg

def ResponseBounded (b : Bytes) : Prop :=
  7 ≤ b.length → number b 4 1 = 0 → 7 + number b 2 5 ≤ b.length

theorem decodeResponsePayload_yields_iff {P : Response → Prop}
    (hP : ∀ resp, resp.PartsOf b → P resp) :
    Yields (decodeResponsePayload (.of b [])) P ↔ ResponseBounded b := by
  have hcontent := Slice.content_of b []
  have hlength : (Slice.of b []).len = b.length := rfl
  unfold decodeResponsePayload
  by_cases hlen : 7 ≤ b.length
  · rw [ensure_bind (hlength ▸ hlen), Slice.byte_eq (by omega), ok_bind,
      Slice.uint_eq (by omega), ok_bind, Slice.uint_eq (by omega), ok_bind, hcontent,
      hlength, Slice.optional_text_of, Slice.optional_value_of]
    constructor
    · intro h _ hvalue
      by_contra herrMsg
      rw [ensure_bind (by omega), if_pos (.inl hvalue), ok_bind, if_neg (by omega)] at h
      exact not_yields_panic _ h
    · intro hbounded
      refine .ensure fun hchecked => ?_
      have hfits : 7 + number b 4 1 + number b 2 5 ≤ b.length := by
        rcases Nat.eq_zero_or_pos (number b 4 1) with hvalue | hvalue
        · have herrMsg := hbounded hlen hvalue
          omega
        · exact hchecked hvalue
      rw [if_pos (.inr (by omega)), ok_bind, if_pos (.inr hfits)]
      refine yields_ok (hP _ ⟨?_, isPart_part hfits⟩)
      rw [Slice.getD_optional_value]
      exact isPart_part (by omega)
  · rw [ensure_bind_not (hlength ▸ hlen)]
    exact iff_of_true (yields_error _ _) fun h => absurd h hlen

theorem ResponseBounded.safe (h : ResponseBounded b) (stale : Bytes) :
    Safe (decodeResponsePayload (.of b stale)) := by
  have hcontent := Slice.content_of b stale
  have hlength : (Slice.of b stale).len = b.length := rfl
  unfold decodeResponsePayload
  refine Safe.ensure fun hlen => (Slice.byte_safe (by omega)).bind fun _ => ?_
  rw [Slice.uint_eq (by omega), ok_bind, Slice.uint_eq (by omega), ok_bind, hcontent]
  have hfits := h (hlength ▸ hlen)
  refine Safe.ensure fun _ => Safe.bind ?_ fun _ => Safe.bind ?_ fun _ => safe_ok _
  · exact Slice.optional_value_safe fun _ => by omega
  · exact Slice.optional_text_safe fun _ => by omega

theorem RequestBounded.safe (h : RequestBounded b) (stale : Bytes) :
    Safe (decodeRequestPayload (.of b stale)) := by
  have hcontent := Slice.content_of b stale
  have hlength : (Slice.of b stale).len = b.length := rfl
  unfold decodeRequestPayload
  refine Safe.ensure fun hlen => (Slice.byte_safe (by omega)).bind fun _ => ?_
  rw [Slice.uint_eq (by omega), ok_bind, Slice.uint_eq (by omega), ok_bind,
    Slice.uint_eq (by omega), ok_bind, hcontent]
  have hfits := h (hlength ▸ hlen)
  refine Safe.ensure fun _ => Safe.bind ?_ fun _ => Safe.bind ?_ fun _ => safe_ok _
  · exact Slice.optional_text_safe fun _ => by omega
  · exact Slice.optional_value_safe fun _ => by omega

def SetRequest.PartsOf (b : Bytes) (req : SetRequest) : Prop :=
  match Cmd.ofCode? req.cmd with
  | some .sMembers | some .sCard | some .sPop =>
    IsPart b 3 (number b 2 1) req.key ∧ req.elems = [] ∧ req.keys = []
  | some .sAdd | some .sRem =>
    IsPart b 7 (number b 2 1) req.key ∧ (req.elems.length = number b 4 3 ∧
        AreParts b 4 (7 + number b 2 1) req.elems) ∧ req.keys = []
  | some .sIsMember =>
    IsPart b 7 (number b 2 1) req.key ∧ (∃ elem, req.elems = [elem] ∧
        IsPart b (7 + number b 2 1) (number b 4 3) elem) ∧ req.keys = []
  | some .sRandMember =>
    IsPart b 7 (number b 2 1) req.key ∧ req.elems = [] ∧ req.keys = []
  | some .sUnion | some .sInter | some .sDiff =>
    req.key = [] ∧ req.elems = [] ∧ req.keys.length = number b 2 1 ∧ AreParts b 2 3 req.keys
  | _ => False

def SetRequestBounded (b : Bytes) : Prop :=
  match Cmd.ofCode? (b.getD 0 0) with
  | some .sMembers | some .sCard | some .sPop =>
    3 + number b 2 1 ≤ b.length → 3 + number b 2 1 < 2 ^ 16
  | some .sAdd | some .sRem =>
    7 ≤ b.length → 7 + number b 2 1 ≤ b.length ∧ 7 + number b 2 1 < 2 ^ 16
  | some .sIsMember =>
    7 + number b 2 1 + number b 4 3 ≤ b.length → 7 + number b 2 1 < 2 ^ 16
  | some .sRandMember => 7 + number b 2 1 ≤ b.length → 7 + number b 2 1 < 2 ^ 16
  | _ => True

theorem ensure_yields_iff {condition fits : Prop} [Decidable condition] {text : Bytes}
    {f : Unit → Go α} (h : condition → (Yields (f ()) P ↔ fits)) :
    Yields (ensure condition text >>= f) P ↔ (condition → fits) := by
  by_cases hcondition : condition
  · rw [ensure_bind hcondition, h hcondition]
    exact (true_imp_iff.symm.trans (imp_congr_left (iff_of_true trivial hcondition)))
  · rw [ensure_bind_not hcondition]
    exact iff_of_true (yields_error _ _) fun h => absurd h hcondition

theorem ensure_implied_yields_iff {condition later fits : Prop} [Decidable condition]
    {text : Bytes} {f : Unit → Go α} (himplied : later → condition)
    (h : condition → (Yields (f ()) P ↔ (later → fits))) :
    Yields (ensure condition text >>= f) P ↔ (later → fits) := by
  refine (ensure_yields_iff h).trans ⟨fun hfits hlater => ?_, fun hfits _ => hfits⟩
  exact hfits (himplied hlater) hlater

theorem text_uint16_yields_iff {stale : Bytes} {i n : ℕ} {f : Bytes → Go α}
    (hi : i ≤ 2 ^ 16) (hn : n < 2 ^ 16) (h : i + n ≤ b.length)
    (hf : Yields (f (part b i n)) P) :
    Yields ((Slice.of b stale).text i (uint16 (i + n)) >>= f) P ↔ i + n < 2 ^ 16 := by
  have htext : (Slice.of b stale).text i (i + n) = .ok (part b i n) := by
    rw [Slice.text_eq h, Slice.content_of]
  rw [text_uint16 hi hn htext]
  by_cases hfits : i + n < 2 ^ 16
  · rw [if_pos hfits]
    exact iff_of_true hf hfits
  · rw [if_neg hfits]
    exact iff_of_false (not_yields_panic P) hfits

theorem text_uint16_outside {i n : ℕ} (hi : i ≤ 2 ^ 16) (hn : n < 2 ^ 16) (h : b.length < i + n) :
    (Slice.of b []).text i (uint16 (i + n)) = .error .panic := by
  unfold Slice.text Slice.of uint16
  rw [if_neg]
  intro hbounds
  simp only [List.append_nil] at hbounds
  omega

theorem decodeSetRequest_yields_iff {P : SetRequest → Prop} {stale : Bytes}
    (hP : ∀ req, req.PartsOf b → P req)
    (hroom : stale = [] ∨ (Cmd.ofCode? (b.getD 0 0) ∈ [some .sAdd, some .sRem] →
      7 + number b 2 1 ≤ b.length)) :
    Yields (decodeSetRequest (.of b stale)) P ↔ SetRequestBounded b := by
  have hcontent := Slice.content_of b stale
  have hlength : (Slice.of b stale).len = b.length := rfl
  have hkeyLen : number b 2 1 < 2 ^ 16 := number_lt b 2 1
  unfold decodeSetRequest
  by_cases hlen : 3 ≤ b.length
  · rw [ensure_bind (hlength ▸ hlen), Slice.byte_eq (by omega), ok_bind,
      Slice.uint_eq (by omega), ok_bind, hcontent, hlength]
    dsimp only
    split
    case h_1 heq | h_2 heq | h_3 heq =>
      simp only [SetRequestBounded, heq]
      refine ensure_yields_iff fun hfits => ?_
      refine text_uint16_yields_iff (by norm_num) hkeyLen hfits (yields_ok (hP _ ?_))
      simp only [SetRequest.PartsOf, heq]
      exact ⟨isPart_part hfits, trivial, trivial⟩
    case h_4 heq | h_5 heq =>
      simp only [SetRequestBounded, heq]
      refine ensure_yields_iff fun hhead => ?_
      rw [Slice.uint_eq (by omega), ok_bind, hcontent]
      by_cases hfits : 7 + number b 2 1 ≤ b.length
      · rw [and_iff_right hfits]
        refine text_uint16_yields_iff (by norm_num) hkeyLen hfits ?_
        refine (Yields.texts _ 4 _ _ _).bind fun elems helems => yields_ok (hP _ ?_)
        rw [hcontent] at helems
        simp only [SetRequest.PartsOf, heq]
        exact ⟨isPart_part hfits, helems, trivial⟩
      · cases hroom.resolve_right fun h => hfits (h (by rw [heq]; decide))
        rw [text_uint16_outside (by norm_num) hkeyLen (by omega)]
        exact iff_of_false (not_yields_panic _) fun h => hfits h.1
    case h_6 heq =>
      simp only [SetRequestBounded, heq]
      refine ensure_implied_yields_iff (by omega) fun hhead => ?_
      rw [Slice.uint_eq (by omega), ok_bind, hcontent]
      refine ensure_yields_iff fun hall => ?_
      refine text_uint16_yields_iff (by norm_num) hkeyLen (by omega) ?_
      rw [Slice.text_eq hall, hcontent]
      refine yields_ok (hP _ ?_)
      simp only [SetRequest.PartsOf, heq]
      exact ⟨isPart_part (by omega), ⟨_, rfl, isPart_part hall⟩, trivial⟩
    case h_7 heq =>
      simp only [SetRequestBounded, heq]
      refine ensure_implied_yields_iff (by omega) fun hhead => ?_
      rw [Slice.uint_eq (by omega), ok_bind]
      refine ensure_yields_iff fun hfits => ?_
      refine text_uint16_yields_iff (by norm_num) hkeyLen hfits (yields_ok (hP _ ?_))
      simp only [SetRequest.PartsOf, heq]
      exact ⟨isPart_part hfits, trivial, trivial⟩
    case h_8 heq | h_9 heq | h_10 heq =>
      refine iff_of_true ?_ (by simp only [SetRequestBounded, heq])
      rw [ok_bind]
      refine (Yields.texts _ 2 _ _ _).bind fun keys hkeys => yields_ok (hP _ ?_)
      rw [hcontent] at hkeys
      simp only [SetRequest.PartsOf, heq]
      exact ⟨trivial, trivial, hkeys⟩
    case h_11 =>
      refine iff_of_true (yields_error _ _) ?_
      unfold SetRequestBounded
      split <;> trivial
  · rw [ensure_bind_not (hlength ▸ hlen)]
    refine iff_of_true (yields_error _ _) ?_
    unfold SetRequestBounded
    split <;> first | trivial | omega

def SetResponse.PartsOf (b : Bytes) (resp : SetResponse) : Prop :=
  (resp.errMsg = [] ∨ IsPart b 1 (b.length - 1) resp.errMsg) ∧
    match Cmd.ofCode? resp.cmd with
    | some .sPop => ∀ elem ∈ resp.elems, IsPart b 3 (number b 2 1) elem
    | some .sRandMember | some .sMembers | some .sUnion | some .sInter
    | some .sDiff => AreParts b 2 5 resp.elems
    | _ => resp.elems = []

def SetResponseBounded (b : Bytes) (cmd : UInt8) : Prop :=
  Cmd.ofCode? cmd = some .sPop → b.getD 0 0 ≠ statusErr → 0 < number b 2 1 →
    3 + number b 2 1 ≤ b.length → 3 + number b 2 1 < 2 ^ 16

theorem SetResponse.PartsOf.noElems {resp : SetResponse}
    (herrMsg : resp.errMsg = [] ∨ IsPart b 1 (b.length - 1) resp.errMsg)
    (helems : resp.elems = []) : resp.PartsOf b := by
  refine ⟨herrMsg, ?_⟩
  split
  case h_1 => simp [helems]
  case h_7 => exact helems
  all_goals
    rw [helems]
    trivial

theorem decodeSetResponse_yields (p : Slice) {cmd : UInt8} (hpop : Cmd.ofCode? cmd ≠ some .sPop) :
    Yields (decodeSetResponse p cmd) (SetResponse.PartsOf p.content) := by
  refine .ensure fun hlen => .byte hlen ?_
  split_ifs
  · refine yields_ok (.noElems (.inr ⟨?_, ?_⟩) rfl)
    · rw [Slice.content_length]
      omega
    · simp [part, List.take_of_length_le]
  · split
    case h_1 | h_2 | h_4 =>
      exact .ensure fun h => .uint h <| yields_ok (.noElems (.inl rfl) rfl)
    case h_3 => exact .ensure fun h => .byte h <| yields_ok (.noElems (.inl rfl) rfl)
    case h_5 heq => exact absurd heq hpop
    case h_6 heq | h_7 heq | h_8 heq | h_9 heq | h_10 heq =>
      refine .ensure fun h => .uint h <|
        (Yields.textsWithin p 2 _ _).bind fun elems helems => yields_ok ⟨.inl rfl, ?_⟩
      simp only [heq]
      exact helems
    case h_11 => exact yields_ok (.noElems (.inl rfl) rfl)

section SetResponses

variable {cmd : UInt8} {P : SetResponse → Prop}

theorem decodeSetResponse_sPop_yields_iff (hP : ∀ resp, resp.PartsOf b → P resp)
    (hpop : Cmd.ofCode? cmd = some .sPop) (stale : Bytes) :
    Yields (decodeSetResponse (.of b stale) cmd) P ↔ SetResponseBounded b cmd := by
  have hcontent := Slice.content_of b stale
  have hlength : (Slice.of b stale).len = b.length := rfl
  unfold decodeSetResponse
  by_cases hlen : 1 ≤ b.length
  · rw [ensure_bind (hlength ▸ hlen), Slice.byte_eq (by omega), ok_bind, hcontent, hlength]
    split_ifs with herr
    · refine iff_of_true (yields_ok (hP _ (.noElems (.inr ⟨by omega, ?_⟩) rfl)))
        fun _ h => absurd herr.1 h
      simp [part, List.take_of_length_le]
    · simp only [hpop]
      by_cases helem : 0 < number b 2 1 ∧ 3 + number b 2 1 ≤ b.length
      · have hstatus : b.getD 0 0 ≠ statusErr := fun h => herr ⟨h, by omega⟩
        have hbounded : SetResponseBounded b cmd ↔ 3 + number b 2 1 < 2 ^ 16 :=
          ⟨fun h => h hpop hstatus helem.1 helem.2, fun h _ _ _ _ => h⟩
        rw [hbounded, ensure_bind (by omega), Slice.uint_eq (by omega), ok_bind,
          hcontent, if_pos helem]
        refine text_uint16_yields_iff (by norm_num) (number_lt b 2 1) helem.2
          (yields_ok (hP _ ⟨.inl rfl, ?_⟩))
        simp only [hpop]
        exact fun elem hmem => List.mem_singleton.mp hmem ▸ isPart_part helem.2
      · refine iff_of_true (.ensure fun h => .uint h ?_)
          fun _ _ hpos hfits => absurd ⟨hpos, hfits⟩ helem
        rw [hcontent, if_neg helem]
        exact yields_ok (hP _ (.noElems (.inl rfl) rfl))
  · rw [ensure_bind_not (hlength ▸ hlen)]
    exact iff_of_true (yields_error _ _) fun _ _ _ h => absurd h (by omega)

theorem decodeSetResponse_yields_iff (hP : ∀ resp, resp.PartsOf b → P resp) (stale : Bytes) :
    Yields (decodeSetResponse (.of b stale) cmd) P ↔ SetResponseBounded b cmd := by
  by_cases hpop : Cmd.ofCode? cmd = some .sPop
  · exact decodeSetResponse_sPop_yields_iff hP hpop stale
  · have hyields := decodeSetResponse_yields (.of b stale) hpop
    rw [Slice.content_of] at hyields
    exact iff_of_true (hyields.mono hP) fun h => absurd h hpop

theorem decodeSetResponse_safe_iff (b stale : Bytes) (cmd : UInt8) :
    Safe (decodeSetResponse (.of b stale) cmd) ↔ SetResponseBounded b cmd :=
  (yields_true_iff _).symm.trans (decodeSetResponse_yields_iff (fun _ _ => trivial) stale)

end SetResponses

theorem decodeResponsePayload_safe_iff (b : Bytes) :
    Safe (decodeResponsePayload (.of b [])) ↔ ResponseBounded b :=
  (yields_true_iff _).symm.trans (decodeResponsePayload_yields_iff fun _ _ => trivial)

theorem string_set_decoders_total_iff (b : Bytes) (cmd : UInt8) :
    (Yields (decodeRequestPayload (.of b [])) (Request.PartsOf b) ↔ RequestBounded b) ∧
      (Yields (decodeResponsePayload (.of b [])) (Response.PartsOf b) ↔ ResponseBounded b) ∧
      (Yields (decodeSetRequest (.of b [])) (SetRequest.PartsOf b) ↔ SetRequestBounded b) ∧
      (Yields (decodeSetResponse (.of b []) cmd) (SetResponse.PartsOf b) ↔
        SetResponseBounded b cmd) :=
  ⟨decodeRequestPayload_yields_iff b, decodeResponsePayload_yields_iff fun _ h => h,
    decodeSetRequest_yields_iff (fun _ h => h) (.inl rfl), decodeSetResponse_yields_iff (fun _ h => h) []⟩

theorem decoders_read_outside : decodeRequestPayload
        (.of [Cmd.set.code, 0, 0, 0, 0, 0, 1, 0, 0, 0, 0, 0, 0, 0, 0] []) =
        .error .panic ∧
      decodeSetRequest (.of [Cmd.sAdd.code, 0, 1, 0, 0, 0, 0] []) = .error .panic := by
  constructor <;> rfl

end Net

end MCache
