import MCache.RequestCodec

/-!
# Requests arrive as they were sent

What the decoders of the server make of each layout that the client writes, as
long as every length fits in its field.  The set decoder computes the ends of
its keys in 16 bits, so that it panics on the longest ones.
-/

namespace MCache.Net

open MCache.Store

theorem length_le_flatMap_sized {width : ℕ} {texts : List Bytes} {text : Bytes}
    (h : text ∈ texts) : text.length ≤ (texts.flatMap (sized width)).length := by
  rcases List.append_of_mem h with ⟨before, after, rfl⟩
  simp [sized]
  omega

theorem length_flatMap_sized (width : ℕ) (texts : List Bytes) :
    width * texts.length ≤ (texts.flatMap (sized width)).length := by
  induction texts with
  | nil => simp
  | cons text rest ih =>
    simp only [List.flatMap_cons, List.length_append, List.length_cons, sized,
      bigEndian_length, Nat.mul_succ]
    omega

theorem uint32_lt (x : ℤ) : uint32 x < 256 ^ 4 := by
  unfold uint32
  have hmod := Int.emod_lt_of_pos x (show (0 : ℤ) < 2 ^ 32 by norm_num)
  norm_num at hmod ⊢
  omega

theorem int32_uint32 {x : ℤ} (hmin : -2 ^ 31 ≤ x) (hmax : x < 2 ^ 31) : int32 (uint32 x) = x := by
  have hcast : ((uint32 x : ℕ) : ℤ) = x % 2 ^ 32 :=
    Int.toNat_of_nonneg (Int.emod_nonneg x (by norm_num))
  unfold int32
  rw [hcast, show (2 : ℤ) ^ 32 = ((2 ^ 32 : ℕ) : ℤ) by norm_num, Int.emod_bmod]
  apply Int.bmod_eq_of_le
  · norm_num
    exact hmin
  · norm_num
    exact hmax

theorem text_uint16 {p : Slice} {i n : ℕ} {t : Bytes} (hi : i ≤ 2 ^ 16)
    (hn : n < 2 ^ 16) (h : p.text i (i + n) = .ok t) :
    p.text i (uint16 (i + n)) = if i + n < 2 ^ 16 then .ok t else .error .panic := by
  unfold uint16
  split_ifs with hfits
  · rw [Nat.mod_eq_of_lt hfits, h]
  · unfold Slice.text
    rw [if_neg (by omega)]

theorem evenPart_eq {texts : List Bytes} (heven : Even texts.length) : evenPart texts = texts := by
  induction texts using evenPart.induct with
  | case1 field value rest ih =>
    have hrest : Even rest.length := by
      simpa [Nat.even_add_one] using heven
    rw [evenPart, ih hrest]
  | case2 texts hshort =>
    cases texts with
    | nil => rfl
    | cons field rest =>
      cases rest with
      | nil => simp at heven
      | cons value rest => exact absurd rfl (hshort field value rest)

section Layouts

variable {p : Slice} {c : Cmd} {key field value pivot : Bytes} {elems : List Bytes}

theorem decodeRequestPayload_layout {cmd : UInt8} {ttl : ℤ}
    (hp : p.Rest 0 (cmd :: (bigEndian 2 key.length ++ bigEndian 4 value.length ++
      bigEndian 8 (uint64 ttl) ++ key ++ value)))
    (hkey : key.length < 2 ^ 16) (hvalue : value.length < 2 ^ 32) :
    decodeRequestPayload p =
      .ok ⟨cmd, key, if value = [] then none else some value, int64 ttl⟩ := by
  simp only [List.append_assoc] at hp
  rcases hp.byte with ⟨hcmd, hp⟩
  rcases hp.uint (by simpa using hkey) with ⟨hkeyLen, hp⟩
  rcases hp.uint (by simpa using hvalue) with ⟨hvalLen, hp⟩
  rcases hp.uint (uint64_lt ttl) with ⟨httl, hp⟩
  rcases hp.text with ⟨hkeyText, hp⟩
  have hvalueText := hp.last
  have hlen := hp.len
  have hkeyRead : (if 0 < key.length then p.text 15 (15 + key.length)
      else .ok []) = .ok key := by
    split_ifs with hpos
    · exact hkeyText
    · rw [List.length_eq_zero_iff.mp (Nat.eq_zero_of_not_pos hpos)]
  have hvalueRead : (if 0 < value.length then
        (p.text (15 + key.length) (15 + key.length + value.length)).map some
      else .ok none) = .ok (if value = [] then none else some value) := by
    cases value with
    | nil => rfl
    | cons b rest =>
      rw [if_pos (by simp), if_neg (by simp)]
      exact congrArg (Except.map some) hvalueText
  unfold decodeRequestPayload
  rw [ensure_bind (by omega), hcmd, ok_bind, hkeyLen, ok_bind, hvalLen, ok_bind, httl,
    ok_bind, ensure_bind (by omega), hkeyRead, ok_bind, hvalueRead, ok_bind,
    int64_uint64]
  rfl

theorem decodeSetRequest_key (hp : p.Rest 0 (c.code :: sized 2 key))
    (hc : c = .sMembers ∨ c = .sCard ∨ c = .sPop) (hkey : key.length < 2 ^ 16) :
    decodeSetRequest p =
      if 3 + key.length < 2 ^ 16 then .ok ⟨c.code, key, [], 0, []⟩
      else .error .panic := by
  rcases hp.head hkey with ⟨hhead, hp⟩
  have hlen := hp.len
  have hend := text_uint16 (by norm_num) hkey hp.last
  unfold decodeSetRequest
  rw [hhead]
  rcases hc with rfl | rfl | rfl
  all_goals
    simp only [Cmd.ofCode?_code]
    rw [ensure_bind (by omega), hend]
    split_ifs <;> rfl

theorem decodeSetRequest_elems
    (hp : p.Rest 0 (c.code :: (bigEndian 2 key.length ++ bigEndian 4 elems.length ++
      key ++ elems.flatMap (sized 4))))
    (hc : c = .sAdd ∨ c = .sRem) (hkey : key.length < 2 ^ 16)
    (hcount : elems.length < 2 ^ 32) (hfits : ∀ e ∈ elems, e.length < 2 ^ 32) :
    decodeSetRequest p =
      if 7 + key.length < 2 ^ 16 then .ok ⟨c.code, key, elems, 0, []⟩
      else .error .panic := by
  simp only [List.append_assoc] at hp
  rcases hp.head hkey with ⟨hhead, hp⟩
  rcases hp.uint (by simpa using hcount) with ⟨helemCount, hp⟩
  rcases hp.text with ⟨hkeyText, hp⟩
  have htexts := hp.texts (ascii "set request payload truncated") (by simpa using hfits)
  have hlen := hp.len
  have hend := text_uint16 (by norm_num) hkey hkeyText
  unfold decodeSetRequest
  rw [hhead]
  rcases hc with rfl | rfl
  all_goals
    simp only [Cmd.ofCode?_code]
    rw [ensure_bind (by omega), helemCount, ok_bind, hend]
    split_ifs
    · rw [ok_bind, htexts]
      rfl
    · rfl

theorem decodeSetRequest_sIsMember (hp : p.Rest 0 (Cmd.sIsMember.code :: (bigEndian 2 key.length ++
      bigEndian 4 value.length ++ key ++ value)))
    (hkey : key.length < 2 ^ 16) (hvalue : value.length < 2 ^ 32) :
    decodeSetRequest p =
      if 7 + key.length < 2 ^ 16 then .ok ⟨Cmd.sIsMember.code, key, [value], 0, []⟩
      else .error .panic := by
  simp only [List.append_assoc] at hp
  rcases hp.head hkey with ⟨hhead, hp⟩
  rcases hp.uint (by simpa using hvalue) with ⟨helemLen, hp⟩
  rcases hp.text with ⟨hkeyText, hp⟩
  have helem := hp.last
  have hlen := hp.len
  have hend := text_uint16 (by norm_num) hkey hkeyText
  unfold decodeSetRequest
  rw [hhead]
  simp only [Cmd.ofCode?_code]
  rw [ensure_bind (by omega), helemLen, ok_bind, ensure_bind (by omega), hend]
  split_ifs
  · rw [ok_bind, helem]
    rfl
  · rfl

theorem decodeSetRequest_sRandMember {count : ℤ}
    (hp : p.Rest 0 (Cmd.sRandMember.code :: (bigEndian 2 key.length ++
      bigEndian 4 (uint32 count) ++ key)))
    (hkey : key.length < 2 ^ 16) :
    decodeSetRequest p =
      if 7 + key.length < 2 ^ 16 then
        .ok ⟨Cmd.sRandMember.code, key, [], int32 (uint32 count), []⟩
      else .error .panic := by
  simp only [List.append_assoc] at hp
  rcases hp.head hkey with ⟨hhead, hp⟩
  rcases hp.uint (uint32_lt count) with ⟨hcount, hp⟩
  have hlen := hp.len
  have hend := text_uint16 (by norm_num) hkey hp.last
  unfold decodeSetRequest
  rw [hhead]
  simp only [Cmd.ofCode?_code]
  rw [ensure_bind (by omega), hcount, ok_bind, ensure_bind (by omega), hend]
  split_ifs <;> rfl

theorem decodeSetRequest_keys
    (hp : p.Rest 0 (c.code :: (bigEndian 2 elems.length ++ elems.flatMap (sized 2))))
    (hc : c = .sUnion ∨ c = .sInter ∨ c = .sDiff) (hcount : elems.length < 2 ^ 16)
    (hfits : ∀ e ∈ elems, e.length < 2 ^ 16) :
    decodeSetRequest p = .ok ⟨c.code, [], [], 0, elems⟩ := by
  rcases hp.byte with ⟨hcmd, hp⟩
  rcases hp.uint (by simpa using hcount) with ⟨hnumKeys, hp⟩
  have htexts := hp.texts (ascii "set request payload truncated") (by simpa using hfits)
  have hlen := hp.len
  unfold decodeSetRequest
  rw [ensure_bind (by omega), hcmd, ok_bind, hnumKeys, ok_bind]
  rcases hc with rfl | rfl | rfl
  all_goals
    simp only [Cmd.ofCode?_code]
    rw [ok_bind, htexts]
    rfl

theorem decodeHashRequest_key (hp : p.Rest 0 (c.code :: sized 2 key))
    (hc : c = .hGetAll ∨ c = .hKeys ∨ c = .hVals ∨ c = .hLen)
    (hkey : key.length < 2 ^ 16) :
    decodeHashRequest p = .ok ⟨c.code, key, [], [], [], [], 0, 0⟩ := by
  rcases hp.head hkey with ⟨hhead, hrest⟩
  unfold decodeHashRequest
  rw [hhead]
  rcases hc with rfl | rfl | rfl | rfl
  all_goals
    simp only [Cmd.ofCode?_code]
    rw [hrest.read_last]
    rfl

theorem decodeHashRequest_field
    (hp : p.Rest 0 (c.code :: (bigEndian 2 key.length ++ bigEndian 2 field.length ++ key ++ field)))
    (hc : c = .hGet ∨ c = .hExists ∨ c = .hStrLen) (hkey : key.length < 2 ^ 16)
    (hfield : field.length < 2 ^ 16) :
    decodeHashRequest p = .ok ⟨c.code, key, field, [], [], [], 0, 0⟩ := by
  simp only [List.append_assoc] at hp
  rcases hp.head hkey with ⟨hhead, hrest⟩
  rcases hrest.number (by simpa using hfield) with ⟨hfieldLen, hrest⟩
  unfold decodeHashRequest
  rw [hhead]
  rcases hc with rfl | rfl | rfl
  all_goals
    simp only [Cmd.ofCode?_code]
    rw [hfieldLen, hrest.read_two]
    rfl

theorem decodeHashRequest_value
    (hp : p.Rest 0 (c.code :: (bigEndian 2 key.length ++ bigEndian 2 field.length ++
      bigEndian 4 value.length ++ key ++ field ++ value)))
    (hc : c = .hSet ∨ c = .hSetNX) (hkey : key.length < 2 ^ 16)
    (hfield : field.length < 2 ^ 16) (hvalue : value.length < 2 ^ 32) :
    decodeHashRequest p = .ok ⟨c.code, key, field, value, [], [], 0, 0⟩ := by
  simp only [List.append_assoc] at hp
  rcases hp.head hkey with ⟨hhead, hrest⟩
  rcases hrest.uint (by simpa using hfield) with ⟨hfieldLen, hrest⟩
  rcases hrest.uint (by simpa using hvalue) with ⟨hvalueLen, hrest⟩
  rcases hrest.text with ⟨hkeyText, hrest⟩
  rcases hrest.text with ⟨hfieldText, hrest⟩
  have hvalueText := hrest.last
  have hlen := hrest.len
  unfold decodeHashRequest
  rw [hhead]
  rcases hc with rfl | rfl
  all_goals
    simp only [Cmd.ofCode?_code]
    rw [ensure_bind (by omega), hfieldLen, ok_bind, hvalueLen, ok_bind,
      ensure_bind (by omega), hkeyText, ok_bind, hfieldText, ok_bind, hvalueText]
    rfl

theorem decodeHashRequest_fields
    (hp : p.Rest 0 (c.code :: (bigEndian 2 key.length ++ bigEndian 2 elems.length ++
      key ++ elems.flatMap (sized 2))))
    (hc : c = .hDel ∨ c = .hmGet) (hkey : key.length < 2 ^ 16)
    (hcount : elems.length < 2 ^ 16) (hfits : ∀ e ∈ elems, e.length < 2 ^ 16) :
    decodeHashRequest p = .ok ⟨c.code, key, [], [], elems, [], 0, 0⟩ := by
  simp only [List.append_assoc] at hp
  rcases hp.head hkey with ⟨hhead, hrest⟩
  rcases hrest.number (by simpa using hcount) with ⟨hnumFields, hrest⟩
  unfold decodeHashRequest
  rw [hhead]
  rcases hc with rfl | rfl
  all_goals
    simp only [Cmd.ofCode?_code]
    rw [hnumFields, hrest.read_texts (by simpa using hfits)]
    rfl

theorem decodeHashRequest_hIncrBy {delta : ℤ}
    (hp : p.Rest 0 (Cmd.hIncrBy.code :: (bigEndian 2 key.length ++
      bigEndian 2 field.length ++ bigEndian 8 (uint64 delta) ++ key ++ field)))
    (hkey : key.length < 2 ^ 16) (hfield : field.length < 2 ^ 16) :
    decodeHashRequest p = .ok ⟨Cmd.hIncrBy.code, key, field, [], [], [], int64 delta, 0⟩ := by
  simp only [List.append_assoc] at hp
  rcases hp.head hkey with ⟨hhead, hrest⟩
  rcases hrest.uint (by simpa using hfield) with ⟨hfieldLen, hrest⟩
  rcases hrest.uint (uint64_lt delta) with ⟨hdelta, hrest⟩
  have hlen := hrest.len
  unfold decodeHashRequest
  rw [hhead]
  simp only [Cmd.ofCode?_code]
  rw [ensure_bind (by omega), hfieldLen, ok_bind, hdelta, ok_bind, hrest.read_two, int64_uint64]
  rfl

theorem decodeHashRequest_hIncrByFloat {delta : UInt64}
    (hp : p.Rest 0 (Cmd.hIncrByFloat.code :: (bigEndian 2 key.length ++
      bigEndian 2 field.length ++ bigEndian 8 delta.toNat ++ key ++ field)))
    (hkey : key.length < 2 ^ 16) (hfield : field.length < 2 ^ 16) :
    decodeHashRequest p = .ok ⟨Cmd.hIncrByFloat.code, key, field, [], [], [], 0, delta⟩ := by
  simp only [List.append_assoc] at hp
  rcases hp.head hkey with ⟨hhead, hrest⟩
  rcases hrest.uint (by simpa using hfield) with ⟨hfieldLen, hrest⟩
  rcases hrest.uint (by simpa using delta.toNat_lt) with ⟨hdelta, hrest⟩
  have hlen := hrest.len
  unfold decodeHashRequest
  rw [hhead]
  simp only [Cmd.ofCode?_code]
  rw [ensure_bind (by omega), hfieldLen, ok_bind, hdelta, ok_bind,
    hrest.read_two, UInt64.ofNat_toNat]
  rfl

theorem decodeHashRequest_hmSet (hp : p.Rest 0 (Cmd.hmSet.code :: (bigEndian 2 key.length ++
      bigEndian 2 (elems.length / 2) ++ key ++ elems.flatMap (sized 2))))
    (hkey : key.length < 2 ^ 16) (heven : Even elems.length)
    (hcount : elems.length / 2 < 2 ^ 16) (hfits : ∀ e ∈ elems, e.length < 2 ^ 16) :
    decodeHashRequest p = .ok ⟨Cmd.hmSet.code, key, [], [], [], elems, 0, 0⟩ := by
  simp only [List.append_assoc] at hp
  rcases hp.head hkey with ⟨hhead, hrest⟩
  rcases hrest.number (by simpa using hcount) with ⟨hnumPairs, hrest⟩
  unfold decodeHashRequest
  rw [hhead]
  simp only [Cmd.ofCode?_code]
  rw [hnumPairs, Nat.two_mul_div_two_of_even heven, hrest.read_texts (by simpa using hfits)]
  rfl

theorem decodeListRequest_key (hp : p.Rest 0 (c.code :: sized 2 key))
    (hc : c = .lPop ∨ c = .rPop ∨ c = .lLen) (hkey : key.length < 2 ^ 16) :
    decodeListRequest p = .ok ⟨c.code, key, [], [], 0, 0, 0, 0, [], false, 0, 0, 0⟩ := by
  rcases hp.head hkey with ⟨hhead, hrest⟩
  unfold decodeListRequest
  rw [hhead]
  rcases hc with rfl | rfl | rfl
  all_goals
    simp only [Cmd.ofCode?_code]
    rw [hrest.read_last]
    rfl

theorem decodeListRequest_push
    (hp : p.Rest 0 (c.code :: (bigEndian 2 key.length ++ bigEndian 4 elems.length ++
      key ++ elems.flatMap (sized 2))))
    (hc : c = .lPush ∨ c = .rPush) (hkey : key.length < 2 ^ 16)
    (hcount : elems.length < 2 ^ 32) (hfits : ∀ e ∈ elems, e.length < 2 ^ 16) :
    decodeListRequest p = .ok ⟨c.code, key, elems, [], 0, 0, 0, 0, [], false, 0, 0, 0⟩ := by
  simp only [List.append_assoc] at hp
  rcases hp.head hkey with ⟨hhead, hrest⟩
  rcases hrest.number (by simpa using hcount) with ⟨hnumElems, hrest⟩
  unfold decodeListRequest
  rw [hhead]
  rcases hc with rfl | rfl
  all_goals
    simp only [Cmd.ofCode?_code]
    rw [hnumElems, hrest.read_texts (by simpa using hfits)]
    rfl

theorem decodeListRequest_range {start stop : ℤ}
    (hp : p.Rest 0 (c.code :: (bigEndian 2 key.length ++ bigEndian 8 (uint64 start) ++
      bigEndian 8 (uint64 stop) ++ key)))
    (hc : c = .lRange ∨ c = .lTrim) (hkey : key.length < 2 ^ 16) :
    decodeListRequest p = .ok ⟨c.code, key, [], [], 0, int64 start, int64 stop, 0, [],
      false, 0, 0, 0⟩ := by
  simp only [List.append_assoc] at hp
  rcases hp.head hkey with ⟨hhead, hrest⟩
  rcases hrest.uint (uint64_lt start) with ⟨hstart, hrest⟩
  rcases hrest.uint (uint64_lt stop) with ⟨hstop, hrest⟩
  have hlen := hrest.len
  unfold decodeListRequest
  rw [hhead]
  rcases hc with rfl | rfl
  all_goals
    simp only [Cmd.ofCode?_code]
    rw [ensure_bind (by omega), hstart, ok_bind, hstop, ok_bind, hrest.read_last,
      int64_uint64, int64_uint64]
    rfl

theorem decodeListRequest_lIndex {index : ℤ}
    (hp : p.Rest 0 (Cmd.lIndex.code :: (bigEndian 2 key.length ++
      bigEndian 8 (uint64 index) ++ key)))
    (hkey : key.length < 2 ^ 16) :
    decodeListRequest p = .ok ⟨Cmd.lIndex.code, key, [], [], int64 index, 0, 0, 0, [],
      false, 0, 0, 0⟩ := by
  simp only [List.append_assoc] at hp
  rcases hp.head hkey with ⟨hhead, hrest⟩
  rcases hrest.number (uint64_lt index) with ⟨hindex, hrest⟩
  unfold decodeListRequest
  rw [hhead]
  simp only [Cmd.ofCode?_code]
  rw [hindex, hrest.read_last, int64_uint64]
  rfl

theorem decodeListRequest_element {n : ℤ}
    (hp : p.Rest 0 (c.code :: (bigEndian 2 key.length ++ bigEndian 8 (uint64 n) ++
      bigEndian 4 value.length ++ key ++ value)))
    (hc : c = .lSet ∨ c = .lRem) (hkey : key.length < 2 ^ 16)
    (hvalue : value.length < 2 ^ 32) :
    decodeListRequest p = .ok ⟨c.code, key, [], value,
      if c = .lSet then int64 n else 0, 0, 0, if c = .lSet then 0 else int64 n, [],
      false, 0, 0, 0⟩ := by
  simp only [List.append_assoc] at hp
  rcases hp.head hkey with ⟨hhead, hrest⟩
  rcases hrest.uint (uint64_lt n) with ⟨hnumber, hrest⟩
  rcases hrest.uint (by simpa using hvalue) with ⟨hvalueLen, hrest⟩
  have hlen := hrest.len
  unfold decodeListRequest
  rw [hhead]
  rcases hc with rfl | rfl
  all_goals
    simp only [Cmd.ofCode?_code]
    rw [ensure_bind (by omega), hnumber, ok_bind, hvalueLen, ok_bind, hrest.read_two, int64_uint64]
    rfl

theorem decodeListRequest_lInsert {before : Bool}
    (hp : p.Rest 0 (Cmd.lInsert.code :: (bigEndian 2 key.length ++ [boolByte before] ++
      bigEndian 2 pivot.length ++ bigEndian 4 value.length ++ key ++ pivot ++ value)))
    (hkey : key.length < 2 ^ 16) (hpivot : pivot.length < 2 ^ 16)
    (hvalue : value.length < 2 ^ 32) :
    decodeListRequest p = .ok ⟨Cmd.lInsert.code, key, [], value, 0, 0, 0, 0, pivot,
      before, 0, 0, 0⟩ := by
  simp only [List.append_assoc] at hp
  rcases hp.head hkey with ⟨hhead, hrest⟩
  rcases hrest.byte with ⟨hbefore, hrest⟩
  rcases hrest.uint (by simpa using hpivot) with ⟨hpivotLen, hrest⟩
  rcases hrest.uint (by simpa using hvalue) with ⟨hvalueLen, hrest⟩
  rcases hrest.text with ⟨hkeyText, hrest⟩
  rcases hrest.text with ⟨hpivotText, hrest⟩
  have hvalueText := hrest.last
  have hlen := hrest.len
  unfold decodeListRequest
  rw [hhead]
  simp only [Cmd.ofCode?_code]
  rw [ensure_bind (by omega), hbefore, ok_bind, hpivotLen, ok_bind, hvalueLen, ok_bind,
    ensure_bind (by omega), hkeyText, ok_bind, hpivotText, ok_bind, hvalueText, ok_bind,
    decide_boolByte]
  rfl

theorem decodeListRequest_timeout {timeout : ℤ}
    (hp : p.Rest 0 (c.code :: (bigEndian 2 key.length ++ bigEndian 8 (uint64 timeout) ++ key)))
    (hc : c = .blPop ∨ c = .brPop) (hkey : key.length < 2 ^ 16) :
    decodeListRequest p = .ok ⟨c.code, key, [], [], 0, 0, 0, 0, [], false,
      int64 timeout, 0, 0⟩ := by
  simp only [List.append_assoc] at hp
  rcases hp.head hkey with ⟨hhead, hrest⟩
  rcases hrest.number (uint64_lt timeout) with ⟨htimeout, hrest⟩
  unfold decodeListRequest
  rw [hhead]
  rcases hc with rfl | rfl
  all_goals
    simp only [Cmd.ofCode?_code]
    rw [htimeout, hrest.read_last, int64_uint64]
    rfl

theorem decodeListRequest_lPos {rank count maxLen : ℤ}
    (hp : p.Rest 0 (Cmd.lPos.code :: (bigEndian 2 key.length ++
      bigEndian 8 (uint64 rank) ++ bigEndian 8 (uint64 count) ++
      bigEndian 8 (uint64 maxLen) ++ bigEndian 4 value.length ++ key ++ value)))
    (hkey : key.length < 2 ^ 16) (hvalue : value.length < 2 ^ 32) :
    decodeListRequest p = .ok ⟨Cmd.lPos.code, key, [], value, 0, 0, 0, int64 count, [],
      false, 0, int64 rank, int64 maxLen⟩ := by
  simp only [List.append_assoc] at hp
  rcases hp.head hkey with ⟨hhead, hrest⟩
  rcases hrest.uint (uint64_lt rank) with ⟨hrank, hrest⟩
  rcases hrest.uint (uint64_lt count) with ⟨hcount, hrest⟩
  rcases hrest.uint (uint64_lt maxLen) with ⟨hmaxLen, hrest⟩
  rcases hrest.uint (by simpa using hvalue) with ⟨hvalueLen, hrest⟩
  have hlen := hrest.len
  unfold decodeListRequest
  rw [hhead]
  simp only [Cmd.ofCode?_code]
  rw [ensure_bind (by omega), hrank, ok_bind, hcount, ok_bind, hmaxLen, ok_bind,
    hvalueLen, ok_bind, hrest.read_two,
    int64_uint64, int64_uint64, int64_uint64]
  rfl

end Layouts

end MCache.Net
