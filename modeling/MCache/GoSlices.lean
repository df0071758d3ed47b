import MCache.GoValues

/-!
# Byte slices with a length and a capacity

A slice expression may reach past the length up to the capacity, so what a
program reads from a slice may depend on bytes that its owner never wrote.
`Holds` describes a slice by the text at an offset, as an encoder left it;
`Agrees` relates two slices that differ only past their length.
-/

namespace MCache

variable {α β : Type} {condition : Prop} {P : α → Prop}

/-! ## Results -/

inductive Fault where
  | error (text : Bytes)
  | panic
  deriving DecidableEq

abbrev Go (α : Type) := Except Fault α

def ensure (condition : Prop) [Decidable condition] (text : Bytes) : Go Unit :=
  if condition then .ok () else .error (.error text)

@[simp] theorem ok_bind (a : α) (f : α → Go β) : (Except.ok a >>= f) = f a := rfl

@[simp] theorem error_bind (fault : Fault) (f : α → Go β) :
    ((Except.error fault : Go α) >>= f) = .error fault := rfl

theorem ensure_bind [Decidable condition] {text : Bytes} (h : condition)
    (f : Unit → Go β) : (ensure condition text >>= f) = f () := by
  simp [ensure, h]

theorem ensure_bind_not [Decidable condition] {text : Bytes} (h : ¬condition)
    (f : Unit → Go β) : (ensure condition text >>= f) = .error (.error text) := by
  simp [ensure, h]

theorem ensure_bind_congr [Decidable condition] {text : Bytes} {f g : Unit → Go β}
    (h : condition → f () = g ()) :
    (ensure condition text >>= f) = (ensure condition text >>= g) := by
  by_cases hcondition : condition
  · rw [ensure_bind hcondition, ensure_bind hcondition, h hcondition]
  · rw [ensure_bind_not hcondition, ensure_bind_not hcondition]

def Safe {α : Type} (result : Go α) : Prop := result ≠ .error .panic

theorem safe_ok (a : α) : Safe (.ok a : Go α) := by
  intro h
  cases h

theorem Safe.bind {result : Go α} {f : α → Go β} (h : Safe result)
    (hf : ∀ a, Safe (f a)) : Safe (result >>= f) := by
  cases result with
  | ok a => exact hf a
  | error fault =>
    intro hpanic
    apply h
    cases hpanic
    rfl

theorem Safe.ensure [Decidable condition] {text : Bytes} {f : Unit → Go β}
    (hf : condition → Safe (f ())) : Safe (ensure condition text >>= f) := by
  by_cases hcondition : condition
  · rw [ensure_bind hcondition]
    exact hf hcondition
  · rw [ensure_bind_not hcondition]
    intro h
    cases h

def Returns {α : Type} (result : Go α) (P : α → Prop) : Prop := ∀ a, result = .ok a → P a

theorem returns_ok {a : α} (h : P a) : Returns (.ok a) P := by
  rintro _ ⟨⟩
  exact h

theorem returns_error (fault : Fault) (P : α → Prop) : Returns (.error fault) P := by
  rintro _ ⟨⟩

theorem Returns.bind {result : Go α} {f : α → Go β} {P : β → Prop}
    (hf : ∀ a, result = .ok a → Returns (f a) P) : Returns (result >>= f) P := by
  cases result with
  | ok a => exact hf a rfl
  | error fault => exact returns_error fault P

def Yields {α : Type} (result : Go α) (P : α → Prop) : Prop := Safe result ∧ Returns result P

theorem yields_ok {a : α} (h : P a) : Yields (.ok a) P := ⟨safe_ok a, returns_ok h⟩

theorem yields_error (text : Bytes) (P : α → Prop) : Yields (.error (.error text)) P :=
  ⟨nofun, returns_error _ P⟩

theorem not_yields_panic (P : α → Prop) : ¬ Yields (.error .panic) P := fun h => h.1 rfl

theorem yields_true_iff (result : Go α) : Yields result (fun _ => True) ↔ Safe result :=
  and_iff_left fun _ _ => trivial

theorem Yields.mono {result : Go α} {Q : α → Prop} (h : Yields result P)
    (hPQ : ∀ a, P a → Q a) : Yields result Q :=
  ⟨h.1, fun a ha => hPQ a (h.2 a ha)⟩

theorem Yields.bind {result : Go α} {f : α → Go β} {Q : β → Prop} (h : Yields result P)
    (hf : ∀ a, P a → Yields (f a) Q) : Yields (result >>= f) Q := by
  cases result with
  | ok a => exact hf a (h.2 a rfl)
  | error fault =>
    cases fault with
    | error text => exact yields_error text Q
    | panic => exact absurd h (not_yields_panic P)

theorem Yields.ensure [Decidable condition] {text : Bytes} {f : Unit → Go β}
    {P : β → Prop} (hf : condition → Yields (f ()) P) :
    Yields (ensure condition text >>= f) P := by
  by_cases hcondition : condition
  · rw [ensure_bind hcondition]
    exact hf hcondition
  · rw [ensure_bind_not hcondition]
    exact yields_error text P

/-! ## Numbers in bytes -/

def ofBigEndian (digits : Bytes) : ℕ := digits.foldl (fun n digit => n * 256 + digit.toNat) 0

@[simp] theorem bigEndian_length (width n : ℕ) : (bigEndian width n).length = width := by
  induction width generalizing n with
  | zero => rfl
  | succ width ih => simp [bigEndian, ih]

theorem ofBigEndian_bigEndian (width n : ℕ) :
    ofBigEndian (bigEndian width n) = n % 256 ^ width := by
  induction width generalizing n with
  | zero => simp [bigEndian, ofBigEndian, Nat.mod_one]
  | succ width ih =>
    have hhigh := ih (n / 256)
    have hsplit : n % 256 ^ (width + 1) = n % 256 + 256 * (n / 256 % 256 ^ width) := by
      rw [pow_succ', Nat.mod_mul]
    unfold ofBigEndian at hhigh ⊢
    simp only [bigEndian, List.foldl_append, List.foldl_cons, List.foldl_nil,
      hhigh, hsplit, UInt8.toNat_ofNat']
    omega

theorem ofBigEndian_lt (digits : Bytes) : ofBigEndian digits < 256 ^ digits.length := by
  induction digits using List.reverseRecOn with
  | nil => simp [ofBigEndian]
  | append_singleton digits digit ih =>
    unfold ofBigEndian at ih ⊢
    have hdigit := digit.toNat_lt
    simp only [List.foldl_append, List.foldl_cons, List.foldl_nil,
      List.length_append, List.length_singleton, pow_succ]
    omega

/-! ## Slices -/

structure Slice where
  array : Bytes
  len : ℕ
  len_le : len ≤ array.length

namespace Slice

variable {p : Slice} {i j : ℕ}

def of (content stale : Bytes) : Slice := ⟨content ++ stale, content.length, by simp⟩

def content (p : Slice) : Bytes := p.array.take p.len

def byte (p : Slice) (i : ℕ) : Go UInt8 :=
  if i < p.len then
    match p.array[i]? with
    | some b => .ok b
    | none => .error .panic
  else .error .panic

def text (p : Slice) (i j : ℕ) : Go Bytes :=
  if i ≤ j ∧ j ≤ p.array.length then .ok ((p.array.drop i).take (j - i))
  else .error .panic

def uint (p : Slice) (width i : ℕ) : Go ℕ := (p.text i (i + width)).map ofBigEndian

def texts (p : Slice) (width : ℕ) (message : Bytes) : ℕ → ℕ → Go (List Bytes)
  | 0, _ => .ok []
  | count + 1, off => do
      ensure (off + width ≤ p.len) message
      let length ← p.uint width off
      ensure (off + width + length ≤ p.len) message
      let head ← p.text (off + width) (off + width + length)
      let rest ← p.texts width message count (off + width + length)
      return head :: rest

/-! ## Reads within the length -/

theorem exists_byte (hi : i < p.len) : ∃ b, p.byte i = .ok b := by
  have hbound : i < p.array.length := hi.trans_le p.len_le
  unfold byte
  rw [if_pos hi, List.getElem?_eq_getElem hbound]
  exact ⟨_, rfl⟩

theorem content_of_byte {b : UInt8} (h : p.byte 0 = .ok b) : ∃ rest, p.content = b :: rest := by
  unfold byte at h
  split_ifs at h with hpos
  cases harray : p.array with
  | nil => simp [harray] at h
  | cons first rest =>
    rw [harray] at h
    cases h
    rcases Nat.exists_eq_add_of_lt hpos with ⟨n, hn⟩
    exact ⟨rest.take n, by simp [content, harray, hn]⟩

theorem byte_safe (hi : i < p.len) : Safe (p.byte i) := by
  rcases exists_byte hi with ⟨b, hb⟩
  rw [hb]
  exact safe_ok b

theorem length_of_text {t : Bytes} (h : p.text i j = .ok t) : t.length ≤ j - i := by
  unfold text at h
  split_ifs at h
  cases h
  simp

theorem exists_text (hij : i ≤ j) (hj : j ≤ p.len) : ∃ t, p.text i j = .ok t := by
  unfold text
  rw [if_pos ⟨hij, hj.trans p.len_le⟩]
  exact ⟨_, rfl⟩

theorem text_safe (hij : i ≤ j) (hj : j ≤ p.len) : Safe (p.text i j) := by
  rcases exists_text hij hj with ⟨t, ht⟩
  rw [ht]
  exact safe_ok t

theorem exists_uint {width : ℕ} (hi : i + width ≤ p.len) :
    ∃ n < 256 ^ width, p.uint width i = .ok n := by
  have hlen := p.len_le
  unfold uint text
  rw [if_pos ⟨Nat.le_add_right _ _, hi.trans hlen⟩]
  refine ⟨_, (ofBigEndian_lt _).trans_eq ?_, rfl⟩
  congr 1
  simp
  omega

/-! ## What an encoder wrote -/

def Holds (p : Slice) (i : ℕ) (b : Bytes) : Prop :=
  ∃ before after, p.array = before ++ b ++ after ∧ before.length = i

theorem of_holds (content stale : Bytes) : (Slice.of content stale).Holds 0 content :=
  ⟨[], stale, by simp [of], rfl⟩

section Holds

variable {p : Slice} {i j : ℕ} {a b : Bytes}

theorem Holds.left (h : p.Holds i (a ++ b)) : p.Holds i a := by
  obtain ⟨before, after, harray, hlength⟩ := h
  exact ⟨before, b ++ after, by simp [harray], hlength⟩

theorem Holds.right (h : p.Holds i (a ++ b)) : p.Holds (i + a.length) b := by
  obtain ⟨before, after, harray, hlength⟩ := h
  exact ⟨before ++ a, after, by simp [harray], by simp [hlength]⟩

theorem Holds.text {k : ℕ} (h : p.Holds i b) (hk : k = i)
    (hj : j = k + b.length) : p.text k j = .ok b := by
  obtain ⟨before, after, harray, hlength⟩ := h
  subst hj hk hlength
  have hbound : before.length + b.length ≤ p.array.length := by
    simp [harray]
  unfold Slice.text
  rw [if_pos ⟨Nat.le_add_right _ _, hbound⟩, harray]
  simp

theorem Holds.uint_mod {width n : ℕ} (h : p.Holds i (bigEndian width n))
    (hj : j = i) : p.uint width j = .ok (n % 256 ^ width) := by
  unfold Slice.uint
  rw [h.text hj (by simp)]
  exact congrArg Except.ok (ofBigEndian_bigEndian width n)

theorem Holds.uint {width n : ℕ} (h : p.Holds i (bigEndian width n))
    (hn : n < 256 ^ width) (hj : j = i) : p.uint width j = .ok n := by
  rw [h.uint_mod hj, Nat.mod_eq_of_lt hn]

theorem Holds.byte {x : UInt8} (h : p.Holds i (x :: b)) (hi : i < p.len) : p.byte i = .ok x := by
  obtain ⟨before, after, harray, hlength⟩ := h
  subst hlength
  unfold Slice.byte
  rw [if_pos hi, harray]
  simp

theorem Holds.content_eq (h : p.Holds 0 b) (hlen : b.length = p.len) : p.content = b := by
  obtain ⟨before, after, harray, hlength⟩ := h
  cases List.length_eq_zero_iff.mp hlength
  rw [Slice.content, harray, ← hlen]
  simp

end Holds

structure Rest (p : Slice) (i : ℕ) (b : Bytes) : Prop where
  holds : p.Holds i b
  len : p.len = i + b.length

theorem rest_of (content stale : Bytes) : (Slice.of content stale).Rest 0 content where
  holds := of_holds content stale
  len := (Nat.zero_add _).symm

section Rest

variable {p : Slice} {i : ℕ} {a b : Bytes}

theorem Rest.drop (h : p.Rest i (a ++ b)) : p.Rest (i + a.length) b where
  holds := h.holds.right
  len := by rw [h.len, List.length_append, Nat.add_assoc]

theorem Rest.byte {x : UInt8} (h : p.Rest i (x :: b)) : p.byte i = .ok x ∧ p.Rest (i + 1) b := by
  have hlen := h.len
  rw [List.length_cons] at hlen
  exact ⟨h.holds.byte (by omega), Rest.drop (a := [x]) h⟩

theorem Rest.uint {width n : ℕ} (h : p.Rest i (bigEndian width n ++ b))
    (hn : n < 256 ^ width) : p.uint width i = .ok n ∧ p.Rest (i + width) b := by
  have hrest := h.drop
  rw [bigEndian_length] at hrest
  exact ⟨h.holds.left.uint hn rfl, hrest⟩

theorem Rest.text (h : p.Rest i (a ++ b)) :
    p.text i (i + a.length) = .ok a ∧ p.Rest (i + a.length) b :=
  ⟨h.holds.left.text rfl rfl, h.drop⟩

theorem Rest.content_eq (h : p.Rest 0 b) : p.content = b :=
  h.holds.content_eq (by rw [h.len, Nat.zero_add])

@[simp] theorem content_of (content stale : Bytes) : (Slice.of content stale).content = content :=
  (rest_of content stale).content_eq

theorem Rest.last (h : p.Rest i a) : p.text i (i + a.length) = .ok a := h.holds.text rfl rfl

theorem Rest.texts {width : ℕ} {l : List Bytes} (message : Bytes)
    (h : p.Rest i (l.flatMap fun e => bigEndian width e.length ++ e))
    (hfits : ∀ e ∈ l, e.length < 256 ^ width) :
    p.texts width message l.length i = .ok l := by
  induction l generalizing i with
  | nil => rfl
  | cons e rest ih =>
    simp only [List.flatMap_cons, List.append_assoc] at h
    rcases h.uint (hfits e List.mem_cons_self) with ⟨hlength, h⟩
    rcases h.text with ⟨htext, h⟩
    have hlen := h.len
    simp only [List.length_cons, Slice.texts]
    rw [ensure_bind (by omega), hlength, ok_bind, ensure_bind (by omega), htext, ok_bind,
      ih h fun e he => hfits e (List.mem_cons_of_mem _ he)]
    rfl

/-! ### Reading behind a check of the length -/

theorem Rest.head {x : UInt8} {n : ℕ} (h : p.Rest 0 (x :: (bigEndian 2 n ++ b))) (hn : n < 2 ^ 16) :
    (∀ {β : Type} (message : Bytes) (f : UInt8 → ℕ → Go β),
      (do ensure (3 ≤ p.len) message
          let x ← p.byte 0
          let n ← p.uint 2 1
          f x n) = f x n) ∧ p.Rest 3 b := by
  rcases h.byte with ⟨hbyte, h⟩
  rcases h.uint (by simpa using hn) with ⟨hnumber, h⟩
  have hlen := h.len
  refine ⟨fun message f => ?_, h⟩
  rw [ensure_bind (by omega), hbyte, ok_bind, hnumber, ok_bind]

theorem Rest.first {x : UInt8} (h : p.Rest 0 (x :: b)) :
    (∀ {β : Type} (message : Bytes) (f : UInt8 → Go β),
      (do ensure (1 ≤ p.len) message
          let x ← p.byte 0
          f x) = f x) ∧ p.Rest 1 b := by
  rcases h.byte with ⟨hbyte, h⟩
  have hlen := h.len
  refine ⟨fun message f => ?_, h⟩
  rw [ensure_bind (by omega), hbyte, ok_bind]

theorem Rest.number {width n : ℕ} (h : p.Rest i (bigEndian width n ++ b)) (hn : n < 256 ^ width) :
    (∀ {β : Type} (message : Bytes) (f : ℕ → Go β),
      (do ensure (i + width ≤ p.len) message
          let n ← p.uint width i
          f n) = f n) ∧ p.Rest (i + width) b := by
  rcases h.uint hn with ⟨hnumber, h⟩
  have hlen := h.len
  refine ⟨fun message f => ?_, h⟩
  rw [ensure_bind (by omega), hnumber, ok_bind]

theorem Rest.read_last (h : p.Rest i a) (message : Bytes) (f : Bytes → Go β) :
    (do ensure (i + a.length ≤ p.len) message
        let x ← p.text i (i + a.length)
        f x) = f a := by
  have hlen := h.len
  rw [ensure_bind (by omega), h.last, ok_bind]

theorem Rest.read_two (h : p.Rest i (a ++ b)) (message : Bytes) (f : Bytes → Bytes → Go β) :
    (do ensure (i + a.length + b.length ≤ p.len) message
        let x ← p.text i (i + a.length)
        let y ← p.text (i + a.length) (i + a.length + b.length)
        f x y) = f a b := by
  rcases h.text with ⟨hfirst, h⟩
  have hlen := h.len
  rw [ensure_bind (by omega), hfirst, ok_bind, h.last, ok_bind]

theorem Rest.read_texts {width : ℕ} {l : List Bytes}
    (h : p.Rest i (a ++ l.flatMap fun e => bigEndian width e.length ++ e))
    (hfits : ∀ e ∈ l, e.length < 256 ^ width) (message other : Bytes)
    (f : Bytes → List Bytes → Go β) :
    (do ensure (i + a.length ≤ p.len) message
        let x ← p.text i (i + a.length)
        let xs ← p.texts width other l.length (i + a.length)
        f x xs) = f a l := by
  rcases h.text with ⟨hfirst, h⟩
  have hlen := h.len
  rw [ensure_bind (by omega), hfirst, ok_bind, h.texts other hfits, ok_bind]

end Rest

/-! ## What a reader may depend on -/

structure Agrees (p q : Slice) : Prop where
  len : p.len = q.len
  cap : p.array.length = q.array.length
  content : p.content = q.content

namespace Agrees

variable {p q : Slice}
variable {i : ℕ}

theorem of (content : Bytes) {stale other : Bytes} (hcap : stale.length = other.length) :
    (Slice.of content stale).Agrees (Slice.of content other) where
  len := rfl
  cap := by simp [Slice.of, hcap]
  content := by simp [Slice.of, Slice.content]

theorem getElem (h : p.Agrees q) (hi : i < p.len) : p.array[i]? = q.array[i]? := by
  have hcontent := congrArg (fun l : Bytes => l[i]?) h.content
  have hq : i < q.len := h.len ▸ hi
  simpa [Slice.content, List.getElem?_take, hi, hq] using hcontent

theorem byte (h : p.Agrees q) (i : ℕ) : p.byte i = q.byte i := by
  unfold Slice.byte
  by_cases hi : i < p.len
  · rw [if_pos hi, if_pos (h.len ▸ hi), h.getElem hi]
  · rw [if_neg hi, if_neg (h.len ▸ hi)]

theorem text (h : p.Agrees q) {j : ℕ} (hj : j ≤ p.len) : p.text i j = q.text i j := by
  unfold Slice.text
  rw [h.cap]
  by_cases hbounds : i ≤ j ∧ j ≤ q.array.length
  · rw [if_pos hbounds, if_pos hbounds]
    congr 1
    apply List.ext_getElem?
    intro k
    simp only [List.getElem?_take, List.getElem?_drop]
    by_cases hk : k < j - i
    · rw [if_pos hk, if_pos hk, h.getElem (by omega)]
    · rw [if_neg hk, if_neg hk]
  · rw [if_neg hbounds, if_neg hbounds]

theorem text_or (h : p.Agrees q) (i j : ℕ) : (∃ t u, p.text i j = .ok t ∧ q.text i j = .ok u) ∨
      p.text i j = .error .panic ∧ q.text i j = .error .panic := by
  unfold Slice.text
  rw [h.cap]
  split_ifs
  · exact .inl ⟨_, _, rfl, rfl⟩
  · exact .inr ⟨rfl, rfl⟩

theorem uint (h : p.Agrees q) {width : ℕ} (hi : i + width ≤ p.len) :
    p.uint width i = q.uint width i := by
  unfold Slice.uint
  rw [h.text hi]

theorem texts (h : p.Agrees q) (width : ℕ) (message : Bytes) (count off : ℕ) :
    p.texts width message count off = q.texts width message count off := by
  induction count generalizing off with
  | zero => rfl
  | succ count ih =>
    simp only [Slice.texts]
    rw [← h.len]
    refine ensure_bind_congr fun hlength => ?_
    rw [h.uint hlength]
    refine bind_congr fun length => ensure_bind_congr fun htext => ?_
    rw [h.text htext]
    exact bind_congr fun head => by rw [ih]

section Binds

variable {α : Type} (h : p.Agrees q)
variable {i : ℕ}

include h

theorem byte_bind {f g : UInt8 → Go α} (hfg : ∀ x, f x = g x) :
    (p.byte i >>= f) = (q.byte i >>= g) := by
  rw [h.byte, funext hfg]

theorem uint_bind {width : ℕ} (hi : i + width ≤ p.len) {f g : ℕ → Go α}
    (hfg : ∀ n, f n = g n) : (p.uint width i >>= f) = (q.uint width i >>= g) := by
  rw [h.uint hi, funext hfg]

theorem text_bind {j : ℕ} (hj : j ≤ p.len) {f g : Bytes → Go α} (hfg : ∀ t, f t = g t) :
    (p.text i j >>= f) = (q.text i j >>= g) := by
  rw [h.text hj, funext hfg]

theorem texts_bind {width count off : ℕ} {message : Bytes} {f g : List Bytes → Go α}
    (hfg : ∀ l, f l = g l) :
    (p.texts width message count off >>= f) = (q.texts width message count off >>= g) := by
  rw [h.texts, funext hfg]

end Binds

end Agrees

end Slice

end MCache
