import MCache.Base64
import MCache.Utf8

/-!
# Records as JSON objects

How `encoding/json` writes a record as an object and reads it back, one member
for each field.  A `Kind` is the treatment of one type: how a value is written,
which values cannot be written, which ones `omitempty` leaves out, and what
comes back.  Strings are written as valid UTF-8 text, byte slices as base64.

Objects are kept as lists of members, numbers without a fraction as numbers.
-/

namespace MCache.Json

inductive Value where
  | null
  | int (n : ℤ)
  | float (text : List UInt8)
  | bool (b : Bool)
  | string (text : List UInt8)
  | strings (texts : List (List UInt8))
  deriving DecidableEq

abbrev Object := List (String × Value)

def member (obj : Object) (name : String) : Option Value := obj.lookup name

structure Kind (α : Type) where
  zero : α
  isEmpty : α → Bool
  supported : α → Bool
  write : α → Value
  read : Value → Option α
  normal : α → α
  read_write : ∀ a, supported a = true → read (write a) = some (normal a)

structure Field where
  name : String
  supported : Bool
  value : Option Value

namespace Kind

variable {α : Type} (kind : Kind α)

def leftOut (omitEmpty : Bool) (a : α) : Bool := omitEmpty && kind.isEmpty a

def field (name : String) (omitEmpty : Bool) (a : α) : Field where
  name := name
  supported := kind.supported a
  value := if kind.leftOut omitEmpty a then none else some (kind.write a)

def get (obj : Object) (name : String) : Option α :=
  match member obj name with
  | none => some kind.zero
  | some value => kind.read value

def back (omitEmpty : Bool) (a : α) : α :=
  if kind.leftOut omitEmpty a then kind.zero else kind.normal a

end Kind

def marshal (fields : List Field) : Option Object :=
  if fields.all (·.supported) then
    some (fields.filterMap fun f => f.value.map fun value => (f.name, value))
  else none

theorem member_filterMap {fields : List Field}
    (hnodup : (fields.map Field.name).Nodup) {f : Field} (hf : f ∈ fields) :
    member (fields.filterMap fun f => f.value.map fun value => (f.name, value))
      f.name = f.value := by
  induction fields with
  | nil => cases hf
  | cons g rest ih =>
    rw [List.map_cons, List.nodup_cons] at hnodup
    rcases List.mem_cons.mp hf with rfl | hrest
    · cases hvalue : f.value with
      | some value => simp [member, hvalue]
      | none =>
        -- No later field has the same name.
        simp only [member, List.filterMap_cons, hvalue, Option.map_none, List.lookup_eq_none_iff]
        intro entry hentry
        rcases List.mem_filterMap.mp hentry with ⟨h, hmem, hmap⟩
        rcases Option.map_eq_some_iff.mp hmap with ⟨value, _, rfl⟩
        have hne : f.name ≠ h.name := fun heq =>
          hnodup.1 (heq ▸ List.mem_map_of_mem hmem)
        simpa using hne
    · have hne : f.name ≠ g.name := fun heq =>
        hnodup.1 (heq ▸ List.mem_map_of_mem hrest)
      have hbeq : (f.name == g.name) = false := by simpa using hne
      rw [← ih hnodup.2 hrest, List.filterMap_cons]
      cases g.value with
      | none => rfl
      | some value => simp only [member, Option.map_some, List.lookup_cons, hbeq]

theorem Kind.get_marshal {α : Type} (kind : Kind α) {fields : List Field}
    {obj : Object} (hmarshal : marshal fields = some obj)
    (hnodup : (fields.map Field.name).Nodup) {name : String} {omitEmpty : Bool}
    {a : α} (hfield : kind.field name omitEmpty a ∈ fields) :
    kind.get obj name = some (kind.back omitEmpty a) := by
  rw [marshal] at hmarshal
  split_ifs at hmarshal with hall
  rw [← Option.some.inj hmarshal, Kind.get,
    show name = (kind.field name omitEmpty a).name from rfl,
    member_filterMap hnodup hfield, Kind.back]
  have hsupported : kind.supported a = true := List.all_eq_true.mp hall _ hfield
  by_cases hleft : kind.leftOut omitEmpty a = true
  · simp [Kind.field, hleft]
  · simp [Kind.field, hleft, kind.read_write a hsupported]

def nat : Kind ℕ where
  zero := 0
  isEmpty := fun n => n == 0
  supported := fun _ => true
  write := fun n => .int n
  read
    | .null => some 0
    | .int n => if 0 ≤ n then some n.toNat else none
    | _ => none
  normal := id
  read_write := by simp

def byte : Kind UInt8 where
  zero := 0
  isEmpty := fun b => b == 0
  supported := fun _ => true
  write := fun b => .int b.toNat
  read
    | .null => some 0
    | .int n => if 0 ≤ n ∧ n < 256 then some (UInt8.ofNat n.toNat) else none
    | _ => none
  normal := id
  read_write := by
    intro b _
    have hlt : b.toNat < 256 := b.toNat_lt
    simp [hlt]

def int : Kind ℤ where
  zero := 0
  isEmpty := fun n => n == 0
  supported := fun _ => true
  write := .int
  read
    | .null => some 0
    | .int n => some n
    | _ => none
  normal := id
  read_write := by simp

def bool : Kind Bool where
  zero := false
  isEmpty := fun b => !b
  supported := fun _ => true
  write := .bool
  read
    | .null => some false
    | .bool b => some b
    | _ => none
  normal := id
  read_write := by simp

def text : Kind (List UInt8) where
  zero := []
  isEmpty := List.isEmpty
  supported := fun _ => true
  write := fun s => .string (Utf8.toValid s)
  read
    | .null => some []
    | .string s => some s
    | _ => none
  normal := Utf8.toValid
  read_write := by simp

def texts : Kind (List (List UInt8)) where
  zero := []
  isEmpty := List.isEmpty
  supported := fun _ => true
  write := fun l => .strings (l.map Utf8.toValid)
  read
    | .null => some []
    | .strings l => some l
    | _ => none
  normal := fun l => l.map Utf8.toValid
  read_write := by simp

def bytes : Kind (Option (List UInt8)) where
  zero := none
  isEmpty := fun b => (b.getD []).isEmpty
  supported := fun _ => true
  write
    | none => .null
    | some b => .string (Base64.encode b)
  read
    | .null => some none
    | .string s => (Base64.decode s).map some
    | _ => none
  normal := id
  read_write := by
    intro b _
    cases b with
    | none => rfl
    | some b => simp [Base64.decode_encode]

theorem Kind.back_eq_normal {α : Type} {kind : Kind α}
    (hempty : ∀ a, kind.isEmpty a = true → kind.normal a = kind.zero)
    (omitEmpty : Bool) (a : α) : kind.back omitEmpty a = kind.normal a := by
  unfold Kind.back Kind.leftOut
  split_ifs with hleft
  · exact (hempty a (Bool.and_eq_true_iff.mp hleft).2).symm
  · rfl

@[simp] theorem nat_back (omitEmpty : Bool) (n : ℕ) : nat.back omitEmpty n = n :=
  Kind.back_eq_normal (by simp [nat]) omitEmpty n

@[simp] theorem byte_back (omitEmpty : Bool) (b : UInt8) : byte.back omitEmpty b = b :=
  Kind.back_eq_normal (by simp [byte]) omitEmpty b

@[simp] theorem int_back (omitEmpty : Bool) (n : ℤ) : int.back omitEmpty n = n :=
  Kind.back_eq_normal (by simp [int]) omitEmpty n

@[simp] theorem bool_back (omitEmpty : Bool) (b : Bool) : bool.back omitEmpty b = b :=
  Kind.back_eq_normal (by simp [bool]) omitEmpty b

@[simp] theorem text_back (omitEmpty : Bool) (s : List UInt8) :
    text.back omitEmpty s = Utf8.toValid s :=
  Kind.back_eq_normal (by simp [text, Utf8.toValid, Utf8.toValidFrom]) omitEmpty s

@[simp] theorem texts_back (omitEmpty : Bool) (l : List (List UInt8)) :
    texts.back omitEmpty l = l.map Utf8.toValid :=
  Kind.back_eq_normal (by simp [texts]) omitEmpty l

@[simp] theorem bytes_back (b : Option (List UInt8)) :
    bytes.back true b = if b = some [] then none else b := by
  rcases b with _ | _ | ⟨a, rest⟩ <;> rfl

def finite (bits : UInt64) : Bool := bits.toNat / 2 ^ 52 % 2 ^ 11 != 2 ^ 11 - 1

def negZero : UInt64 := 0x8000000000000000

structure FloatText where
  format : UInt64 → List UInt8
  parse : List UInt8 → Option UInt64
  parse_format : ∀ bits, finite bits = true → parse (format bits) = some bits

def float (floats : FloatText) : Kind UInt64 where
  zero := 0
  isEmpty := fun bits => bits == 0 || bits == negZero
  supported := finite
  write := fun bits => .float (floats.format bits)
  read
    | .null => some 0
    | .float text => floats.parse text
    | _ => none
  normal := id
  read_write := floats.parse_format

@[simp] theorem float_back (floats : FloatText) (bits : UInt64) :
    (float floats).back true bits = if bits = negZero then 0 else bits := by
  simp only [Kind.back, Kind.leftOut, float, Bool.true_and, Bool.or_eq_true, beq_iff_eq, id]
  split_ifs with hzero hneg
  · rfl
  · exact (hzero.resolve_right hneg).symm
  · exact absurd (Or.inr ‹_›) hzero
  · rfl

end MCache.Json
