import Mathlib.Data.Nat.Log
import Mathlib.Data.String.Basic
import Mathlib.Algebra.BigOperators.Group.List.Basic
import Mathlib.Algebra.BigOperators.Ring.List
import Mathlib.Algebra.Order.Ring.Nat
import Mathlib.Algebra.Order.BigOperators.Group.List
import Mathlib.Tactic.Common
import Clix.ToMathlib.OrdMap

/-! # Compact JSON text and its length

`Serialize α` gives the bytes a compact JSON writer emits for a value: no spaces, object fields in
the order they are listed, strings escaped with two-byte escapes where JSON has one and `\u00xx` for
the other control characters. Byte vectors are arrays of decimal numbers, so the text of a payload
is several times its length; the lemmas here account for every byte of it.
-/

abbrev Bytes := List UInt8

namespace Json

/-- The UTF-8 encoding of a string. -/
def utf8 (s : String) : Bytes := s.toByteArray.data.toList

/-- Decimal digits of a number. -/
def digits (n : ℕ) : Bytes := (Nat.toDigits 10 n).map (fun c => c.toNat.toUInt8)

def hexDigit (n : ℕ) : UInt8 := if n < 10 then (48 + n).toUInt8 else (87 + n).toUInt8

/-- One byte of text inside a JSON string. Bytes of longer characters stay as they are. -/
def escape (b : UInt8) : Bytes :=
  if b = 34 then [92, 34]
  else if b = 92 then [92, 92]
  else if b = 8 then [92, 98]
  else if b = 9 then [92, 116]
  else if b = 10 then [92, 110]
  else if b = 12 then [92, 102]
  else if b = 13 then [92, 114]
  else if b < 32 then [92, 117, 48, 48, hexDigit (b.toNat / 16), hexDigit (b.toNat % 16)]
  else [b]

def string (s : String) : Bytes := 34 :: (utf8 s).flatMap escape ++ [34]

def commaSep : List Bytes → Bytes
  | [] => []
  | first :: rest => first ++ rest.flatMap (fun item => 44 :: item)

def array (items : List Bytes) : Bytes := 91 :: commaSep items ++ [93]

def field (name : String) (value : Bytes) : Bytes := string name ++ 58 :: value

def object (fields : List Bytes) : Bytes := 123 :: commaSep fields ++ [125]

/-- Types with a compact JSON text. -/
class Serialize (α : Type) where
  toVec : α → Bytes

export Serialize (toVec)

instance : Serialize Bool := ⟨fun b => utf8 (if b then "true" else "false")⟩
instance : Serialize ℕ := ⟨digits⟩
instance : Serialize UInt8 := ⟨fun n => digits n.toNat⟩
instance : Serialize UInt32 := ⟨fun n => digits n.toNat⟩
instance : Serialize UInt64 := ⟨fun n => digits n.toNat⟩
instance : Serialize String := ⟨string⟩

instance : Serialize Int32 :=
  ⟨fun n => if n.toInt < 0 then 45 :: digits n.toInt.natAbs else digits n.toInt.natAbs⟩

instance {α : Type} [Serialize α] : Serialize (List α) := ⟨fun l => array (l.map toVec)⟩

instance {α : Type} [Serialize α] : Serialize (Option α) :=
  ⟨fun | none => utf8 "null" | some a => toVec a⟩

instance {α β : Type} [Serialize α] [Serialize β] : Serialize (α × β) :=
  ⟨fun p => array [toVec p.1, toVec p.2]⟩

instance {α : Type} [Serialize α] : Serialize (OrdMap String α) :=
  ⟨fun m => object (m.entries.map (fun e => field e.1 (toVec e.2)))⟩

instance : Serialize (OrdSet String) := ⟨fun m => array (m.keys.map string)⟩

/-- The number of bytes of a value's JSON text. -/
def size {α : Type} [Serialize α] (a : α) : ℕ := (toVec a).length

section Lengths

variable {α : Type} [Serialize α]

@[simp] theorem length_utf8 (s : String) : (utf8 s).length = s.utf8ByteSize := by
  rw [utf8, Array.length_toList]
  rfl

theorem utf8_eq_flatMap (s : String) : utf8 s = s.toList.flatMap String.utf8EncodeChar := by
  rw [utf8, ← String.utf8Encode_toList, List.utf8Encode]
  simp

/-- Separators cost one byte between items. -/
theorem length_commaSep (items : List Bytes) :
    (commaSep items).length = (items.map (fun item => item.length + 1)).sum - 1 := by
  cases items with
  | nil => rfl
  | cons first rest =>
    have separated : (rest.flatMap (fun item => 44 :: item)).length =
        (rest.map (fun item => item.length + 1)).sum := List.length_flatMap
    simp only [commaSep, List.length_append, separated, List.map_cons, List.sum_cons]
    omega

theorem length_array (items : List Bytes) :
    (array items).length = (items.map (fun item => item.length + 1)).sum - 1 + 2 := by
  rw [array, List.cons_append, List.length_cons, List.length_append, length_commaSep]
  rfl

theorem length_object (fields : List Bytes) :
    (object fields).length = (fields.map (fun item => item.length + 1)).sum - 1 + 2 := by
  rw [object, List.cons_append, List.length_cons, List.length_append, length_commaSep]
  rfl

@[simp] theorem length_field (name : String) (value : Bytes) :
    (field name value).length = (string name).length + 1 + value.length := by
  simp only [field, List.length_append, List.length_cons]
  omega

theorem size_list (l : List α) : size l = (l.map (fun a => size a + 1)).sum - 1 + 2 := by
  change (array (l.map toVec)).length = _
  rw [length_array, List.map_map]
  rfl

theorem size_list_of_ne_nil {l : List α} (present : l ≠ []) : size l = (l.map (fun a => size a + 1)).sum + 1 := by
  obtain ⟨a, rest, rfl⟩ := List.exists_cons_of_ne_nil present
  rw [size_list, List.map_cons, List.sum_cons]
  omega

@[simp] theorem size_option_none : size (none : Option α) = 4 := rfl

theorem size_map (m : OrdMap String α) :
    size m = (m.entries.map (fun e => (string e.1).length + 1 + size e.2 + 1)).sum - 1 + 2 := by
  change (object _).length = _
  rw [length_object, List.map_map]
  congr 3
  exact List.map_congr_left (fun e _ => by simp [size])

theorem size_map_of_mem {m : OrdMap String α} {k : String} {a : α} (found : m.get? k = some a) :
    size m = (m.entries.map (fun e => (string e.1).length + 1 + size e.2 + 1)).sum + 1 := by
  obtain ⟨rest, perm, -⟩ := OrdMap.perm_insert_of_some a found
  rw [size_map, (perm.map _).sum_eq, List.map_cons, List.sum_cons]
  omega

theorem size_set (m : OrdSet String) :
    size m = (m.keys.map (fun k => (string k).length + 1)).sum - 1 + 2 := by
  change (array _).length = _
  rw [length_array, List.map_map]
  rfl

/-- A new member of a set costs its text and at most one comma. -/
theorem size_set_insert_le {m : OrdSet String} {k : String} (absent : m.get? k = none) :
    size (m.insert k ()) ≤ size m + (string k).length + 1 := by
  have added := OrdMap.sum_insert_of_none (fun e => (string e.1).length + 1) () absent
  dsimp only at added
  rw [size_set, size_set, OrdMap.keys, OrdMap.keys, List.map_map, List.map_map]
  change (((m.insert k ()).entries.map (fun e => (string e.1).length + 1)).sum - 1 + 2) ≤
    ((m.entries.map (fun e => (string e.1).length + 1)).sum - 1 + 2) + (string k).length + 1
  omega

theorem length_digits (n : ℕ) : (digits n).length = (Nat.toDigits 10 n).length := by
  rw [digits, List.length_map]

theorem length_digits_pos (n : ℕ) : 0 < (digits n).length := by
  rw [length_digits]
  exact Nat.length_toDigits_pos

theorem length_digits_le_iff {n k : ℕ} (positive : 0 < k) : (digits n).length ≤ k ↔ n < 10 ^ k := by
  rw [length_digits]
  exact Nat.length_toDigits_le_iff (by omega) positive

/-- The number of digits is one more than the integer logarithm. -/
theorem length_digits_eq_log (n : ℕ) : (digits n).length = Nat.log 10 n + 1 := by
  apply le_antisymm
  · exact (length_digits_le_iff (by omega)).mpr (Nat.lt_pow_succ_log_self (by omega) n)
  · by_contra shorter
    have below := (length_digits_le_iff (length_digits_pos n)).mp le_rfl
    have larger : (digits n).length ≤ Nat.log 10 n := by omega
    by_cases zero : n = 0
    · subst zero
      have positive := length_digits_pos 0
      rw [Nat.log_zero_right] at larger
      omega
    · have power := Nat.pow_log_le_self 10 zero
      have grows := Nat.pow_le_pow_right (n := 10) (by omega) larger
      omega

theorem length_digits_uInt64 (n : UInt64) : (digits n.toNat).length ≤ 20 := by
  rw [length_digits_le_iff (by omega)]
  exact n.toNat_lt.trans (by decide)

/-- A byte takes one, two or three digits. -/
theorem length_digits_uInt8 (b : UInt8) :
    (digits b.toNat).length = if 100 ≤ b then 3 else if 10 ≤ b then 2 else 1 := by
  have every : ∀ n : Fin 256, (digits n.val).length =
      if 100 ≤ n.val then 3 else if 10 ≤ n.val then 2 else 1 := by decide +kernel
  have same := every ⟨b.toNat, b.toNat_lt⟩
  simpa [UInt8.le_iff_toNat_le] using same

theorem length_escape_le (b : UInt8) : (escape b).length ≤ 6 := by
  unfold escape
  split_ifs <;> simp

theorem length_escape_pos (b : UInt8) : 1 ≤ (escape b).length := by
  unfold escape
  split_ifs <;> simp

theorem utf8ByteSize_eq_sum (s : String) : s.utf8ByteSize = (s.toList.map Char.utf8Size).sum := by
  rw [← length_utf8, utf8_eq_flatMap, List.length_flatMap]
  simp only [String.length_utf8EncodeChar]

theorem length_string (s : String) :
    (string s).length = ((utf8 s).map (fun b => (escape b).length)).sum + 2 := by
  simp [string, List.length_flatMap]

theorem length_string_le (s : String) : (string s).length ≤ 6 * s.utf8ByteSize + 2 := by
  have bound := List.sum_le_card_nsmul ((utf8 s).map (fun b => (escape b).length)) 6 (by
    intro n member
    obtain ⟨b, -, rfl⟩ := List.mem_map.mp member
    exact length_escape_le b)
  rw [List.length_map, length_utf8, Nat.nsmul_eq_mul] at bound
  rw [length_string]
  omega

/-- A text of characters that are each written as one byte. -/
theorem size_ofList {text : List Char}
    (plain : ∀ ch ∈ text, ((String.utf8EncodeChar ch).flatMap escape).length = 1) :
    size (String.ofList text) = text.length + 2 := by
  have written : ((text.flatMap String.utf8EncodeChar).flatMap escape).length = text.length := by
    induction text with
    | nil => rfl
    | cons ch rest ih =>
      obtain ⟨first, others⟩ := List.forall_mem_cons.mp plain
      rw [List.flatMap_cons, List.flatMap_append, List.length_append, first, ih others, List.length_cons]
      omega
  change (34 :: (utf8 (String.ofList text)).flatMap escape ++ [34]).length = text.length + 2
  rw [utf8_eq_flatMap, String.toList_ofList, List.length_append, List.length_cons, written]
  rfl

/-- A character that is written as one byte takes one byte each time. -/
theorem size_replicate {ch : Char} (plain : ((String.utf8EncodeChar ch).flatMap escape).length = 1) (n : ℕ) :
    size (String.ofList (List.replicate n ch)) = n + 2 := by
  rw [size_ofList (fun other member => by rw [List.eq_of_mem_replicate member, plain]), List.length_replicate]

end Lengths

end Json
