import Clix.ToMathlib.JsonText

/-! # Values of types as JSON values

`ToValue α` gives the JSON value of a value, with the fields of its objects kept in some order, and `FromValue α`
reads it from one. A structure is read from an object by the names of its fields, and from an array by their
positions; a variant is read from its name, or from an object of that one name. What is carried this way comes back
as it was.
-/

namespace Json

class ToValue (α : Type) where
  toValue : (Fields → Fields) → α → Value

/-- Types that are read from a value, on a machine whose sizes are below a bound. -/
class FromValue (α : Type) where
  fromValue : ℕ → Value → Option α
  /-- What is read when the field is not there. -/
  missing : Option α := none

export ToValue (toValue)
export FromValue (fromValue)

instance : ToValue Bool := ⟨fun _ b => .bool b⟩
instance : ToValue ℕ := ⟨fun _ n => .number n⟩
instance : ToValue UInt8 := ⟨fun _ n => .number n.toNat⟩
instance : ToValue UInt32 := ⟨fun _ n => .number n.toNat⟩
instance : ToValue UInt64 := ⟨fun _ n => .number n.toNat⟩
instance : ToValue Int32 := ⟨fun _ n => .number n.toInt⟩
instance : ToValue String := ⟨fun _ s => .string s⟩

section Instances

variable {α : Type}

instance [ToValue α] : ToValue (List α) := ⟨fun order l => .array (l.map (toValue order))⟩

instance [ToValue α] : ToValue (Option α) :=
  ⟨fun order => fun | none => .null | some a => toValue order a⟩

/-- A number below a limit. -/
def natBelow (limit : ℕ) : Value → Option ℕ
  | .number n => if 0 ≤ n ∧ n < limit then some n.toNat else none
  | _ => none

instance : FromValue Bool := ⟨fun _ => fun | .bool b => some b | _ => none, none⟩
instance : FromValue ℕ := ⟨natBelow, none⟩
instance : FromValue UInt8 := ⟨fun _ v => (natBelow (2 ^ 8) v).map UInt8.ofNat, none⟩
instance : FromValue UInt32 := ⟨fun _ v => (natBelow (2 ^ 32) v).map UInt32.ofNat, none⟩
instance : FromValue UInt64 := ⟨fun _ v => (natBelow (2 ^ 64) v).map UInt64.ofNat, none⟩

instance : FromValue Int32 :=
  ⟨fun _ => fun
    | .number n => if -2 ^ 31 ≤ n ∧ n < 2 ^ 31 then some (Int32.ofInt n) else none
    | _ => none, none⟩

instance : FromValue String := ⟨fun _ => fun | .string s => some s | _ => none, none⟩

instance [FromValue α] : FromValue (List α) :=
  ⟨fun word => fun | .array items => items.mapM (fromValue word) | _ => none, none⟩

instance [FromValue α] : FromValue (Option α) :=
  ⟨fun word => fun | .null => some none | v => (fromValue word v).map some, some none⟩

end Instances

/-- The fields of a structure with these names. An object may have others. -/
def Value.fields (names : List String) : Value → Option Fields
  | object fields => some fields
  | array items => if items.length = names.length then some (names.zip items) else none
  | _ => none

/-- The fields of a structure that has no others. None is given twice, and an array may leave out the last ones but
those that are needed. -/
def Value.knownFields (names : List String) (needed : ℕ) : Value → Option Fields
  | object fields => if (fields.map Prod.fst).Nodup ∧ ∀ e ∈ fields, e.1 ∈ names then some fields else none
  | array items => if needed ≤ items.length ∧ items.length ≤ names.length then some (names.zip items) else none
  | _ => none

def fieldOf {α : Type} [FromValue α] (word : ℕ) (fields : Fields) (name : String) : Option α :=
  match OrdMap.lookupEntry name fields with
  | some v => fromValue word v
  | none => FromValue.missing

/-- The name of a variant, and what comes with it. -/
def Value.variant : Value → Option (String × Option Value)
  | string name => some (name, none)
  | object [(name, content)] => some (name, some content)
  | _ => none

/-- A variant without fields. -/
def plain {α : Type} (a : α) : Option Value → Option α
  | none | some .null => some a
  | _ => none

/-- The one field of a variant. -/
def onlyField {α : Type} [FromValue α] (word : ℕ) (name : String) (content : Option Value) : Option α := do
  let content ← content
  let fields ← content.fields [name]
  fieldOf word fields name

/-- The fields of a structure, by their names. -/
def record (order : Fields → Fields) (names : List String) (values : List Value) : Value :=
  .object (order (names.zip values))

/-- A variant that carries one named value. -/
def variantValue (name key : String) (v : Value) : Value := .object [(name, .object [(key, v)])]

/-- What is read from the text of a value. -/
def reread {α : Type} [ToValue α] [FromValue α] (word : ℕ) (a : α) : Option α :=
  (fromSlice inOrder (toValue inOrder a).text).bind (fromValue word)

def Value.get (name : String) : Value → Option Value
  | object fields => OrdMap.lookupEntry name fields
  | _ => none

namespace Value

def asStr : Value → Option String
  | string s => some s
  | _ => none

def asBool : Value → Option Bool
  | bool b => some b
  | _ => none

def asU64 (v : Value) : Option ℕ := natBelow (2 ^ 64) v

def asArray : Value → Option (List Value)
  | array items => some items
  | _ => none

def isNull : Value → Bool
  | null => true
  | _ => false

end Value

/-! ## What is written -/

/-- A value is written as its JSON value is, with the fields as they are listed. -/
class LawfulValue (α : Type) [Serialize α] [ToValue α] : Prop where
  text_toValue : ∀ a : α, (toValue asListed a).text = toVec a

export LawfulValue (text_toValue)

/-- A message takes as many bytes as the saved text of what it carries. -/
class Weighed (α : Type) [Serialize α] [ToValue α] : Prop where
  length_text : ∀ a : α, (toValue inOrder a).text.length = size a

export Weighed (length_text)

section Laws

variable {α : Type} {word depth : ℕ} {order : Fields → Fields}

theorem integer_natCast (n : ℕ) : integer n = digits n := by
  rw [integer, if_neg (by omega), Int.natAbs_natCast]

instance : LawfulValue Bool := ⟨fun b => Value.text.eq_def (.bool b)⟩

instance : LawfulValue ℕ := ⟨fun n => (Value.text.eq_def (.number n)).trans (integer_natCast n)⟩

instance : LawfulValue UInt8 := ⟨fun n => (Value.text.eq_def (.number n.toNat)).trans (integer_natCast n.toNat)⟩

instance : LawfulValue UInt32 := ⟨fun n => (Value.text.eq_def (.number n.toNat)).trans (integer_natCast n.toNat)⟩

instance : LawfulValue UInt64 := ⟨fun n => (Value.text.eq_def (.number n.toNat)).trans (integer_natCast n.toNat)⟩

instance : LawfulValue Int32 := ⟨fun n => Value.text.eq_def (.number n.toInt)⟩

instance : LawfulValue String := ⟨fun s => Value.text.eq_def (.string s)⟩

instance [Serialize α] [ToValue α] [LawfulValue α] : LawfulValue (List α) where
  text_toValue l := by
    change (Value.array (l.map (toValue asListed))).text = array (l.map toVec)
    rw [Value.text, List.map_map]
    exact congrArg array (List.map_congr_left (fun a _ => text_toValue a))

instance [Serialize α] [ToValue α] [LawfulValue α] : LawfulValue (Option α) where
  text_toValue
    | none => Value.text.eq_def .null
    | some a => text_toValue a

/-- The text of a structure is that of its fields, in the order they are listed. -/
theorem text_record (names : List String) (values : List Value) : (record asListed names values).text =
    object ((names.zip values).map (fun e => field e.1 e.2.text)) := Value.text.eq_def _

/-! ## How long it is -/

instance : Weighed ℕ := ⟨fun n => congrArg List.length (text_toValue n)⟩

instance : Weighed UInt8 := ⟨fun n => congrArg List.length (text_toValue n)⟩

instance : Weighed UInt64 := ⟨fun n => congrArg List.length (text_toValue n)⟩

instance : Weighed String := ⟨fun s => congrArg List.length (text_toValue s)⟩

instance : Weighed Int32 := ⟨fun n => congrArg List.length (text_toValue n)⟩

instance [Serialize α] [ToValue α] [Weighed α] : Weighed (List α) where
  length_text l := by
    change (Value.array (l.map (toValue inOrder))).text.length = size l
    rw [Value.text, length_array, size_list, List.map_map, List.map_map]
    congr 3
    exact List.map_congr_left (fun a _ => by simp [length_text a])

instance [Serialize α] [ToValue α] [Weighed α] : Weighed (Option α) where
  length_text
    | none => congrArg List.length (Value.text.eq_def .null)
    | some a => length_text a

/-- What a field takes depends on how long its value is. -/
theorem lengths_zip {values : List Value} {texts : List Bytes}
    (same : List.Forall₂ (fun v text => v.text.length = text.length) values texts) (names : List String) :
    (names.zip values).map (fun e => (field e.1 e.2.text).length + 1) =
      (names.zip texts).map (fun e => (field e.1 e.2).length + 1) := by
  induction same generalizing names with
  | nil => rw [List.zip_nil_right, List.zip_nil_right, List.map_nil, List.map_nil]
  | cons first _ ih =>
    cases names with
    | nil => rfl
    | cons name names => rw [List.zip_cons_cons, List.zip_cons_cons, List.map_cons, List.map_cons, ih names,
        length_field, length_field, first]

/-- The fields of a structure take the same bytes in any order. -/
theorem length_record {names : List String} {values : List Value} {texts : List Bytes} (nodup : names.Nodup)
    (all : names.length = values.length)
    (same : List.Forall₂ (fun v text => v.text.length = text.length) values texts) :
    (record inOrder names values).text.length = (object ((names.zip texts).map (fun e => field e.1 e.2))).length := by
  have unique : ((names.zip values).map Prod.fst).Nodup := by rwa [List.map_fst_zip all.le]
  have permuted := ((perm_inOrder unique).map (fun e => (field e.1 e.2.text).length + 1)).sum_eq
  rw [record, Value.text, length_object, length_object, List.map_map, List.map_map]
  simp only [Function.comp_def]
  rw [permuted, lengths_zip same]

/-! ## What is carried -/

theorem Keeps.fits_object {fields : Fields} (keeps : Keeps order) (each : ∀ e ∈ fields, Fits order depth e.2) :
    Fits order (depth + 1) (.object (order fields)) :=
  ⟨keeps.again fields, fun e member => each e (keeps.mem member)⟩

theorem Keeps.fits_record {names : List String} {values : List Value} (keeps : Keeps order)
    (each : ∀ v ∈ values, Fits order depth v) : Fits order (depth + 1) (record order names values) :=
  keeps.fits_object (fun e member => each e.2 (List.of_mem_zip member).2)

theorem Keeps.fits_variant {name key : String} {v : Value} (keeps : Keeps order) (fits : Fits order depth v) :
    Fits order (depth + 2) (variantValue name key v) :=
  ⟨keeps.single _, List.forall_mem_singleton.mpr ⟨keeps.single _, List.forall_mem_singleton.mpr fits⟩⟩

/-- The fields of a structure are found among those it was written with. -/
theorem Keeps.get_record {names : List String} (keeps : Keeps order) (nodup : names.Nodup) (values : List Value)
    (all : names.length = values.length) (name : String) :
    (record order names values).get name = OrdMap.lookupEntry name (names.zip values) :=
  keeps.lookup (by rwa [List.map_fst_zip all.le]) name

theorem Keeps.fieldOf_record [FromValue α] {names : List String} (keeps : Keeps order) (nodup : names.Nodup)
    (values : List Value) (all : names.length = values.length) (name : String) :
    (fieldOf word (order (names.zip values)) name : Option α) = fieldOf word (names.zip values) name := by
  have same := keeps.get_record nodup values all name
  change OrdMap.lookupEntry name (order (names.zip values)) = _ at same
  rw [fieldOf, fieldOf, same]

section Carries

variable [ToValue α] [FromValue α]

/-- A value fits in a message of some depth, and is what is read from it. -/
structure Carries (word depth : ℕ) (a : α) : Prop where
  fits : ∀ {order}, Keeps order → Fits order depth (toValue order a)
  back : ∀ {order}, Keeps order → fromValue word (toValue order a) = some a

end Carries

theorem natBelow_natCast {n limit : ℕ} (small : n < limit) : natBelow limit (.number n) = some n := by
  rw [natBelow, if_pos (by omega), Int.toNat_natCast]

theorem carries_bool (b : Bool) : Carries word depth b where
  fits _ := by cases depth <;> trivial
  back _ := rfl

theorem carries_nat {n : ℕ} (small : n < word) : Carries word depth n where
  fits _ := by cases depth <;> trivial
  back _ := natBelow_natCast small

theorem carries_uInt8 (n : UInt8) : Carries word depth n where
  fits _ := by cases depth <;> trivial
  back _ := by
    change (natBelow (2 ^ 8) (.number n.toNat)).map UInt8.ofNat = some n
    rw [natBelow_natCast n.toNat_lt, Option.map_some, UInt8.ofNat_toNat]

theorem carries_uInt32 (n : UInt32) : Carries word depth n where
  fits _ := by cases depth <;> trivial
  back _ := by
    change (natBelow (2 ^ 32) (.number n.toNat)).map UInt32.ofNat = some n
    rw [natBelow_natCast n.toNat_lt, Option.map_some, UInt32.ofNat_toNat]

theorem carries_uInt64 (n : UInt64) : Carries word depth n where
  fits _ := by cases depth <;> trivial
  back _ := by
    change (natBelow (2 ^ 64) (.number n.toNat)).map UInt64.ofNat = some n
    rw [natBelow_natCast n.toNat_lt, Option.map_some, UInt64.ofNat_toNat]

theorem carries_int32 (n : Int32) : Carries word depth n where
  fits _ := by cases depth <;> trivial
  back _ := by
    have least := n.le_toInt
    have most := n.toInt_lt
    change (if -2 ^ 31 ≤ n.toInt ∧ n.toInt < 2 ^ 31 then some (Int32.ofInt n.toInt) else none) = some n
    rw [if_pos (by omega), Int32.ofInt_toInt]

theorem carries_string (s : String) : Carries word depth s where
  fits _ := by cases depth <;> trivial
  back _ := rfl

variable [ToValue α] [FromValue α]

theorem carries_list {l : List α} (each : ∀ a ∈ l, Carries word depth a) : Carries word (depth + 1) l where
  fits keeps := by
    intro v member
    obtain ⟨a, listed, rfl⟩ := List.mem_map.mp member
    exact (each a listed).fits keeps
  back {order} keeps := by
    change (l.map (toValue order)).mapM (fromValue word) = some l
    induction l with
    | nil => rfl
    | cons a l ih =>
      obtain ⟨first, others⟩ := List.forall_mem_cons.mp each
      rw [List.map_cons, List.mapM_cons, first.back keeps, ih others]
      rfl

/-- An option is told from what it holds, which is never null. -/
theorem carries_option {o : Option α} (each : ∀ a, o = some a → Carries word depth a)
    (notNull : ∀ (order : Fields → Fields) (a : α), toValue order a ≠ .null) : Carries word depth o := by
  cases o with
  | none =>
    refine ⟨fun _ => ?_, fun _ => rfl⟩
    cases depth <;> trivial
  | some a =>
    refine ⟨fun keeps => (each a rfl).fits keeps, fun {order} keeps => ?_⟩
    have read := (each a rfl).back keeps
    change (match toValue order a with | .null => some none | v => (fromValue word v).map some) = _
    split
    · next null => exact absurd null (notNull order a)
    · rw [read, Option.map_some]

theorem Carries.reread_eq {a : α} (carried : Carries word maxDepth a) : reread word a = some a := by
  rw [reread, fromSlice_text (carried.fits keeps_inOrder), Option.bind_some]
  exact carried.back keeps_inOrder

/-- Two values of the same text are the same JSON value. -/
theorem Carries.toValue_eq {β : Type} [Serialize α] [LawfulValue α] [Serialize β] [ToValue β] [FromValue β]
    [LawfulValue β] {a : α} {b : β} (carried : Carries word maxDepth a) (other : Carries word maxDepth b)
    (same : toVec a = toVec b) : toValue asListed a = toValue asListed b := by
  have read := congrArg (fromSlice asListed) same
  rw [← text_toValue a, ← text_toValue b, fromSlice_text (carried.fits keeps_asListed),
    fromSlice_text (other.fits keeps_asListed)] at read
  exact Option.some.inj read

theorem Carries.toVec_inj [Serialize α] [LawfulValue α] {a b : α} (carried : Carries word maxDepth a)
    (other : Carries word maxDepth b) (same : toVec a = toVec b) : a = b := by
  have read : (fromValue word (toValue asListed a) : Option α) = fromValue word (toValue asListed b) :=
    congrArg _ (carried.toValue_eq other same)
  rw [carried.back keeps_asListed, other.back keeps_asListed] at read
  exact Option.some.inj read

end Laws

end Json
