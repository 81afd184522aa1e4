import Clix.ToMathlib.Json

/-! # Reading JSON text

A value is read from its text, with white space between the tokens, escapes in the strings, and arrays and objects
inside each other up to a depth. An object keeps its fields as they come, or as a map does, in the order of their
names. The compact text of a value is read back, whatever follows it.
-/

namespace Json

inductive Value where
  | null
  | bool (b : Bool)
  /-- A number without fraction and exponent. -/
  | number (n : ℤ)
  /-- Any other number, and a negative zero, by its text. -/
  | float (text : Bytes)
  | string (s : String)
  | array (items : List Value)
  | object (fields : List (String × Value))

abbrev Fields := List (String × Value)

def integer (n : ℤ) : Bytes := if n < 0 then 45 :: digits n.natAbs else digits n.natAbs

/-- The compact text of a value. -/
def Value.text : Value → Bytes
  | null => utf8 "null"
  | bool b => utf8 (if b then "true" else "false")
  | number n => integer n
  | float text => text
  | string s => Json.string s
  | array items => Json.array (items.map text)
  | object fields => Json.object (fields.map (fun e => field e.1 (text e.2)))
termination_by v => sizeOf v
decreasing_by
  · have := List.sizeOf_lt_of_mem (by assumption)
    simp
    omega
  · next member =>
    have := List.sizeOf_lt_of_mem member
    cases e
    simp at this ⊢
    omega

/-! ## Fields -/

def keyed (m : OrdMap String Value) (fields : Fields) : OrdMap String Value :=
  fields.foldl (fun m e => m.insert e.1 e.2) m

/-- A map keeps its fields in the order of their names, and the last of several values of a name. -/
def inOrder (fields : Fields) : Fields := (keyed ∅ fields).entries

def asListed (fields : Fields) : Fields := fields

/-! ## Tokens -/

def isSpace (b : UInt8) : Bool := b == 32 || b == 9 || b == 10 || b == 13

def skipSpace (input : Bytes) : Bytes := input.dropWhile isSpace

def isDigit (b : UInt8) : Bool := 48 ≤ b && b ≤ 57

def decimal (ds : Bytes) : ℕ := ds.foldl (fun n d => 10 * n + (d.toNat - 48)) 0

/-- One digit or more. -/
def readDigits (input : Bytes) : Option (Bytes × Bytes) :=
  if input.takeWhile isDigit = [] then none else some (input.takeWhile isDigit, input.dropWhile isDigit)

def readFraction : Bytes → Option (Bytes × Bytes)
  | 46 :: rest => (readDigits rest).map (fun (ds, rest) => (46 :: ds, rest))
  | input => some ([], input)

def readSign : Bytes → Bytes × Bytes
  | 43 :: rest => ([43], rest)
  | 45 :: rest => ([45], rest)
  | input => ([], input)

def readExponent : Bytes → Option (Bytes × Bytes)
  | [] => some ([], [])
  | b :: rest =>
    if b = 101 ∨ b = 69 then
      let (sign, rest) := readSign rest
      (readDigits rest).map (fun (ds, rest) => (b :: sign ++ ds, rest))
    else some ([], b :: rest)

def readMinus : Bytes → Bytes × Bytes
  | 45 :: rest => ([45], rest)
  | input => ([], input)

def readNumber (input : Bytes) : Option (Value × Bytes) := do
  let (minus, rest) := readMinus input
  let (whole, rest) ← readDigits rest
  -- A number does not start with a zero, unless that is all of it.
  if whole.head? = some 48 ∧ whole.length ≠ 1 then none
  else do
    let (fraction, rest) ← readFraction rest
    let (exponent, rest) ← readExponent rest
    if fraction = [] ∧ exponent = [] ∧ (minus = [] ∨ decimal whole ≠ 0) then
      some (.number (if minus = [] then decimal whole else -decimal whole), rest)
    else some (.float (minus ++ whole ++ fraction ++ exponent), rest)

def hexValue (b : UInt8) : Option ℕ :=
  if 48 ≤ b ∧ b ≤ 57 then some (b.toNat - 48)
  else if 97 ≤ b ∧ b ≤ 102 then some (b.toNat - 87)
  else if 65 ≤ b ∧ b ≤ 70 then some (b.toNat - 55)
  else none

def readHex : Bytes → Option (ℕ × Bytes)
  | a :: b :: c :: d :: rest => do
    let a ← hexValue a
    let b ← hexValue b
    let c ← hexValue c
    let d ← hexValue d
    return (a * 4096 + b * 256 + c * 16 + d, rest)
  | _ => none

/-- A character by its number; those outside the first plane are written as two surrogates. -/
def readUnicode (input : Bytes) : Option (Bytes × Bytes) := do
  let (first, rest) ← readHex input
  if 0xD800 ≤ first ∧ first < 0xDC00 then
    match rest with
    | 92 :: 117 :: rest => do
      let (second, rest) ← readHex rest
      if 0xDC00 ≤ second ∧ second < 0xE000 then
        some (String.utf8EncodeChar (Char.ofNat (0x10000 + (first - 0xD800) * 1024 + (second - 0xDC00))), rest)
      else none
    | _ => none
  else if 0xDC00 ≤ first ∧ first < 0xE000 then none
  else some (String.utf8EncodeChar (Char.ofNat first), rest)

/-- What follows a backslash. -/
def readEscape : Bytes → Option (Bytes × Bytes)
  | [] => none
  | b :: rest =>
    if b = 34 ∨ b = 92 ∨ b = 47 then some ([b], rest)
    else if b = 98 then some ([8], rest)
    else if b = 102 then some ([12], rest)
    else if b = 110 then some ([10], rest)
    else if b = 114 then some ([13], rest)
    else if b = 116 then some ([9], rest)
    else if b = 117 then readUnicode rest
    else none

/-- The bytes of a string up to its closing quote. Every step reads a byte at least. -/
def readChars : ℕ → Bytes → Option (Bytes × Bytes)
  | 0, _ => none
  | _ + 1, [] => none
  | fuel + 1, b :: rest =>
    if b = 34 then some ([], rest)
    else if b = 92 then do
      let (read, rest) ← readEscape rest
      let (more, rest) ← readChars fuel rest
      return (read ++ more, rest)
    else if b < 32 then none
    else do
      let (more, rest) ← readChars fuel rest
      return (b :: more, rest)

/-- A string, after its opening quote. -/
def readString (input : Bytes) : Option (String × Bytes) := do
  let (bytes, rest) ← readChars input.length input
  let s ← String.fromUTF8? ⟨bytes.toArray⟩
  return (s, rest)

def readLiteral (word : String) (v : Value) (input : Bytes) : Option (Value × Bytes) :=
  if (utf8 word).isPrefixOf input then some (v, input.drop (utf8 word).length) else none

/-- A value that is neither an array nor an object. -/
def readScalar : Bytes → Option (Value × Bytes)
  | 34 :: rest => (readString rest).map (fun (s, rest) => (.string s, rest))
  | input =>
    (readLiteral "null" .null input).or ((readLiteral "true" (.bool true) input).or
      ((readLiteral "false" (.bool false) input).or (readNumber input)))

/-! ## Arrays and objects -/

section Items

variable {α : Type} (item : Bytes → Option (α × Bytes)) (close : UInt8)

/-- Items with commas between them, up to the end of the list. -/
def readItems : ℕ → Bytes → Option (List α × Bytes)
  | 0, _ => none
  | fuel + 1, input => do
    let (a, rest) ← item input
    match skipSpace rest with
    | [] => none
    | b :: rest =>
      if b = close then some ([a], rest)
      else if b = 44 then do
        let (more, rest) ← readItems fuel rest
        return (a :: more, rest)
      else none

/-- A list of items, after its opening bracket. -/
def readList (input : Bytes) : Option (List α × Bytes) :=
  match skipSpace input with
  | [] => none
  | b :: rest => if b = close then some ([], rest) else readItems item close input.length input

end Items

def readField (item : Bytes → Option (Value × Bytes)) (input : Bytes) : Option ((String × Value) × Bytes) :=
  match skipSpace input with
  | 34 :: rest => do
    let (name, rest) ← readString rest
    match skipSpace rest with
    | 58 :: rest => do
      let (v, rest) ← item rest
      return ((name, v), rest)
    | _ => none
  | _ => none

/-- A value, with arrays and objects inside each other up to a depth. -/
def readValue (order : Fields → Fields) : ℕ → Bytes → Option (Value × Bytes)
  | 0, input => readScalar (skipSpace input)
  | depth + 1, input =>
    match skipSpace input with
    | 91 :: rest => (readList (readValue order depth) 93 rest).map (fun (items, rest) => (.array items, rest))
    | 123 :: rest =>
      (readList (readField (readValue order depth)) 125 rest).map
        (fun (fields, rest) => (.object (order fields), rest))
    | input => readScalar input

def maxDepth : ℕ := 127

/-- A text that is one value, with nothing but white space around it. -/
def fromSlice (order : Fields → Fields) (input : Bytes) : Option Value := do
  let (v, rest) ← readValue order maxDepth input
  if skipSpace rest = [] then some v else none

/-! ## Reading a string back -/

section Reading

variable {b : UInt8} {fuel : ℕ} {rest tail : Bytes} {s : String}

theorem hexValue_hexDigit : ∀ n < 16, hexValue (hexDigit n) = some n := by decide

theorem utf8EncodeChar_control : ∀ n < 32, String.utf8EncodeChar (Char.ofNat n) = [n.toUInt8] := by decide

/-- An escaped byte is read as that byte. -/
theorem readChars_escape (b : UInt8) : readChars (fuel + 1) (escape b ++ rest) =
    (readChars fuel rest).map (fun read => (b :: read.1, read.2)) := by
  have done (read : Bytes) (same : readEscape (read ++ rest) = some ([b], rest)) :
      readChars (fuel + 1) (92 :: read ++ rest) = (readChars fuel rest).map (fun read => (b :: read.1, read.2)) := by
    rw [List.cons_append, readChars, if_neg (by decide), if_pos rfl, same]
    simp only [Option.bind_eq_bind, Option.bind_some]
    cases readChars fuel rest <;> rfl
  unfold escape
  split_ifs with h1 h2 h3 h4 h5 h6 h7 h8
  · subst h1
    exact done [34] rfl
  · subst h2
    exact done [92] rfl
  · subst h3
    exact done [98] rfl
  · subst h4
    exact done [116] rfl
  · subst h5
    exact done [110] rfl
  · subst h6
    exact done [102] rfl
  · subst h7
    exact done [114] rfl
  · refine done [117, 48, 48, hexDigit (b.toNat / 16), hexDigit (b.toNat % 16)] ?_
    have small : b.toNat < 32 := by simpa using UInt8.lt_iff_toNat_lt.mp h8
    have hex : readHex (48 :: 48 :: hexDigit (b.toNat / 16) :: hexDigit (b.toNat % 16) :: rest) =
        some (b.toNat, rest) := by
      rw [readHex, hexValue_hexDigit _ (by omega), hexValue_hexDigit _ (by omega)]
      change some (0 * 4096 + 0 * 256 + b.toNat / 16 * 16 + b.toNat % 16, rest) = _
      congr 2
      omega
    change readUnicode (48 :: 48 :: hexDigit (b.toNat / 16) :: hexDigit (b.toNat % 16) :: rest) = _
    rw [readUnicode, hex]
    change (if 0xD800 ≤ b.toNat ∧ b.toNat < 0xDC00 then _ else _) = _
    rw [if_neg (by omega), if_neg (by omega), utf8EncodeChar_control _ small, Nat.toUInt8, UInt8.ofNat_toNat]
  · rw [List.singleton_append, readChars, if_neg h1, if_neg h2, if_neg h8]
    cases readChars fuel rest <;> rfl

theorem readChars_flatMap (l : Bytes) (enough : l.length < fuel) :
    readChars fuel (l.flatMap escape ++ 34 :: rest) = some (l, rest) := by
  induction l generalizing fuel with
  | nil =>
    obtain ⟨fuel, rfl⟩ : ∃ n, fuel = n + 1 := ⟨fuel - 1, by simp at enough; omega⟩
    rfl
  | cons b l ih =>
    obtain ⟨fuel, rfl⟩ : ∃ n, fuel = n + 1 := ⟨fuel - 1, by simp at enough; omega⟩
    rw [List.flatMap_cons, List.append_assoc, readChars_escape, ih (by simpa using enough), Option.map_some]

theorem fromUTF8?_utf8 (s : String) : String.fromUTF8? ⟨(utf8 s).toArray⟩ = some s := by
  have same : (⟨(utf8 s).toArray⟩ : ByteArray) = s.toByteArray := by simp [utf8]
  rw [same, String.fromUTF8?, dif_pos s.isValidUTF8]
  rfl

theorem readString_eq (s : String) : readString ((utf8 s).flatMap escape ++ 34 :: rest) = some (s, rest) := by
  have longer : (utf8 s).length ≤ ((utf8 s).flatMap escape).length := by
    rw [List.length_flatMap, ← List.length_map (f := fun b => (escape b).length)]
    exact List.length_le_sum_of_one_le _ (fun n member => by
      obtain ⟨b, -, rfl⟩ := List.mem_map.mp member
      exact length_escape_pos b)
  rw [readString, readChars_flatMap _ (by rw [List.length_append, List.length_cons]; omega)]
  change (String.fromUTF8? ⟨(utf8 s).toArray⟩).bind _ = _
  rw [fromUTF8?_utf8]
  rfl

/-! ## Numbers -/

theorem takeWhile_append_stop {p : UInt8 → Bool} {l : Bytes} (all : ∀ b ∈ l, p b = true)
    (stops : ∀ b, rest.head? = some b → p b = false) :
    (l ++ rest).takeWhile p = l ∧ (l ++ rest).dropWhile p = rest := by
  rw [List.takeWhile_append_of_pos all, List.dropWhile_append_of_pos all]
  cases rest with
  | nil => simp
  | cons b rest =>
    have stop := stops b rfl
    rw [List.takeWhile_cons_of_neg (by simp [stop]), List.dropWhile_cons_of_neg (by simp [stop]), List.append_nil]
    exact ⟨rfl, rfl⟩

theorem digit_spec {c : Char} (digit : c.isDigit = true) :
    isDigit c.toNat.toUInt8 = true ∧ c.toNat.toUInt8.toNat = c.toNat := by
  rw [Char.isDigit_iff_toNat] at digit
  change 48 ≤ c.toNat ∧ c.toNat ≤ 57 at digit
  have same : c.toNat.toUInt8.toNat = c.toNat := by
    rw [Nat.toUInt8, UInt8.toNat_ofNat']
    omega
  refine ⟨?_, same⟩
  rw [isDigit, Bool.and_eq_true, decide_eq_true_eq, decide_eq_true_eq, UInt8.le_iff_toNat_le, UInt8.le_iff_toNat_le,
    same]
  exact digit

theorem isDigit_of_mem_digits {n : ℕ} (member : b ∈ digits n) : isDigit b = true := by
  obtain ⟨c, listed, rfl⟩ := List.mem_map.mp member
  exact (digit_spec (Nat.isDigit_of_mem_toDigits (by decide) (by decide) listed)).1

theorem decimal_digits (n : ℕ) : decimal (digits n) = n := by
  have digit (c : Char) (listed : c ∈ Nat.toDigits 10 n) : c.toNat.toUInt8.toNat = c.toNat :=
    (digit_spec (Nat.isDigit_of_mem_toDigits (by decide) (by decide) listed)).2
  have same (l : List Char) (digits : ∀ c ∈ l, c.toNat.toUInt8.toNat = c.toNat) (m : ℕ) :
      (l.map (fun c => c.toNat.toUInt8)).foldl (fun n d => 10 * n + (d.toNat - 48)) m = Nat.ofDigitChars 10 l m := by
    induction l generalizing m with
    | nil => rfl
    | cons c l ih =>
      obtain ⟨first, others⟩ := List.forall_mem_cons.mp digits
      rw [List.map_cons, List.foldl_cons, ih others, first, Nat.ofDigitChars_cons]
      rfl
  rw [decimal, digits, same _ digit, Nat.ofDigitChars_ten_toDigits]

theorem head?_toDigits {n : ℕ} (positive : 0 < n) : (Nat.toDigits 10 n).head? ≠ some '0' := by
  induction n using Nat.strong_induction_on with
  | _ n ih =>
    by_cases small : n < 10
    · rw [Nat.toDigits_of_lt_base small]
      have digit : ∀ n < 10, 0 < n → [n.digitChar].head? ≠ some '0' := by decide
      exact digit n small positive
    · rw [Nat.toDigits_of_base_le (by decide) (by omega), List.head?_append_of_ne_nil _ Nat.toDigits_ne_nil]
      exact ih (n / 10) (by omega) (by omega)

/-- Only zero starts with a zero. -/
theorem no_leading_zero (n : ℕ) : ¬((digits n).head? = some 48 ∧ (digits n).length ≠ 1) := by
  rintro ⟨zero, long⟩
  by_cases positive : 0 < n
  · obtain ⟨c, first, same⟩ := Option.map_eq_some_iff.mp (List.head?_map ▸ zero)
    have digit := Nat.isDigit_of_mem_toDigits (by decide) (by decide) (List.mem_of_head? first)
    have value := (digit_spec digit).2
    rw [same] at value
    have isZero : c = '0' := Char.toNat_inj.mp value.symm
    exact head?_toDigits positive (isZero ▸ first)
  · obtain rfl : n = 0 := by omega
    exact long rfl

/-- What may follow a value in a list, or nothing. -/
def Stops (rest : Bytes) : Prop := ∀ b, rest.head? = some b → b = 44 ∨ b = 93 ∨ b = 125

theorem readFraction_stops (stops : Stops rest) : readFraction rest = some ([], rest) := by
  unfold readFraction
  split
  · exact absurd (stops 46 rfl) (by decide)
  · rfl

theorem readExponent_stops (stops : Stops rest) : readExponent rest = some ([], rest) := by
  cases rest with
  | nil => rfl
  | cons b rest =>
    rw [readExponent, if_neg]
    rintro (rfl | rfl) <;> exact absurd (stops _ rfl) (by decide)

theorem readDigits_digits (n : ℕ) (stops : Stops rest) : readDigits (digits n ++ rest) = some (digits n, rest) := by
  obtain ⟨taken, dropped⟩ := takeWhile_append_stop (fun b => isDigit_of_mem_digits (n := n))
    (fun b first => by rcases stops b first with rfl | rfl | rfl <;> decide)
  rw [readDigits, taken, dropped, if_neg (List.ne_nil_of_length_pos (length_digits_pos n))]

theorem readNumber_integer (n : ℤ) (stops : Stops rest) :
    readNumber (integer n ++ rest) = some (.number n, rest) := by
  have signed (minus : Bytes) (input : Bytes) (sign : readMinus input = (minus, digits n.natAbs ++ rest))
      (value : (if minus = [] then (n.natAbs : ℤ) else -n.natAbs) = n) (kept : minus = [] ∨ n.natAbs ≠ 0) :
      readNumber input = some (.number n, rest) := by
    rw [readNumber, sign]
    dsimp only
    rw [readDigits_digits _ stops]
    simp only [Option.bind_eq_bind, Option.bind_some]
    rw [if_neg (no_leading_zero _), readFraction_stops stops]
    simp only [Option.bind_some]
    rw [readExponent_stops stops]
    simp only [Option.bind_some]
    rw [decimal_digits, if_pos ⟨trivial, trivial, kept⟩, value]
  by_cases negative : n < 0
  · rw [integer, if_pos negative]
    exact signed [45] _ rfl (by rw [if_neg (by decide)]; omega) (.inr (by omega))
  · rw [integer, if_neg negative]
    refine signed [] _ ?_ (by rw [if_pos rfl]; omega) (.inl rfl)
    obtain ⟨b, l, split⟩ := List.exists_cons_of_ne_nil (List.ne_nil_of_length_pos (length_digits_pos n.natAbs))
    have digit := isDigit_of_mem_digits (n := n.natAbs) (b := b) (by rw [split]; exact List.mem_cons_self)
    rw [split, List.cons_append]
    unfold readMinus
    split
    · next same =>
      cases same
      exact absurd digit (by decide)
    · rfl

/-! ## Lists of items -/

/-- A text begins a value or a field. -/
def Opens (text : Bytes) : Prop := ∃ b l, text = b :: l ∧ isSpace b = false ∧ b ≠ 93 ∧ b ≠ 125

theorem skipSpace_cons (visible : isSpace b = false) : skipSpace (b :: rest) = b :: rest := by
  rw [skipSpace, List.dropWhile_cons_of_neg (by simp [visible])]

theorem Opens.skipSpace {text : Bytes} (opens : Opens text) : skipSpace (text ++ rest) = text ++ rest := by
  obtain ⟨b, l, rfl, visible, -⟩ := opens
  exact skipSpace_cons visible

section Items

variable {α : Type} {item : Bytes → Option (α × Bytes)} {close : UInt8} {a : α} {text : Bytes} {items : List α}
  {texts : List Bytes}

/-- A text is read as an item, whatever follows in a list. -/
def Reads (item : Bytes → Option (α × Bytes)) (a : α) (text : Bytes) : Prop :=
  ∀ rest, Stops rest → item (text ++ rest) = some (a, rest)

theorem readItems_commaSep (closes : close = 93 ∨ close = 125) (first : Reads item a text)
    (others : List.Forall₂ (Reads item) items texts) (enough : items.length < fuel) :
    readItems item close fuel (commaSep (text :: texts) ++ close :: rest) = some (a :: items, rest) := by
  have visible : isSpace close = false := by rcases closes with rfl | rfl <;> rfl
  have stops : Stops (close :: rest) := by
    intro b same
    cases same
    exact .inr closes
  induction others generalizing a text fuel with
  | nil =>
    obtain ⟨fuel, rfl⟩ : ∃ n, fuel = n + 1 := ⟨fuel - 1, by simp at enough; omega⟩
    rw [readItems, commaSep, List.flatMap_nil, List.append_nil, first _ stops]
    simp only [Option.bind_eq_bind, Option.bind_some]
    rw [skipSpace_cons visible]
    exact if_pos rfl
  | cons second _ ih =>
    next a' text' items texts _ =>
    obtain ⟨fuel, rfl⟩ : ∃ n, fuel = n + 1 := ⟨fuel - 1, by simp at enough; omega⟩
    have room : items.length < fuel := by simpa using enough
    have next := ih second room
    have split : commaSep (text :: text' :: texts) ++ close :: rest =
        text ++ 44 :: (commaSep (text' :: texts) ++ close :: rest) := by
      simp [commaSep]
    rw [readItems, split, first (44 :: _) (by intro b same; cases same; exact .inl rfl)]
    simp only [Option.bind_eq_bind, Option.bind_some]
    rw [skipSpace_cons (by decide)]
    dsimp only
    rw [if_neg (by rcases closes with rfl | rfl <;> decide), if_pos rfl, next]
    rfl

theorem readList_commaSep (closes : close = 93 ∨ close = 125) (read : List.Forall₂ (Reads item) items texts)
    (opens : ∀ text ∈ texts, Opens text) :
    readList item close (commaSep texts ++ close :: rest) = some (items, rest) := by
  have visible : isSpace close = false := by rcases closes with rfl | rfl <;> rfl
  cases read with
  | nil =>
    rw [readList, commaSep, List.nil_append, skipSpace_cons visible]
    exact if_pos rfl
  | cons first others =>
    next a text items texts =>
    obtain ⟨b, l, same, space, notArray, notObject⟩ := opens text List.mem_cons_self
    have many : texts.length ≤ (texts.flatMap (fun item => 44 :: item)).length := by
      rw [List.length_flatMap, ← List.length_map (f := fun item : Bytes => (44 :: item : Bytes).length)]
      exact List.length_le_sum_of_one_le _ (fun n member => by
        obtain ⟨item, -, rfl⟩ := List.mem_map.mp member
        simp)
    have enough : items.length < (commaSep (text :: texts) ++ close :: rest).length := by
      rw [others.length_eq, commaSep, List.length_append, List.length_append, List.length_cons]
      omega
    have split : commaSep (text :: texts) ++ close :: rest =
        b :: (l ++ texts.flatMap (fun item => 44 :: item) ++ close :: rest) := by
      rw [commaSep, same]
      simp
    have read : readItems item close _ (commaSep (text :: texts) ++ close :: rest) = some (a :: items, rest) :=
      readItems_commaSep closes first others enough
    rw [readList, split, skipSpace_cons space]
    dsimp only
    rw [if_neg (by rcases closes with rfl | rfl <;> assumption), ← split, read]

end Items

/-! ## Values -/

/-- A value that the compact writer may be given: its objects are in order, and it is not too deep. -/
def Fits (order : Fields → Fields) : ℕ → Value → Prop
  | _, .float _ => False
  | 0, .array _ => False
  | 0, .object _ => False
  | depth + 1, .array items => ∀ v ∈ items, Fits order depth v
  | depth + 1, .object fields => order fields = fields ∧ ∀ e ∈ fields, Fits order depth e.2
  | _, _ => True

variable {order : Fields → Fields} {depth : ℕ} {v : Value} {name : String} {text : Bytes}

theorem head_integer (n : ℤ) : ∃ b l, integer n = b :: l ∧ (b = 45 ∨ isDigit b = true) := by
  by_cases negative : n < 0
  · exact ⟨45, _, by rw [integer, if_pos negative], .inl rfl⟩
  · obtain ⟨b, l, split⟩ := List.exists_cons_of_ne_nil (List.ne_nil_of_length_pos (length_digits_pos n.natAbs))
    refine ⟨b, l, by rw [integer, if_neg negative, split], .inr ?_⟩
    exact isDigit_of_mem_digits (n := n.natAbs) (by rw [split]; exact List.mem_cons_self)

/-- What a number starts with starts nothing else. -/
theorem integer_head_spec (numeric : b = 45 ∨ isDigit b = true) : isSpace b = false ∧ b ≠ 93 ∧ b ≠ 125 ∧ b ≠ 34 ∧
    b ≠ 91 ∧ b ≠ 123 ∧ b ≠ 110 ∧ b ≠ 116 ∧ b ≠ 102 := by
  rcases numeric with rfl | digit
  · decide
  · have visible : isSpace b = false := by
      rw [Bool.eq_false_iff]
      intro space
      simp only [isSpace, Bool.or_eq_true, beq_iff_eq] at space
      rcases space with ((rfl | rfl) | rfl) | rfl <;> exact absurd digit (by decide)
    refine ⟨visible, ?_, ?_, ?_, ?_, ?_, ?_, ?_, ?_⟩ <;> rintro rfl <;> exact absurd digit (by decide)

theorem opens_text (fits : Fits order depth v) : Opens v.text := by
  cases v with
  | null => exact ⟨110, [117, 108, 108], by rw [Value.text]; rfl, by decide, by decide, by decide⟩
  | bool b =>
    cases b
    · exact ⟨102, [97, 108, 115, 101], by rw [Value.text]; rfl, by decide, by decide, by decide⟩
    · exact ⟨116, [114, 117, 101], by rw [Value.text]; rfl, by decide, by decide, by decide⟩
  | number n =>
    obtain ⟨b, l, split, numeric⟩ := head_integer n
    obtain ⟨visible, notArray, notObject, -⟩ := integer_head_spec numeric
    exact ⟨b, l, by rw [Value.text, split], visible, notArray, notObject⟩
  | float text => cases depth <;> exact fits.elim
  | string s => exact ⟨34, _, by rw [Value.text, Json.string, List.cons_append], by decide, by decide, by decide⟩
  | array items => exact ⟨91, _, by rw [Value.text, Json.array, List.cons_append], by decide, by decide, by decide⟩
  | object fields => exact ⟨123, _, by rw [Value.text, Json.object, List.cons_append], by decide, by decide, by decide⟩

theorem readScalar_string (s : String) : readScalar (Json.string s ++ rest) = some (.string s, rest) := by
  rw [Json.string, List.cons_append, List.cons_append, List.append_assoc]
  change (readString ((utf8 s).flatMap escape ++ ([34] ++ rest))).map _ = _
  rw [List.singleton_append, readString_eq]
  rfl

theorem readScalar_integer (n : ℤ) (stops : Stops rest) :
    readScalar (integer n ++ rest) = some (.number n, rest) := by
  have number := readNumber_integer n stops
  obtain ⟨b, l, split, numeric⟩ := head_integer n
  obtain ⟨-, -, -, notString, -, -, notNull, notTrue, notFalse⟩ := integer_head_spec numeric
  rw [split, List.cons_append] at number ⊢
  have absent (word : String) (v : Value) (first : UInt8) (more : Bytes) (same : utf8 word = first :: more)
      (differs : b ≠ first) : readLiteral word v (b :: (l ++ rest)) = none := by
    rw [readLiteral, same, List.isPrefixOf_cons_cons, beq_false_of_ne differs.symm]
    rfl
  unfold readScalar
  split
  · next same => exact absurd (List.cons.inj same).1 notString
  · rw [absent "null" _ 110 [117, 108, 108] rfl notNull, absent "true" _ 116 [114, 117, 101] rfl notTrue,
      absent "false" _ 102 [97, 108, 115, 101] rfl notFalse, number]
    rfl

theorem readValue_scalar (visible : isSpace b = false) (notArray : b ≠ 91) (notObject : b ≠ 123) :
    readValue order depth (b :: rest) = readScalar (b :: rest) := by
  cases depth with
  | zero => rw [readValue, skipSpace_cons visible]
  | succ depth =>
    rw [readValue, skipSpace_cons visible]
    split
    · next same => exact absurd (List.cons.inj same).1 notArray
    · next same => exact absurd (List.cons.inj same).1 notObject
    · rfl

theorem readField_text {item : Bytes → Option (Value × Bytes)} (name : String) (read : Reads item v text) :
    Reads (readField item) (name, v) (field name text) := by
  intro rest stops
  have split : field name text ++ rest = 34 :: ((utf8 name).flatMap escape ++ 34 :: (58 :: (text ++ rest))) := by
    simp [field, Json.string]
  rw [readField, split, skipSpace_cons (by decide)]
  change (readString ((utf8 name).flatMap escape ++ 34 :: (58 :: (text ++ rest)))).bind _ = _
  rw [readString_eq]
  simp only [Option.bind_eq_bind, Option.bind_some]
  rw [skipSpace_cons (by decide)]
  change (item (text ++ rest)).bind _ = _
  rw [read rest stops]
  rfl

theorem reads_scalar (opens : v.text = b :: text) (visible : isSpace b = false) (notArray : b ≠ 91)
    (notObject : b ≠ 123) (read : ∀ rest, Stops rest → readScalar (v.text ++ rest) = some (v, rest)) :
    Reads (readValue order depth) v v.text := by
  intro rest stops
  have scalar := read rest stops
  rw [opens, List.cons_append] at scalar ⊢
  rw [readValue_scalar visible notArray notObject, scalar]

theorem reads_array {items : List Value} (read : ∀ v ∈ items, Reads (readValue order depth) v v.text)
    (opens : ∀ v ∈ items, Opens v.text) :
    Reads (readValue order (depth + 1)) (.array items) (Value.array items).text := by
  intro rest stops
  have all : List.Forall₂ (Reads (readValue order depth)) items (items.map Value.text) :=
    List.forall₂_map_right_iff.mpr (List.forall₂_same.mpr read)
  have texts : ∀ text ∈ items.map Value.text, Opens text := by
    intro text member
    obtain ⟨v, listed, rfl⟩ := List.mem_map.mp member
    exact opens v listed
  rw [Value.text, Json.array, List.cons_append, List.cons_append, List.append_assoc, List.singleton_append, readValue,
    skipSpace_cons (by decide)]
  change (readList (readValue order depth) 93 _).map _ = _
  rw [readList_commaSep (.inl rfl) all texts]
  rfl

theorem reads_object {fields : Fields} (ordered : order fields = fields)
    (read : ∀ e ∈ fields, Reads (readValue order depth) e.2 e.2.text) :
    Reads (readValue order (depth + 1)) (.object fields) (Value.object fields).text := by
  intro rest stops
  have all : List.Forall₂ (Reads (readField (readValue order depth))) fields
      (fields.map (fun e => field e.1 e.2.text)) :=
    List.forall₂_map_right_iff.mpr (List.forall₂_same.mpr (fun e listed => readField_text e.1 (read e listed)))
  have texts : ∀ text ∈ fields.map (fun e => field e.1 e.2.text), Opens text := by
    intro text member
    obtain ⟨e, -, rfl⟩ := List.mem_map.mp member
    exact ⟨34, _, by rw [field, Json.string, List.cons_append]; rfl, by decide, by decide, by decide⟩
  rw [Value.text, Json.object, List.cons_append, List.cons_append, List.append_assoc, List.singleton_append,
    readValue, skipSpace_cons (by decide)]
  change (readList (readField (readValue order depth)) 125 _).map _ = _
  rw [readList_commaSep (.inr rfl) all texts, Option.map_some]
  exact congrArg (fun fields => some (Value.object fields, rest)) ordered

/-- The compact text of a value is read back. -/
theorem reads_text (fits : Fits order depth v) : Reads (readValue order depth) v v.text := by
  induction depth using Nat.strong_induction_on generalizing v with
  | _ depth ih =>
    cases v with
    | null =>
      have word : Value.null.text = 110 :: [117, 108, 108] := by rw [Value.text]; rfl
      exact reads_scalar word (by decide) (by decide) (by decide) (fun rest _ => by rw [word]; rfl)
    | bool b =>
      cases b
      · have word : (Value.bool false).text = 102 :: [97, 108, 115, 101] := by rw [Value.text]; rfl
        exact reads_scalar word (by decide) (by decide) (by decide) (fun rest _ => by rw [word]; rfl)
      · have word : (Value.bool true).text = 116 :: [114, 117, 101] := by rw [Value.text]; rfl
        exact reads_scalar word (by decide) (by decide) (by decide) (fun rest _ => by rw [word]; rfl)
    | number n =>
      obtain ⟨b, l, split, numeric⟩ := head_integer n
      obtain ⟨visible, -, -, -, notArray, notObject, -⟩ := integer_head_spec numeric
      refine reads_scalar (by rw [Value.text, split]) visible notArray notObject ?_
      intro rest stops
      rw [Value.text]
      exact readScalar_integer n stops
    | float text => cases depth <;> exact fits.elim
    | string s =>
      refine reads_scalar (by rw [Value.text, Json.string, List.cons_append]) (by decide) (by decide) (by decide) ?_
      intro rest stops
      rw [Value.text]
      exact readScalar_string s
    | array items =>
      cases depth with
      | zero => exact fits.elim
      | succ depth =>
        exact reads_array (fun v listed => ih depth (by omega) (fits v listed))
          (fun v listed => opens_text (fits v listed))
    | object fields =>
      cases depth with
      | zero => exact fits.elim
      | succ depth => exact reads_object fits.1 (fun e listed => ih depth (by omega) (fits.2 e listed))

theorem fromSlice_text (fits : Fits order maxDepth v) : fromSlice order v.text = some v := by
  have read := reads_text fits [] (by intro b first; cases first)
  rw [List.append_nil] at read
  rw [fromSlice, read]
  rfl

end Reading

/-! ## Keeping fields -/

section Keeping

open OrdMap

variable {fields : Fields} {name : String}

/-- Under this order a name still finds its value, and fields in order stay. -/
structure Keeps (order : Fields → Fields) : Prop where
  lookup : ∀ {fields : Fields}, (fields.map Prod.fst).Nodup → ∀ name,
    lookupEntry name (order fields) = lookupEntry name fields
  mem : ∀ {fields : Fields} {e}, e ∈ order fields → e ∈ fields
  again : ∀ fields, order (order fields) = order fields
  single : ∀ e, order [e] = [e]

theorem keeps_asListed : Keeps asListed := ⟨fun _ _ => rfl, id, fun _ => rfl, fun _ => rfl⟩

theorem lookupEntry_eq_none {α : Type} {l : List (String × α)} (absent : name ∉ l.map Prod.fst) :
    lookupEntry name l = none := by
  induction l with
  | nil => rfl
  | cons e rest ih =>
    rw [List.map_cons, List.mem_cons, not_or] at absent
    rw [lookupEntry, if_neg absent.1, ih absent.2]

theorem get?_keyed (nodup : (fields.map Prod.fst).Nodup) (m : OrdMap String Value) (name : String) :
    (keyed m fields).get? name = (lookupEntry name fields).or (m.get? name) := by
  induction fields generalizing m with
  | nil => rfl
  | cons e rest ih =>
    obtain ⟨fresh, others⟩ := List.nodup_cons.mp nodup
    have step := ih others (m.insert e.1 e.2)
    change (keyed (m.insert e.1 e.2) rest).get? name = _
    rw [step, get?_insert, lookupEntry]
    split_ifs with same
    · rw [same, lookupEntry_eq_none fresh]
      rfl
    · rfl

theorem mem_keyed {m : OrdMap String Value} {e : String × Value} (member : e ∈ (keyed m fields).entries) :
    e ∈ fields ∨ e ∈ m.entries := by
  induction fields generalizing m with
  | nil => exact .inr member
  | cons first rest ih =>
    rcases ih (m := m.insert first.1 first.2) member with listed | there
    · exact .inl (List.mem_cons_of_mem _ listed)
    · rcases fst_mem_insertEntry there with rfl | old
      · exact .inl List.mem_cons_self
      · exact .inr old

theorem keyed_entries (m : OrdMap String Value) : keyed ∅ m.entries = m := by
  apply OrdMap.ext_get?
  intro name
  rw [get?_keyed m.keys_nodup, get?_empty, Option.or_none]
  rfl

theorem perm_keyed (nodup : (fields.map Prod.fst).Nodup) {m : OrdMap String Value}
    (fresh : ∀ name ∈ fields.map Prod.fst, m.get? name = none) : (keyed m fields).entries.Perm (fields ++ m.entries) := by
  induction fields generalizing m with
  | nil => exact .refl _
  | cons e rest ih =>
    obtain ⟨new, others⟩ := List.nodup_cons.mp nodup
    have later : ∀ name ∈ rest.map Prod.fst, (m.insert e.1 e.2).get? name = none := by
      intro name member
      have differs : name ≠ e.1 := fun same => new (by rwa [← same])
      rw [get?_insert_of_ne _ _ differs]
      exact fresh name (List.mem_cons_of_mem _ member)
    have first : m.get? e.1 = none := fresh e.1 List.mem_cons_self
    have inserted := (perm_insert_of_none e.2 first).append_left rest
    exact (ih others later).trans (inserted.trans List.perm_middle)

/-- Fields with different names are only put in another order. -/
theorem perm_inOrder (nodup : (fields.map Prod.fst).Nodup) : (inOrder fields).Perm fields := by
  have same := perm_keyed nodup (fun name _ => get?_empty name)
  rwa [show (∅ : OrdMap String Value).entries = [] from rfl, List.append_nil] at same

theorem keeps_inOrder : Keeps inOrder where
  lookup nodup name := by
    change (keyed ∅ _).get? name = _
    rw [get?_keyed nodup, get?_empty, Option.or_none]
  mem member := (mem_keyed member).resolve_right (List.not_mem_nil)
  again fields := congrArg OrdMap.entries (keyed_entries (keyed ∅ fields))
  single _ := rfl

end Keeping

end Json
