import Clix.ToMathlib.Lines
import Clix.ToMathlib.JsonText

/-! # Compact JSON as one line of text

The compact text of a value is UTF-8 and has no line break, so it can be sent as a line and is a string where it
arrives. A reader that takes no more than a line may have finds the line and leaves the rest of the input.
-/

namespace Json

/-- The UTF-8 of a string without line break. -/
structure OneLine (text : Bytes) : Prop where
  unbroken : newline ∉ text
  decoded : ∃ s : String, utf8 s = text

namespace OneLine

variable {a b : Bytes}

theorem nil : OneLine [] := ⟨List.not_mem_nil, "", rfl⟩

theorem append (left : OneLine a) (right : OneLine b) : OneLine (a ++ b) where
  unbroken inside := (List.mem_append.mp inside).elim left.unbroken right.unbroken
  decoded := by
    obtain ⟨s, rfl⟩ := left.decoded
    obtain ⟨t, rfl⟩ := right.decoded
    refine ⟨s ++ t, ?_⟩
    rw [utf8_eq_flatMap, utf8_eq_flatMap, utf8_eq_flatMap, String.toList_append, List.flatMap_append]

theorem flatMap {α : Type} {l : List α} {f : α → Bytes} (each : ∀ x ∈ l, OneLine (f x)) : OneLine (l.flatMap f) := by
  induction l with
  | nil => exact nil
  | cons x l ih =>
    obtain ⟨first, others⟩ := List.forall_mem_cons.mp each
    rw [List.flatMap_cons]
    exact first.append (ih others)

/-- One ASCII character that does not end a line. -/
theorem ascii {n : ℕ} (small : n < 128) (visible : n ≠ 10) : OneLine [n.toUInt8] := by
  have encoded : ∀ n < 128, String.utf8EncodeChar (Char.ofNat n) = [n.toUInt8] := by decide
  have apart : ∀ n < 128, n ≠ 10 → newline ≠ n.toUInt8 := by decide
  refine ⟨fun inside => apart n small visible (List.mem_singleton.mp inside), String.ofList [Char.ofNat n], ?_⟩
  rw [utf8_eq_flatMap, String.toList_ofList, List.flatMap_singleton, encoded n small]

theorem cons {n : ℕ} (small : n < 128) (visible : n ≠ 10) (rest : OneLine b) : OneLine (n.toUInt8 :: b) :=
  (ascii small visible).append rest

end OneLine

/-! ## The pieces of a text -/

/-- An escaped ASCII character is ASCII. -/
theorem oneLine_escape {n : ℕ} (small : n < 128) : OneLine (escape n.toUInt8) := by
  have plain : ∀ n < 128, ∀ b ∈ escape n.toUInt8, ∃ m < 128, m ≠ 10 ∧ b = Nat.toUInt8 m := by
    have each : ∀ n < 128, (escape n.toUInt8).all (fun b => decide (b.toNat < 128 ∧ b.toNat ≠ 10)) = true := by decide
    intro n small b member
    have spec := of_decide_eq_true (List.all_eq_true.mp (each n small) b member)
    exact ⟨b.toNat, spec.1, spec.2, (UInt8.ofNat_toNat).symm⟩
  have each := OneLine.flatMap (l := escape n.toUInt8) (f := fun b => [b]) (fun b member => by
    obtain ⟨m, low, visible, rfl⟩ := plain n small b member
    exact .ascii low visible)
  rwa [List.flatMap_singleton'] at each

/-- Bytes of longer characters stay as they are. -/
theorem escape_high {b : UInt8} (high : 128 ≤ b.toNat) : escape b = [b] := by
  have apart : ∀ m : UInt8, m.toNat < 128 → b ≠ m := by
    rintro m small rfl
    omega
  have above : ¬b < 32 := fun low => by
    have small : b.toNat < 32 := UInt8.lt_iff_toNat_lt.mp low
    omega
  rw [escape, if_neg (apart 34 (by decide)), if_neg (apart 92 (by decide)), if_neg (apart 8 (by decide)),
    if_neg (apart 9 (by decide)), if_neg (apart 10 (by decide)), if_neg (apart 12 (by decide)),
    if_neg (apart 13 (by decide)), if_neg above]

theorem le_toNat_or (x : UInt8) {y : UInt8} (high : 128 ≤ y.toNat) : 128 ≤ (x ||| y).toNat := by
  rw [UInt8.toNat_or]
  exact high.trans Nat.right_le_or

/-- A character is one ASCII byte, or all its bytes are above ASCII. -/
theorem utf8EncodeChar_cases (ch : Char) :
    (∃ n < 128, String.utf8EncodeChar ch = [n.toUInt8]) ∨ ∀ b ∈ String.utf8EncodeChar ch, 128 ≤ b.toNat := by
  have high : ∀ x : UInt8, 128 ≤ (x ||| 0x80).toNat := fun x => le_toNat_or x (by decide)
  rw [String.utf8EncodeChar_eq_utf8EncodeCharFast, String.utf8EncodeCharFast]
  split_ifs with one two three
  · have small : ch.val.toNat ≤ 127 := UInt32.le_iff_toNat_le.mp one
    exact .inl ⟨ch.val.toNat, by omega, rfl⟩
  · exact .inr (List.forall_mem_cons.mpr ⟨le_toNat_or _ (by decide), List.forall_mem_singleton.mpr (high _)⟩)
  · exact .inr (List.forall_mem_cons.mpr ⟨le_toNat_or _ (by decide),
      List.forall_mem_cons.mpr ⟨high _, List.forall_mem_singleton.mpr (high _)⟩⟩)
  · exact .inr (List.forall_mem_cons.mpr ⟨le_toNat_or _ (by decide),
      List.forall_mem_cons.mpr ⟨high _, List.forall_mem_cons.mpr ⟨high _, List.forall_mem_singleton.mpr (high _)⟩⟩⟩)

theorem oneLine_char (ch : Char) : OneLine ((String.utf8EncodeChar ch).flatMap escape) := by
  rcases utf8EncodeChar_cases ch with ⟨n, small, single⟩ | high
  · rw [single, List.flatMap_singleton]
    exact oneLine_escape small
  · have same : (String.utf8EncodeChar ch).flatMap escape = String.utf8EncodeChar ch := by
      rw [List.flatMap_congr (fun b member => escape_high (high b member)), List.flatMap_singleton']
    rw [same]
    refine ⟨fun inside => absurd (high _ inside) (by decide), String.ofList [ch], ?_⟩
    rw [utf8_eq_flatMap, String.toList_ofList, List.flatMap_singleton]

theorem oneLine_string (s : String) : OneLine (string s) := by
  rw [string, utf8_eq_flatMap, List.flatMap_assoc]
  exact (OneLine.cons (n := 34) (by decide) (by decide) (.flatMap fun ch _ => oneLine_char ch)).append
    (.ascii (n := 34) (by decide) (by decide))

theorem oneLine_digits (n : ℕ) : OneLine (digits n) := by
  rw [digits, ← List.flatMap_singleton' ((Nat.toDigits 10 n).map _), List.flatMap_map]
  refine OneLine.flatMap (fun ch member => ?_)
  have digit := Nat.isDigit_of_mem_toDigits (by decide) (by decide) member
  simp only [Char.isDigit, Bool.and_eq_true, decide_eq_true_eq] at digit
  have low : 48 ≤ ch.toNat := digit.1
  have high : ch.toNat ≤ 57 := digit.2
  exact .ascii (by omega) (by omega)

theorem oneLine_integer (n : ℤ) : OneLine (integer n) := by
  rw [integer]
  split_ifs
  · exact .cons (n := 45) (by decide) (by decide) (oneLine_digits _)
  · exact oneLine_digits _

theorem oneLine_commaSep {items : List Bytes} (each : ∀ item ∈ items, OneLine item) : OneLine (commaSep items) := by
  cases items with
  | nil => exact .nil
  | cons first rest =>
    obtain ⟨head, others⟩ := List.forall_mem_cons.mp each
    exact head.append (.flatMap fun item listed => .cons (n := 44) (by decide) (by decide) (others item listed))

theorem oneLine_field {name : String} {value : Bytes} (line : OneLine value) : OneLine (field name value) :=
  (oneLine_string name).append (.cons (n := 58) (by decide) (by decide) line)

/-- The compact text of a value is one line. -/
theorem oneLine_text {order : Fields → Fields} {depth : ℕ} {v : Value} (fits : Fits order depth v) :
    OneLine v.text := by
  induction depth using Nat.strong_induction_on generalizing v with
  | _ depth ih =>
    cases v with
    | null =>
      rw [Value.text]
      exact ⟨by decide, "null", rfl⟩
    | bool b =>
      rw [Value.text]
      cases b
      · exact ⟨by decide, "false", rfl⟩
      · exact ⟨by decide, "true", rfl⟩
    | number n =>
      rw [Value.text]
      exact oneLine_integer n
    | float text => cases depth <;> exact fits.elim
    | string s =>
      rw [Value.text]
      exact oneLine_string s
    | array items =>
      cases depth with
      | zero => exact fits.elim
      | succ depth =>
        rw [Value.text, array]
        refine (OneLine.cons (n := 91) (by decide) (by decide) (oneLine_commaSep ?_)).append
          (.ascii (n := 93) (by decide) (by decide))
        exact List.forall_mem_map.mpr (fun v listed => ih depth (by omega) (fits v listed))
    | object fields =>
      cases depth with
      | zero => exact fits.elim
      | succ depth =>
        rw [Value.text, object]
        refine (OneLine.cons (n := 123) (by decide) (by decide) (oneLine_commaSep ?_)).append
          (.ascii (n := 125) (by decide) (by decide))
        exact List.forall_mem_map.mpr (fun e listed => oneLine_field (ih depth (by omega) (fits.2 e listed)))

/-! ## Reading a line -/

/-- The bytes up to the end of a line, or as many as a line may have and one more; and what is left. -/
def takeLine (limit : ℕ) (input : Bytes) : Bytes × Bytes :=
  let line := (input.take (limit + 1)).takeWhile (· ≠ newline) ++
    ((input.take (limit + 1)).dropWhile (· ≠ newline)).take 1
  (line, input.drop line.length)

theorem takeLine_line {limit : ℕ} {line : Bytes} (unbroken : newline ∉ line) (short : line.length < limit)
    (rest : Bytes) : takeLine limit (line ++ newline :: rest) = (line ++ [newline], rest) := by
  have taken : (line ++ newline :: rest).take (limit + 1) = line ++ newline :: rest.take (limit - line.length) := by
    rw [List.take_append, List.take_of_length_le (by omega), show limit + 1 - line.length = limit - line.length + 1 by omega,
      List.take_succ_cons]
  have clear : ∀ b ∈ line, decide (b ≠ newline) = true := fun b member =>
    decide_eq_true (fun same => unbroken (same ▸ member))
  have first : ((line ++ newline :: rest).take (limit + 1)).takeWhile (· ≠ newline) = line := by
    rw [taken, List.takeWhile_append_of_pos clear, List.takeWhile_cons_of_neg (by decide), List.append_nil]
  have second : (((line ++ newline :: rest).take (limit + 1)).dropWhile (· ≠ newline)).take 1 = [newline] := by
    rw [taken, List.dropWhile_append_of_pos clear, List.dropWhile_cons_of_neg (by decide)]
    rfl
  have left : (line ++ newline :: rest).drop (line ++ [newline]).length = rest := by
    rw [List.append_cons line newline rest, List.drop_left]
  rw [takeLine, first, second, left]

end Json
