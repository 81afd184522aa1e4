import Clix.ToMathlib.Json

/-! # Lines of compact JSON

Compact JSON text has no line break, so texts that each end with one can be told apart in a stream.
-/

namespace Json

/-- The byte that ends a line. -/
abbrev newline : UInt8 := 10

theorem hexDigit_ne_newline {n : ℕ} (small : n < 16) : hexDigit n ≠ newline := by
  have all : ∀ n < 16, hexDigit n ≠ newline := by decide
  exact all n small

theorem newline_not_mem_escape (b : UInt8) : newline ∉ escape b := by
  have high : hexDigit (b.toNat / 16) ≠ 10 := hexDigit_ne_newline (by have := b.toNat_lt; omega)
  have low : hexDigit (b.toNat % 16) ≠ 10 := hexDigit_ne_newline (Nat.mod_lt _ (by decide))
  change (10 : UInt8) ∉ escape b
  unfold escape
  split_ifs <;> simp_all [Ne.symm high, Ne.symm low, eq_comm]

theorem newline_not_mem_string (s : String) : newline ∉ string s := by
  rw [string, List.cons_append, List.mem_cons, List.mem_append, List.mem_flatMap, not_or, not_or]
  refine ⟨by decide, ?_, by decide⟩
  rintro ⟨b, -, inside⟩
  exact newline_not_mem_escape b inside

theorem newline_not_mem_digits (n : ℕ) : newline ∉ digits n := by
  rw [digits, List.mem_map]
  rintro ⟨ch, inside, same⟩
  have digit := Nat.isDigit_of_mem_toDigits (by decide) (by decide) inside
  simp only [Char.isDigit, Bool.and_eq_true, decide_eq_true_eq] at digit
  have low : 48 ≤ ch.toNat := digit.1
  have high : ch.toNat ≤ 57 := digit.2
  have back := congrArg UInt8.toNat same
  rw [show ch.toNat.toUInt8.toNat = ch.toNat % 256 from rfl, Nat.mod_eq_of_lt (by omega)] at back
  change ch.toNat = 10 at back
  omega

theorem newline_not_mem_commaSep {items : List Bytes} (each : ∀ item ∈ items, newline ∉ item) :
    newline ∉ commaSep items := by
  cases items with
  | nil => exact List.not_mem_nil
  | cons first rest =>
    obtain ⟨clear, others⟩ := List.forall_mem_cons.mp each
    rw [commaSep, List.mem_append, List.mem_flatMap, not_or]
    refine ⟨clear, ?_⟩
    rintro ⟨item, listed, inside⟩
    rcases List.mem_cons.mp inside with comma | inside
    · exact absurd comma (by decide)
    · exact others item listed inside

theorem newline_not_mem_array {items : List Bytes} (each : ∀ item ∈ items, newline ∉ item) :
    newline ∉ array items := by
  rw [array, List.cons_append, List.mem_cons, List.mem_append, not_or, not_or]
  exact ⟨by decide, newline_not_mem_commaSep each, by decide⟩

theorem newline_not_mem_field {name : String} {value : Bytes} (clear : newline ∉ value) :
    newline ∉ field name value := by
  rw [field, List.mem_append, List.mem_cons, not_or, not_or]
  exact ⟨newline_not_mem_string name, by decide, clear⟩

theorem newline_not_mem_object {fields : List Bytes} (each : ∀ item ∈ fields, newline ∉ item) :
    newline ∉ object fields := by
  rw [object, List.cons_append, List.mem_cons, List.mem_append, not_or, not_or]
  exact ⟨by decide, newline_not_mem_commaSep each, by decide⟩

theorem newline_not_mem_bool (b : Bool) : newline ∉ toVec b := by
  cases b <;> decide

end Json

namespace List

/-- The first line of a stream is determined by the stream. -/
theorem line_inj {α : Type} {a : α} {l l' r r' : List α} (clear : a ∉ l) (clear' : a ∉ l')
    (same : l ++ a :: r = l' ++ a :: r') : l = l' ∧ r = r' := by
  induction l generalizing l' with
  | nil =>
    cases l' with
    | nil => exact ⟨rfl, (cons.inj same).2⟩
    | cons b l' => exact absurd ((cons.inj same).1 ▸ mem_cons_self) clear'
  | cons b l ih =>
    cases l' with
    | nil => exact absurd ((cons.inj same).1 ▸ mem_cons_self) clear
    | cons b' l' =>
      obtain ⟨head, tail⟩ := cons.inj same
      rw [mem_cons, not_or] at clear clear'
      obtain ⟨rest, others⟩ := ih clear.2 clear'.2 tail
      exact ⟨by rw [head, rest], others⟩

end List
