import Clix.ToMathlib.Json

/-! # Texts that can be told apart

The text of a string is where it ends, whatever follows it, and so is the text of an array of strings. So a compact
JSON text of strings and arrays of strings determines them.
-/

namespace Json

/-- A writer whose texts tell where they end. -/
def Delimited {α : Type} (write : α → Bytes) : Prop :=
  ∀ a b r r', write a ++ r = write b ++ r' → a = b ∧ r = r'

/-- Read one byte of text back. -/
def unescape : Bytes → Option (UInt8 × Bytes)
  | [] => none
  | 92 :: 34 :: r => some (34, r)
  | 92 :: 92 :: r => some (92, r)
  | 92 :: 98 :: r => some (8, r)
  | 92 :: 116 :: r => some (9, r)
  | 92 :: 110 :: r => some (10, r)
  | 92 :: 102 :: r => some (12, r)
  | 92 :: 114 :: r => some (13, r)
  | 92 :: 117 :: 48 :: 48 :: high :: low :: r =>
    some ((high - 48) * 16 + (if low < 58 then low - 48 else low - 87), r)
  | b :: r => some (b, r)

theorem unescape_escape (b : UInt8) (r : Bytes) : unescape (escape b ++ r) = some (b, r) := by
  unfold escape
  split_ifs with h1 h2 h3 h4 h5 h6 h7 h8
  · subst h1; rfl
  · subst h2; rfl
  · subst h3; rfl
  · subst h4; rfl
  · subst h5; rfl
  · subst h6; rfl
  · subst h7; rfl
  · have back : ∀ n : Fin 32, (hexDigit (n.val / 16) - 48) * 16 +
        (if hexDigit (n.val % 16) < 58 then hexDigit (n.val % 16) - 48 else hexDigit (n.val % 16) - 87) =
          n.val.toUInt8 := by decide
    have small : b.toNat < 32 := h8
    have same := back ⟨b.toNat, small⟩
    change some (_, r) = some (b, r)
    rw [same]
    simp
  · change unescape (b :: r) = some (b, r)
    unfold unescape
    split <;> simp_all

theorem head_escape (b : UInt8) (r : Bytes) : ∃ first rest, escape b ++ r = first :: rest ∧ first ≠ 34 := by
  unfold escape
  split_ifs with h1 h2 h3 h4 h5 h6 h7 h8
  all_goals first | exact ⟨92, _, rfl, by decide⟩ | exact ⟨b, r, rfl, h1⟩

/-- The body of a string ends at its quotation mark. -/
theorem body_inj {l l' r r' : Bytes} (same : l.flatMap escape ++ 34 :: r = l'.flatMap escape ++ 34 :: r') :
    l = l' ∧ r = r' := by
  induction l generalizing l' with
  | nil =>
    cases l' with
    | nil => exact ⟨rfl, (List.cons.inj same).2⟩
    | cons b l' =>
      rw [List.flatMap_cons, List.append_assoc] at same
      obtain ⟨first, rest, shape, other⟩ := head_escape b (l'.flatMap escape ++ 34 :: r')
      rw [shape] at same
      exact absurd (List.cons.inj same).1.symm other
  | cons a l ih =>
    cases l' with
    | nil =>
      rw [List.flatMap_cons, List.append_assoc] at same
      obtain ⟨first, rest, shape, other⟩ := head_escape a (l.flatMap escape ++ 34 :: r)
      rw [shape] at same
      exact absurd (List.cons.inj same).1 other
    | cons b l' =>
      rw [List.flatMap_cons, List.flatMap_cons, List.append_assoc, List.append_assoc] at same
      have read := congrArg unescape same
      rw [unescape_escape, unescape_escape] at read
      obtain ⟨head, tail⟩ := Prod.mk.inj (Option.some.inj read)
      obtain ⟨others, rest⟩ := ih tail
      exact ⟨by rw [head, others], rest⟩

theorem utf8_injective {s t : String} (same : utf8 s = utf8 t) : s = t := by
  refine String.toByteArray_inj.mp ?_
  exact ByteArray.ext (Array.toList_inj.mp same)

theorem delimited_string : Delimited string := by
  intro s t r r' same
  rw [string, string, List.append_assoc, List.append_assoc, List.cons_append, List.cons_append] at same
  obtain ⟨text, rest⟩ := body_inj (List.cons.inj same).2
  exact ⟨utf8_injective text, rest⟩

variable {α : Type} {write : α → Bytes}

/-- After an item comes a comma or the end. -/
theorem items_inj (delimited : Delimited write) {l l' : List α} {r r' : Bytes}
    (same : (l.map write).flatMap (fun item => 44 :: item) ++ 93 :: r =
      (l'.map write).flatMap (fun item => 44 :: item) ++ 93 :: r') : l = l' ∧ r = r' := by
  induction l generalizing l' with
  | nil =>
    cases l' with
    | nil => exact ⟨rfl, (List.cons.inj same).2⟩
    | cons b l' => exact absurd (List.cons.inj same).1 (by decide)
  | cons a l ih =>
    cases l' with
    | nil => exact absurd (List.cons.inj same).1 (by decide)
    | cons b l' =>
      simp only [List.map_cons, List.flatMap_cons, List.cons_append, List.append_assoc, List.cons.injEq,
        true_and] at same
      obtain ⟨rfl, tail⟩ := delimited a b _ _ same
      obtain ⟨rfl, rest⟩ := ih tail
      exact ⟨rfl, rest⟩

/-- An array of items that do not look like its end. -/
theorem delimited_array (delimited : Delimited write) (starts : ∀ a, ∃ first rest, write a = first :: rest ∧ first ≠ 93) :
    Delimited (fun l : List α => array (l.map write)) := by
  intro l l' r r' same
  simp only [array, List.cons_append, List.append_assoc, List.nil_append, List.cons.injEq, true_and] at same
  cases l with
  | nil =>
    cases l' with
    | nil => exact ⟨rfl, (List.cons.inj same).2⟩
    | cons b l' =>
      obtain ⟨first, rest, shape, other⟩ := starts b
      rw [List.map_cons, commaSep, shape] at same
      exact absurd (List.cons.inj same).1.symm other
  | cons a l =>
    cases l' with
    | nil =>
      obtain ⟨first, rest, shape, other⟩ := starts a
      rw [List.map_cons, commaSep, shape] at same
      exact absurd (List.cons.inj same).1 other
    | cons b l' =>
      rw [List.map_cons, List.map_cons, commaSep, commaSep, List.append_assoc, List.append_assoc] at same
      obtain ⟨rfl, tail⟩ := delimited a b _ _ same
      obtain ⟨rfl, rest⟩ := items_inj delimited tail
      exact ⟨rfl, rest⟩

theorem delimited_strings : Delimited (toVec : List String → Bytes) :=
  delimited_array delimited_string (fun s => ⟨34, _, rfl, by decide⟩)

theorem delimited_optional_string : Delimited (toVec : Option String → Bytes) := by
  intro a b r r' same
  cases a with
  | none =>
    cases b with
    | none => exact ⟨rfl, List.append_cancel_left same⟩
    | some t => exact absurd (List.cons.inj same).1 (by decide)
  | some s =>
    cases b with
    | none => exact absurd (List.cons.inj same).1 (by decide)
    | some t =>
      obtain ⟨rfl, rest⟩ := delimited_string s t r r' same
      exact ⟨rfl, rest⟩

end Json
