import Clix.Model.Cli

/-! # What `--for` accepts

A duration is decimal digits and a unit. The parser is exact on every text but two kinds: it panics when the last
character takes several bytes, and it takes a plus sign before the digits.
-/

namespace Clix.Cli

open Except

/-- The value of decimal digits behind those of a number. -/
def decimal (n : ℕ) (digits : List Char) : ℕ := digits.foldl (fun n ch => n * 10 + (ch.toNat - 48)) n

def unitSeconds? : Char → Option ℕ
  | 's' => some 1
  | 'm' => some 60
  | 'h' => some 3600
  | 'd' => some 86400
  | _ => none

/-- Decimal digits and a unit, for a number of seconds that fits 64 bits. -/
def Denotes (text : List Char) (seconds : ℕ) : Prop :=
  ∃ digits unit factor, text = digits ++ [unit] ∧ digits ≠ [] ∧ (∀ ch ∈ digits, ch.isDigit = true) ∧
    unitSeconds? unit = some factor ∧ seconds = decimal 0 digits * factor ∧ seconds < 2 ^ 64

/-- The parser answers for a text as it should. -/
def Exact (text : List Char) : Call UInt64 → Prop
  | .panics => False
  | .returns (.ok d) => Denotes text d.toNat
  | .returns (.error e) => (∃ message, e = .usage message) ∧ ∀ seconds, ¬Denotes text seconds

/-- The last character is a single byte, and no plus sign is before a duration. -/
def Plain (text : List Char) : Prop :=
  (∀ ch, text.getLast? = some ch → ch.utf8Size = 1) ∧ ∀ rest seconds, text = '+' :: rest → ¬Denotes rest seconds

/-! ## Splitting off the last byte -/

theorem len_cons (ch : Char) (rest : List Char) : len (ch :: rest) = ch.utf8Size + len rest := rfl

theorem len_append_singleton (first : List Char) (ch : Char) : len (first ++ [ch]) = len first + ch.utf8Size := by
  simp [len]

/-- Past a character, what is left to split is the rest. -/
theorem splitAt_cons {ch : Char} {rest : List Char} {n : ℕ} (past : ch.utf8Size ≤ n) :
    splitAt (ch :: rest) n = (splitAt rest (n - ch.utf8Size)).map (fun (first, second) => (ch :: first, second)) := by
  have positive := ch.utf8Size_pos
  cases n with
  | zero => omega
  | succ n => rw [splitAt, if_pos past]

theorem splitAt_append (first second : List Char) : splitAt (first ++ second) (len first) = some (first, second) := by
  induction first with
  | nil => cases second <;> rfl
  | cons ch rest ih =>
    rw [List.cons_append, len_cons, splitAt_cons (Nat.le_add_right _ _), Nat.add_sub_cancel_left, ih]
    rfl

theorem splitAt_inside (first : List Char) {ch : Char} {n : ℕ} (positive : 0 < n) (inside : n < ch.utf8Size) :
    splitAt (first ++ [ch]) (len first + n) = none := by
  induction first with
  | nil =>
    obtain ⟨m, rfl⟩ := Nat.exists_eq_add_of_lt positive
    rw [List.nil_append, len, List.map_nil, List.sum_nil, Nat.zero_add, Nat.zero_add, splitAt,
      if_neg (by omega)]
  | cons other rest ih =>
    rw [List.cons_append, len_cons, Nat.add_assoc, splitAt_cons (Nat.le_add_right _ _), Nat.add_sub_cancel_left, ih]
    rfl

/-- The last character is split off exactly when it is a single byte. -/
theorem splitAt_last (first : List Char) (ch : Char) :
    splitAt (first ++ [ch]) (len (first ++ [ch]) - 1) = if ch.utf8Size = 1 then some (first, [ch]) else none := by
  have positive := ch.utf8Size_pos
  rw [len_append_singleton]
  split_ifs with single
  · rw [single, Nat.add_sub_cancel, splitAt_append]
  · rw [Nat.add_sub_assoc positive]
    exact splitAt_inside first (by omega) (by omega)

/-! ## Decimal digits -/

theorem checkedMul_eq_some {a b n : UInt64} :
    checkedMul a b = some n ↔ a.toNat * b.toNat < 2 ^ 64 ∧ n.toNat = a.toNat * b.toNat := by
  unfold checkedMul
  split_ifs with fits
  · have same : (a * b).toNat = a.toNat * b.toNat := by rw [UInt64.toNat_mul, Nat.mod_eq_of_lt fits]
    rw [Option.some_inj, ← UInt64.toNat_inj, same]
    exact ⟨fun equal => ⟨fits, equal.symm⟩, fun both => both.2.symm⟩
  · exact ⟨nofun, fun both => absurd both.1 fits⟩

theorem checkedAdd_eq_some {a b n : UInt64} :
    checkedAdd a b = some n ↔ a.toNat + b.toNat < 2 ^ 64 ∧ n.toNat = a.toNat + b.toNat := by
  unfold checkedAdd
  split_ifs with fits
  · have same : (a + b).toNat = a.toNat + b.toNat := by rw [UInt64.toNat_add, Nat.mod_eq_of_lt fits]
    rw [Option.some_inj, ← UInt64.toNat_inj, same]
    exact ⟨fun equal => ⟨fits, equal.symm⟩, fun both => both.2.symm⟩
  · exact ⟨nofun, fun both => absurd both.1 fits⟩

theorem toDigit_eq_some {ch : Char} {n : UInt64} :
    toDigit ch = some n ↔ ch.isDigit = true ∧ n.toNat = ch.toNat - 48 := by
  unfold toDigit
  split_ifs with digit
  · have small : ch.toNat ≤ 57 := by
      rw [Char.isDigit, Bool.and_eq_true, decide_eq_true_eq, decide_eq_true_eq] at digit
      exact UInt32.le_iff_toNat_le.mp digit.2
    have same : (UInt64.ofNat (ch.toNat - 48)).toNat = ch.toNat - 48 := by
      rw [UInt64.toNat_ofNat']
      exact Nat.mod_eq_of_lt (by omega)
    rw [Option.some_inj, ← UInt64.toNat_inj, same]
    exact ⟨fun equal => ⟨digit, equal.symm⟩, fun both => both.2.symm⟩
  · exact ⟨nofun, fun both => absurd both.1 digit⟩

theorem pushDigit_eq_some {a n : UInt64} {ch : Char} : pushDigit a ch = some n ↔
    ch.isDigit = true ∧ a.toNat * 10 + (ch.toNat - 48) < 2 ^ 64 ∧ n.toNat = a.toNat * 10 + (ch.toNat - 48) := by
  unfold pushDigit
  rw [Option.bind_eq_bind, Option.bind_eq_some_iff]
  constructor
  · rintro ⟨shifted, multiplied, rest⟩
    rw [Option.bind_eq_some_iff] at rest
    obtain ⟨digit, read, added⟩ := rest
    obtain ⟨-, first⟩ := checkedMul_eq_some.mp multiplied
    obtain ⟨isDigit, second⟩ := toDigit_eq_some.mp read
    obtain ⟨fits, sum⟩ := checkedAdd_eq_some.mp added
    rw [first, second] at fits sum
    exact ⟨isDigit, fits, sum⟩
  · rintro ⟨isDigit, fits, sum⟩
    have ten : (10 : UInt64).toNat = 10 := rfl
    have shifted : checkedMul a 10 = some (a * 10) := by
      rw [checkedMul, if_pos (by rw [ten]; omega)]
    have digit : toDigit ch = some (UInt64.ofNat (ch.toNat - 48)) := if_pos isDigit
    have first := (checkedMul_eq_some.mp shifted).2
    have second := (toDigit_eq_some.mp digit).2
    rw [ten] at first
    refine ⟨a * 10, shifted, ?_⟩
    rw [digit, Option.bind_some]
    refine checkedAdd_eq_some.mpr ⟨?_, ?_⟩ <;> rw [first, second]
    · exact fits
    · exact sum

theorem le_decimal (n : ℕ) (digits : List Char) : n ≤ decimal n digits := by
  induction digits generalizing n with
  | nil => exact Nat.le_refl n
  | cons ch rest ih =>
    have first : n ≤ n * 10 + (ch.toNat - 48) := by omega
    have later : n * 10 + (ch.toNat - 48) ≤ decimal n (ch :: rest) := ih (n * 10 + (ch.toNat - 48))
    exact Nat.le_trans first later

/-- Reading digits succeeds exactly when all are digits and their value fits. -/
theorem foldlM_pushDigit {digits : List Char} {a n : UInt64} : digits.foldlM pushDigit a = some n ↔
    (∀ ch ∈ digits, ch.isDigit = true) ∧ decimal a.toNat digits < 2 ^ 64 ∧ n.toNat = decimal a.toNat digits := by
  induction digits generalizing a with
  | nil =>
    have small : a.toNat < 2 ^ 64 := a.toNat_lt
    change some a = some n ↔ (∀ ch ∈ [], _) ∧ a.toNat < 2 ^ 64 ∧ n.toNat = a.toNat
    rw [Option.some_inj, ← UInt64.toNat_inj]
    exact ⟨fun same => ⟨nofun, small, same.symm⟩, fun all => all.2.2.symm⟩
  | cons ch rest ih =>
    have step (m : UInt64) (value : m.toNat = a.toNat * 10 + (ch.toNat - 48)) :
        decimal a.toNat (ch :: rest) = decimal m.toNat rest := by rw [value]; rfl
    rw [List.foldlM_cons, Option.bind_eq_bind, Option.bind_eq_some_iff, List.forall_mem_cons]
    constructor
    · rintro ⟨m, pushed, success⟩
      obtain ⟨digit, -, value⟩ := pushDigit_eq_some.mp pushed
      obtain ⟨digits, fits, same⟩ := ih.mp success
      rw [← step m value] at fits same
      exact ⟨⟨digit, digits⟩, fits, same⟩
    · rintro ⟨⟨digit, digits⟩, fits, same⟩
      have first : a.toNat * 10 + (ch.toNat - 48) < 2 ^ 64 := Nat.lt_of_le_of_lt (le_decimal _ rest) fits
      have value : (UInt64.ofNat (a.toNat * 10 + (ch.toNat - 48))).toNat = a.toNat * 10 + (ch.toNat - 48) := by
        rw [UInt64.toNat_ofNat']
        exact Nat.mod_eq_of_lt first
      rw [step _ value] at fits same
      exact ⟨_, pushDigit_eq_some.mpr ⟨digit, first, value⟩, ih.mpr ⟨digits, fits, same⟩⟩

/-- A number in decimal that fits. -/
structure Digits (num : List Char) (n : ℕ) : Prop where
  some : num ≠ []
  all : ∀ ch ∈ num, ch.isDigit = true
  value : n = decimal 0 num
  fits : n < 2 ^ 64

theorem foldlM_eq_some {num : List Char} {n : UInt64} (some' : num ≠ []) :
    num.foldlM pushDigit 0 = some n ↔ Digits num n.toNat := by
  rw [foldlM_pushDigit]
  constructor
  · rintro ⟨all, fits, value⟩
    exact ⟨some', all, value, value ▸ fits⟩
  · rintro ⟨-, all, value, fits⟩
    exact ⟨all, value ▸ fits, value⟩

theorem not_digits_plus {rest : List Char} {n : ℕ} : ¬Digits ('+' :: rest) n :=
  fun digits => absurd (digits.all '+' List.mem_cons_self) (by decide)

/-- The standard parser takes digits, or a plus sign and digits. -/
theorem parseU64_eq_some {num : List Char} {n : UInt64} : parseU64 num = some n ↔
    Digits num n.toNat ∨ ∃ rest, num = '+' :: rest ∧ Digits rest n.toNat := by
  unfold parseU64
  split
  · exact ⟨nofun, fun either => (either.elim (fun digits => digits.some rfl) (fun ⟨_, same, _⟩ => nomatch same)).elim⟩
  · next digits =>
    split_ifs with empty
    · refine ⟨nofun, fun either => ?_⟩
      rcases either with plain | ⟨rest, same, plus⟩
      · exact (not_digits_plus plain).elim
      · cases same
        exact (plus.some empty).elim
    · rw [foldlM_eq_some empty]
      refine ⟨fun plus => .inr ⟨digits, rfl, plus⟩, fun either => ?_⟩
      rcases either with plain | ⟨rest, same, plus⟩
      · exact (not_digits_plus plain).elim
      · cases same
        exact plus
  · next absent unsigned =>
    rw [foldlM_eq_some (fun empty => absent empty)]
    refine ⟨.inl, fun either => ?_⟩
    rcases either with plain | ⟨rest, same, plus⟩
    · exact plain
    · exact (unsigned rest same).elim

/-! ## Units -/

theorem denotes_iff {num : List Char} {unit : Char} {seconds : ℕ} : Denotes (num ++ [unit]) seconds ↔
    ∃ n factor, Digits num n ∧ unitSeconds? unit = some factor ∧ seconds = n * factor ∧ seconds < 2 ^ 64 := by
  constructor
  · rintro ⟨digits, last, factor, split, some', all, known, value, fits⟩
    obtain ⟨rfl, same⟩ := List.append_inj' split rfl
    obtain rfl := List.head_eq_of_cons_eq same
    have positive : 1 ≤ factor := by
      unfold unitSeconds? at known
      split at known <;> cases known <;> decide
    have small : decimal 0 num ≤ seconds := value ▸ Nat.le_mul_of_pos_right _ positive
    exact ⟨_, factor, ⟨some', all, rfl, Nat.lt_of_le_of_lt small fits⟩, known, value, fits⟩
  · rintro ⟨n, factor, digits, known, value, fits⟩
    exact ⟨num, unit, factor, rfl, digits.some, digits.all, known, digits.value ▸ value, fits⟩

/-- What is made of a number and a unit. -/
def scale (text : List Char) (n : UInt64) (unit : Char) : Result UInt64 :=
  match unitSeconds? unit with
  | none => .error (badDuration text)
  | some factor => (checkedMul n (UInt64.ofNat factor)).elim (.error tooLarge) .ok

theorem parseDuration_eq (s : String) {num : List Char} {unit : Char}
    (text : toAsciiLowercase (trim s.toList) = num ++ [unit]) (long : ¬len (num ++ [unit]) < 2) :
    parseDuration s = if unit.utf8Size = 1 then
        match parseU64 num with
        | none => .returns (.error (badDuration (num ++ [unit])))
        | some n => .returns (scale (num ++ [unit]) n unit)
      else .panics := by
  unfold parseDuration
  dsimp only
  rw [text, if_neg long, splitAt_last]
  split_ifs
  · dsimp only
    cases parseU64 num with
    | none => rfl
    | some n =>
      dsimp only
      have one : checkedMul n (UInt64.ofNat 1) = some n := checkedMul_eq_some.mpr ⟨by simpa using n.toNat_lt, by simp⟩
      split
      · next same =>
        cases same
        rw [scale, unitSeconds?]
        dsimp only
        rw [one]
        rfl
      · next same => cases same; rfl
      · next same => cases same; rfl
      · next same => cases same; rfl
      · next notS notM notH notD =>
        have unknown : unitSeconds? unit = none := by
          unfold unitSeconds?
          split
          · exact (notS rfl).elim
          · exact (notM rfl).elim
          · exact (notH rfl).elim
          · exact (notD rfl).elim
          · rfl
        rw [scale, unknown]
  · rfl

theorem unitSeconds?_bounds {unit : Char} {factor : ℕ} (known : unitSeconds? unit = some factor) :
    1 ≤ factor ∧ (UInt64.ofNat factor).toNat = factor := by
  unfold unitSeconds? at known
  split at known <;> cases known <;> exact ⟨by decide, rfl⟩

theorem Digits.unique {num : List Char} {m n : ℕ} (first : Digits num m) (second : Digits num n) : m = n :=
  first.value.trans second.value.symm

/-- The parser is exact on a number and a unit, unless a plus sign makes a duration of them. -/
theorem exact_scale {num : List Char} {unit : Char} {n : UInt64} (parsed : parseU64 num = some n) :
    Exact (num ++ [unit]) (.returns (scale (num ++ [unit]) n unit)) ↔
      ∀ rest seconds, num = '+' :: rest → ¬Denotes (rest ++ [unit]) seconds := by
  have read := parseU64_eq_some.mp parsed
  unfold scale
  cases known : unitSeconds? unit with
  | none =>
    have never : ∀ other seconds, ¬Denotes (other ++ [unit]) seconds := by
      intro other seconds denotes
      obtain ⟨_, factor, -, there, -⟩ := denotes_iff.mp denotes
      rw [known] at there
      cases there
    exact ⟨fun _ rest seconds _ => never rest seconds, fun _ => ⟨⟨_, rfl⟩, never num⟩⟩
  | some factor =>
    have size := (unitSeconds?_bounds known).2
    dsimp only
    cases product : checkedMul n (UInt64.ofNat factor) with
    | none =>
      -- What the parser read does not fit, with or without a sign.
      have large : ∀ other, Digits other n.toNat → ∀ seconds, ¬Denotes (other ++ [unit]) seconds := by
        intro other digits seconds denotes
        obtain ⟨m, _, same, there, value, fits⟩ := denotes_iff.mp denotes
        rw [known] at there
        cases there
        rw [value, same.unique digits, ← size] at fits
        rw [checkedMul, if_pos fits] at product
        cases product
      refine ⟨fun _ rest seconds signed => ?_, fun _ => ⟨⟨_, rfl⟩, fun seconds denotes => ?_⟩⟩
      · rcases read with plain | ⟨digits, same, plus⟩
        · exact (not_digits_plus (signed ▸ plain)).elim
        · rw [signed] at same
          cases same
          exact large _ plus seconds
      · obtain ⟨m, _, digits, -⟩ := denotes_iff.mp denotes
        rcases read with plain | ⟨rest, same, -⟩
        · exact large num plain seconds denotes
        · exact not_digits_plus (same ▸ digits)
    | some d =>
      obtain ⟨fits, value⟩ := checkedMul_eq_some.mp product
      rw [size] at fits value
      have denotes : ∀ other, Digits other n.toNat → Denotes (other ++ [unit]) d.toNat := fun other digits =>
        denotes_iff.mpr ⟨_, factor, digits, known, value, d.toNat_lt⟩
      rcases read with plain | ⟨rest, same, plus⟩
      · exact ⟨fun _ rest seconds signed => (not_digits_plus (signed ▸ plain)).elim, fun _ => denotes num plain⟩
      · refine ⟨fun exact' => ?_, fun never => (never rest _ same (denotes rest plus)).elim⟩
        have accepted : Denotes (num ++ [unit]) d.toNat := exact'
        obtain ⟨m, _, digits, -⟩ := denotes_iff.mp accepted
        exact (not_digits_plus (same ▸ digits)).elim

theorem Denotes.long {text : List Char} {seconds : ℕ} (denotes : Denotes text seconds) : 2 ≤ len text := by
  obtain ⟨digits, unit, factor, rfl, some', -⟩ := denotes
  obtain ⟨ch, rest, rfl⟩ := List.exists_cons_of_ne_nil some'
  have first := ch.utf8Size_pos
  have last := unit.utf8Size_pos
  rw [List.cons_append, len_cons, len_append_singleton]
  omega

theorem plain_iff {num : List Char} {unit : Char} : Plain (num ++ [unit]) ↔ unit.utf8Size = 1 ∧
    ∀ rest seconds, num = '+' :: rest → ¬Denotes (rest ++ [unit]) seconds := by
  have last : ∀ ch, (num ++ [unit]).getLast? = some ch ↔ ch = unit := fun ch => by
    rw [List.getLast?_concat, Option.some_inj, eq_comm]
  constructor
  · rintro ⟨single, unsigned⟩
    exact ⟨single unit ((last unit).mpr rfl), fun rest seconds signed => unsigned (rest ++ [unit]) seconds (by
      rw [signed, List.cons_append])⟩
  · rintro ⟨single, unsigned⟩
    refine ⟨fun ch there => (last ch).mp there ▸ single, fun rest seconds signed denotes => ?_⟩
    cases num with
    | nil =>
      cases signed
      exact absurd denotes.long (by decide)
    | cons head front =>
      obtain ⟨rfl, rfl⟩ := List.cons.inj signed
      exact unsigned front seconds rfl denotes

/-- Digits that denote a duration are read. -/
theorem parsed_of_denotes {num : List Char} {unit : Char} {seconds : ℕ} (denotes : Denotes (num ++ [unit]) seconds) :
    ∃ n : UInt64, Digits num n.toNat := by
  obtain ⟨m, _, digits, -⟩ := denotes_iff.mp denotes
  refine ⟨UInt64.ofNat m, ?_⟩
  rw [UInt64.toNat_ofNat', Nat.mod_eq_of_lt digits.fits]
  exact digits

/-- `--for` is parsed as it should be exactly when the last character is a single byte and no plus sign is before a
duration. -/
theorem parseDuration_exact (s : String) :
    Exact (toAsciiLowercase (trim s.toList)) (parseDuration s) ↔ Plain (toAsciiLowercase (trim s.toList)) := by
  by_cases short : len (toAsciiLowercase (trim s.toList)) < 2
  · have refused : parseDuration s = .returns (.error (.usage "bad duration (e.g. 2h, 30m)")) := by
      rw [parseDuration]
      exact if_pos short
    rw [refused]
    generalize toAsciiLowercase (trim s.toList) = text at short
    refine ⟨fun _ => ⟨fun ch last => ?_, fun rest seconds signed denotes => ?_⟩,
      fun _ => ⟨⟨_, rfl⟩, fun seconds denotes => absurd denotes.long (by omega)⟩⟩
    · obtain ⟨front, rfl⟩ := List.getLast?_eq_some_iff.mp last
      have positive := ch.utf8Size_pos
      rw [len_append_singleton] at short
      omega
    · have long := denotes.long
      rw [signed, len_cons] at short
      omega
  · have some' : toAsciiLowercase (trim s.toList) ≠ [] := fun empty => short (by rw [empty]; decide)
    obtain ⟨num, unit, split⟩ : ∃ num unit, toAsciiLowercase (trim s.toList) = num ++ [unit] :=
      ⟨_, _, (List.dropLast_append_getLast some').symm⟩
    rw [split] at short
    rw [parseDuration_eq s split short, split]
    cases read : parseU64 num with
    | none =>
      have unread : ∀ n : UInt64, ¬(Digits num n.toNat ∨ ∃ rest, num = '+' :: rest ∧ Digits rest n.toNat) := by
        intro n either
        rw [parseU64_eq_some.mpr either] at read
        cases read
      rw [plain_iff]
      split_ifs with single
      · refine ⟨fun _ => ⟨single, fun rest seconds signed denotes => ?_⟩, fun _ => ⟨⟨_, rfl⟩, fun seconds denotes => ?_⟩⟩
        · obtain ⟨n, digits⟩ := parsed_of_denotes denotes
          exact unread n (.inr ⟨rest, signed, digits⟩)
        · obtain ⟨n, digits⟩ := parsed_of_denotes denotes
          exact unread n (.inl digits)
      · exact ⟨False.elim, fun plain => single plain.1⟩
    | some n =>
      rw [plain_iff]
      split_ifs with single
      · exact (exact_scale read).trans ⟨fun unsigned => ⟨single, unsigned⟩, fun both => both.2⟩
      · exact ⟨False.elim, fun plain => single plain.1⟩

/-- A last character of two bytes makes the parser panic, and a plus sign before a duration is taken. -/
theorem parseDuration_inexact : parseDuration "5é" = .panics ∧
    ¬Exact (toAsciiLowercase (trim "5é".toList)) (parseDuration "5é") ∧
    parseDuration "+5m" = .returns (.ok 300) ∧
    ¬Exact (toAsciiLowercase (trim "+5m".toList)) (parseDuration "+5m") := by
  have panics : parseDuration "5é" = .panics := by decide
  have taken : parseDuration "+5m" = .returns (.ok 300) := by decide
  refine ⟨panics, panics ▸ id, taken, ?_⟩
  rw [taken]
  intro denotes
  have unsigned : Denotes (['+', '5'] ++ ['m']) 300 := denotes
  obtain ⟨_, _, digits, -⟩ := denotes_iff.mp unsigned
  exact not_digits_plus digits

end Clix.Cli
