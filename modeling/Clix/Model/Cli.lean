import Mathlib.Algebra.BigOperators.Group.List.Basic
import Mathlib.Algebra.GroupWithZero.Nat
import Clix.Model.Error

/-! # Durations on the command line

`--for` takes a number and a unit. Splitting a string inside a character panics, so a call returns or panics.
-/

namespace Clix.Cli

open Except

/-- What a call that may panic does. -/
inductive Call (α : Type) where
  | panics
  | returns (result : Result α)
  deriving DecidableEq

/-- The Unicode property White_Space. -/
def isWhitespace (ch : Char) : Bool :=
  let n := ch.toNat
  decide (9 ≤ n ∧ n ≤ 13) || n == 0x20 || n == 0x85 || n == 0xA0 || n == 0x1680 ||
    decide (0x2000 ≤ n ∧ n ≤ 0x200A) || n == 0x2028 || n == 0x2029 || n == 0x202F || n == 0x205F || n == 0x3000

def trimStart (text : List Char) : List Char := text.dropWhile isWhitespace

def trim (text : List Char) : List Char := (trimStart (trimStart text).reverse).reverse

def toAsciiLowercase (text : List Char) : List Char := text.map Char.toLower

/-- The length in UTF-8. -/
def len (text : List Char) : ℕ := (text.map Char.utf8Size).sum

/-- Split after a number of bytes, if a character ends there. -/
def splitAt : List Char → ℕ → Option (List Char × List Char)
  | text, 0 => some ([], text)
  | [], _ + 1 => none
  | ch :: rest, n + 1 =>
    if ch.utf8Size ≤ n + 1 then (splitAt rest (n + 1 - ch.utf8Size)).map (fun (first, second) => (ch :: first, second))
    else none

def checkedMul (a b : UInt64) : Option UInt64 := if a.toNat * b.toNat < 2 ^ 64 then some (a * b) else none

def checkedAdd (a b : UInt64) : Option UInt64 := if a.toNat + b.toNat < 2 ^ 64 then some (a + b) else none

def toDigit (ch : Char) : Option UInt64 := if ch.isDigit then some (UInt64.ofNat (ch.toNat - 48)) else none

def pushDigit (n : UInt64) (ch : Char) : Option UInt64 := do
  let shifted ← checkedMul n 10
  let digit ← toDigit ch
  checkedAdd shifted digit

/-- The standard parser of unsigned integers, which takes a plus sign. -/
def parseU64 : List Char → Option UInt64
  | [] => none
  | '+' :: digits => if digits = [] then none else digits.foldlM pushDigit 0
  | digits => digits.foldlM pushDigit 0

def badDuration (text : List Char) : ClixError :=
  .usage ("bad duration '" ++ String.ofList text ++ "' (e.g. 2h, 30m)")

def tooLarge : ClixError := .usage "duration too large"

/-- A number of seconds. -/
def parseDuration (s : String) : Call UInt64 :=
  let text := toAsciiLowercase (trim s.toList)
  if len text < 2 then .returns (.error (.usage "bad duration (e.g. 2h, 30m)"))
  else
    match splitAt text (len text - 1) with
    | none => .panics
    | some (num, unit) =>
      match parseU64 num with
      | none => .returns (.error (badDuration text))
      | some n =>
        match unit with
        | ['s'] => .returns (.ok n)
        | ['m'] => .returns ((checkedMul n 60).elim (.error tooLarge) .ok)
        | ['h'] => .returns ((checkedMul n 3600).elim (.error tooLarge) .ok)
        | ['d'] => .returns ((checkedMul n 86400).elim (.error tooLarge) .ok)
        | _ => .returns (.error (badDuration text))

end Clix.Cli
