/-!
# Numbers written and read

A number is written by its digits in some base, most significant first, and padded on the left with
zeros up to a least width. A decimal number is read with an optional sign; of two faults in it the
one further left is reported.
-/

namespace Chip8

namespace Numeral

/-! ## Digits -/

def digits (b n : Nat) : List Nat :=
  if n < b ∨ b < 2 then [n] else digits b (n / b) ++ [n % b]
termination_by n
decreasing_by exact Nat.div_lt_self (by omega) (by omega)

def value (b : Nat) (ds : List Nat) : Nat :=
  ds.foldl (fun acc d => b * acc + d) 0

theorem value_append_singleton (b d : Nat) (ds : List Nat) :
    value b (ds ++ [d]) = b * value b ds + d := by
  simp [value]

theorem value_digits (b n : Nat) : value b (digits b n) = n := by
  fun_induction digits b n with
  | case1 n h => simp [value]
  | case2 n h ih =>
    rw [value_append_singleton, ih]
    exact Nat.div_add_mod n b

theorem digits_ne_nil (b n : Nat) : digits b n ≠ [] := by
  unfold digits
  split <;> simp

theorem digits_lt {b : Nat} (hb : 2 ≤ b) (n d : Nat) (hd : d ∈ digits b n) : d < b := by
  fun_induction digits b n with
  | case1 n h =>
    simp only [List.mem_singleton] at hd
    omega
  | case2 n h ih =>
    rw [List.mem_append, List.mem_singleton] at hd
    cases hd with
    | inl hd => exact ih hd
    | inr hd => exact hd ▸ Nat.mod_lt _ (by omega)

/-! ## Texts -/

def capitalDigit (d : Nat) : Char :=
  (Nat.digitChar d).toUpper

def padded (digit : Nat → Char) (b width n : Nat) : List Char :=
  ((digits b n).map digit).leftpad width '0'

def decimal (n : Nat) : String :=
  String.ofList (padded Nat.digitChar 10 1 n)

def hex (width n : Nat) : String :=
  String.ofList (padded capitalDigit 16 width n)

def address (n : Nat) : String :=
  "0x" ++ hex 4 n

def seed (n : Nat) : String :=
  "0x" ++ String.ofList (padded Nat.digitChar 16 1 n)

/-! ## Reading -/

inductive ReadFault where
  | empty
  | invalidDigit
  | tooLarge
  | tooSmall
deriving DecidableEq, Repr

def ReadFault.message : ReadFault → String
  | .empty => "cannot parse integer from empty string"
  | .invalidDigit => "invalid digit found in string"
  | .tooLarge => "number too large to fit in target type"
  | .tooSmall => "number too small to fit in target type"

def digit? (c : Char) : Option Nat :=
  if c.isDigit then some (c.toNat - '0'.toNat) else none

/-- Reads on from the value `acc`; a value above `limit` is the fault `beyond`. -/
def readDigits (limit : Nat) (beyond : ReadFault) : Nat → List Char → Except ReadFault Nat
  | acc, [] => .ok acc
  | acc, c :: rest =>
    match digit? c with
    | none => .error .invalidDigit
    | some d =>
      if limit < 10 * acc + d then .error beyond
      else readDigits limit beyond (10 * acc + d) rest

def readMagnitude (limit : Nat) (beyond : ReadFault) (text : List Char) : Except ReadFault Nat :=
  if text.isEmpty then .error .invalidDigit else readDigits limit beyond 0 text

def readNat (limit : Nat) : List Char → Except ReadFault Nat
  | [] => .error .empty
  | '+' :: rest => readMagnitude limit .tooLarge rest
  | text => readDigits limit .tooLarge 0 text

/-- An integer from `-limit - 1` to `limit`, with or without a sign. -/
def readInt (limit : Nat) : List Char → Except ReadFault Int
  | '-' :: rest => (readMagnitude (limit + 1) .tooSmall rest).map fun n => -(n : Int)
  | text => (readNat limit text).map fun n => (n : Int)

end Numeral

end Chip8
