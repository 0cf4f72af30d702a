import Chip8.CommandLine.Parse
import Chip8.Proofs.Numerals

/-!
# Numbers given to settings

A number may be written after a plus sign and with any zeros in front. A setting takes it below its
bound and refuses every larger one, however long: the reading stops at the first digit that leads
past the limit.
-/

namespace Chip8

namespace Numeral

/-! ## Digits with a limit -/

theorem digit?_digitChar : ∀ d < 10, digit? (Nat.digitChar d) = some d := by decide

def valueFrom (b acc : Nat) (ds : List Nat) : Nat :=
  ds.foldl (fun acc d => b * acc + d) acc

theorem valueFrom_cons (b acc d : Nat) (ds : List Nat) :
    valueFrom b acc (d :: ds) = valueFrom b (b * acc + d) ds := rfl

theorem le_valueFrom {b : Nat} (hb : 0 < b) (acc : Nat) (ds : List Nat) :
    acc ≤ valueFrom b acc ds := by
  induction ds generalizing acc with
  | nil => exact Nat.le_refl acc
  | cons d ds ih =>
    have hstep : acc ≤ b * acc + d := Nat.le_add_right_of_le (Nat.le_mul_of_pos_left acc hb)
    exact Nat.le_trans hstep (ih (b * acc + d))

theorem readDigits_map {limit acc : Nat} {beyond : ReadFault} {ds : List Nat}
    (hds : ∀ d ∈ ds, d < 10) (hacc : acc ≤ limit) :
    readDigits limit beyond acc (ds.map Nat.digitChar) =
      if valueFrom 10 acc ds ≤ limit then .ok (valueFrom 10 acc ds) else .error beyond := by
  induction ds generalizing acc with
  | nil => simp [readDigits, valueFrom, hacc]
  | cons d ds ih =>
    have hd : digit? (Nat.digitChar d) = some d := digit?_digitChar d (hds d List.mem_cons_self)
    rw [List.map_cons, readDigits, hd, valueFrom_cons]
    by_cases hbeyond : limit < 10 * acc + d
    · have hmore : 10 * acc + d ≤ valueFrom 10 (10 * acc + d) ds := le_valueFrom (by decide) _ ds
      simp only [if_pos hbeyond]
      rw [if_neg (by omega)]
    · simp only [if_neg hbeyond]
      exact ih (fun d hd => hds d (List.mem_cons_of_mem _ hd)) (Nat.le_of_not_lt hbeyond)

end Numeral

/-! ## Amounts -/

open Numeral

/-- A number as it may be written on the command line. -/
structure Amount where
  plus : Bool
  zeros : Nat
  number : Nat

namespace Amount

def text (a : Amount) : String :=
  (if a.plus then "+" else "") ++ String.ofList (List.replicate a.zeros '0') ++ decimal a.number

def digits (a : Amount) : List Nat :=
  List.replicate a.zeros 0 ++ Numeral.digits 10 a.number

theorem lt_of_mem_digits {a : Amount} {d : Nat} (h : d ∈ a.digits) : d < 10 := by
  rcases List.mem_append.mp h with hzero | hdigit
  · rw [List.eq_of_mem_replicate hzero]
    decide
  · exact digits_lt (by decide) a.number d hdigit

theorem digits_ne_nil (a : Amount) : a.digits ≠ [] := by
  simp [digits, Numeral.digits_ne_nil]

theorem value_digits (a : Amount) : value 10 a.digits = a.number := by
  rw [digits, value_replicate_zero_append, Numeral.value_digits]

theorem toList_text (a : Amount) :
    a.text.toList = (if a.plus then ['+'] else []) ++ a.digits.map Nat.digitChar := by
  have hsign : (if a.plus then "+" else "").toList = if a.plus then ['+'] else [] := by
    split <;> rfl
  have hlong : 1 - (Numeral.digits 10 a.number).length = 0 := by
    have := List.length_pos_iff.mpr (Numeral.digits_ne_nil 10 a.number)
    omega
  rw [text, String.toList_append, String.toList_append, hsign, String.toList_ofList, toList_decimal,
    padded_eq alphabet_decimal, hlong, digits, List.map_append, List.map_replicate]
  simp

theorem readDigits_digits (a : Amount) (limit : Nat) :
    readDigits limit .tooLarge 0 (a.digits.map Nat.digitChar) =
      if a.number ≤ limit then .ok a.number else .error .tooLarge := by
  have hvalue : valueFrom 10 0 a.digits = a.number := a.value_digits
  rw [readDigits_map (fun d hd => lt_of_mem_digits hd) (Nat.zero_le limit), hvalue]

theorem exists_digit (a : Amount) :
    ∃ d < 10, ∃ ds, a.digits = d :: ds := by
  obtain ⟨d, ds, hds⟩ := List.exists_cons_of_ne_nil a.digits_ne_nil
  exact ⟨d, lt_of_mem_digits (hds ▸ List.mem_cons_self), ds, hds⟩

theorem readNat_text (a : Amount) (limit : Nat) :
    readNat limit a.text.toList =
      if a.number ≤ limit then .ok a.number else .error .tooLarge := by
  obtain ⟨d, hd, ds, hds⟩ := a.exists_digit
  rw [← a.readDigits_digits limit, toList_text]
  cases a.plus with
  | true => simp [readNat, readMagnitude, hds]
  | false =>
    have hplus : ∀ d < 10, Nat.digitChar d ≠ '+' := by decide
    simp only [hds, List.map_cons, if_neg Bool.false_ne_true, List.nil_append]
    unfold readNat
    split
    · contradiction
    · next heq => exact absurd (List.cons.inj heq).1 (hplus d hd)
    · rfl

theorem exists_toList_text (a : Amount) :
    ∃ c rest, a.text.toList = c :: rest ∧ c ≠ '-' ∧ c ≠ '=' := by
  obtain ⟨d, hd, ds, hds⟩ := a.exists_digit
  rw [toList_text, hds]
  cases a.plus with
  | true => exact ⟨'+', (d :: ds).map Nat.digitChar, rfl, by decide, by decide⟩
  | false =>
    have hsigns : ∀ d < 10, Nat.digitChar d ≠ '-' ∧ Nat.digitChar d ≠ '=' := by decide
    exact ⟨Nat.digitChar d, ds.map Nat.digitChar, rfl, hsigns d hd⟩

theorem readInt_text (a : Amount) (limit : Nat) :
    readInt limit a.text.toList =
      if a.number ≤ limit then .ok (a.number : Int) else .error .tooLarge := by
  obtain ⟨c, rest, htext, hminus, -⟩ := a.exists_toList_text
  have hread : readInt limit a.text.toList =
      (readNat limit a.text.toList).map fun n => (n : Int) := by
    rw [htext]
    unfold readInt
    split
    · next heq => exact absurd (List.cons.inj heq).1 hminus
    · rfl
  rw [hread, readNat_text]
  split <;> rfl

end Amount

namespace CommandLine

def Setting.bound : Setting → Nat
  | scale => 4294967296
  | cyclesPerFrame => 4294967296
  | seed => 18446744073709551616

theorem Setting.limit_eq (s : Setting) : s.limit = s.bound - 1 := by
  cases s <;> rfl

theorem Setting.read_of_lt {s : Setting} {a : Amount} (h : a.number < s.bound) :
    s.read a.text = .ok a.number := by
  have hlimit : a.number ≤ s.limit := by
    rw [limit_eq]
    omega
  cases s with
  | seed =>
    unfold read
    simp only [Amount.readNat_text, if_pos hlimit]
  | scale | cyclesPerFrame =>
    have hwide : 4294967296 ≤ UInt64.size / 2 - 1 := by decide
    have hint : a.number ≤ UInt64.size / 2 - 1 := Nat.le_trans (Nat.le_of_lt h) hwide
    have hrange : (0 : Int) ≤ a.number ∧ (a.number : Int) ≤ _ :=
      ⟨Int.natCast_nonneg _, Int.ofNat_le.mpr hlimit⟩
    unfold read
    simp only [Amount.readInt_text, if_pos hint, if_pos hrange, Int.toNat_natCast]

/-- A number that is too large is refused as such, be it while its digits are read or after. -/
theorem Setting.read_of_bound_le {s : Setting} {a : Amount} (h : s.bound ≤ a.number) :
    s.read a.text = .error (.misread .tooLarge) ∨
      s.read a.text = .error (.outOfRange a.number s.limit) := by
  have hlimit : ¬ a.number ≤ s.limit := by
    rw [limit_eq]
    have : 0 < s.bound := by cases s <;> decide
    omega
  cases s with
  | seed =>
    left
    unfold read
    simp only [Amount.readNat_text, if_neg hlimit]
  | scale | cyclesPerFrame =>
    have hrange : ¬ ((0 : Int) ≤ a.number ∧ (a.number : Int) ≤ _) :=
      fun h => hlimit (Int.ofNat_le.mp h.2)
    unfold read
    by_cases hint : a.number ≤ UInt64.size / 2 - 1
    · right
      simp only [Amount.readInt_text, if_pos hint, if_neg hrange]
    · left
      simp only [Amount.readInt_text, if_neg hint]

end CommandLine

end Chip8
