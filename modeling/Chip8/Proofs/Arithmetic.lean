import Chip8.Proofs.Footprint

/-!
# Arithmetic with a flag

Five words of family 8 give a flag beside their result. `Arithmetic` says what both are over the
integers. They arrive whatever registers the operands lie in: VF takes the flag and then VX the
result, so where VX is VF the result is left there.
-/

namespace Chip8

/-- The word 8XYN, with `a` in VX and `b` in VY, has this result and this flag. -/
inductive Arithmetic (a b : Int) : Nibble → Int → Bool → Prop
  | add : Arithmetic a b 0x4 ((a + b) % 256) (a + b > 255)
  | sub : Arithmetic a b 0x5 ((a - b) % 256) (a > b)
  | shiftRight : Arithmetic a b 0x6 (a / 2) (a % 2 = 1)
  | subFrom : Arithmetic a b 0x7 ((b - a) % 256) (b > a)
  | shiftLeft : Arithmetic a b 0xE (2 * a % 256) (a ≥ 128)

namespace Combination

variable (a b : UInt8)

/-! ## Bytes as integers -/

theorem toNat_result_sub : ((sub.result a b).toNat : Int) = ((a.toNat : Int) - b.toNat) % 256 := by
  have hb := b.toNat_lt
  have hsub : (a - b).toNat = (2 ^ 8 - b.toNat + a.toNat) % 2 ^ 8 := UInt8.toNat_sub a b
  rw [result, hsub]
  omega

theorem toNat_result_shiftRight : ((shiftRight.result a b).toNat : Int) = (a.toNat : Int) / 2 := by
  have hshift : (a >>> 1).toNat = a.toNat >>> 1 := UInt8.toNat_shiftRight a 1
  rw [result, hshift, Nat.shiftRight_eq_div_pow]
  omega

theorem toNat_result_shiftLeft :
    ((shiftLeft.result a b).toNat : Int) = 2 * (a.toNat : Int) % 256 := by
  have hshift : (a <<< 1).toNat = a.toNat <<< 1 % 2 ^ 8 := UInt8.toNat_shiftLeft a 1
  rw [result, hshift, Nat.shiftLeft_eq]
  omega

variable {a b} in
theorem exists_of_arithmetic {n : Nibble} {r : Int} {flag : Bool}
    (h : Arithmetic a.toNat b.toNat n r flag) :
    ∃ how, code how = n ∧ ((how.result a b).toNat : Int) = r ∧ how.flag? a b = some flag := by
  cases h with
  | add =>
    refine ⟨.add, rfl, ?_, congrArg some (decide_eq_decide.mpr ?_)⟩
    · rw [result, UInt8.toNat_add]
      omega
    · omega
  | sub =>
    refine ⟨.sub, rfl, toNat_result_sub a b, congrArg some (decide_eq_decide.mpr ?_)⟩
    rw [UInt8.lt_iff_toNat_lt]
    omega
  | shiftRight =>
    refine ⟨.shiftRight, rfl, toNat_result_shiftRight a b, congrArg some (decide_eq_decide.mpr ?_)⟩
    omega
  | subFrom =>
    refine ⟨.subFrom, rfl, toNat_result_sub b a, congrArg some (decide_eq_decide.mpr ?_)⟩
    rw [UInt8.lt_iff_toNat_lt]
    omega
  | shiftLeft =>
    refine ⟨.shiftLeft, rfl, toNat_result_shiftLeft a b, congrArg some (decide_eq_decide.mpr ?_)⟩
    omega

end Combination

/-! ## Where result and flag go -/

namespace Registers

variable (v : Registers) (how : Combination) {x : Nibble} (y : Nibble)

theorem get_combine_self (x : Nibble) :
    (v.combine how x y).get x = how.result (v.get x) (v.get y) :=
  get_set_self _ x _

theorem get_combine_flag {flag : Bool} (hx : x ≠ 0xF)
    (h : how.flag? (v.get x) (v.get y) = some flag) :
    (v.combine how x y).get 0xF = flag.toUInt8 := by
  unfold combine
  rw [get_set_of_ne _ _ hx.symm, h]
  exact get_set_self v 0xF _

theorem get_combine_sub_of_add (hxy : x ≠ y) (hx : x ≠ 0xF) (hy : y ≠ 0xF) {r : Nibble}
    (hr : r ≠ 0xF) : ((v.combine .add x y).combine .sub x y).get r = v.get r := by
  -- the sum writes VX and VF, so the subtraction finds VY as it was
  have hkept : (v.combine .add x y).get y = v.get y :=
    v.get_combine_of_ne .add y hxy.symm fun _ => hy
  by_cases hrx : r = x
  · subst hrx
    rw [get_combine_self, hkept, get_combine_self]
    exact UInt8.add_sub_cancel _ _
  · rw [get_combine_of_ne _ _ _ hrx fun _ => hr, get_combine_of_ne _ _ _ hrx fun _ => hr]

end Registers

namespace Machine

theorem perform_combine (keypad : Keypad) (m : Machine) (how : Combination) (x y : Nibble) :
    ((Word.ofNibbles 0x8 x y how.code).perform keypad).run m =
      .ok .next { m with v := m.v.combine how x y } :=
  Word.run_toWord (.combine how x y)

/-- **Arithmetic is exact modulo 256 and VF tells where it was cut off,** for all registers of the
operands. An addition is undone by the subtraction of the same register. -/
theorem arithmetic_sets_flag (keypad : Keypad) (m : Machine) (x y : Nibble) :
    (∀ n result flag, Arithmetic (m.v.get x).toNat (m.v.get y).toNat n result flag →
      ∃ v, ((Word.ofNibbles 0x8 x y n).perform keypad).run m = .ok .next { m with v } ∧
        ((v.get x).toNat : Int) = result ∧ (x ≠ 0xF → v.get 0xF = if flag then 1 else 0) ∧
        ∀ r, r ≠ x → r ≠ 0xF → v.get r = m.v.get r) ∧
      (x ≠ y → x ≠ 0xF → y ≠ 0xF →
        ∃ added restored,
          ((Word.ofNibbles 0x8 x y 0x4).perform keypad).run m = .ok .next { m with v := added } ∧
          ((Word.ofNibbles 0x8 x y 0x5).perform keypad).run { m with v := added } =
            .ok .next { m with v := restored } ∧
          ∀ r, r ≠ 0xF → restored.get r = m.v.get r) := by
  constructor
  · intro n result flag harith
    obtain ⟨how, rfl, hresult, hflag⟩ := Combination.exists_of_arithmetic harith
    refine ⟨_, perform_combine keypad m how x y, ?_, fun hx => ?_, fun r hr hrf => ?_⟩
    · rw [Registers.get_combine_self, hresult]
    · rw [Registers.get_combine_flag _ _ _ hx hflag]
      rfl
    · exact Registers.get_combine_of_ne _ _ _ hr fun _ => hrf
  · intro hxy hx hy
    refine ⟨_, _, perform_combine keypad m .add x y, perform_combine keypad _ .sub x y, ?_⟩
    exact fun r hr => m.v.get_combine_sub_of_add y hxy hx hy hr

theorem arithmetic_sets_flag_in_itself :
    let keypad : Keypad := fun _ => false
    let m : Machine := { ofSeed 0 with v := Vector.replicate 16 200 }
    Arithmetic (m.v.get 0xF).toNat (m.v.get 0xF).toNat 0x4 144 true ∧
      (∃ v, ((Word.ofNibbles 0x8 0xF 0xF 0x4).perform keypad).run m = .ok .next { m with v } ∧
        ((v.get 0xF).toNat : Int) = 144) ∧
      ∃ added restored,
        ((Word.ofNibbles 0x8 1 2 0x4).perform keypad).run m = .ok .next { m with v := added } ∧
        ((Word.ofNibbles 0x8 1 2 0x5).perform keypad).run { m with v := added } =
          .ok .next { m with v := restored } ∧
        restored.get 1 = 200 := by
  intro keypad m
  have hvalue : (m.v.get 0xF).toNat = 200 := by decide
  have hsum : Arithmetic (m.v.get 0xF).toNat (m.v.get 0xF).toNat 0x4 144 true := by
    rw [hvalue]
    exact .add
  obtain ⟨v, hrun, hresult, -⟩ := (arithmetic_sets_flag keypad m 0xF 0xF).1 0x4 144 true hsum
  obtain ⟨added, restored, hadd, hsub, hsame⟩ :=
    (arithmetic_sets_flag keypad m 1 2).2 (by decide) (by decide) (by decide)
  exact ⟨hsum, ⟨v, hrun, hresult⟩, added, restored, hadd, hsub, hsame 1 (by decide)⟩

end Machine

end Chip8
