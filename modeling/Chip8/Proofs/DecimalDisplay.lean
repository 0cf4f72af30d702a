import Chip8.Proofs.Drawing
import Chip8.Proofs.SavedRegisters

/-!
# Showing a number in decimal

A program stores the decimal digits of a register, restores them to V0, V1 and V2, and for each points
the index at its glyph and draws five rows. The digits are stored above the font, so the glyphs are
still there.
-/

namespace Chip8

/-! ## Digits and glyphs -/

theorem decimalDigits_le_nine {value digit : UInt8} (h : digit ∈ decimalDigits value) :
    digit ≤ 9 := by
  have := value.toNat_lt
  simp only [decimalDigits, List.mem_cons, List.not_mem_nil, or_false] at h
  obtain rfl | rfl | rfl := h
  all_goals
    simp only [UInt8.le_iff_toNat_le, UInt8.toNat_div, UInt8.toNat_mod, UInt8.reduceToNat]
    omega

theorem decimalDigits_recompose (value : UInt8) :
    100 * (value / 100).toNat + 10 * (value / 10 % 10).toNat + (value % 10).toNat =
      value.toNat := by
  simp only [UInt8.toNat_div, UInt8.toNat_mod, UInt8.reduceToNat]
  omega

namespace Font

def Resident (mem : Memory) : Prop :=
  ∀ k < 80, mem[k]? = glyphs[k]?

/-- Whether the glyph of a digit has a set bit for this pixel when its corner is at these places. -/
def Covers (digit left top : UInt8) (p : Pixel) : Prop :=
  ∃ row bit byte, row < 5 ∧ bit < 8 ∧ glyphs[5 * digit.toNat + row]? = some byte ∧
    byte.toNat.testBit (7 - bit) ∧
    p.x.val = (left.toNat + bit) % 64 ∧ p.y.val = (top.toNat + row) % 32

theorem resident_ofSeed (seed : UInt64) : Resident (Machine.ofSeed seed).memory := by
  intro k hk
  let blank : Memory := Vector.replicate Memory.size 0
  have hbyte : (blank.overlay start.toNat glyphs)[start.toNat + k]? = glyphs[k]? :=
    Memory.getElem?_overlay_of_lt (by decide) hk
  rwa [show start.toNat + k = k from Nat.zero_add k] at hbyte

end Font

namespace Machine

variable {m : Machine}

/-! ## The words of the routine -/

theorem targets_glyph {digit : UInt8} {x y : Nibble} {p : Pixel} (hfont : Font.Resident m.memory)
    (hdigit : digit ≤ 0xF) (hindex : m.i = Font.glyphAddress digit) :
    m.Targets x y 5 p ↔ Font.Covers digit (m.v.get x) (m.v.get y) p := by
  have hle : digit.toNat ≤ 15 := hdigit
  unfold Targets Font.Covers
  refine exists_congr fun row => exists_congr fun bit => exists_congr fun byte => ?_
  refine and_congr_right fun hrow => ?_
  have hrow' : row < 5 := hrow
  rw [hindex, Font.toNat_glyphAddress, hfont _ (by omega)]

theorem draw_glyph {j : Nibble} (hfont : Font.Resident m.memory) (hdigit : m.v.get j ≤ 0xF)
    (a b : Nibble) (keypad keypad' : Keypad) :
    ∃ i flag frame,
      ((Word.ofByte 0xF j 0x29).perform keypad).run m = .ok .next { m with i } ∧
      ((Word.ofNibbles 0xD a b 5).perform keypad').run { m with i } =
        .ok .next { m with i, v := m.v.set 0xF flag, frame, redraw := true } ∧
      ∀ p, frame.lit p ↔
        m.frame.lit p ∨ Font.Covers (m.v.get j) (m.v.get a) (m.v.get b) p := by
  let pointed : Machine := { m with i := Font.glyphAddress (m.v.get j) }
  have hle : (m.v.get j).toNat ≤ 15 := hdigit
  have hfits : pointed.i.toNat + (5 : Nibble).val ≤ Memory.size := by
    rw [Font.toNat_glyphAddress]
    show 5 * (m.v.get j).toNat + 5 ≤ 4096
    omega
  obtain ⟨bytes, hread⟩ : ∃ bytes, pointed.memory.read pointed.i (5 : Nibble) = .ok bytes :=
    ⟨_, dif_pos hfits⟩
  refine ⟨pointed.i, _, _, Word.run_toWord (.pointAtGlyph j), perform_draw hread keypad',
    fun p => ?_⟩
  exact (lit_drawSprite hread p).trans (or_congr_right (targets_glyph hfont hdigit rfl))

/-! ## The routine -/

/-- **A number is shown by its decimal digits.** Two words bring the digits of the number in VX to
V0, V1 and V2 and change three bytes of memory. As long as memory and the digits stay so, two more
words draw any of the digits at any place. -/
theorem number_is_shown (m : Machine) (x : Nibble) (hfont : Font.Resident m.memory)
    (habove : 80 ≤ m.i.toNat) (hfits : m.i.toNat ≤ 4093) (keypad keypad' : Keypad) :
    ∃ memory v,
      ((Word.ofByte 0xF x 0x33).perform keypad).run m = .ok .next { m with memory } ∧
      ((Word.ofByte 0xF 2 0x65).perform keypad').run { m with memory } =
        .ok .next { m with memory, v } ∧
      (∀ j ≤ 2, v.get j ≤ 9) ∧
      100 * (v.get 0).toNat + 10 * (v.get 1).toNat + (v.get 2).toNat = (m.v.get x).toNat ∧
      (∀ r, 2 < r → v.get r = m.v.get r) ∧
      (∀ k, k < m.i.toNat ∨ m.i.toNat + 2 < k → memory[k]? = m.memory[k]?) ∧
      ∀ s : Machine, s.memory = memory → (∀ j ≤ 2, s.v.get j = v.get j) →
        ∀ j ≤ 2, ∀ a b keypad keypad', ∃ i flag frame,
          ((Word.ofByte 0xF j 0x29).perform keypad).run s = .ok .next { s with i } ∧
          ((Word.ofNibbles 0xD a b 5).perform keypad').run { s with i } =
            .ok .next { s with i, v := s.v.set 0xF flag, frame, redraw := true } ∧
          ∀ p, frame.lit p ↔
            s.frame.lit p ∨ Font.Covers (v.get j) (s.v.get a) (s.v.get b) p := by
  let value := m.v.get x
  have hroom : m.i.toNat + (decimalDigits value).length ≤ Memory.size :=
    Nat.add_le_add_right hfits 3
  obtain ⟨memory, hwrite, hwritten⟩ : ∃ memory,
      m.memory.write m.i (decimalDigits value) = .ok memory ∧
        memory = m.memory.overlay m.i.toNat (decimalDigits value) := ⟨_, if_pos hroom, rfl⟩
  obtain ⟨v, hrestore, hdigits, hkept⟩ :=
    perform_restore_of_written (s := { m with memory }) (y := 2) hroom ⟨_, hwritten⟩
      (show 2 < 3 by decide) keypad'
  have h0 : value / 100 = v.get 0 := Option.some.inj (hdigits 0 (by decide))
  have h1 : value / 10 % 10 = v.get 1 := Option.some.inj (hdigits 1 (by decide))
  have h2 : value % 10 = v.get 2 := Option.some.inj (hdigits 2 (by decide))
  have hvalue := decimalDigits_recompose value
  rw [h0, h1, h2] at hvalue
  have hle : ∀ j ≤ 2, v.get j ≤ 9 := fun j hj =>
    decimalDigits_le_nine (List.mem_of_getElem? (hdigits j hj))
  have houtside : ∀ k, k < m.i.toNat ∨ m.i.toNat + 2 < k → memory[k]? = m.memory[k]? :=
    fun k hk => Memory.getElem?_write_of_outside hwrite hk
  -- the digits were stored above the font, so the glyphs are still there to be drawn
  have hfont' : Font.Resident memory := by
    intro k hk
    rw [houtside k (Or.inl (Nat.lt_of_lt_of_le hk habove)), hfont k hk]
  refine ⟨memory, v, perform_storeDecimal hwrite keypad, hrestore, hle, hvalue, hkept, houtside, ?_⟩
  rintro s rfl hsame j hj a b keypad keypad'
  rw [← hsame j hj]
  refine draw_glyph hfont' ?_ a b keypad keypad'
  rw [hsame j hj]
  exact UInt8.le_trans (hle j hj) (by decide)

/-- The number is in V1, where its second digit comes, and its first digit is drawn around the corner
of the display. -/
theorem number_is_shown_from_v1 :
    let keypad : Keypad := fun _ => false
    let m : Machine :=
      { ofSeed 0 with v := ((Vector.replicate 16 0).set 1 254).set 0xF 62, i := 0x300 }
    Font.Resident m.memory ∧ 80 ≤ m.i.toNat ∧ m.i.toNat ≤ 4093 ∧
      ∃ memory v i flag frame,
        ((Word.ofByte 0xF 1 0x33).perform keypad).run m = .ok .next { m with memory } ∧
        ((Word.ofByte 0xF 2 0x65).perform keypad).run { m with memory } =
          .ok .next { m with memory, v } ∧
        v.get 0 = 2 ∧ v.get 1 = 5 ∧ v.get 2 = 4 ∧
        ((Word.ofNibbles 0xD 0xF 0xF 5).perform keypad).run { m with memory, v, i } =
          .ok .next { m with memory, i, v := v.set 0xF flag, frame, redraw := true } ∧
        frame.lit ⟨1, 31⟩ = true ∧ frame.lit ⟨0, 31⟩ = false := by
  intro keypad m
  have hfont : Font.Resident m.memory := Font.resident_ofSeed 0
  have habove : 80 ≤ m.i.toNat := by decide
  have hfits : m.i.toNat ≤ 4093 := by decide
  obtain ⟨memory, v, hstore, hrestore, hle, hvalue, hkept, -, hdraw⟩ :=
    number_is_shown m 1 hfont habove hfits keypad keypad
  have h254 : 100 * (v.get 0).toNat + 10 * (v.get 1).toNat + (v.get 2).toNat = 254 := hvalue
  have hle0 : (v.get 0).toNat ≤ 9 := hle 0 (by decide)
  have hle1 : (v.get 1).toNat ≤ 9 := hle 1 (by decide)
  have hle2 : (v.get 2).toNat ≤ 9 := hle 2 (by decide)
  have h0 : v.get 0 = 2 := UInt8.toNat_inj.mp (show (v.get 0).toNat = 2 by omega)
  have h1 : v.get 1 = 5 := UInt8.toNat_inj.mp (show (v.get 1).toNat = 5 by omega)
  have h2 : v.get 2 = 4 := UInt8.toNat_inj.mp (show (v.get 2).toNat = 4 by omega)
  have hplace : v.get 0xF = 62 := hkept 0xF (by decide)
  obtain ⟨i, flag, frame, -, hrun, hlit⟩ :=
    hdraw { m with memory, v } rfl (fun _ _ => rfl) 0 (by decide) 0xF 0xF keypad keypad
  simp only [h0, hplace] at hlit
  refine ⟨hfont, habove, hfits, memory, v, i, flag, frame, hstore, hrestore, h0, h1, h2, hrun,
    (hlit _).mpr (Or.inr ?_), Bool.eq_false_iff.mpr (mt (hlit _).mp ?_)⟩
  · exact ⟨1, 3, 0x10, by decide, by decide, rfl, by decide, rfl, rfl⟩
  · rintro (hbefore | ⟨row, bit, byte, hrow, hbit, hbyte, hset, hx, hy⟩)
    · exact absurd hbefore (by decide +kernel)
    · replace hx : 0 = (62 + bit) % 64 := hx
      replace hy : 31 = (62 + row) % 32 := hy
      obtain ⟨rfl, rfl⟩ : bit = 2 ∧ row = 1 := by omega
      cases hbyte
      exact absurd hset (by decide)

end Machine

end Chip8
