import Chip8.Proofs.CallReturn

/-!
# The forms of instruction words

Each of the 34 forms has some digits that are fixed and leaves the others to its operands. Writing
operands in a form and reading them back agree, no word has two forms, and every word that is an
instruction has one. All other words do nothing but pass.
-/

namespace Chip8

/-! ## Shapes -/

/-- Which digits of a word are fixed: all, or F and L in FNNN, FXNN, FXYN, FXYL and FXLL. -/
inductive Shape where
  | whole (w : Word)
  | address (family : Nibble)
  | byte (family : Nibble)
  | count (family : Nibble)
  | pair (family last : Nibble)
  | single (family : Nibble) (low : UInt8)

namespace Shape

def Operands : Shape → Type
  | whole _ => Unit
  | address _ => Address
  | byte _ => Nibble × UInt8
  | count _ => Nibble × Nibble × Nibble
  | pair _ _ => Nibble × Nibble
  | single _ _ => Nibble

def word : (s : Shape) → s.Operands → Word
  | whole w, () => w
  | address family, nnn => .ofAddress family nnn
  | byte family, (x, nn) => .ofByte family x nn
  | count family, (x, y, n) => .ofNibbles family x y n
  | pair family last, (x, y) => .ofNibbles family x y last
  | single family low, x => .ofByte family x low

def views : (s : Shape) → Word → s.Operands
  | whole _, _ => ()
  | address _, w => w.nnn
  | byte _, w => (w.x, w.nn)
  | count _, w => (w.x, w.y, w.n)
  | pair _ _, w => (w.x, w.y)
  | single _ _, w => w.x

theorem views_word (s : Shape) (o : s.Operands) : s.views (s.word o) = o := by
  cases s with
  | whole w => rfl
  | address f => exact Word.nnn_ofAddress f o
  | byte f => exact Prod.ext (Word.x_ofByte f _ _) (Word.nn_ofByte f _ _)
  | count f =>
    exact Prod.ext (Word.x_ofNibbles f _ _ _)
      (Prod.ext (Word.y_ofNibbles f _ _ _) (Word.n_ofNibbles f _ _ _))
  | pair f last => exact Prod.ext (Word.x_ofNibbles f _ _ last) (Word.y_ofNibbles f _ _ last)
  | single f low => exact Word.x_ofByte f o low

end Shape

/-! ## Forms -/

inductive Form where
  | clearScreen
  | returnToCaller
  | jump
  | call
  | skipIfHolds
  | skipIfHoldsNot
  | skipIfEqual
  | setByte
  | addByte
  | combine (how : Combination)
  | skipIfDiffer
  | setIndex
  | jumpByV0
  | randomByte
  | draw
  | skipIfKeyDown
  | skipIfKeyUp
  | readDelay
  | awaitKey
  | setDelay
  | setSound
  | addToIndex
  | pointAtGlyph
  | storeDecimal
  | saveRegisters
  | restoreRegisters
deriving DecidableEq

namespace Form

def all : List Form :=
  [clearScreen, returnToCaller, jump, call, skipIfHolds, skipIfHoldsNot, skipIfEqual, setByte,
    addByte, combine .copy, combine .or, combine .and, combine .xor, combine .add, combine .sub,
    combine .shiftRight, combine .subFrom, combine .shiftLeft, skipIfDiffer, setIndex, jumpByV0,
    randomByte, draw, skipIfKeyDown, skipIfKeyUp, readDelay, awaitKey, setDelay, setSound,
    addToIndex, pointAtGlyph, storeDecimal, saveRegisters, restoreRegisters]

theorem mem_all (f : Form) : f ∈ all := by
  cases f with
  | combine how => cases how <;> decide
  | _ => decide

def shape : Form → Shape
  | clearScreen => .whole 0x00E0
  | returnToCaller => .whole 0x00EE
  | jump => .address 0x1
  | call => .address 0x2
  | skipIfHolds => .byte 0x3
  | skipIfHoldsNot => .byte 0x4
  | skipIfEqual => .pair 0x5 0x0
  | setByte => .byte 0x6
  | addByte => .byte 0x7
  | combine how => .pair 0x8 how.code
  | skipIfDiffer => .pair 0x9 0x0
  | setIndex => .address 0xA
  | jumpByV0 => .address 0xB
  | randomByte => .byte 0xC
  | draw => .count 0xD
  | skipIfKeyDown => .single 0xE 0x9E
  | skipIfKeyUp => .single 0xE 0xA1
  | readDelay => .single 0xF 0x07
  | awaitKey => .single 0xF 0x0A
  | setDelay => .single 0xF 0x15
  | setSound => .single 0xF 0x18
  | addToIndex => .single 0xF 0x1E
  | pointAtGlyph => .single 0xF 0x29
  | storeDecimal => .single 0xF 0x33
  | saveRegisters => .single 0xF 0x55
  | restoreRegisters => .single 0xF 0x65

def instruction : (f : Form) → f.shape.Operands → Instruction
  | clearScreen, _ => .clearScreen
  | returnToCaller, _ => .returnToCaller
  | jump, nnn => .jump nnn
  | call, nnn => .call nnn
  | skipIfHolds, (x, nn) => .skipIf (.holds x nn)
  | skipIfHoldsNot, (x, nn) => .skipIf (.holdsNot x nn)
  | skipIfEqual, (x, y) => .skipIf (.equal x y)
  | setByte, (x, nn) => .setByte x nn
  | addByte, (x, nn) => .addByte x nn
  | combine how, (x, y) => .combine how x y
  | skipIfDiffer, (x, y) => .skipIf (.differ x y)
  | setIndex, nnn => .setIndex nnn
  | jumpByV0, nnn => .jumpByV0 nnn
  | randomByte, (x, nn) => .randomByte x nn
  | draw, (x, y, n) => .draw x y n
  | skipIfKeyDown, x => .skipIf (.keyDown x)
  | skipIfKeyUp, x => .skipIf (.keyUp x)
  | readDelay, x => .readDelay x
  | awaitKey, x => .awaitKey x
  | setDelay, x => .setDelay x
  | setSound, x => .setSound x
  | addToIndex, x => .addToIndex x
  | pointAtGlyph, x => .pointAtGlyph x
  | storeDecimal, x => .storeDecimal x
  | saveRegisters, x => .saveRegisters x
  | restoreRegisters, x => .restoreRegisters x

def ofInstruction : Instruction → Form
  | .clearScreen => clearScreen
  | .returnToCaller => returnToCaller
  | .jump _ => jump
  | .call _ => call
  | .skipIf (.holds _ _) => skipIfHolds
  | .skipIf (.holdsNot _ _) => skipIfHoldsNot
  | .skipIf (.equal _ _) => skipIfEqual
  | .skipIf (.differ _ _) => skipIfDiffer
  | .skipIf (.keyDown _) => skipIfKeyDown
  | .skipIf (.keyUp _) => skipIfKeyUp
  | .setByte _ _ => setByte
  | .addByte _ _ => addByte
  | .combine how _ _ => combine how
  | .setIndex _ => setIndex
  | .jumpByV0 _ => jumpByV0
  | .randomByte _ _ => randomByte
  | .draw _ _ _ => draw
  | .readDelay _ => readDelay
  | .awaitKey _ => awaitKey
  | .setDelay _ => setDelay
  | .setSound _ => setSound
  | .addToIndex _ => addToIndex
  | .pointAtGlyph _ => pointAtGlyph
  | .storeDecimal _ => storeDecimal
  | .saveRegisters _ => saveRegisters
  | .restoreRegisters _ => restoreRegisters

def word (f : Form) (o : f.shape.Operands) : Word := f.shape.word o

theorem toWord_instruction (f : Form) (o : f.shape.Operands) :
    (f.instruction o).toWord = f.word o := by
  cases f <;> rfl

theorem ofInstruction_instruction (f : Form) (o : f.shape.Operands) :
    ofInstruction (f.instruction o) = f := by
  cases f <;> rfl

theorem exists_instruction_eq (i : Instruction) :
    ∃ (f : Form) (o : f.shape.Operands), f.instruction o = i := by
  refine ⟨ofInstruction i, ?_⟩
  cases i with
  | clearScreen | returnToCaller => exact ⟨(), rfl⟩
  | skipIf condition =>
    cases condition with
    | keyDown x | keyUp x => exact ⟨x, rfl⟩
    | _ => exact ⟨(_, _), rfl⟩
  | setByte | addByte | combine | randomByte => exact ⟨(_, _), rfl⟩
  | draw => exact ⟨(_, _, _), rfl⟩
  | _ => exact ⟨_, rfl⟩

theorem ofWord?_word (f : Form) (o : f.shape.Operands) :
    Instruction.ofWord? (f.word o) = some (f.instruction o) := by
  rw [← toWord_instruction]
  exact Instruction.ofWord?_toWord _

theorem eq_of_word_eq {f g : Form} {o : f.shape.Operands} {o' : g.shape.Operands}
    (h : f.word o = g.word o') : f = g := by
  -- the types of the operands differ, so instructions are compared instead of words
  have hsame := ofWord?_word f o
  rw [h, ofWord?_word, Option.some.injEq] at hsame
  rw [← ofInstruction_instruction f o, ← hsame, ofInstruction_instruction]

theorem exists_word_eq_of_ofWord? {w : Word} {i : Instruction}
    (h : Instruction.ofWord? w = some i) :
    ∃ f : Form, w = f.word (f.shape.views w) ∧ i = f.instruction (f.shape.views w) := by
  obtain ⟨f, o, rfl⟩ := exists_instruction_eq i
  have hw : w = f.word o := by
    rw [← toWord_instruction]
    exact Instruction.ofWord?_eq_some_iff.mp h
  have hviews : f.shape.views w = o := hw ▸ f.shape.views_word o
  exact ⟨f, hviews.symm ▸ hw, hviews.symm ▸ rfl⟩

end Form

/-! ## Words of no form -/

namespace Machine

variable {m : Machine}

theorem step_of_no_form (h : ∀ (f : Form) (o : f.shape.Operands), m.fetch ≠ f.word o)
    (keypad : Keypad) :
    (m.step keypad).fault? = none ∧ (m.step keypad).machine = { m with pc := m.fetchPc + 2 } := by
  have hnone : Instruction.ofWord? m.fetch = none := by
    cases hi : Instruction.ofWord? m.fetch with
    | none => rfl
    | some i =>
      obtain ⟨f, hf, -⟩ := Form.exists_word_eq_of_ofWord? hi
      exact absurd hf (h f _)
  rw [step, Word.perform_none hnone]
  exact ⟨rfl, rfl⟩

/-- **Words are read as they are written.** In each form the operands come back as the views of the
word, no word has two forms, and each that is read as an instruction is written in its form. A word
of no form changes nothing but the counter, which goes on by two. -/
theorem words_have_one_form :
    (Form.all.length = 34 ∧ Form.all.Nodup ∧ ∀ f, f ∈ Form.all) ∧
      (∀ (f : Form) (o : f.shape.Operands),
        Instruction.ofWord? (f.word o) = some (f.instruction o) ∧ f.shape.views (f.word o) = o) ∧
      (∀ (f g : Form) (o : f.shape.Operands) (o' : g.shape.Operands),
        f.word o = g.word o' → f = g) ∧
      (∀ w i, Instruction.ofWord? w = some i →
        ∃ f : Form, w = f.word (f.shape.views w) ∧ i = f.instruction (f.shape.views w)) ∧
      ∀ (m : Machine) (keypad : Keypad),
        (∀ (f : Form) (o : f.shape.Operands), m.fetch ≠ f.word o) →
          let p := if m.pc.toNat ≤ 4094 then m.pc else 0x200
          (m.step keypad).fault? = none ∧ (m.step keypad).machine = { m with pc := p + 2 } ∧
            (p + 2).toNat = p.toNat + 2 := by
  refine ⟨⟨rfl, by decide, Form.mem_all⟩, fun f o => ?_, ?_, ?_, ?_⟩
  · exact ⟨f.ofWord?_word o, f.shape.views_word o⟩
  · exact fun f g o o' h => Form.eq_of_word_eq h
  · exact fun w i h => Form.exists_word_eq_of_ofWord? h
  · intro m keypad h
    rw [← fetchPc_eq]
    obtain ⟨hfault, hmachine⟩ := step_of_no_form h keypad
    exact ⟨hfault, hmachine, m.toNat_fetchPc_add_two⟩

theorem words_have_one_form_around_gap :
    let keypad : Keypad := fun _ => false
    let m : Machine := { ((ofSeed 0).loadProgram [0x51, 0x21]).machine with pc := 4095 }
    Instruction.ofWord? 0x5120 = some (.skipIf (.equal 1 2)) ∧
      (∃ f : Form, 0x5120 = f.word (f.shape.views 0x5120) ∧
        .skipIf (.equal 1 2) = f.instruction (f.shape.views 0x5120)) ∧
      (∀ (f : Form) (o : f.shape.Operands), m.fetch ≠ f.word o) ∧
      (m.step keypad).fault? = none ∧ (m.step keypad).machine = { m with pc := 0x202 } := by
  intro keypad m
  have hread : Instruction.ofWord? 0x5120 = some (.skipIf (.equal 1 2)) := by decide
  have hgap : Instruction.ofWord? m.fetch = none := by decide +kernel
  have hnone : ∀ (f : Form) (o : f.shape.Operands), m.fetch ≠ f.word o := by
    intro f o h
    rw [h, f.ofWord?_word] at hgap
    cases hgap
  obtain ⟨-, -, -, hform, hpasses⟩ := words_have_one_form
  obtain ⟨hfault, hmachine, -⟩ := hpasses m keypad hnone
  exact ⟨hread, hform 0x5120 _ hread, hnone, hfault, hmachine⟩

end Machine

end Chip8
