import Chip8.Proofs.Failure

/-!
# What a performed word leaves behind

`Writes` lists, for each form of word, the parts of a machine that it may write. All other parts are
after a performed word what they were before it (`Footprint`), also where operands name the same
register, or VF.
-/

namespace Chip8

namespace Action

variable {m done : Machine} {flow : Flow}

theorem read_ok {length : Nat} {f : Vector UInt8 length → Machine → Machine}
    (h : EStateM.run (do let bytes ← readMemory length; modify (f bytes); return Flow.next) m =
      .ok flow done) :
    ∃ bytes, m.memory.read m.i length = .ok bytes ∧ flow = .next ∧ done = f bytes m := by
  simp only [EStateM.run_bind, run_readMemory] at h
  cases hread : m.memory.read m.i length with
  | error fault => rw [hread] at h; cases h
  | ok bytes => rw [hread] at h; cases h; exact ⟨_, rfl, rfl, rfl⟩

theorem write_ok {bytes : List UInt8}
    (h : EStateM.run (do writeMemory bytes; return Flow.next) m = .ok flow done) :
    ∃ memory, m.memory.write m.i bytes = .ok memory ∧ flow = .next ∧ done = { m with memory } := by
  simp only [EStateM.run_bind, run_writeMemory] at h
  cases hwrite : m.memory.write m.i bytes with
  | error fault => rw [hwrite] at h; cases h
  | ok memory => rw [hwrite] at h; cases h; exact ⟨_, rfl, rfl, rfl⟩

end Action

namespace Instruction

variable {keypad : Keypad} {m done : Machine} {flow : Flow}

theorem perform_returnToCaller (h : (perform keypad returnToCaller).run m = .ok flow done) :
    ∃ address stack, m.stack.pop = .ok (address, stack) ∧ flow = .jump address ∧
      done = { m with stack } := by
  simp only [perform, EStateM.run_bind, Action.run_popCall] at h
  cases hpop : m.stack.pop with
  | error fault => rw [hpop] at h; cases h
  | ok popped => rw [hpop] at h; cases h; exact ⟨_, _, rfl, rfl, rfl⟩

theorem perform_call {nnn : Address} (h : (perform keypad (call nnn)).run m = .ok flow done) :
    ∃ stack, m.stack.push (m.pc + 2) = .ok stack ∧ flow = .jump nnn.toUInt16 ∧
      done = { m with stack } := by
  simp only [perform, EStateM.run_bind, EStateM.run_get, Action.run_pushCall] at h
  cases hpush : m.stack.push (m.pc + 2) with
  | error fault => rw [hpush] at h; cases h
  | ok stack => rw [hpush] at h; cases h; exact ⟨_, rfl, rfl, rfl⟩

theorem perform_draw {x y rows : Nibble}
    (h : (perform keypad (draw x y rows)).run m = .ok flow done) :
    ∃ bytes, m.memory.read m.i rows = .ok bytes ∧ flow = .next ∧
      done = m.drawSprite x y bytes.toList :=
  Action.read_ok h

theorem perform_restoreRegisters {x : Nibble}
    (h : (perform keypad (restoreRegisters x)).run m = .ok flow done) :
    ∃ bytes, m.memory.read m.i (x + 1) = .ok bytes ∧ flow = .next ∧
      done = { m with v := m.v.restore bytes } :=
  Action.read_ok h

theorem perform_storeDecimal {x : Nibble}
    (h : (perform keypad (storeDecimal x)).run m = .ok flow done) :
    ∃ memory, m.memory.write m.i (decimalDigits (m.v.get x)) = .ok memory ∧ flow = .next ∧
      done = { m with memory } := by
  rw [perform, EStateM.run_bind, EStateM.run_get] at h
  exact Action.write_ok h

theorem perform_saveRegisters {x : Nibble}
    (h : (perform keypad (saveRegisters x)).run m = .ok flow done) :
    ∃ memory, m.memory.write m.i (m.v.upTo x) = .ok memory ∧ flow = .next ∧
      done = { m with memory } := by
  rw [perform, EStateM.run_bind, EStateM.run_get] at h
  exact Action.write_ok h

theorem perform_awaitKey {x : Nibble} (h : (perform keypad (awaitKey x)).run m = .ok flow done) :
    (keypad.firstDown? = none ∧ flow = .wait ∧ done = m) ∨
      ∃ key, keypad.firstDown? = some key ∧ flow = .next ∧
        done = { m with v := m.v.set x (UInt8.ofNat key) } := by
  unfold perform at h
  cases hkey : keypad.firstDown? with
  | none => rw [hkey] at h; cases h; exact Or.inl ⟨rfl, rfl, rfl⟩
  | some key => rw [hkey] at h; cases h; exact Or.inr ⟨key, rfl, rfl, rfl⟩

end Instruction

/-! ## Executed words -/

theorem Word.perform_eq {w : Word} {i : Instruction} (h : Instruction.ofWord? w = some i)
    (keypad : Keypad) : w.perform keypad = i.perform keypad := by
  rw [perform, h]

theorem Word.run_toWord (i : Instruction) {keypad : Keypad} {m : Machine} :
    (i.toWord.perform keypad).run m = (i.perform keypad).run m := by
  rw [perform_eq (Instruction.ofWord?_toWord i)]

theorem Word.perform_none {w : Word} (h : Instruction.ofWord? w = none) (keypad : Keypad) :
    w.perform keypad = pure .next := by
  rw [perform, h]

theorem Machine.perform_storeDecimal {m : Machine} {x : Nibble} {memory : Memory}
    (hwrite : m.memory.write m.i (decimalDigits (m.v.get x)) = .ok memory) (keypad : Keypad) :
    ((Word.ofByte 0xF x 0x33).perform keypad).run m = .ok .next { m with memory } := by
  refine (Word.run_toWord (.storeDecimal x)).trans ?_
  simp only [Instruction.perform, EStateM.run_bind, EStateM.run_get, Action.run_writeMemory, hwrite]
  rfl

namespace Event

variable {e : Event} {w : Word}

theorem step_of_executed (h : e.executed? = some w) :
    w = e.before.fetch ∧ ∃ keypad flow done,
      (w.perform keypad).run { e.before with pc := e.before.fetchPc } = .ok flow done ∧
      e.after = { done with pc := flow.after done.pc } := by
  obtain ⟨m, op⟩ := e
  cases op with
  | step keypad =>
    simp only [executed?] at h
    split at h
    · rename_i hfault
      cases h
      obtain ⟨flow, done, hok⟩ := Machine.perform_of_step_accepted hfault
      exact ⟨rfl, keypad, flow, done, hok, Machine.machine_step_of_ok hok⟩
    · cases h
  | _ => cases h

theorem executed?_step {m : Machine} {keypad : Keypad} (h : (m.step keypad).fault? = none) :
    executed? ⟨m, .step keypad⟩ = some m.fetch :=
  if_pos h

theorem after_of_not_executed (h : e.executed? = none) :
    ∃ pc delay sound memory, e.after = { e.before with
      pc, delay, sound, memory, redraw := e.taken?.elim e.before.redraw fun _ => false } := by
  obtain ⟨m, op⟩ := e
  cases op with
  | step keypad =>
    cases hfault : (m.step keypad).fault? with
    | none => rw [executed?_step hfault] at h; cases h
    | some fault => exact ⟨_, _, _, _, Machine.machine_step_of_fault hfault⟩
  | load | loadProgram | loadRom =>
    refine (m.apply_of_isLoad ?_).elim fun memory hload => ⟨_, _, _, _, hload⟩
    rfl
  | _ => exact ⟨_, _, _, _, rfl⟩

end Event

/-! ## What a word may write -/

inductive Part where
  | register (r : Nibble)
  | index
  | stack
  | delay
  | sound
  | byte (address : Nat)
  | display
  | generator

/-- A word may write a part; `index` is where it would write to memory. -/
inductive Writes (index : UInt16) : Word → Part → Prop
  | clearScreen : Writes index 0x00E0 .display
  | returnToCaller : Writes index 0x00EE .stack
  | call (nnn : Address) : Writes index (.ofAddress 0x2 nnn) .stack
  | setByte (x : Nibble) (nn : UInt8) : Writes index (.ofByte 0x6 x nn) (.register x)
  | addByte (x : Nibble) (nn : UInt8) : Writes index (.ofByte 0x7 x nn) (.register x)
  | bitwise (x y n : Nibble) : n.val ≤ 3 → Writes index (.ofNibbles 0x8 x y n) (.register x)
  | arithmetic (x y n r : Nibble) : n.val ∈ [0x4, 0x5, 0x6, 0x7, 0xE] → r = x ∨ r = 0xF →
      Writes index (.ofNibbles 0x8 x y n) (.register r)
  | setIndex (nnn : Address) : Writes index (.ofAddress 0xA nnn) .index
  | randomByte (x : Nibble) (nn : UInt8) : Writes index (.ofByte 0xC x nn) (.register x)
  | taken (x : Nibble) (nn : UInt8) : Writes index (.ofByte 0xC x nn) .generator
  | draw (x y n : Nibble) : Writes index (.ofNibbles 0xD x y n) .display
  | collision (x y n : Nibble) : Writes index (.ofNibbles 0xD x y n) (.register 0xF)
  | readDelay (x : Nibble) : Writes index (.ofByte 0xF x 0x07) (.register x)
  | awaitKey (x : Nibble) : Writes index (.ofByte 0xF x 0x0A) (.register x)
  | setDelay (x : Nibble) : Writes index (.ofByte 0xF x 0x15) .delay
  | setSound (x : Nibble) : Writes index (.ofByte 0xF x 0x18) .sound
  | addToIndex (x : Nibble) : Writes index (.ofByte 0xF x 0x1E) .index
  | pointAtGlyph (x : Nibble) : Writes index (.ofByte 0xF x 0x29) .index
  | storeDecimal (x : Nibble) (a : Nat) : index.toNat ≤ a → a ≤ index.toNat + 2 →
      Writes index (.ofByte 0xF x 0x33) (.byte a)
  | saveRegisters (x : Nibble) (a : Nat) : index.toNat ≤ a → a ≤ index.toNat + x.val →
      Writes index (.ofByte 0xF x 0x55) (.byte a)
  | restoreRegisters (x r : Nibble) : r ≤ x → Writes index (.ofByte 0xF x 0x65) (.register r)

theorem writes_byte_iff {index : UInt16} {w : Word} {a : Nat} :
    Writes index w (.byte a) ↔
      (∃ x, w = .ofByte 0xF x 0x33 ∧ index.toNat ≤ a ∧ a ≤ index.toNat + 2) ∨
      ∃ x : Nibble, w = .ofByte 0xF x 0x55 ∧ index.toNat ≤ a ∧ a ≤ index.toNat + x.val := by
  constructor
  · intro h
    cases h with
    | storeDecimal x _ hlow hhigh => exact Or.inl ⟨x, rfl, hlow, hhigh⟩
    | saveRegisters x _ hlow hhigh => exact Or.inr ⟨x, rfl, hlow, hhigh⟩
  · rintro (⟨x, rfl, hlow, hhigh⟩ | ⟨x, rfl, hlow, hhigh⟩)
    · exact .storeDecimal x a hlow hhigh
    · exact .saveRegisters x a hlow hhigh

/-- From `m` to `s`, all parts are kept that the word does not write. -/
structure Footprint (w : Word) (m s : Machine) : Prop where
  registers : ∀ r, ¬ Writes m.i w (.register r) → s.v.get r = m.v.get r
  index : ¬ Writes m.i w .index → s.i = m.i
  stack : ¬ Writes m.i w .stack → s.stack = m.stack
  delay : ¬ Writes m.i w .delay → s.delay = m.delay
  sound : ¬ Writes m.i w .sound → s.sound = m.sound
  memory : ∀ a (ha : a < Memory.size), ¬ Writes m.i w (.byte a) → s.memory[a] = m.memory[a]
  display : ¬ Writes m.i w .display → s.frame = m.frame ∧ s.redraw = m.redraw
  random : ¬ Writes m.i w .generator → s.random = m.random

theorem Footprint.refl (w : Word) (m : Machine) : Footprint w m m :=
  ⟨fun _ _ => rfl, fun _ => rfl, fun _ => rfl, fun _ => rfl, fun _ => rfl, fun _ _ _ => rfl,
    fun _ => ⟨rfl, rfl⟩, fun _ => rfl⟩

theorem Footprint.of_pc {w : Word} {m s : Machine} {before after : UInt16}
    (h : Footprint w { m with pc := before } s) : Footprint w m { s with pc := after } :=
  ⟨h.registers, h.index, h.stack, h.delay, h.sound, h.memory, h.display, h.random⟩

/-! ## Registers and bytes that are kept -/

namespace Registers

variable (v : Registers) {x r : Nibble}

theorem get_set_self (x : Nibble) (value : UInt8) : (v.set x value).get x = value :=
  Vector.getElem_set_self x.isLt

theorem get_set_of_ne (value : UInt8) (h : r ≠ x) : (v.set x value).get r = v.get r := by
  have hne : x.val ≠ r.val := fun heq => h (Fin.ext heq.symm)
  show (Vector.set v x.val value)[r.val] = v[r.val]
  rw [Vector.getElem_set_ne _ _ hne]

theorem get_combine_of_ne (how : Combination) (y : Nibble) (hx : r ≠ x)
    (hflag : how.flag? (v.get x) (v.get y) ≠ none → r ≠ 0xF) :
    (v.combine how x y).get r = v.get r := by
  unfold combine
  rw [get_set_of_ne _ _ hx]
  cases hf : how.flag? (v.get x) (v.get y) with
  | none => rfl
  | some flag => exact get_set_of_ne v _ (hflag (by simp [hf]))

theorem get_restore_of_le {count : Nat} (bytes : Vector UInt8 count) (h : count ≤ r.val) :
    (v.restore bytes).get r = v.get r := by
  show (v.restore bytes)[r.val] = v[r.val]
  rw [restore, Vector.getElem_ofFn, Vector.getElem?_eq_none h]
  rfl

end Registers

theorem Memory.getElem_write_of_outside {mem written : Memory} {start : UInt16}
    {bytes : List UInt8} (h : mem.write start bytes = .ok written) {a : Nat} (ha : a < size)
    (hout : start.toNat ≤ a → start.toNat + bytes.length ≤ a) : written[a] = mem[a] := by
  unfold write at h
  split at h
  · cases h
    rw [getElem_overlay]
    by_cases hle : start.toNat ≤ a
    · have hlen : bytes.length ≤ a - start.toNat := by have := hout hle; omega
      simp [hle, hlen]
    · simp [hle]
  · cases h

theorem Memory.getElem?_write_of_outside {mem written : Memory} {start : UInt16}
    {bytes : List UInt8} (h : mem.write start bytes = .ok written) {a : Nat}
    (hout : a < start.toNat ∨ start.toNat + bytes.length ≤ a) : written[a]? = mem[a]? := by
  by_cases ha : a < size
  · rw [Vector.getElem?_eq_getElem ha, Vector.getElem?_eq_getElem ha]
    exact congrArg some (getElem_write_of_outside h ha fun hle => hout.resolve_left (by omega))
  · rw [Vector.getElem?_eq_none (Nat.le_of_not_lt ha),
      Vector.getElem?_eq_none (Nat.le_of_not_lt ha)]

/-! ## Performed words -/

namespace Instruction

variable {keypad : Keypad} {m done : Machine} {flow : Flow} {i : Instruction}

theorem kept_of_set {w : Word} {x : Nibble} (hx : Writes m.i w (.register x)) (value : UInt8) :
    ∀ r, ¬ Writes m.i w (.register r) → (m.v.set x value).get r = m.v.get r := by
  intro r hr
  refine m.v.get_set_of_ne value ?_
  rintro rfl
  exact hr hx

theorem writes_combine (index : UInt16) (how : Combination) (x y : Nibble) :
    Writes index (combine how x y).toWord (.register x) := by
  cases how with
  | copy | or | and | xor => exact .bitwise x y _ (by decide)
  | _ => exact .arithmetic x y _ x (by decide) (Or.inl rfl)

theorem writes_flag (index : UInt16) {how : Combination} (x y : Nibble) {a b : UInt8}
    (h : how.flag? a b ≠ none) : Writes index (combine how x y).toWord (.register 0xF) := by
  cases how with
  | copy | or | and | xor => exact absurd rfl h
  | _ => exact .arithmetic x y _ 0xF (by decide) (Or.inr rfl)

theorem footprint_of_perform (h : (i.perform keypad).run m = .ok flow done) :
    Footprint i.toWord m done := by
  have same := Footprint.refl i.toWord m
  cases i with
  | clearScreen => cases h; exact { same with display := fun hw => (hw .clearScreen).elim }
  | returnToCaller =>
    obtain ⟨_, _, _, _, rfl⟩ := perform_returnToCaller h
    exact { same with stack := fun hw => (hw .returnToCaller).elim }
  | call nnn =>
    obtain ⟨_, _, _, rfl⟩ := perform_call h
    exact { same with stack := fun hw => (hw (.call nnn)).elim }
  | jump | skipIf | jumpByV0 => cases h; exact same
  | setByte x nn => cases h; exact { same with registers := kept_of_set (.setByte x nn) _ }
  | addByte x nn => cases h; exact { same with registers := kept_of_set (.addByte x nn) _ }
  | combine how x y =>
    cases h
    refine { same with registers := fun r hr => ?_ }
    refine m.v.get_combine_of_ne how y ?_ fun hflag => ?_
    · rintro rfl
      exact hr (writes_combine _ how r y)
    · rintro rfl
      exact hr (writes_flag _ x y hflag)
  | setIndex nnn => cases h; exact { same with index := fun hw => (hw (.setIndex nnn)).elim }
  | randomByte x mask =>
    cases h
    exact { same with
      registers := kept_of_set (.randomByte x mask) _
      random := fun hw => (hw (.taken x mask)).elim }
  | draw x y n =>
    obtain ⟨_, _, _, rfl⟩ := perform_draw h
    exact { same with
      registers := kept_of_set (.collision x y n) _
      display := fun hw => (hw (.draw x y n)).elim }
  | readDelay x => cases h; exact { same with registers := kept_of_set (.readDelay x) _ }
  | awaitKey x =>
    rcases perform_awaitKey h with ⟨-, -, rfl⟩ | ⟨key, -, -, rfl⟩
    · exact same
    · exact { same with registers := kept_of_set (.awaitKey x) _ }
  | setDelay x => cases h; exact { same with delay := fun hw => (hw (.setDelay x)).elim }
  | setSound x => cases h; exact { same with sound := fun hw => (hw (.setSound x)).elim }
  | addToIndex x => cases h; exact { same with index := fun hw => (hw (.addToIndex x)).elim }
  | pointAtGlyph x => cases h; exact { same with index := fun hw => (hw (.pointAtGlyph x)).elim }
  | storeDecimal x =>
    obtain ⟨_, hwrite, _, rfl⟩ := perform_storeDecimal h
    refine { same with memory := fun a ha hr => ?_ }
    refine Memory.getElem_write_of_outside hwrite ha fun hle => Nat.le_of_not_lt fun hlt => ?_
    exact hr (.storeDecimal x a hle (Nat.le_of_lt_succ hlt))
  | saveRegisters x =>
    obtain ⟨_, hwrite, _, rfl⟩ := perform_saveRegisters h
    refine { same with memory := fun a ha hr => ?_ }
    refine Memory.getElem_write_of_outside hwrite ha fun hle => Nat.le_of_not_lt fun hlt => ?_
    rw [Registers.length_upTo] at hlt
    exact hr (.saveRegisters x a hle (Nat.le_of_lt_succ hlt))
  | restoreRegisters x =>
    obtain ⟨_, _, _, rfl⟩ := perform_restoreRegisters h
    refine { same with registers := fun r hr => ?_ }
    refine m.v.get_restore_of_le _ (Nat.lt_of_not_le fun hle => ?_)
    exact hr (.restoreRegisters x r hle)

end Instruction

theorem footprint_of_perform_word {keypad : Keypad} {m done : Machine} {flow : Flow} {w : Word}
    (h : (w.perform keypad).run m = .ok flow done) : Footprint w m done := by
  cases hi : Instruction.ofWord? w with
  | none => rw [Word.perform_none hi] at h; cases h; exact .refl w m
  | some i =>
    rw [Word.perform_eq hi] at h
    obtain rfl := Instruction.ofWord?_eq_some_iff.mp hi
    exact Instruction.footprint_of_perform h

theorem Event.footprint_of_executed {e : Event} {w : Word} (h : e.executed? = some w) :
    Footprint w e.before e.after := by
  obtain ⟨-, _, _, _, hrun, hafter⟩ := step_of_executed h
  rw [hafter]
  exact (footprint_of_perform_word hrun).of_pc

/-! ## Steps -/

namespace Machine

variable {m : Machine} {keypad : Keypad}

theorem slots_step_of_call {nnn : Address} (h : (m.step keypad).fault? = none)
    (hw : m.fetch = .ofAddress 0x2 nnn) :
    (m.step keypad).machine.stack.depth = m.stack.depth + 1 ∧
      ∀ k (hk : k < CallStack.capacity), k ≠ m.stack.depth →
        (m.step keypad).machine.stack.slots[k] = m.stack.slots[k] := by
  obtain ⟨flow, done, hok⟩ := perform_of_step_accepted h
  rw [machine_step_of_ok hok]
  rw [hw] at hok
  have hcall := (Word.run_toWord (.call nnn)).symm.trans hok
  obtain ⟨stack, hpush, -, rfl⟩ := Instruction.perform_call hcall
  exact CallStack.push_ok hpush

theorem slots_step_of_return (h : (m.step keypad).fault? = none) (hw : m.fetch = 0x00EE) :
    (m.step keypad).machine.stack.depth + 1 = m.stack.depth ∧
      (m.step keypad).machine.stack.slots = m.stack.slots := by
  obtain ⟨flow, done, hok⟩ := perform_of_step_accepted h
  rw [machine_step_of_ok hok]
  rw [hw, Word.perform_eq (i := .returnToCaller) rfl] at hok
  obtain ⟨address, stack, hpop, -, rfl⟩ := Instruction.perform_returnToCaller hok
  exact CallStack.pop_ok hpop

/-- **A step writes only what its word may write.** A call writes one slot of the stack, the first
free one, and goes one deeper; a return writes none and goes back by one. -/
theorem step_footprint (m : Machine) (keypad : Keypad) (h : (m.step keypad).fault? = none) :
    let s := (m.step keypad).machine
    Footprint m.fetch m s ∧
      (∀ nnn, m.fetch = .ofAddress 0x2 nnn → s.stack.depth = m.stack.depth + 1 ∧
        ∀ k (hk : k < 16), k ≠ m.stack.depth → s.stack.slots[k] = m.stack.slots[k]) ∧
      (m.fetch = 0x00EE →
        s.stack.depth + 1 = m.stack.depth ∧ s.stack.slots = m.stack.slots) :=
  ⟨Event.footprint_of_executed (Event.executed?_step h), fun _ => slots_step_of_call h,
    slots_step_of_return h⟩

theorem step_footprint_last_slot :
    let keypad : Keypad := fun _ => false
    let m := (ofSeed 0).after (.loadProgram [0x22, 0x00] :: List.replicate 15 (.step keypad))
    let s := (m.step keypad).machine
    (m.step keypad).fault? = none ∧ Footprint m.fetch m s ∧ m.stack.depth = 15 ∧
      s.stack.depth = 16 ∧ s.stack.slots[14] = m.stack.slots[14] := by
  intro keypad m s
  obtain ⟨hfault, hfetch, hdepth⟩ :
      (m.step keypad).fault? = none ∧ m.fetch = .ofAddress 0x2 0x200 ∧ m.stack.depth = 15 := by
    decide +kernel
  obtain ⟨hkept, hcall, -⟩ := step_footprint m keypad hfault
  obtain ⟨hdeeper, hslots⟩ := hcall 0x200 hfetch
  rw [hdepth] at hdeeper hslots
  exact ⟨hfault, hkept, hdepth, hdeeper, hslots 14 (by decide) (by decide)⟩

end Machine

end Chip8
