import Chip8.Proofs.Decoding
import Chip8.Proofs.History

/-!
# Steps that fail

`refusal?` names the fault that stops an instruction. It looks at the depth of the stack and at the
index and at nothing else, and what it stops has changed nothing (`perform_of_refusal`). `FailsWith`
lists the six forms of words that can fail, each with its condition and its fault.
-/

namespace Chip8

def Memory.refusal? (start : UInt16) (length : Nat) : Option Fault :=
  if start.toNat + length ≤ size then none else some (outside start.toNat)

def Instruction.refusal? (depth : Nat) (index : UInt16) : Instruction → Option Fault
  | returnToCaller => if depth = 0 then some .stackUnderflow else none
  | call _ => if depth < CallStack.capacity then none else some (.stackOverflow CallStack.capacity)
  | draw _ _ rows => Memory.refusal? index rows
  | storeDecimal _ => Memory.refusal? index 3
  | saveRegisters x => Memory.refusal? index (x + 1)
  | restoreRegisters x => Memory.refusal? index (x + 1)
  | _ => none

def Word.refusal? (depth : Nat) (index : UInt16) (w : Word) : Option Fault :=
  (Instruction.ofWord? w).bind (·.refusal? depth index)

/-! ## The parts that can fail -/

section
variable {start : UInt16}

theorem Memory.read_of_refusal (mem : Memory) {length : Nat} {fault : Fault}
    (h : refusal? start length = some fault) : mem.read start length = .error fault := by
  unfold refusal? at h
  split at h
  · cases h
  · rename_i hout; cases h; exact dif_neg hout

theorem Memory.read_of_fits (mem : Memory) {length : Nat} (h : refusal? start length = none) :
    ∃ bytes, mem.read start length = .ok bytes := by
  unfold refusal? at h
  split at h
  · rename_i hin; exact ⟨_, dif_pos hin⟩
  · cases h

theorem Memory.write_of_refusal (mem : Memory) {bytes : List UInt8} {fault : Fault}
    (h : refusal? start bytes.length = some fault) : mem.write start bytes = .error fault := by
  unfold refusal? at h
  split at h
  · cases h
  · rename_i hout; cases h; exact if_neg hout

theorem Memory.write_of_fits (mem : Memory) {bytes : List UInt8}
    (h : refusal? start bytes.length = none) : ∃ mem', mem.write start bytes = .ok mem' := by
  unfold refusal? at h
  split at h
  · rename_i hin; exact ⟨_, if_pos hin⟩
  · cases h

end

theorem Registers.length_upTo (v : Registers) (x : Nibble) : (v.upTo x).length = x + 1 := by
  rw [upTo, List.length_take, Vector.length_toList]; omega

namespace Instruction

variable {keypad : Keypad} {m : Machine} {i : Instruction}

/-- **A refused instruction changes nothing.** Each of the six that can fail finds out before its
first write. -/
theorem perform_of_refusal {fault : Fault} (h : i.refusal? m.stack.depth m.i = some fault) :
    (i.perform keypad).run m = .error fault m := by
  cases i with
  | returnToCaller =>
    simp only [refusal?] at h
    split at h
    · rename_i hempty
      cases h
      simp only [perform, EStateM.run_bind, Action.run_popCall, CallStack.pop, hempty, dite_true]
    · cases h
  | call nnn =>
    simp only [refusal?] at h
    split at h
    · cases h
    · rename_i hfull
      cases h
      simp only [perform, EStateM.run_bind, EStateM.run_get, Action.run_pushCall, CallStack.push,
        hfull, dite_false]
  | draw x y rows =>
    simp only [perform, EStateM.run_bind, Action.run_readMemory, m.memory.read_of_refusal h]
  | storeDecimal x =>
    have hw : m.memory.write m.i (decimalDigits (m.v.get x)) = .error fault :=
      m.memory.write_of_refusal h
    simp only [perform, EStateM.run_bind, EStateM.run_get, Action.run_writeMemory, hw]
  | saveRegisters x =>
    have hw : m.memory.write m.i (m.v.upTo x) = .error fault :=
      m.memory.write_of_refusal (by rw [m.v.length_upTo]; exact h)
    simp only [perform, EStateM.run_bind, EStateM.run_get, Action.run_writeMemory, hw]
  | restoreRegisters x =>
    simp only [perform, EStateM.run_bind, Action.run_readMemory, m.memory.read_of_refusal h]
  | _ => cases h

theorem perform_of_accepted (h : i.refusal? m.stack.depth m.i = none) :
    ∃ flow done, (i.perform keypad).run m = .ok flow done := by
  cases i with
  | returnToCaller =>
    simp only [refusal?] at h
    split at h
    · cases h
    · rename_i hne
      simp only [perform, EStateM.run_bind, Action.run_popCall, CallStack.pop, hne, dite_false]
      exact ⟨_, _, rfl⟩
  | call nnn =>
    simp only [refusal?] at h
    split at h
    · rename_i hroom
      simp only [perform, EStateM.run_bind, EStateM.run_get, Action.run_pushCall, CallStack.push,
        hroom, dite_true]
      exact ⟨_, _, rfl⟩
    · cases h
  | draw x y rows =>
    obtain ⟨bytes, hr⟩ := m.memory.read_of_fits h
    simp only [perform, EStateM.run_bind, Action.run_readMemory, hr]
    exact ⟨_, _, rfl⟩
  | storeDecimal x =>
    have hfits : Memory.refusal? m.i (decimalDigits (m.v.get x)).length = none := h
    obtain ⟨mem, hw⟩ := m.memory.write_of_fits hfits
    simp only [perform, EStateM.run_bind, EStateM.run_get, Action.run_writeMemory, hw]
    exact ⟨_, _, rfl⟩
  | saveRegisters x =>
    have hfits : Memory.refusal? m.i (m.v.upTo x).length = none := by
      rw [m.v.length_upTo]; exact h
    obtain ⟨mem, hw⟩ := m.memory.write_of_fits hfits
    simp only [perform, EStateM.run_bind, EStateM.run_get, Action.run_writeMemory, hw]
    exact ⟨_, _, rfl⟩
  | restoreRegisters x =>
    obtain ⟨bytes, hr⟩ := m.memory.read_of_fits h
    simp only [perform, EStateM.run_bind, Action.run_readMemory, hr]
    exact ⟨_, _, rfl⟩
  | awaitKey x =>
    unfold perform
    cases keypad.firstDown? with
    | none => exact ⟨_, _, rfl⟩
    | some key => exact ⟨_, _, rfl⟩
  | _ => exact ⟨_, _, rfl⟩

end Instruction

/-! ## Steps -/

namespace Machine

variable {m : Machine} {keypad : Keypad} {fault : Fault}

theorem perform_word_of_refusal {w : Word} (h : w.refusal? m.stack.depth m.i = some fault) :
    (w.perform keypad).run m = .error fault m := by
  obtain ⟨i, hi, href⟩ := Option.bind_eq_some_iff.mp h
  simp only [Word.perform, hi]
  exact Instruction.perform_of_refusal href

theorem perform_word_of_accepted {w : Word} (h : w.refusal? m.stack.depth m.i = none) :
    ∃ flow done, (w.perform keypad).run m = .ok flow done := by
  unfold Word.perform
  cases hi : Instruction.ofWord? w with
  | none => exact ⟨_, _, rfl⟩
  | some i =>
    rw [Word.refusal?, hi] at h
    exact Instruction.perform_of_accepted h

theorem fault?_step : (m.step keypad).fault? = m.fetch.refusal? m.stack.depth m.i := by
  let ready := { m with pc := m.fetchPc }
  unfold step
  cases href : m.fetch.refusal? m.stack.depth m.i with
  | some fault => rw [perform_word_of_refusal (m := ready) href]
  | none =>
    obtain ⟨flow, done, hok⟩ : ∃ flow done, (m.fetch.perform keypad).run ready = .ok flow done :=
      perform_word_of_accepted href
    rw [hok]

theorem machine_step_of_fault (h : (m.step keypad).fault? = some fault) :
    (m.step keypad).machine = { m with pc := m.fetchPc } := by
  rw [fault?_step] at h
  unfold step
  rw [perform_word_of_refusal (m := { m with pc := m.fetchPc }) h]

theorem machine_step_of_ok {flow : Flow} {done : Machine}
    (h : (m.fetch.perform keypad).run { m with pc := m.fetchPc } = .ok flow done) :
    (m.step keypad).machine = { done with pc := flow.after done.pc } := by
  rw [step, h]

theorem perform_of_step_accepted (h : (m.step keypad).fault? = none) :
    ∃ flow done, (m.fetch.perform keypad).run { m with pc := m.fetchPc } = .ok flow done :=
  perform_word_of_accepted (m := { m with pc := m.fetchPc }) (fault?_step ▸ h)

theorem fetchPc_le (m : Machine) : m.fetchPc.toNat ≤ 4094 :=
  Nat.le_of_lt_succ (Nat.lt_of_succ_lt_succ m.fetchPc_lt)

theorem fetchPc_eq : m.fetchPc = if m.pc.toNat ≤ 4094 then m.pc else 0x200 := by
  have hsize : Memory.size = 4096 := rfl
  unfold fetchPc
  by_cases h : m.pc.toNat ≤ 4094
  · rw [if_pos h, if_pos (by omega)]
  · rw [if_neg h, if_neg (by omega)]

theorem fetchPc_of_pc {s : Machine} (h : s.pc = m.fetchPc) : s.fetchPc = m.fetchPc := by
  rw [fetchPc, if_pos (h ▸ m.fetchPc_lt), h]

theorem fetch_of_same_place {s : Machine} (hpc : s.fetchPc = m.fetchPc)
    (hmemory : s.memory = m.memory) : s.fetch = m.fetch := by
  simp only [fetch, hmemory, hpc]

def Stalled (left s : Machine) : Prop :=
  ∃ delay sound redraw, s = { left with delay, sound, redraw }

theorem fault?_step_of_stalled {s : Machine} {keypad' : Keypad}
    (h : (m.step keypad).fault? = some fault) (hs : Stalled (m.step keypad).machine s) :
    (s.step keypad').fault? = some fault ∧ (s.step keypad').machine = s := by
  have hleft := machine_step_of_fault h
  rw [fault?_step] at h
  obtain ⟨delay, sound, redraw, rfl⟩ := hs
  rw [hleft]
  let s : Machine := { m with pc := m.fetchPc, delay, sound, redraw }
  have hpc : s.fetchPc = m.fetchPc := fetchPc_of_pc rfl
  have hfetch : s.fetch = m.fetch := fetch_of_same_place hpc rfl
  have hfault : (s.step keypad').fault? = some fault := by rw [fault?_step, hfetch]; exact h
  refine ⟨hfault, ?_⟩
  rw [machine_step_of_fault hfault, hpc]

theorem stalled_apply {left s : Machine} {op : Operation} (hop : op.isLoad = false)
    (hstep : ∀ keypad, op = .step keypad → (s.step keypad).machine = s) (hs : Stalled left s) :
    Stalled left (s.apply op) := by
  cases op with
  | step keypad => rw [apply, hstep keypad rfl]; exact hs
  | load | loadProgram | loadRom => cases hop
  | tick | setDelay | setSound | takeFrame =>
    obtain ⟨delay, sound, redraw, rfl⟩ := hs
    exact ⟨_, _, _, rfl⟩

/-- **A failed step leaves the machine at the failing instruction and fails again,** whatever the
host does in between short of loading. -/
theorem failed_step_recurs (h : (m.step keypad).fault? = some fault) :
    let left := (m.step keypad).machine
    left = { m with pc := if m.pc.toNat ≤ 4094 then m.pc else 0x200 } ∧
      ∀ ops : List Operation, (∀ op ∈ ops, op.isLoad = false) →
        (∀ e ∈ left.history ops, ∀ keypad', e.operation = .step keypad' →
          (e.before.step keypad').fault? = some fault) ∧
        ∃ delay sound redraw, left.after ops = { left with delay, sound, redraw } := by
  intro left
  refine ⟨fetchPc_eq (m := m) ▸ machine_step_of_fault h, fun ops hops => ?_⟩
  -- every step so far failed this way, and the machine is stalled
  let P : List Event → Machine → Prop := fun past s =>
    (∀ e ∈ past, ∀ keypad', e.operation = .step keypad' →
      (e.before.step keypad').fault? = some fault) ∧ Stalled left s
  apply left.after_induction (P := P) ops
  · exact ⟨fun e he => absurd he List.not_mem_nil, _, _, _, rfl⟩
  intro past s op hop ⟨hpast, hs⟩
  have hstep : ∀ keypad', (s.step keypad').fault? = some fault ∧ (s.step keypad').machine = s :=
    fun _ => fault?_step_of_stalled h hs
  constructor
  · intro e he keypad' hop'
    rcases List.mem_append.mp he with he | he
    · exact hpast e he keypad' hop'
    · obtain rfl := List.mem_singleton.mp he
      exact (hstep keypad').1
  · exact stalled_apply (hops op hop) (fun keypad' _ => (hstep keypad').2) hs

theorem failed_step_recurs_on_full_stack :
    let m : Machine :=
      { ofSeed 0 with pc := 7, stack := ⟨Vector.replicate 16 0x300, 16, by decide⟩ }
    let left := (m.step fun _ => false).machine
    let fault := Fault.stackOverflow 16
    (m.step fun _ => false).fault? = some fault ∧
      ((left.after [.tick, .takeFrame]).step fun _ => true).fault? = some fault := by
  intro m left fault
  have h : (m.step fun _ => false).fault? = some fault := by rw [fault?_step]; decide +kernel
  have hops : ∀ op ∈ [.tick, .takeFrame, .step fun _ => true], Operation.isLoad op = false := by
    simp [Operation.isLoad]
  have hall := ((failed_step_recurs h).2 _ hops).1
  exact ⟨h,
    hall ⟨left.after [.tick, .takeFrame], .step fun _ => true⟩ (by simp [history]; rfl) _ rfl⟩

end Machine

/-! ## Which steps fail, and what they report -/

/-- A word fails with a fault where the stack has this depth and the index this value. -/
inductive FailsWith (depth : Nat) (index : UInt16) : Word → Fault → Prop
  | underflow : depth = 0 → FailsWith depth index 0x00EE .stackUnderflow
  | overflow (nnn : Address) :
      depth = 16 → FailsWith depth index (.ofAddress 0x2 nnn) (.stackOverflow 16)
  | draw (x y n : Nibble) : 4096 < index.toNat + n.val →
      FailsWith depth index (.ofNibbles 0xD x y n) (.outOfBounds (max index.toNat 4096))
  | storeDecimal (x : Nibble) : 4096 < index.toNat + 3 →
      FailsWith depth index (.ofByte 0xF x 0x33) (.outOfBounds (max index.toNat 4096))
  | saveRegisters (x : Nibble) : 4096 < index.toNat + x.val + 1 →
      FailsWith depth index (.ofByte 0xF x 0x55) (.outOfBounds (max index.toNat 4096))
  | restoreRegisters (x : Nibble) : 4096 < index.toNat + x.val + 1 →
      FailsWith depth index (.ofByte 0xF x 0x65) (.outOfBounds (max index.toNat 4096))

/-! ## Refusals by form -/

section
variable {depth : Nat} {index : UInt16} {fault : Fault}

theorem Memory.refusal?_eq_some_iff {start : UInt16} {length : Nat} :
    refusal? start length = some fault ↔
      4096 < start.toNat + length ∧ fault = .outOfBounds (max start.toNat 4096) := by
  unfold refusal?
  split
  · rename_i hfits
    simp only [reduceCtorEq, false_iff, not_and]
    intro hout
    exact absurd hfits (Nat.not_le.mpr hout)
  · rename_i hout
    simp only [Option.some.injEq]
    exact ⟨fun h => ⟨Nat.not_le.mp hout, h.symm⟩, fun h => h.2.symm⟩

theorem Word.refusal?_toWord (i : Instruction) :
    i.toWord.refusal? depth index = i.refusal? depth index := by
  rw [refusal?, Instruction.ofWord?_toWord, Option.bind_some]

theorem failsWith_of_refusal {i : Instruction} (hdepth : depth ≤ 16)
    (h : i.refusal? depth index = some fault) : FailsWith depth index i.toWord fault := by
  cases i with
  | returnToCaller =>
    simp only [Instruction.refusal?] at h
    split at h
    · rename_i hempty; cases h; exact .underflow hempty
    · cases h
  | call nnn =>
    simp only [Instruction.refusal?] at h
    split at h
    · cases h
    · rename_i hfull
      cases h
      exact .overflow nnn (Nat.le_antisymm hdepth (Nat.not_lt.mp hfull))
  | draw x y n =>
    obtain ⟨hout, rfl⟩ := Memory.refusal?_eq_some_iff.mp h
    exact .draw x y n hout
  | storeDecimal x =>
    obtain ⟨hout, rfl⟩ := Memory.refusal?_eq_some_iff.mp h
    exact .storeDecimal x hout
  | saveRegisters x =>
    obtain ⟨hout, rfl⟩ := Memory.refusal?_eq_some_iff.mp h
    exact .saveRegisters x hout
  | restoreRegisters x =>
    obtain ⟨hout, rfl⟩ := Memory.refusal?_eq_some_iff.mp h
    exact .restoreRegisters x hout
  | _ => cases h

theorem refusal_of_failsWith {w : Word} (h : FailsWith depth index w fault) :
    w.refusal? depth index = some fault := by
  cases h with
  | underflow hempty => exact (Word.refusal?_toWord .returnToCaller).trans (if_pos hempty)
  | overflow nnn hfull =>
    exact (Word.refusal?_toWord (.call nnn)).trans
      (if_neg (Nat.not_lt.mpr (Nat.le_of_eq hfull.symm)))
  | draw x y n hout =>
    exact (Word.refusal?_toWord (.draw x y n)).trans (Memory.refusal?_eq_some_iff.mpr ⟨hout, rfl⟩)
  | storeDecimal x hout =>
    exact (Word.refusal?_toWord (.storeDecimal x)).trans
      (Memory.refusal?_eq_some_iff.mpr ⟨hout, rfl⟩)
  | saveRegisters x hout =>
    exact (Word.refusal?_toWord (.saveRegisters x)).trans
      (Memory.refusal?_eq_some_iff.mpr ⟨hout, rfl⟩)
  | restoreRegisters x hout =>
    exact (Word.refusal?_toWord (.restoreRegisters x)).trans
      (Memory.refusal?_eq_some_iff.mpr ⟨hout, rfl⟩)

theorem refusal?_eq_some_iff {w : Word} (hdepth : depth ≤ 16) :
    w.refusal? depth index = some fault ↔ FailsWith depth index w fault := by
  constructor
  · intro h
    obtain ⟨i, hi, href⟩ := Option.bind_eq_some_iff.mp h
    obtain rfl := Instruction.ofWord?_eq_some_iff.mp hi
    exact failsWith_of_refusal hdepth href
  · exact refusal_of_failsWith

end

namespace Machine

theorem fault?_step_eq_some_iff {m : Machine} {keypad : Keypad} {fault : Fault} :
    (m.step keypad).fault? = some fault ↔ FailsWith m.stack.depth m.i m.fetch fault := by
  rw [fault?_step]
  exact refusal?_eq_some_iff m.stack.depth_le

/-- **Which steps fail, and how.** A step fails exactly if its word is listed with this depth and
this index, and with the fault listed there; registers, timers, frame, generator and keypad have no
part in it. -/
theorem step_fails_iff (m : Machine) (keypad : Keypad) :
    (∀ fault, (m.step keypad).fault? = some fault ↔ FailsWith m.stack.depth m.i m.fetch fault) ∧
      ∀ keypad' v delay sound frame redraw random,
        ({ m with v, delay, sound, frame, redraw, random }.step keypad').fault? =
          (m.step keypad).fault? := by
  refine ⟨fun _ => fault?_step_eq_some_iff, ?_⟩
  intro keypad' v delay sound frame redraw random
  rw [fault?_step, fault?_step]
  rfl

end Machine

/-! ## The addresses that an instruction touches -/

def Instruction.touched (index : UInt16) : Instruction → List Nat
  | draw _ _ rows => List.range' index.toNat rows
  | storeDecimal _ => List.range' index.toNat 3
  | saveRegisters x => List.range' index.toNat (x + 1)
  | restoreRegisters x => List.range' index.toNat (x + 1)
  | _ => []

def Word.touched (index : UInt16) (w : Word) : List Nat :=
  (Instruction.ofWord? w).elim [] (·.touched index)

theorem Word.touched_toWord (index : UInt16) (i : Instruction) :
    i.toWord.touched index = i.touched index := by
  rw [touched, Instruction.ofWord?_toWord, Option.elim_some]

structure FirstOutside (touched : List Nat) (address : Nat) : Prop where
  mem : address ∈ touched
  outside : 4096 ≤ address
  least : ∀ a ∈ touched, 4096 ≤ a → address ≤ a

theorem firstOutside_range' {start length : Nat} (hpos : 0 < length) (h : 4096 < start + length) :
    FirstOutside (List.range' start length) (max start 4096) := by
  constructor
  · rw [List.mem_range'_1]
    omega
  · exact Nat.le_max_right ..
  · intro a ha hout
    exact Nat.max_le.mpr ⟨(List.mem_range'_1.mp ha).1, hout⟩

/-- A report is truthful if it names the first address outside memory of those that are touched,
and is only made where there is one. -/
structure TruthfulReport (touched : List Nat) (fault? : Option Fault) : Prop where
  first_outside : ∀ address, fault? = some (.outOfBounds address) → FirstOutside touched address
  silent_inside : (∀ a ∈ touched, a < 4096) → ∀ address, fault? ≠ some (.outOfBounds address)

theorem truthfulReport_of_first_outside {touched : List Nat} {fault? : Option Fault}
    (h : ∀ address, fault? = some (.outOfBounds address) → FirstOutside touched address) :
    TruthfulReport touched fault? := by
  refine ⟨h, fun hinside address hfault => ?_⟩
  have hfirst := h address hfault
  exact absurd (hinside address hfirst.mem) (Nat.not_lt.mpr hfirst.outside)

namespace Machine

variable {m : Machine} {keypad : Keypad}

theorem touched_draw_nothing {x y : Nibble} (h : m.fetch = .ofNibbles 0xD x y 0) :
    m.fetch.touched m.i = [] := by
  rw [h]
  exact Word.touched_toWord m.i (.draw x y 0)

theorem firstOutside_of_fault {address : Nat}
    (h : (m.step keypad).fault? = some (.outOfBounds address)) :
    FirstOutside (m.fetch.touched m.i) address ∨
      (∃ x y, m.fetch = .ofNibbles 0xD x y 0) ∧ 4096 < m.i.toNat := by
  generalize hw : m.fetch = w
  have hfails := fault?_step_eq_some_iff.mp h
  rw [hw] at hfails
  cases hfails with
  | draw x y n hout =>
    by_cases hn : n = 0
    · subst hn
      exact Or.inr ⟨⟨x, y, rfl⟩, hout⟩
    · have hpos : 0 < n.val := Nat.pos_of_ne_zero fun h0 => hn (Fin.ext h0)
      exact Or.inl (Word.touched_toWord m.i (.draw x y n) ▸ firstOutside_range' hpos hout)
  | storeDecimal x hout =>
    exact Or.inl (Word.touched_toWord m.i (.storeDecimal x) ▸
      firstOutside_range' (Nat.succ_pos 2) hout)
  | saveRegisters x hout =>
    exact Or.inl (Word.touched_toWord m.i (.saveRegisters x) ▸
      firstOutside_range' (Nat.succ_pos x) hout)
  | restoreRegisters x hout =>
    exact Or.inl (Word.touched_toWord m.i (.restoreRegisters x) ▸
      firstOutside_range' (Nat.succ_pos x) hout)

/-- **Reports of accesses outside memory are truthful,** save for one kind of step: a draw of no
rows touches nothing, and yet is reported where the index lies past the end of memory. -/
theorem report_truthful_iff (m : Machine) (keypad : Keypad) :
    TruthfulReport (m.fetch.touched m.i) (m.step keypad).fault? ↔
      ¬ ((∃ x y, m.fetch = .ofNibbles 0xD x y 0) ∧ 4096 < m.i.toNat) := by
  constructor
  · intro htruthful hempty
    obtain ⟨⟨x, y, hw⟩, hpast⟩ := hempty
    have hfails : FailsWith m.stack.depth m.i m.fetch (.outOfBounds (max m.i.toNat 4096)) := by
      rw [hw]
      exact .draw x y 0 hpast
    refine htruthful.silent_inside ?_ _ (fault?_step_eq_some_iff.mpr hfails)
    rw [touched_draw_nothing hw]
    exact fun a ha => absurd ha List.not_mem_nil
  · intro hnonempty
    refine truthfulReport_of_first_outside fun address hfault => ?_
    exact (firstOutside_of_fault hfault).resolve_right hnonempty

/-- The index is moved past the end of memory, and nothing is drawn there. -/
theorem empty_draw_reports_untouched_address :
    let keypad : Keypad := fun _ => false
    let m := (ofSeed 0).after
      [.loadProgram [0xAF, 0xFF, 0x60, 0x02, 0xF0, 0x1E, 0xD0, 0x00],
        .step keypad, .step keypad, .step keypad]
    (m.step keypad).fault? = some (.outOfBounds 4097) ∧ m.fetch.touched m.i = [] ∧
      ¬ TruthfulReport (m.fetch.touched m.i) (m.step keypad).fault? := by
  intro keypad m
  have hfault : (m.step keypad).fault? = some (.outOfBounds 4097) := by decide +kernel
  have htouched : m.fetch.touched m.i = [] := by decide +kernel
  refine ⟨hfault, htouched, fun htruthful => htruthful.silent_inside ?_ _ hfault⟩
  rw [htouched]
  exact fun a ha => absurd ha List.not_mem_nil

end Machine

end Chip8
