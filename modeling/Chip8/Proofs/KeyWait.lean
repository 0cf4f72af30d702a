import Chip8.Proofs.Timers

/-!
# Waiting for a key

A machine that comes to a wait stays there while no key is down; only its timers go on, and at the
first step a counter behind the end of memory is set back. The step that finds a key down takes the
lowest one, however long the wait was.
-/

namespace Chip8

/-- What a host does while it waits: it ticks the timers, and steps with none of the sixteen keys
down. -/
def Operation.Idle : Operation → Prop
  | .tick => True
  | .step keypad => ∀ key : Nibble, keypad (UInt8.ofNat key) = false
  | _ => False

namespace Machine

variable {m s : Machine} {x : Nibble} {keypad : Keypad}

/-! ## One step -/

theorem step_of_no_key (hword : m.fetch = .ofByte 0xF x 0x0A)
    (hup : ∀ key : Nibble, keypad (UInt8.ofNat key) = false) :
    m.step keypad = ⟨{ m with pc := m.fetchPc }, m.stepLog, none⟩ := by
  have hrun : (m.fetch.perform keypad).run { m with pc := m.fetchPc } =
      .ok .wait { m with pc := m.fetchPc } := by
    rw [hword]
    refine (Word.run_toWord (.awaitKey x)).trans ?_
    rw [Instruction.perform, Keypad.firstDown?_eq_none_iff.mpr hup]
    rfl
  rw [step, hrun]
  rfl

theorem step_of_key {key : Nibble} (hword : m.fetch = .ofByte 0xF x 0x0A)
    (hdown : keypad.firstDown? = some key) :
    m.step keypad =
      ⟨{ m with v := m.v.set x (UInt8.ofNat key), pc := m.fetchPc + 2 }, m.stepLog, none⟩ := by
  have hrun : (m.fetch.perform keypad).run { m with pc := m.fetchPc } =
      .ok .next { m with v := m.v.set x (UInt8.ofNat key), pc := m.fetchPc } := by
    rw [hword]
    refine (Word.run_toWord (.awaitKey x)).trans ?_
    rw [Instruction.perform, hdown]
    rfl
  rw [step, hrun]
  rfl

/-! ## The whole wait -/

/-- The machine after a wait: the counter moved only if there was a step, and only to where the next
step would fetch from in any case. -/
theorem after_idle {ops : List Operation} (hword : m.fetch = .ofByte 0xF x 0x0A)
    (hops : ∀ op ∈ ops, op.Idle) :
    (∀ e ∈ m.history ops, e.stepFault? = none) ∧
      m.after ops = { m with
        pc := if ops.all (·.isTick) then m.pc else m.fetchPc
        delay := Timer.lowered m.delay (ops.countP (·.isTick))
        sound := Timer.lowered m.sound (ops.countP (·.isTick)) } := by
  induction ops generalizing m with
  | nil =>
    refine ⟨fun e he => absurd he List.not_mem_nil, ?_⟩
    simp only [List.countP_nil, Timer.lowered_zero]
    rfl
  | cons op ops ih =>
    rw [List.forall_mem_cons] at hops
    rw [history, List.forall_mem_cons, after_cons]
    cases op with
    | tick =>
      obtain ⟨hgood, hafter⟩ := ih (m := m.tick) hword hops.2
      have hticks : (Operation.tick :: ops).countP (·.isTick) = 1 + ops.countP (·.isTick) := by
        rw [List.countP_cons_of_pos rfl, Nat.add_comm]
      refine ⟨⟨rfl, hgood⟩, hafter.trans ?_⟩
      rw [hticks, ← Timer.lowered_lowered, ← Timer.lowered_lowered, tick_eq]
      rfl
    | step keypad =>
      have hstep := step_of_no_key hword hops.1
      -- the rest of the wait begins with the counter where this step left it, and it stays there
      let ready : Machine := { m with pc := m.fetchPc }
      have hpc : ready.fetchPc = m.fetchPc := fetchPc_of_pc rfl
      have hagain : ready.fetch = .ofByte 0xF x 0x0A := (fetch_of_same_place hpc rfl).trans hword
      obtain ⟨hgood, hafter⟩ := ih hagain hops.2
      rw [apply, hstep]
      refine ⟨⟨congrArg Outcome.fault? hstep, hgood⟩, hafter.trans ?_⟩
      rw [hpc, ite_self]
      rfl
    | _ => exact hops.1.elim

/-- **Waiting for a key changes nothing but the timers.** After any steps with no key down and any
ticks the counter is at the waiting word if there was a step, the timers are lower by the ticks,
and all else is as before. The step that finds keys down puts the lowest of them into VX and goes
on. -/
theorem wait_changes_only_timers (m : Machine) (x : Nibble) (ops : List Operation)
    (hword : m.fetch = .ofByte 0xF x 0x0A) (hops : ∀ op ∈ ops, op.Idle) :
    let p : UInt16 := if m.pc.toNat ≤ 4094 then m.pc else 0x200
    let ticks := ops.countP (·.isTick)
    let delay := UInt8.ofNat (m.delay.toNat - ticks)
    let sound := UInt8.ofNat (m.sound.toNat - ticks)
    let s := m.after ops
    (∀ e ∈ m.history ops, e.stepFault? = none) ∧
      s = { m with pc := if ops.all (·.isTick) then m.pc else p, delay, sound } ∧
      ∀ keypad : Keypad, (∃ key : Nibble, keypad (UInt8.ofNat key) = true) →
        ∃ key : Nibble, keypad (UInt8.ofNat key) = true ∧
          (∀ lower < key, keypad (UInt8.ofNat lower) = false) ∧
          (s.step keypad).fault? = none ∧
          (s.step keypad).machine =
            { m with v := m.v.set x (UInt8.ofNat key), pc := p + 2, delay, sound } := by
  intro p ticks delay sound s
  have hp : m.fetchPc = p := fetchPc_eq
  obtain ⟨hgood, hafter⟩ := after_idle hword hops
  rw [hp] at hafter
  refine ⟨hgood, hafter, fun keypad hdown => ?_⟩
  -- the waiting word is still there, and the next step still fetches it
  have hs : s = { m with pc := if ops.all (·.isTick) then m.pc else p, delay, sound } := hafter
  have hmemory : s.memory = m.memory := by rw [hs]
  have hpc : s.fetchPc = m.fetchPc := by
    rw [hs]
    split
    · rfl
    · exact fetchPc_of_pc hp.symm
  have hwait : s.fetch = .ofByte 0xF x 0x0A := (fetch_of_same_place hpc hmemory).trans hword
  cases hfirst : keypad.firstDown? with
  | none =>
    obtain ⟨key, hkey⟩ := hdown
    rw [Keypad.firstDown?_eq_none_iff.mp hfirst key] at hkey
    cases hkey
  | some key =>
    obtain ⟨hkey, hlowest⟩ := Keypad.firstDown?_eq_some_iff.mp hfirst
    refine ⟨key, hkey, hlowest, ?_⟩
    rw [step_of_key hwait hfirst, hpc, hp, hs]
    exact ⟨rfl, rfl⟩

theorem wait_changes_only_timers_from_behind_end :
    let idle : Keypad := fun key => 16 ≤ key
    let pressed : Keypad := fun key => key = 0xB ∨ key = 7
    let m : Machine := { ofSeed 0 with
      pc := 4095
      delay := 1
      sound := 3
      memory := (ofSeed 0).memory.overlay 0x200 [0xF3, 0x0A] }
    let ops := [.tick, .step idle, .tick, .step idle]
    let s := m.after ops
    m.fetch = .ofByte 0xF 3 0x0A ∧ (∀ op ∈ ops, op.Idle) ∧
      s = { m with pc := 0x200, delay := 0, sound := 1 } ∧
      (s.step pressed).machine = { s with v := s.v.set 3 7, pc := 0x202 } := by
  intro idle pressed m ops s
  have hword : m.fetch = .ofByte 0xF 3 0x0A := by decide +kernel
  have hidle : ∀ key : Nibble, idle (UInt8.ofNat key) = false := by decide
  have hops : ∀ op ∈ ops, op.Idle := by
    simpa [ops, Operation.Idle] using hidle
  obtain ⟨-, hs, hkey⟩ := wait_changes_only_timers m 3 ops hword hops
  obtain ⟨key, hdown, hlowest, -, hstep⟩ := hkey pressed ⟨7, by decide⟩
  have hlow : ∀ key : Nibble, pressed (UInt8.ofNat key) = true →
      (∀ lower < key, pressed (UInt8.ofNat lower) = false) → key = 7 := by decide
  obtain rfl := hlow key hdown hlowest
  have hs : s = { m with pc := 0x200, delay := 0, sound := 1 } := hs
  refine ⟨hword, hops, hs, hstep.trans ?_⟩
  rw [hs]
  rfl

/-- Ticks alone do not bring the counter back from behind the end of memory; it takes a step. -/
theorem ticks_leave_counter_behind_end :
    let m : Machine := { ofSeed 0 with
      pc := 4095
      memory := (ofSeed 0).memory.overlay 0x200 [0xF3, 0x0A] }
    let ops := [Operation.tick]
    m.fetch = .ofByte 0xF 3 0x0A ∧ m.fetchPc = 0x200 ∧ (∀ op ∈ ops, op.Idle) ∧
      ops.all (·.isTick) = true ∧
      m.after ops ≠ { m with
        pc := 0x200
        delay := UInt8.ofNat (m.delay.toNat - 1)
        sound := UInt8.ofNat (m.sound.toNat - 1) } := by
  intro m ops
  have hword : m.fetch = .ofByte 0xF 3 0x0A := by decide +kernel
  have hops : ∀ op ∈ ops, op.Idle := by simp [ops, Operation.Idle]
  refine ⟨hword, rfl, hops, rfl, fun hsame => ?_⟩
  have hpc : (4095 : UInt16) = 0x200 := congrArg Machine.pc hsame
  exact absurd hpc (by decide)

end Machine

end Chip8
