import Chip8.Proofs.CallReturn

/-!
# Bounds on the program counter and the stack

The counter is fed by the step forward, by skips, by two kinds of jumps, and by the addresses that
returns take from the stack, which come from the counter in turn. `Bounded` bounds both together
and is kept by every operation; so the counter never gets near the end of its sixteen bits.
-/

namespace Chip8

/-! ## How control goes on -/

def Flow.target (pc : Nat) : Flow → Nat
  | next => pc + 2
  | skip => pc + 4
  | jump address => address.toNat
  | wait => pc

theorem Flow.toNat_after {pc : UInt16} (h : pc.toNat ≤ 4094) (flow : Flow) :
    (flow.after pc).toNat = flow.target pc.toNat := by
  have hnext : (pc + 2).toNat = (pc.toNat + 2) % 2 ^ 16 := UInt16.toNat_add pc 2
  have hskip : (pc + 4).toNat = (pc.toNat + 4) % 2 ^ 16 := UInt16.toNat_add pc 4
  cases flow with
  | next => simp only [after, target]; omega
  | skip => simp only [after, target]; omega
  | jump address => rfl
  | wait => rfl

/-- A jump goes to one of these return addresses, or not past 4350. -/
def Flow.Near (live : List UInt16) : Flow → Prop
  | jump address => address.toNat ≤ 4350 ∨ address ∈ live
  | _ => True

namespace Instruction

variable {keypad : Keypad} {m done : Machine} {flow : Flow} {i : Instruction}

theorem pc_of_perform (h : (i.perform keypad).run m = .ok flow done) : done.pc = m.pc := by
  cases i with
  | returnToCaller => obtain ⟨_, _, _, _, rfl⟩ := perform_returnToCaller h; rfl
  | call => obtain ⟨_, _, _, rfl⟩ := perform_call h; rfl
  | draw => obtain ⟨_, _, _, rfl⟩ := perform_draw h; rfl
  | restoreRegisters => obtain ⟨_, _, _, rfl⟩ := perform_restoreRegisters h; rfl
  | storeDecimal => obtain ⟨_, _, _, rfl⟩ := perform_storeDecimal h; rfl
  | saveRegisters => obtain ⟨_, _, _, rfl⟩ := perform_saveRegisters h; rfl
  | awaitKey => rcases perform_awaitKey h with ⟨-, -, rfl⟩ | ⟨_, -, -, rfl⟩ <;> rfl
  | _ => cases h; rfl

theorem flow_of_perform (h : (i.perform keypad).run m = .ok flow done) :
    flow.Near m.stack.live := by
  cases i with
  | returnToCaller =>
    obtain ⟨address, stack, hpop, rfl, -⟩ := perform_returnToCaller h
    refine Or.inr ?_
    rw [CallStack.live_pop hpop]
    exact List.mem_concat_self
  | jump nnn =>
    cases h
    refine Or.inl ?_
    rw [Address.toNat_toUInt16]
    omega
  | call nnn =>
    obtain ⟨_, _, rfl, -⟩ := perform_call h
    refine Or.inl ?_
    rw [Address.toNat_toUInt16]
    omega
  | jumpByV0 nnn =>
    cases h
    refine Or.inl ?_
    have := (m.v.get 0).toNat_lt
    rw [Address.toNat_byte_add]
    omega
  | skipIf condition =>
    cases h
    split <;> trivial
  | draw => obtain ⟨_, _, rfl, _⟩ := perform_draw h; trivial
  | restoreRegisters => obtain ⟨_, _, rfl, _⟩ := perform_restoreRegisters h; trivial
  | storeDecimal => obtain ⟨_, _, rfl, _⟩ := perform_storeDecimal h; trivial
  | saveRegisters => obtain ⟨_, _, rfl, _⟩ := perform_saveRegisters h; trivial
  | awaitKey => rcases perform_awaitKey h with ⟨-, rfl, -⟩ | ⟨_, -, rfl, -⟩ <;> trivial
  | _ => cases h; trivial

end Instruction

namespace Machine

variable {m done : Machine} {keypad : Keypad} {flow : Flow}

theorem pc_of_perform_word {w : Word} (h : (w.perform keypad).run m = .ok flow done) :
    done.pc = m.pc ∧ flow.Near m.stack.live := by
  cases hi : Instruction.ofWord? w with
  | none => rw [Word.perform_none hi] at h; cases h; exact ⟨rfl, trivial⟩
  | some i =>
    rw [Word.perform_eq hi] at h
    exact ⟨Instruction.pc_of_perform h, Instruction.flow_of_perform h⟩

theorem pc_step_of_ok
    (h : (m.fetch.perform keypad).run { m with pc := m.fetchPc } = .ok flow done) :
    (m.step keypad).machine.pc.toNat = flow.target m.fetchPc.toNat := by
  have hpc : done.pc = m.fetchPc := (pc_of_perform_word h).1
  rw [machine_step_of_ok h]
  show (flow.after done.pc).toNat = _
  rw [hpc, Flow.toNat_after m.fetchPc_le]

/-! ## The invariant -/

structure Bounded (m : Machine) : Prop where
  pc_le : m.pc.toNat ≤ 4350
  live : ∀ address ∈ m.stack.live, 2 ≤ address.toNat ∧ address.toNat ≤ 4096

theorem bounded_ofSeed (seed : UInt64) : Bounded (ofSeed seed) := by
  constructor
  · show (0x200 : UInt16).toNat ≤ 4350
    decide
  · intro address h
    rw [ofSeed, CallStack.live_empty] at h
    cases h

theorem pc_step_le (hm : Bounded m) : (m.step keypad).machine.pc.toNat ≤ 4350 := by
  have hle := m.fetchPc_le
  cases hfault : (m.step keypad).fault? with
  | some fault =>
    rw [machine_step_of_fault hfault]
    exact Nat.le_trans hle (by decide)
  | none =>
    obtain ⟨flow, done, hok⟩ := perform_of_step_accepted hfault
    have hnear : flow.Near m.stack.live := (pc_of_perform_word hok).2
    rw [pc_step_of_ok hok]
    cases flow with
    | next => simp only [Flow.target]; omega
    | skip => simp only [Flow.target]; omega
    | jump address =>
      rcases hnear with hnear | hlive
      · exact hnear
      · exact Nat.le_trans (hm.live address hlive).2 (by decide)
    | wait => simp only [Flow.target]; omega

theorem pc_apply_le (hm : Bounded m) (op : Operation) : (m.apply op).pc.toNat ≤ 4350 := by
  cases op with
  | step keypad => exact pc_step_le hm
  | load bytes origin =>
    obtain ⟨memory, hload⟩ := m.machine_load bytes origin
    rw [apply, hload]
    exact hm.pc_le
  | loadProgram bytes =>
    obtain ⟨memory, hload⟩ := m.machine_load bytes programStart
    rw [apply, loadProgram, hload]
    exact hm.pc_le
  | loadRom source =>
    obtain ⟨memory, hload⟩ := m.machine_loadRom source
    rw [apply, hload]
    exact hm.pc_le
  | _ => exact hm.pc_le

theorem live_apply (hm : Bounded m) (op : Operation) :
    ∀ address ∈ (m.apply op).stack.live, 2 ≤ address.toNat ∧ address.toNat ≤ 4096 := by
  let e : Event := ⟨m, op⟩
  cases hc : e.isCall with
  | true =>
    rw [show (m.apply op).stack.live = _ from Event.live_of_isCall hc]
    intro address h
    rcases List.mem_append.mp h with h | h
    · exact hm.live address h
    · obtain rfl := List.mem_singleton.mp h
      have hle := m.fetchPc_le
      show 2 ≤ (m.fetchPc + 2).toNat ∧ (m.fetchPc + 2).toNat ≤ 4096
      rw [toNat_fetchPc_add_two]
      omega
  | false =>
    cases hr : e.isReturn with
    | true =>
      intro address h
      have hlive : m.stack.live = _ := Event.live_of_isReturn hr
      exact hm.live address (hlive ▸ List.mem_append_left _ h)
    | false =>
      rw [show (m.apply op).stack = _ from Event.stack_of_neither hc hr]
      exact hm.live

theorem bounded_apply (hm : Bounded m) (op : Operation) : Bounded (m.apply op) :=
  ⟨pc_apply_le hm op, live_apply hm op⟩

theorem bounded_after (seed : UInt64) (ops : List Operation) : Bounded ((ofSeed seed).after ops) :=
  (ofSeed seed).after_induction (P := fun _ s => Bounded s) ops (bounded_ofSeed seed)
    fun _ _ op _ h => bounded_apply h op

/-- **Counter and stack stay in bounds** in every machine that a host can reach: at most 16 return
addresses, each from 2 to 4096, and the counter at most 4350. So no counter is ever cut off. -/
theorem counter_and_stack_bounded (seed : UInt64) (ops : List Operation) :
    let m := (ofSeed seed).after ops
    m.stack.depth ≤ 16 ∧ m.pc.toNat ≤ 4350 ∧
      (∀ address ∈ m.stack.live, 2 ≤ address.toNat ∧ address.toNat ≤ 4096) ∧
      (m.fetchPc + 2).toNat = m.fetchPc.toNat + 2 ∧
      ∀ keypad flow done,
        (m.fetch.perform keypad).run { m with pc := m.fetchPc } = .ok flow done →
          (m.step keypad).machine.pc.toNat = flow.target m.fetchPc.toNat := by
  intro m
  have hm : Bounded m := bounded_after seed ops
  exact ⟨m.stack.depth_le, hm.pc_le, hm.live, m.toNat_fetchPc_add_two, fun _ _ _ => pc_step_of_ok⟩

theorem counter_and_stack_bounded_farthest :
    let keypad : Keypad := fun _ => false
    let ops : List Operation :=
      [.loadProgram [0x60, 0xFF, 0x22, 0x04, 0xBF, 0xFF], .step keypad, .step keypad]
    let m := (ofSeed 0).after ops
    (m.fetch.perform keypad).run { m with pc := m.fetchPc } =
        .ok (.jump 4350) { m with pc := m.fetchPc } ∧
      m.stack.live = [0x204] ∧ (m.step keypad).machine.pc.toNat = 4350 := by
  intro keypad ops m
  obtain ⟨hfetch, hv0, hlive⟩ :
      m.fetch = 0xBFFF ∧ m.v.get 0 = 0xFF ∧ m.stack.live = [0x204] := by decide +kernel
  have hok : (m.fetch.perform keypad).run { m with pc := m.fetchPc } =
      .ok (.jump 4350) { m with pc := m.fetchPc } := by
    rw [hfetch, Word.perform_eq (i := .jumpByV0 0xFFF) (by decide)]
    show EStateM.Result.ok (Flow.jump ((m.v.get 0).toUInt16 + _)) _ = _
    rw [hv0]
    rfl
  exact ⟨hok, hlive, (counter_and_stack_bounded 0 ops).2.2.2.2 keypad _ _ hok⟩

end Machine

end Chip8
