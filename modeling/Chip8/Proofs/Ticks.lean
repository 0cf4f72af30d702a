import Chip8.Proofs.Failure
import Chip8.Proofs.Independence
import Chip8.Proofs.Timers

/-!
# Ticks among steps

Three words touch a timer. Any other does the same whatever the timers hold, so a tick before its step
and a tick after it come to the same; and in a run without the three, it makes no difference where
ticks are placed.
-/

namespace Chip8

inductive Word.UsesTimer : Word → Prop
  | readDelay (x : Nibble) : UsesTimer (.ofByte 0xF x 0x07)
  | setDelay (x : Nibble) : UsesTimer (.ofByte 0xF x 0x15)
  | setSound (x : Nibble) : UsesTimer (.ofByte 0xF x 0x18)

def Instruction.usesTimer : Instruction → Bool
  | readDelay _ => true
  | setDelay _ => true
  | setSound _ => true
  | _ => false

theorem Word.usesTimer_iff {w : Word} :
    w.UsesTimer ↔ (Instruction.ofWord? w).any Instruction.usesTimer = true := by
  rw [Instruction.any_ofWord?_iff]
  constructor
  · intro h
    cases h with
    | readDelay x => exact ⟨.readDelay x, rfl, rfl⟩
    | setDelay x => exact ⟨.setDelay x, rfl, rfl⟩
    | setSound x => exact ⟨.setSound x, rfl, rfl⟩
  · rintro ⟨i, rfl, hi⟩
    cases i with
    | readDelay x => exact .readDelay x
    | setDelay x => exact .setDelay x
    | setSound x => exact .setSound x
    | _ => cases hi

instance (w : Word) : Decidable w.UsesTimer :=
  decidable_of_iff _ Word.usesTimer_iff.symm

/-! ## Words that touch no timer -/

def Machine.withTimers (m : Machine) (delay sound : UInt8) : Machine :=
  { m with delay, sound }

def Outcome.mapMachine {ε : Type} (f : Machine → Machine) (o : Outcome ε) : Outcome ε :=
  ⟨f o.machine, o.log, o.fault?⟩

theorem Instruction.perform_withTimers {i : Instruction} (hi : i.usesTimer = false)
    (keypad : Keypad) (m : Machine) (delay sound : UInt8) :
    (i.perform keypad).run (m.withTimers delay sound) =
      match (i.perform keypad).run m with
      | .ok flow done => .ok flow (done.withTimers delay sound)
      | .error fault left => .error fault (left.withTimers delay sound) := by
  unfold Machine.withTimers
  cases i with
  | readDelay | setDelay | setSound => cases hi
  | returnToCaller =>
    simp only [perform, EStateM.run_bind, Action.run_popCall]
    cases m.stack.pop <;> rfl
  | call nnn =>
    simp only [perform, EStateM.run_bind, EStateM.run_get, Action.run_pushCall]
    cases m.stack.push (m.pc + 2) <;> rfl
  | draw x y rows =>
    simp only [perform, EStateM.run_bind, Action.run_readMemory]
    cases m.memory.read m.i rows <;> rfl
  | restoreRegisters x =>
    simp only [perform, EStateM.run_bind, Action.run_readMemory]
    cases m.memory.read m.i (x + 1) <;> rfl
  | storeDecimal x =>
    simp only [perform, EStateM.run_bind, EStateM.run_get, Action.run_writeMemory]
    cases m.memory.write m.i (decimalDigits (m.v.get x)) <;> rfl
  | saveRegisters x =>
    simp only [perform, EStateM.run_bind, EStateM.run_get, Action.run_writeMemory]
    cases m.memory.write m.i (m.v.upTo x) <;> rfl
  | awaitKey x =>
    unfold perform
    cases keypad.firstDown? <;> rfl
  | _ => rfl

theorem Word.perform_withTimers {w : Word} (hw : ¬ w.UsesTimer) (keypad : Keypad) (m : Machine)
    (delay sound : UInt8) :
    (w.perform keypad).run (m.withTimers delay sound) =
      match (w.perform keypad).run m with
      | .ok flow done => .ok flow (done.withTimers delay sound)
      | .error fault left => .error fault (left.withTimers delay sound) := by
  rw [usesTimer_iff] at hw
  cases hi : Instruction.ofWord? w with
  | none => rw [perform_none hi]; rfl
  | some i =>
    rw [hi, Option.any_some, Bool.not_eq_true] at hw
    rw [perform_eq hi]
    exact Instruction.perform_withTimers hw keypad m delay sound

theorem Word.refusal?_of_usesTimer {w : Word} (h : w.UsesTimer) (depth : Nat) (index : UInt16) :
    w.refusal? depth index = none := by
  obtain ⟨i, rfl, hi⟩ := Instruction.any_ofWord?_iff.mp (usesTimer_iff.mp h)
  rw [refusal?_toWord]
  cases i with
  | readDelay | setDelay | setSound => rfl
  | _ => cases hi

/-! ## Operations that touch no timer -/

namespace Machine

variable {m : Machine}

theorem step_withTimers (h : ¬ m.fetch.UsesTimer) (keypad : Keypad) (delay sound : UInt8) :
    (m.withTimers delay sound).step keypad =
      (m.step keypad).mapMachine (·.withTimers delay sound) := by
  let other := m.withTimers delay sound
  have hrun : (other.fetch.perform keypad).run { other with pc := other.fetchPc } = _ :=
    Word.perform_withTimers h keypad { m with pc := m.fetchPc } delay sound
  rw [step, hrun, step]
  cases (m.fetch.perform keypad).run { m with pc := m.fetchPc } <;> rfl

theorem load_withTimers (m : Machine) (bytes : List UInt8) (origin : UInt16) (delay sound : UInt8) :
    (m.withTimers delay sound).load bytes origin =
      (m.load bytes origin).mapMachine (·.withTimers delay sound) := by
  unfold load
  split <;> rfl

theorem loadRom_withTimers (m : Machine) (source : Source) (delay sound : UInt8) :
    (m.withTimers delay sound).loadRom source =
      (m.loadRom source).mapMachine (·.withTimers delay sound) := by
  unfold loadRom
  cases source.readToEnd with
  | error cause => rfl
  | ok bytes =>
    have hload := m.load_withTimers bytes programStart delay sound
    exact congrArg (Outcome.mapFault LoadFault.rejected) hload

theorem timer_step (h : ¬ m.fetch.UsesTimer) (keypad : Keypad) (t : Timer) :
    (m.step keypad).machine.timer t = m.timer t := by
  have hsame := congrArg (·.machine.timer t) (step_withTimers h keypad m.delay m.sound)
  cases t <;> exact hsame

theorem step_tick (h : ¬ m.fetch.UsesTimer) (keypad : Keypad) :
    m.tick.step keypad = (m.step keypad).mapMachine tick := by
  have hdelay : (m.step keypad).machine.delay = m.delay := timer_step h keypad .delay
  have hsound : (m.step keypad).machine.sound = m.sound := timer_step h keypad .sound
  calc m.tick.step keypad
    _ = (m.step keypad).mapMachine (·.withTimers m.tick.delay m.tick.sound) :=
      step_withTimers h keypad m.tick.delay m.tick.sound
    _ = (m.step keypad).mapMachine tick := by
      simp only [Outcome.mapMachine, withTimers, tick, hdelay, hsound]

end Machine

/-! ## Events that touch no timer -/

def Operation.setsTimer : Operation → Bool
  | setDelay _ => true
  | setSound _ => true
  | _ => false

/-- No timer is read or set, neither by the host nor by an executed word. -/
def Event.Timeless (e : Event) : Prop :=
  e.operation.setsTimer = false ∧ ∀ w, e.executed? = some w → ¬ w.UsesTimer

/-- Two events are the same operation and turn out the same: the same word is executed, the same
fault comes of it, and the same is handed out. -/
structure SameResult (e e' : Event) : Prop where
  operation : e.operation = e'.operation
  executed : e.executed? = e'.executed?
  stepFault : e.stepFault? = e'.stepFault?
  loadFault : e.loadFault? = e'.loadFault?
  taken : e.taken? = e'.taken?

namespace Event

variable {e e' : Event}

theorem given?_of_timeless (h : e.Timeless) (t : Timer) : e.given? t = none := by
  obtain ⟨hset, hwords⟩ := h
  rw [given?_eq_none_iff]
  constructor
  · cases hop : e.operation with
    | setDelay | setSound => rw [hop] at hset; cases hset
    | _ => cases t <;> rfl
  · intro x hx
    cases t with
    | delay => exact hwords _ hx (.setDelay x)
    | sound => exact hwords _ hx (.setSound x)

theorem timeless_tick (m : Machine) : Timeless ⟨m, .tick⟩ := ⟨rfl, nofun⟩

theorem fetch_of_timeless {m : Machine} {keypad : Keypad} (h : Timeless ⟨m, .step keypad⟩) :
    ¬ m.fetch.UsesTimer := by
  intro huses
  have hfault : (m.step keypad).fault? = none :=
    Machine.fault?_step.trans (Word.refusal?_of_usesTimer huses _ _)
  exact h.2 m.fetch (executed?_step hfault) huses

theorem timeless_of_sameResult (h : SameResult e e') (he : e.Timeless) : e'.Timeless :=
  ⟨h.operation ▸ he.1, fun w hw => he.2 w (h.executed.trans hw)⟩

theorem timeless_of_sameResults {events events' : List Event}
    (h : List.Forall₂ SameResult events events') (hevents : ∀ e ∈ events, e.Timeless) :
    ∀ e ∈ events', e.Timeless := by
  induction h with
  | nil => exact hevents
  | cons hsame _ ih =>
    rw [List.forall_mem_cons] at hevents ⊢
    exact ⟨timeless_of_sameResult hsame hevents.1, ih hevents.2⟩

end Event

/-! ## Runs that touch no timer -/

namespace Machine

variable {m s : Machine}

def SameButTimers (m s : Machine) : Prop :=
  ∃ delay sound, s = m.withTimers delay sound

theorem sameResult_of_timeless {op : Operation} (hop : Event.Timeless ⟨m, op⟩)
    (h : SameButTimers m s) :
    SameResult ⟨m, op⟩ ⟨s, op⟩ ∧ SameButTimers (m.apply op) (s.apply op) := by
  obtain ⟨delay, sound, rfl⟩ := h
  cases op with
  | step keypad =>
    have hstep := step_withTimers (Event.fetch_of_timeless hop) keypad delay sound
    have hfault := congrArg Outcome.fault? hstep.symm
    have hexecuted := congrArg (fun fault? => if fault? = none then some m.fetch else none) hfault
    exact ⟨⟨rfl, hexecuted, hfault, rfl, rfl⟩, delay, sound, congrArg Outcome.machine hstep⟩
  | load bytes origin =>
    have hload := m.load_withTimers bytes origin delay sound
    have hfault := congrArg (·.fault?.map LoadFault.rejected) hload.symm
    exact ⟨⟨rfl, rfl, rfl, hfault, rfl⟩, delay, sound, congrArg Outcome.machine hload⟩
  | loadProgram bytes =>
    have hload := m.load_withTimers bytes programStart delay sound
    have hfault := congrArg (·.fault?.map LoadFault.rejected) hload.symm
    exact ⟨⟨rfl, rfl, rfl, hfault, rfl⟩, delay, sound, congrArg Outcome.machine hload⟩
  | loadRom source =>
    have hload := m.loadRom_withTimers source delay sound
    have hfault := congrArg Outcome.fault? hload.symm
    exact ⟨⟨rfl, rfl, rfl, hfault, rfl⟩, delay, sound, congrArg Outcome.machine hload⟩
  | tick => exact ⟨⟨rfl, rfl, rfl, rfl, rfl⟩, _, _, rfl⟩
  | takeFrame => exact ⟨⟨rfl, rfl, rfl, rfl, rfl⟩, delay, sound, rfl⟩
  | setDelay | setSound => cases hop.1

/-- **Ticks commute with what touches no timer.** A tick may come before or after the step of such
a word, and a history without other words ends in the same machine, with the same results, wherever
its ticks are placed. -/
theorem ticks_commute (m : Machine) :
    (∀ keypad, ¬ m.fetch.UsesTimer → m.tick.step keypad = (m.step keypad).mapMachine tick) ∧
    ∀ ops ops' : List Operation,
      ops.filter (!·.isTick) = ops'.filter (!·.isTick) →
      ops.countP (·.isTick) = ops'.countP (·.isTick) →
      (∀ e ∈ m.history ops, e.Timeless) →
      m.after ops = m.after ops' ∧
        List.Forall₂ SameResult (m.eventsOf (!·.isTick) ops) (m.eventsOf (!·.isTick) ops') := by
  refine ⟨fun keypad h => step_tick h keypad, fun ops ops' hrest hticks htimeless => ?_⟩
  have hown : ∀ op : Operation, ¬ (!op.isTick) = true → op = .tick := by
    intro op hop
    cases op with
    | tick => rfl
    | _ => cases hop rfl
  have hlockstep : SameButTimers (m.after ops) (m.after ops') ∧
      List.Forall₂ SameResult (m.eventsOf (!·.isTick) ops) (m.eventsOf (!·.isTick) ops') := by
    refine lockstep Eq Event.Timeless ?_ ?_ ?_ ?_ htimeless ⟨m.delay, m.sound, rfl⟩
    · rintro m s op _ rfl htimeless h
      exact sameResult_of_timeless htimeless h
    · rintro op - hop m _ ⟨delay, sound, rfl⟩
      obtain rfl := hown op hop
      exact ⟨delay, sound, rfl⟩
    · rintro op - hop m _ ⟨delay, sound, rfl⟩
      obtain rfl := hown op hop
      exact ⟨_, _, rfl⟩
    · rw [hrest, List.forall₂_eq_eq_eq]
  obtain ⟨⟨delay, sound, hend⟩, hresults⟩ := hlockstep
  refine ⟨?_, hresults⟩
  -- an event of the other run is a tick or the partner of an event of this one
  have htimeless' : ∀ e ∈ m.history ops', e.Timeless := by
    intro ⟨s, op⟩ he
    by_cases hop : (!op.isTick) = true
    · refine Event.timeless_of_sameResults hresults ?_ ⟨s, op⟩ (List.mem_filter.mpr ⟨he, hop⟩)
      exact fun e he => htimeless e (List.mem_of_mem_filter he)
    · rw [hown op hop]
      exact Event.timeless_tick s
  have htimers : ∀ t, (m.after ops').timer t = (m.after ops).timer t := by
    intro t
    rw [timer_after_of_not_given fun e he => Event.given?_of_timeless (htimeless e he) t,
      timer_after_of_not_given fun e he => Event.given?_of_timeless (htimeless' e he) t, hticks]
  rw [hend] at htimers ⊢
  exact congrArg₂ (m.after ops).withTimers (htimers .delay).symm (htimers .sound).symm

theorem ticks_commute_where_timer_runs_out :
    let keypad : Keypad := fun _ => false
    let m := ((ofSeed 0).withTimers 1 9).apply (.loadProgram [0x60, 0x7B, 0x00, 0xEE])
    let ops := [.tick, .tick, .step keypad, .step keypad]
    let ops' := [.step keypad, .tick, .step keypad, .tick]
    ¬ m.fetch.UsesTimer ∧ m.tick.step keypad = (m.step keypad).mapMachine tick ∧
      ops.filter (!·.isTick) = ops'.filter (!·.isTick) ∧
      ops.countP (·.isTick) = ops'.countP (·.isTick) ∧
      (∀ e ∈ m.history ops, e.Timeless) ∧
      (m.history ops).map Event.stepFault? = [none, none, none, some .stackUnderflow] ∧
      m.after ops = m.after ops' ∧
        List.Forall₂ SameResult (m.eventsOf (!·.isTick) ops) (m.eventsOf (!·.isTick) ops') := by
  intro keypad m ops ops'
  have hfetch : ¬ m.fetch.UsesTimer := by decide +kernel
  have hexecuted : (m.history ops).map Event.executed? = [none, none, some 0x607B, none] := by
    decide +kernel
  have hfaults : (m.history ops).map Event.stepFault? =
      [none, none, none, some .stackUnderflow] := by
    decide +kernel
  have hset : ∀ op ∈ ops, op.setsTimer = false := by simp [ops, Operation.setsTimer]
  have htimeless : ∀ e ∈ m.history ops, e.Timeless := by
    intro e he
    refine ⟨hset e.operation (m.operation_mem_of_mem_history he), fun w hw => ?_⟩
    have hmem := List.mem_map_of_mem (f := Event.executed?) he
    rw [hexecuted, hw] at hmem
    obtain rfl : w = 0x607B := by simpa using hmem
    decide
  obtain ⟨hstep, hrun⟩ := ticks_commute m
  exact ⟨hfetch, hstep keypad hfetch, rfl, rfl, htimeless, hfaults,
    hrun ops ops' rfl rfl htimeless⟩

end Machine

end Chip8
