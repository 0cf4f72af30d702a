import Chip8.Proofs.Footprint

/-!
# Timers

A timer is given a value by a host or by the word that copies a register to it, and goes down by one
with each tick until it is zero. Nothing else touches it, so its value is the one given last less the
ticks since then.
-/

namespace Chip8

inductive Timer where
  | delay
  | sound
deriving DecidableEq, Repr

namespace Timer

def code : Timer → UInt8
  | delay => 0x15
  | sound => 0x18

def lowered (value : UInt8) (ticks : Nat) : UInt8 :=
  UInt8.ofNat (value.toNat - ticks)

theorem toNat_lowered (value : UInt8) (ticks : Nat) :
    (lowered value ticks).toNat = value.toNat - ticks := by
  have := value.toNat_lt
  rw [lowered, UInt8.toNat_ofNat']
  omega

theorem lowered_zero (value : UInt8) : lowered value 0 = value := by
  rw [← UInt8.toNat_inj, toNat_lowered, Nat.sub_zero]

theorem lowered_lowered (value : UInt8) (ticks more : Nat) :
    lowered (lowered value ticks) more = lowered value (ticks + more) := by
  rw [← UInt8.toNat_inj]
  simp only [toNat_lowered, Nat.sub_sub]

theorem lowered_one (value : UInt8) : lowered value 1 = if value = 0 then 0 else value - 1 := by
  rw [← UInt8.toNat_inj, toNat_lowered]
  split
  · next h => rw [h]; rfl
  · next h =>
    have hle : (1 : UInt8) ≤ value := by
      rw [UInt8.le_iff_toNat_le]
      exact Nat.one_le_iff_ne_zero.mpr fun hz => h (UInt8.toNat_inj.mp hz)
    exact (UInt8.toNat_sub_of_le value 1 hle).symm

end Timer

namespace Machine

def timer (m : Machine) : Timer → UInt8
  | .delay => m.delay
  | .sound => m.sound

theorem tick_eq (m : Machine) :
    m.tick = { m with delay := Timer.lowered m.delay 1, sound := Timer.lowered m.sound 1 } := by
  rw [tick, Timer.lowered_one, Timer.lowered_one]

end Machine

def Operation.isTick : Operation → Bool
  | tick => true
  | _ => false

def Timer.setBy? : Timer → Operation → Option UInt8
  | delay, .setDelay value => some value
  | sound, .setSound value => some value
  | _, _ => none

/-! ## Events -/

namespace Event

def isTick (e : Event) : Bool := e.operation.isTick

/-- The value that an event gives to a timer, if it does: a host sets the timer, or a word is executed
that copies a register to it. -/
def given? (t : Timer) (e : Event) : Option UInt8 :=
  (t.setBy? e.operation).or <| e.executed?.bind fun w =>
    if w.family = 0xF ∧ w.nn = t.code then some (e.before.v.get w.x) else none

variable {e : Event} {t : Timer}

theorem given?_eq_some {value : UInt8} (h : e.given? t = some value) :
    t.setBy? e.operation = some value ∨
      ∃ x, e.executed? = some (.ofByte 0xF x t.code) ∧ e.before.v.get x = value := by
  rcases Option.or_eq_some_iff.mp h with hset | ⟨-, hword⟩
  · exact Or.inl hset
  · obtain ⟨w, hw, hcopies⟩ := Option.bind_eq_some_iff.mp hword
    split at hcopies
    · next hform =>
      have hbytes : Word.ofByte 0xF w.x w.nn = w := Word.ofByte_views (congrArg Fin.val hform.1)
      rw [hform.2] at hbytes
      exact Or.inr ⟨w.x, hw.trans (congrArg some hbytes.symm), Option.some.inj hcopies⟩
    · cases hcopies

theorem given?_eq_none_iff :
    e.given? t = none ↔
      t.setBy? e.operation = none ∧ ∀ x, e.executed? ≠ some (.ofByte 0xF x t.code) := by
  rw [given?, Option.or_eq_none_iff, Option.bind_eq_none_iff]
  refine and_congr_right fun _ => ⟨fun h x hx => ?_, fun h w hw => ?_⟩
  · have hform := h _ hx
    rw [Word.family_ofByte, Word.nn_ofByte, if_pos ⟨rfl, rfl⟩] at hform
    cases hform
  · refine if_neg fun hform => h w.x ?_
    rw [hw, ← hform.2, Word.ofByte_views (congrArg Fin.val hform.1)]

theorem timer_of_given {value : UInt8} (h : e.given? t = some value) :
    e.after.timer t = value := by
  rcases given?_eq_some h with hset | ⟨x, hw, rfl⟩
  · obtain ⟨m, op⟩ := e
    cases t <;> cases op <;> cases hset <;> rfl
  · obtain ⟨-, keypad, flow, done, hrun, hafter⟩ := step_of_executed hw
    rw [hafter]
    cases t with
    | delay => cases (Word.run_toWord (.setDelay x)).symm.trans hrun; rfl
    | sound => cases (Word.run_toWord (.setSound x)).symm.trans hrun; rfl

theorem timer_of_executed {w : Word} (hw : e.executed? = some w)
    (h : ∀ x, w ≠ .ofByte 0xF x t.code) : e.after.timer t = e.before.timer t := by
  have hkept := footprint_of_executed hw
  cases t with
  | delay => exact hkept.delay fun hwrites => by cases hwrites with | setDelay x => exact h x rfl
  | sound => exact hkept.sound fun hwrites => by cases hwrites with | setSound x => exact h x rfl

theorem timer_of_not_given (h : e.given? t = none) :
    e.after.timer t = Timer.lowered (e.before.timer t) (if e.isTick then 1 else 0) := by
  obtain ⟨hset, hcopies⟩ := given?_eq_none_iff.mp h
  obtain ⟨m, op⟩ := e
  cases op with
  | tick =>
    show m.tick.timer t = Timer.lowered (m.timer t) 1
    rw [Machine.tick_eq]
    cases t <;> rfl
  | step keypad =>
    refine Eq.trans ?_ (Timer.lowered_zero _).symm
    cases hfault : (m.step keypad).fault? with
    | none =>
      have hw := executed?_step hfault
      exact timer_of_executed hw fun x hx => hcopies x (hw.trans (congrArg some hx))
    | some fault =>
      show (m.step keypad).machine.timer t = m.timer t
      rw [Machine.machine_step_of_fault hfault]
      cases t <;> rfl
  | load | loadProgram | loadRom =>
    refine Eq.trans ?_ (Timer.lowered_zero _).symm
    refine (m.apply_of_isLoad ?_).elim fun memory hload =>
      (congrArg (Machine.timer · t) hload).trans ?_
    · rfl
    · cases t <;> rfl
  | setDelay value | setSound value =>
    refine Eq.trans ?_ (Timer.lowered_zero _).symm
    cases t <;> cases hset
    rfl
  | takeFrame =>
    refine Eq.trans ?_ (Timer.lowered_zero _).symm
    cases t <;> rfl

end Event

/-! ## Histories -/

namespace Machine

def Counted (t : Timer) (start : UInt8) (past : List Event) (m : Machine) : Prop :=
  m.timer t =
    Timer.lowered ((last? (Event.given? t) past).getD start)
      ((sinceLast (Event.given? t) past).countP (·.isTick))

theorem counted_concat {t : Timer} {start : UInt8} {past : List Event} {e : Event}
    (h : Counted t start past e.before) : Counted t start (past ++ [e]) e.after := by
  unfold Counted at h ⊢
  rw [last?_concat]
  -- a value that is given starts the count again; otherwise the event is one more since the last
  cases hgiven : e.given? t with
  | some value =>
    rw [Event.timer_of_given hgiven, sinceLast_concat_of_some hgiven]
    exact (Timer.lowered_zero value).symm
  | none =>
    rw [Event.timer_of_not_given hgiven, sinceLast_concat_of_none hgiven, h,
      Timer.lowered_lowered, List.countP_append, List.countP_singleton, Option.none_or]

theorem counted_after (m : Machine) (t : Timer) (ops : List Operation) :
    Counted t (m.timer t) (m.history ops) (m.after ops) :=
  m.after_induction (P := Counted t (m.timer t)) ops (Timer.lowered_zero _).symm
    fun _ _ _ _ h => counted_concat h

theorem timer_after_of_not_given {m : Machine} {t : Timer} {ops : List Operation}
    (h : ∀ e ∈ m.history ops, e.given? t = none) :
    (m.after ops).timer t = Timer.lowered (m.timer t) (ops.countP (·.isTick)) := by
  induction ops generalizing m with
  | nil => exact (Timer.lowered_zero _).symm
  | cons op ops ih =>
    rw [history, List.forall_mem_cons] at h
    have hop : (m.apply op).timer t = Timer.lowered (m.timer t) (if op.isTick then 1 else 0) :=
      Event.timer_of_not_given h.1
    rw [after_cons, ih h.2, hop, Timer.lowered_lowered, List.countP_cons, Nat.add_comm]

theorem timer_after_ticks (m : Machine) (t : Timer) (n : Nat) :
    (m.after (List.replicate n .tick)).timer t = Timer.lowered (m.timer t) n := by
  have hgiven : ∀ e ∈ m.history (List.replicate n .tick), e.given? t = none := by
    intro ⟨s, op⟩ he
    obtain rfl := List.eq_of_mem_replicate (m.operation_mem_of_mem_history he)
    cases t <;> rfl
  rw [timer_after_of_not_given hgiven, List.countP_replicate]
  rfl

/-- **A timer counts exactly the ticks.** Whatever a host and a program do, its value is the one it was
given last, or had at first, less the ticks since then, and never below zero. -/
theorem timers_count_ticks (m : Machine) (ops : List Operation) (t : Timer) :
    let past := m.history ops
    let given := (last? (Event.given? t) past).getD (m.timer t)
    let ticks := (sinceLast (Event.given? t) past).countP (·.isTick)
    (((m.after ops).timer t).toNat : Int) = max 0 ((given.toNat : Int) - ticks) ∧
      ∀ n : Nat, (((m.after (ops ++ List.replicate n .tick)).timer t).toNat : Int) =
        max 0 (((m.after ops).timer t).toNat - n) := by
  intro past given ticks
  have hcounted : (m.after ops).timer t = Timer.lowered given ticks := m.counted_after t ops
  constructor
  · rw [hcounted, Timer.toNat_lowered]
    omega
  · intro n
    rw [after_append, timer_after_ticks, Timer.toNat_lowered]
    omega

example :
    let keypad : Keypad := fun _ => false
    let ops := [.loadProgram [0x60, 0x05, 0xF0, 0x15], .setSound 2, .step keypad, .step keypad,
      .tick, .tick, .tick]
    ((ofSeed 0).after ops).delay = 2 ∧ ((ofSeed 0).after ops).sound = 0 := by
  decide +kernel

end Machine

end Chip8
