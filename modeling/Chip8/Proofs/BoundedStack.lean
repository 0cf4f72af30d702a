import Chip8.Proofs.NoCrash

/-!
# The call stack as a bounded list

The slots with their depth are a list of at most sixteen addresses: each call answers as the list
does, and the slots below the depth are the list. A full stack is told by an equality, so this rests
on a depth of at most sixteen, which calls keep.
-/

namespace Chip8

/-! ## Calls -/

inductive StackCall where
  | push (address : UInt16)
  | pop
deriving DecidableEq, Repr

namespace StackCall

/-- What a call answers, and what it leaves of a list that holds at most sixteen addresses. -/
def onList (l : List UInt16) : StackCall → Except Fault (Option UInt16) × List UInt16
  | push address =>
    if l.length < 16 then (.ok none, l ++ [address]) else (.error (.stackOverflow 16), l)
  | pop =>
    match l.getLast? with
    | some address => (.ok (some address), l.dropLast)
    | none => (.error .stackUnderflow, l)

def action : StackCall → Action (Option UInt16)
  | push address => do
    Action.pushCall address
    return none
  | pop => do
    let address ← Action.popCall
    return some address

def guarded : StackCall → Guarded (Option UInt16)
  | push address => do
    Guarded.pushCall address
    return none
  | pop => do
    let address ← Guarded.popCall
    return some address

def onMachine (m : Machine) (c : StackCall) : Except Fault (Option UInt16) × Machine :=
  answer (c.action.run m)

def onBare (b : Bare) (c : StackCall) : Except Stop (Option UInt16) × Bare :=
  answer (c.guarded.run b)

def leave {σ β : Type} (act : σ → StackCall → β × σ) (s : σ) (calls : List StackCall) : σ :=
  calls.foldl (fun s c => (act s c).2) s

theorem leave_related {σ τ β γ : Type} {act : σ → StackCall → β × σ}
    {act' : τ → StackCall → γ × τ} {R : σ → τ → Prop}
    (hstep : ∀ s t c, R s t → R (act s c).2 (act' t c).2) (calls : List StackCall) {s : σ} {t : τ}
    (h : R s t) : R (leave act s calls) (leave act' t calls) := by
  induction calls generalizing s t with
  | nil => exact h
  | cons c calls ih => exact ih (hstep s t c h)

/-! ## One call -/

theorem onMachine_eq (m : Machine) (c : StackCall) :
    ∃ stack, c.onMachine m = ((c.onList m.stack.live).1, { m with stack }) ∧
      stack.live = (c.onList m.stack.live).2 ∧
      ∀ fault, (c.onList m.stack.live).1 = .error fault → stack = m.stack := by
  have hlength := m.stack.length_live
  cases c with
  | push address =>
    by_cases hroom : m.stack.depth < 16
    · obtain ⟨stack, hpush⟩ : ∃ stack, m.stack.push address = .ok stack := ⟨_, dif_pos hroom⟩
      refine ⟨stack, ?_, ?_, ?_⟩
      · simp [onMachine, action, onList, answer, hpush, hlength, hroom]
      · simp [onList, hlength, hroom, CallStack.live_push hpush]
      · simp [onList, hlength, hroom]
    · have hpush : m.stack.push address = .error (.stackOverflow 16) := dif_neg hroom
      refine ⟨m.stack, ?_, ?_, fun _ _ => rfl⟩
      · simp [onMachine, action, onList, answer, hpush, hlength, hroom]
      · simp [onList, hlength, hroom]
  | pop =>
    by_cases hempty : m.stack.depth = 0
    · have hpop : m.stack.pop = .error .stackUnderflow := dif_pos hempty
      have hnil : m.stack.live = [] := List.eq_nil_of_length_eq_zero (hlength.trans hempty)
      refine ⟨m.stack, ?_, ?_, fun _ _ => rfl⟩
      · simp [onMachine, action, onList, answer, hpop, hnil]
      · simp [onList, hnil]
    · obtain ⟨address, stack, hpop⟩ : ∃ address stack, m.stack.pop = .ok (address, stack) :=
        ⟨_, _, dif_neg hempty⟩
      have hlive := CallStack.live_pop hpop
      refine ⟨stack, ?_, ?_, ?_⟩
      · simp [onMachine, action, onList, answer, hpop, hlive]
      · simp [onList, hlive]
      · simp [onList, hlive]

theorem onBare_bare (m : Machine) (c : StackCall) :
    c.onBare m.bare = ((c.onMachine m).1.mapError .fault, (c.onMachine m).2.bare) := by
  have hagrees : Guarded.Agrees c.guarded c.action := by
    cases c with
    | push address => exact (Guarded.Agrees.pushCall address).bind fun _ => .pure none
    | pop => exact Guarded.Agrees.popCall.bind fun address => .pure (some address)
  unfold onBare onMachine
  rw [hagrees m]
  cases c.action.run m <;> rfl

end StackCall

/-! ## Any calls -/

open StackCall

/-- **The slots with their depth refine a list of at most sixteen addresses.** After any calls the
slots below the depth are the list, and nothing but slots and depth has changed. The next call
answers as the list does; one that fails changes nothing. -/
theorem stack_refines_bounded_list (b : Bare) (h : b.depth ≤ 16) (calls : List StackCall)
    (c : StackCall) :
    let l := leave onList (b.slots.toList.take b.depth) calls
    let s := leave onBare b calls
    let m := leave onMachine (b.machine h) calls
    (∃ slots depth, s = { b with slots, depth } ∧ depth ≤ 16 ∧ slots.toList.take depth = l) ∧
      (c.onBare s).1 = (c.onList l).1.mapError .fault ∧
      (∀ fault, (c.onList l).1 = .error fault → (c.onBare s).2 = s) ∧
      m.bare = s ∧ (c.onMachine m).1 = (c.onList l).1 := by
  intro l s m
  have hlive : m.stack.live = l ∧ ∃ stack, m = { b.machine h with stack } := by
    refine leave_related (R := fun (m : Machine) l =>
      m.stack.live = l ∧ ∃ stack, m = { b.machine h with stack }) ?_ calls ⟨rfl, _, rfl⟩
    rintro t _ c ⟨rfl, _, rfl⟩
    obtain ⟨stack, hcall, hafter, -⟩ := onMachine_eq _ c
    rw [hcall]
    exact ⟨hafter, stack, rfl⟩
  have hbare : m.bare = s := by
    refine leave_related (R := fun (m : Machine) s => m.bare = s) ?_ calls (b.bare_machine h)
    rintro t _ c rfl
    rw [onBare_bare]
  obtain ⟨hlist, stack, hm⟩ := hlive
  obtain ⟨after, hcall, -, hfails⟩ := onMachine_eq m c
  rw [hlist] at hcall hfails
  have hnext : c.onBare s = ((c.onList l).1.mapError .fault, { m with stack := after }.bare) := by
    rw [← hbare, onBare_bare, hcall]
  refine ⟨⟨stack.slots, stack.depth, ?_, stack.depth_le, ?_⟩, ?_, ?_, hbare, ?_⟩
  · rw [← hbare, hm]
    rfl
  · rw [← hlist, hm]
    rfl
  · rw [hnext]
  · intro fault hfault
    rw [hnext, hfails fault hfault]
    exact hbare
  · rw [hcall]

theorem stack_refines_bounded_list_when_full :
    let b : Bare := { (Machine.ofSeed 0).bare with slots := Vector.replicate 16 9, depth := 16 }
    let refused := leave onBare b [.push 5]
    let reused := leave onBare b [.push 5, .pop, .push 7]
    b.depth ≤ 16 ∧ (onBare b (.push 5)).1 = .error (.fault (.stackOverflow 16)) ∧ refused = b ∧
      (∃ slots depth, reused = { b with slots, depth } ∧ depth ≤ 16 ∧
        slots.toList.take depth = List.replicate 15 9 ++ [7]) ∧
      (onBare reused .pop).1 = .ok (some 7) := by
  intro b refused reused
  have hdepth : b.depth ≤ 16 := Nat.le_refl 16
  obtain ⟨-, hfull, hsame, -⟩ := stack_refines_bounded_list b hdepth [] (.push 5)
  obtain ⟨hreused, htop, -⟩ := stack_refines_bounded_list b hdepth [.push 5, .pop, .push 7] .pop
  exact ⟨hdepth, hfull, hsame (.stackOverflow 16) rfl, hreused, htop⟩

end Chip8
