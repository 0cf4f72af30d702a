import Chip8.Report

/-!
# The call stack

Sixteen slots for return addresses, filled from the first. No operation reads a slot above the depth:
`live` is the stack as a list, oldest address first, and pushing and popping act on its end.
-/

namespace Chip8

abbrev CallStack.capacity : Nat := 16

structure CallStack where
  slots : Vector UInt16 CallStack.capacity
  depth : Nat
  depth_le : depth ≤ CallStack.capacity
deriving DecidableEq

namespace CallStack

def empty : CallStack := ⟨Vector.replicate capacity 0, 0, by omega⟩

def live (s : CallStack) : List UInt16 :=
  s.slots.toList.take s.depth

def push (s : CallStack) (address : UInt16) : Except Fault CallStack :=
  if h : s.depth < capacity then .ok ⟨s.slots.set s.depth address, s.depth + 1, h⟩
  else .error (.stackOverflow capacity)

def pop (s : CallStack) : Except Fault (UInt16 × CallStack) :=
  if h : s.depth = 0 then .error .stackUnderflow
  else
    have := s.depth_le
    .ok (s.slots[s.depth - 1], ⟨s.slots, s.depth - 1, by omega⟩)

theorem push_ok {s t : CallStack} {address : UInt16} (h : s.push address = .ok t) :
    t.depth = s.depth + 1 ∧ ∀ k (hk : k < capacity), k ≠ s.depth → t.slots[k] = s.slots[k] := by
  unfold push at h
  split at h
  · cases h
    refine ⟨rfl, fun k hk hne => ?_⟩
    rw [Vector.getElem_set_ne _ _ (Ne.symm hne)]
  · cases h

theorem pop_ok {s t : CallStack} {address : UInt16} (h : s.pop = .ok (address, t)) :
    t.depth + 1 = s.depth ∧ t.slots = s.slots := by
  unfold pop at h
  split at h
  · cases h
  · next hne =>
    cases h
    exact ⟨Nat.succ_pred_eq_of_ne_zero hne, rfl⟩

theorem length_live (s : CallStack) : s.live.length = s.depth := by
  have := s.depth_le
  simp only [live, List.length_take, Vector.length_toList]
  omega

theorem live_empty : empty.live = [] := rfl

theorem live_push {s t : CallStack} {address : UInt16} (h : s.push address = .ok t) :
    t.live = s.live ++ [address] := by
  unfold push at h
  split at h
  · next hlt =>
    cases h
    simp only [live, Vector.toList_set, List.take_succ_eq_append_getElem (i := s.depth)
      (l := s.slots.toList.set s.depth address) (by simpa using hlt)]
    simp [List.take_set_of_le]
  · cases h

theorem live_pop {s t : CallStack} {address : UInt16} (h : s.pop = .ok (address, t)) :
    s.live = t.live ++ [address] := by
  unfold pop at h
  split at h
  · cases h
  · next hne =>
    have hle := s.depth_le
    cases h
    simp only [live]
    obtain ⟨k, hk⟩ : ∃ k, s.depth = k + 1 := ⟨s.depth - 1, by omega⟩
    simp only [hk, Nat.add_sub_cancel]
    rw [List.take_succ_eq_append_getElem (by simp; omega)]
    simp

end CallStack

end Chip8
