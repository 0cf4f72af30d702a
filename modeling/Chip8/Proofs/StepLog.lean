import Chip8.Proofs.Numerals
import Chip8.Proofs.Failure

/-!
# What a step logs

A step leaves one trace entry, whether or not it fails, and before it a warning if the counter had run
past the end of memory. The text of a trace entry determines everything that is in it.
-/

namespace Chip8

/-! ## The text of a trace entry -/

namespace LogEntry

open Numeral

theorem toList_registersText (v : Registers) :
    (registersText v).toList =
      '[' :: ([',', ' '].intercalate ((v.toList.map UInt8.toNat).map (padded capitalDigit 16 2)) ++
        [']']) := by
  have hopen : "[".toList = ['['] := rfl
  have hcomma : ", ".toList = [',', ' '] := rfl
  have hclose : "]".toList = [']'] := rfl
  have hbyte : (String.toList ∘ fun byte : UInt8 => hex 2 byte.toNat) =
      padded capitalDigit 16 2 ∘ UInt8.toNat :=
    funext fun byte => toList_hex 2 byte.toNat
  rw [registersText, String.toList_append, String.toList_append, String.toList_intercalate,
    List.map_map, List.map_map, hopen, hcomma, hclose, hbyte]
  rfl

theorem toList_text_executing (w : Word) (v : Registers) (i pc : UInt16) :
    (executing w v i pc).text.toList =
      padded capitalDigit 16 4 w.toNat ++ ' ' :: 'v' :: '[' ::
        ([',', ' '].intercalate ((v.toList.map UInt8.toNat).map (padded capitalDigit 16 2)) ++
          ']' :: ' ' :: 'i' :: (padded capitalDigit 16 4 i.toNat ++
            ' ' :: 'p' :: 'c' :: (padded capitalDigit 16 4 pc.toNat ++ []))) := by
  have hv : " v".toList = [' ', 'v'] := rfl
  have hi : " i".toList = [' ', 'i'] := rfl
  have hpc : " pc".toList = [' ', 'p', 'c'] := rfl
  have htext : (executing w v i pc).text = hex 4 w.toNat ++ " v" ++ registersText v
      ++ " i" ++ hex 4 i.toNat ++ " pc" ++ hex 4 pc.toNat := rfl
  rw [htext]
  simp only [String.toList_append, toList_hex, toList_registersText]
  rw [hv, hi, hpc]
  simp only [List.append_assoc, List.cons_append, List.nil_append, List.append_nil]

theorem eq_of_text_executing_eq {w w' : Word} {v v' : Registers} {i i' pc pc' : UInt16}
    (h : (executing w v i pc).text = (executing w' v' i' pc').text) :
    w = w' ∧ v = v' ∧ i = i' ∧ pc = pc' := by
  have hchars := congrArg String.toList h
  rw [toList_text_executing, toList_text_executing] at hchars
  have hspace : ∀ rest, Ends capitalDigit 16 (' ' :: rest) := ends_cons rfl
  have hbracket : ∀ rest, Ends capitalDigit 16 (']' :: rest) := ends_cons rfl
  have hcomma : ∀ rest, Ends capitalDigit 16 ([',', ' '] ++ rest) := fun rest => ends_cons rfl _
  obtain ⟨hw, hchars⟩ := padded_append_inj alphabet_hex (hspace _) (hspace _) hchars
  simp only [List.cons.injEq, true_and] at hchars
  obtain ⟨hv, hchars⟩ := intercalate_append_inj alphabet_hex hcomma (by simp) (hbracket _)
    (hbracket _) hchars
  simp only [List.cons.injEq, true_and] at hchars
  obtain ⟨hi, hchars⟩ := padded_append_inj alphabet_hex (hspace _) (hspace _) hchars
  simp only [List.cons.injEq, true_and] at hchars
  obtain ⟨hpc, -⟩ := padded_append_inj alphabet_hex ends_nil ends_nil hchars
  refine ⟨UInt16.toNat_inj.mp hw, ?_, UInt16.toNat_inj.mp hi, UInt16.toNat_inj.mp hpc⟩
  exact Vector.toList_inj.mp (List.map_injective_iff.mpr (fun a b => UInt8.toNat_inj.mp) hv)

end LogEntry

/-! ## The entries of a step -/

namespace Machine

variable {m : Machine}

theorem log_step (m : Machine) (keypad : Keypad) : (m.step keypad).log = m.stepLog := by
  unfold step
  split <;> rfl

theorem stepLog_eq (m : Machine) :
    m.stepLog = (if 4095 ≤ m.pc.toNat then [.ranPastEnd m.pc 0x200] else []) ++
      [.executing m.fetch m.v m.i m.fetchPc] := by
  have hsize : Memory.size = 4096 := rfl
  unfold stepLog
  by_cases h : 4095 ≤ m.pc.toNat
  · rw [if_pos h, if_neg (by omega)]
  · rw [if_neg h, if_pos (by omega)]

theorem exists_bytes_of_fetch (m : Machine) :
    ∃ high low, m.memory[m.fetchPc.toNat]? = some high ∧
      m.memory[m.fetchPc.toNat + 1]? = some low ∧ m.fetch = .ofBytes high low :=
  ⟨_, _, Vector.getElem?_eq_getElem (Nat.lt_of_succ_lt m.fetchPc_lt),
    Vector.getElem?_eq_getElem m.fetchPc_lt, rfl⟩

theorem fetchPc_of_past_end (h : 4095 ≤ m.pc.toNat) : m.fetchPc = programStart := by
  rw [fetchPc_eq, if_neg (Nat.not_le.mpr h)]

/-- A step depends on the counter only through the place it fetches from. -/
theorem step_of_same_fetchPc {pc : UInt16} (h : { m with pc }.fetchPc = m.fetchPc)
    (keypad : Keypad) :
    ({ m with pc }.step keypad).machine = (m.step keypad).machine ∧
      ({ m with pc }.step keypad).fault? = (m.step keypad).fault? := by
  let s : Machine := { m with pc }
  have hfetch : s.fetch = m.fetch := fetch_of_same_place h rfl
  have hrun : (s.fetch.perform keypad).run { s with pc := s.fetchPc } =
      (m.fetch.perform keypad).run { m with pc := m.fetchPc } := by
    rw [hfetch, show s.fetchPc = m.fetchPc from h]
  rw [step, step, show _ = _ from hrun]
  cases (m.fetch.perform keypad).run { m with pc := m.fetchPc } <;> exact ⟨rfl, rfl⟩

theorem step_of_past_end (h : 4095 ≤ m.pc.toNat) (keypad : Keypad) :
    let o := m.step keypad
    let o' := { m with pc := 0x200 }.step keypad
    o.machine = o'.machine ∧ o.fault? = o'.fault? ∧ o.log = .ranPastEnd m.pc 0x200 :: o'.log ∧
      o'.log = [.executing m.fetch m.v m.i 0x200] := by
  intro o o'
  let s : Machine := { m with pc := 0x200 }
  have hstart : m.fetchPc = 0x200 := fetchPc_of_past_end h
  have hplace : s.fetchPc = m.fetchPc := fetchPc_of_pc hstart.symm
  obtain ⟨hmachine, hfault⟩ := step_of_same_fetchPc hplace keypad
  have hlog : o.log = [.ranPastEnd m.pc 0x200, .executing m.fetch m.v m.i 0x200] := by
    rw [show o.log = _ from m.log_step keypad, m.stepLog_eq, if_pos h, hstart]
    rfl
  have hlog' : o'.log = [.executing m.fetch m.v m.i 0x200] := by
    have hinside : ¬ 4095 ≤ (0x200 : UInt16).toNat := by decide
    rw [show o'.log = _ from s.log_step keypad, s.stepLog_eq, if_neg hinside,
      fetch_of_same_place hplace rfl, hplace, hstart]
    rfl
  exact ⟨hmachine.symm, hfault.symm, hlog' ▸ hlog, hlog'⟩

/-- **A step is logged once and as it is.** The trace entry holds the word that lies in memory at
the place of the step, with the registers, index and counter before it, and its text determines it.
Past the end of memory a warning stands before it, and the rest is as at the start of the program.
-/
theorem step_logged_once (m : Machine) (keypad : Keypad) :
    let p : UInt16 := if m.pc.toNat ≤ 4094 then m.pc else 0x200
    let o := m.step keypad
    let past := 4095 ≤ m.pc.toNat
    o.log = (if past then [.ranPastEnd m.pc 0x200] else []) ++ [.executing m.fetch m.v m.i p] ∧
      o.log.map LogEntry.level = (if past then [.warn] else []) ++ [.trace] ∧
      (∃ high low, m.memory[p.toNat]? = some high ∧ m.memory[p.toNat + 1]? = some low ∧
        m.fetch = .ofBytes high low) ∧
      (∀ (w w' : Word) (v v' : Registers) (i i' pc pc' : UInt16),
        (LogEntry.executing w v i pc).text = (LogEntry.executing w' v' i' pc').text ↔
          w = w' ∧ v = v' ∧ i = i' ∧ pc = pc') ∧
      (o.fault? ≠ none → o.machine.pc = p) ∧
      (past →
        let o' := { m with pc := 0x200 }.step keypad
        o.machine = o'.machine ∧ o.fault? = o'.fault? ∧
          o.log = .ranPastEnd m.pc 0x200 :: o'.log ∧
          o'.log = [.executing m.fetch m.v m.i 0x200]) := by
  intro p o past
  have hp : m.fetchPc = p := fetchPc_eq
  have hlog : o.log = _ := (m.log_step keypad).trans (hp ▸ m.stepLog_eq)
  refine ⟨hlog, ?_, hp ▸ m.exists_bytes_of_fetch, ?_, ?_,
    fun hpast => step_of_past_end hpast keypad⟩
  · rw [hlog, List.map_append]
    by_cases hpast : past
    · rw [if_pos hpast, if_pos hpast]
      rfl
    · rw [if_neg hpast, if_neg hpast]
      rfl
  · intro w w' v v' i i' pc pc'
    refine ⟨LogEntry.eq_of_text_executing_eq, ?_⟩
    rintro ⟨rfl, rfl, rfl, rfl⟩
    rfl
  · intro hfails
    obtain ⟨fault, hfault⟩ := Option.ne_none_iff_exists'.mp hfails
    rw [show o.machine = _ from machine_step_of_fault hfault]
    exact hp

theorem step_logged_once_past_end :
    let keypad : Keypad := fun _ => false
    let m : Machine := { ((ofSeed 0).loadProgram [0x00, 0xEE]).machine with pc := 4095 }
    let o := m.step keypad
    4095 ≤ m.pc.toNat ∧ o.fault? = some .stackUnderflow ∧ o.machine.pc = 0x200 ∧
      o.log = [.ranPastEnd 4095 0x200, .executing 0x00EE m.v 0 0x200] ∧
      o.log.map LogEntry.level = [.warn, .trace] ∧
      o.fault? = ({ m with pc := 0x200 }.step keypad).fault? := by
  intro keypad m o
  have hpast : 4095 ≤ m.pc.toNat := by decide
  have hfetch : m.fetch = 0x00EE := by decide +kernel
  have hfault : o.fault? = some .stackUnderflow := by decide +kernel
  have hfails : o.fault? ≠ none := by simp [hfault]
  obtain ⟨hlog, hlevels, -, -, hpc, hstart⟩ := step_logged_once m keypad
  rw [hfetch] at hlog
  exact ⟨hpast, hfault, hpc hfails, hlog, hlevels, (hstart hpast).2.1⟩

example :
    let m : Machine := { ((ofSeed 0).loadProgram [0x6A, 0x05]).machine with pc := 0xFFFF }
    (m.step fun _ => false).log.map LogEntry.text =
      ["pc 0xFFFF ran past the end of memory, resetting to 0x0200",
        "6A05 v[00, 00, 00, 00, 00, 00, 00, 00, 00, 00, 00, 00, 00, 00, 00, 00] i0000 pc0200"] := by
  decide +kernel

end Machine

end Chip8
