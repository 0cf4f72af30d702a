import Chip8.Proofs.History

/-!
# Bytes put into memory

Programs are loaded at an origin, and instructions store bytes from the index on. Each way tests its
range for itself and has a fault of its own, yet both grant the same requests and leave the same
memory. A program from a source is loaded whole or not at all.
-/

namespace Chip8

/-- What instructions store from the index on is stored at an address that is the index. -/
theorem Machine.run_writeMemory (m : Machine) (bytes : List UInt8) :
    EStateM.run (Action.writeMemory bytes) m =
      match m.writeMemory m.i bytes with
      | ⟨left, _, none⟩ => .ok () left
      | ⟨left, _, some fault⟩ => .error fault left := by
  rw [Action.run_writeMemory, writeMemory]
  cases m.memory.write m.i bytes <;> rfl

/-! ## Requests -/

inductive Deposit where
  | load (bytes : List UInt8) (origin : UInt16)
  | loadProgram (bytes : List UInt8)
  | write (start : UInt16) (bytes : List UInt8)

namespace Deposit

def start : Deposit → UInt16
  | load _ origin => origin
  | loadProgram _ => Machine.programStart
  | write start _ => start

def bytes : Deposit → List UInt8
  | load bytes _ => bytes
  | loadProgram bytes => bytes
  | write _ bytes => bytes

def outcome (m : Machine) : Deposit → Outcome Fault
  | load bytes origin => m.load bytes origin
  | loadProgram bytes => m.loadProgram bytes
  | write start bytes => m.writeMemory start bytes

def fault : Deposit → Fault
  | load bytes origin => .programTooLarge bytes.length origin Memory.size
  | loadProgram bytes => .programTooLarge bytes.length Machine.programStart Memory.size
  | write start _ => .outOfBounds (max start.toNat Memory.size)

def Fits (d : Deposit) : Prop :=
  d.start.toNat + d.bytes.length ≤ Memory.size

instance (d : Deposit) : Decidable d.Fits :=
  inferInstanceAs (Decidable (_ ≤ _))

/-- The byte that a request puts at an address, if it is granted and covers the address. -/
def byteAt? (d : Deposit) (a : Nat) : Option UInt8 :=
  if d.Fits ∧ d.start.toNat ≤ a then d.bytes[a - d.start.toNat]? else none

variable {d : Deposit}

theorem outcome_of_fits (h : d.Fits) (m : Machine) :
    (d.outcome m).fault? = none ∧
      (d.outcome m).machine = { m with memory := m.memory.overlay d.start.toNat d.bytes } := by
  unfold Fits at h
  cases d with
  | load bytes origin | loadProgram bytes =>
    simp only [start, Deposit.bytes] at h
    simp only [outcome, Machine.loadProgram, Machine.load, if_pos h]
    exact ⟨trivial, rfl⟩
  | write start bytes =>
    simp only [Deposit.start, Deposit.bytes] at h
    simp only [outcome, Machine.writeMemory, Memory.write, if_pos h]
    exact ⟨trivial, rfl⟩

theorem outcome_of_not_fits (h : ¬ d.Fits) (m : Machine) :
    (d.outcome m).fault? = some d.fault ∧ (d.outcome m).machine = m := by
  unfold Fits at h
  cases d with
  | load bytes origin | loadProgram bytes =>
    simp only [start, Deposit.bytes] at h
    simp only [outcome, Machine.loadProgram, Machine.load, if_neg h]
    exact ⟨rfl, trivial⟩
  | write start bytes =>
    simp only [Deposit.start, Deposit.bytes] at h
    simp only [outcome, Machine.writeMemory, Memory.write, if_neg h]
    exact ⟨rfl, trivial⟩

theorem getElem?_outcome (d : Deposit) (m : Machine) (a : Nat) :
    (d.outcome m).machine.memory[a]? = (d.byteAt? a).or m.memory[a]? := by
  by_cases hfits : d.Fits
  · rw [(outcome_of_fits hfits m).2]
    show (m.memory.overlay d.start.toNat d.bytes)[a]? = _
    unfold byteAt?
    by_cases ha : a < Memory.size
    · rw [Vector.getElem?_eq_getElem ha, Memory.getElem_overlay, Vector.getElem?_eq_getElem ha]
      by_cases hle : d.start.toNat ≤ a
      · simp [hfits, hle]
      · simp [hle]
    · have hsize := Nat.le_of_not_lt ha
      have hout : d.start.toNat ≤ a → d.bytes.length ≤ a - d.start.toNat := by
        unfold Fits at hfits
        omega
      simp only [Vector.getElem?_eq_none hsize, Option.or_none]
      split
      · next h => rw [List.getElem?_eq_none (hout h.2)]
      · rfl
  · rw [(outcome_of_not_fits hfits m).2, byteAt?, if_neg fun h => hfits h.1, Option.none_or]

end Deposit

def lastByte? (ds : List Deposit) (a : Nat) : Option UInt8 :=
  last? (·.byteAt? a) ds

namespace Machine

def afterDeposits (m : Machine) (ds : List Deposit) : Machine :=
  ds.foldl (fun s d => (d.outcome s).machine) m

theorem getElem?_afterDeposits (m : Machine) (ds : List Deposit) (a : Nat) :
    (m.afterDeposits ds).memory[a]? = (lastByte? ds a).or m.memory[a]? := by
  induction ds generalizing m with
  | nil => rfl
  | cons d ds ih =>
    have hrest := ih (d.outcome m).machine
    rw [Deposit.getElem?_outcome] at hrest
    rw [lastByte?, last?_cons, Option.or_assoc]
    exact hrest

/-! ## What a request does -/

/-- A request is granted exactly if its bytes end inside memory. It changes nothing but memory, and
not even that if it is not granted. -/
structure AllOrNothing (m : Machine) (d : Deposit) : Prop where
  granted_iff : (d.outcome m).fault? = none ↔ d.start.toNat + d.bytes.length ≤ 4096
  refused : (d.outcome m).fault? ≠ none → (d.outcome m).machine = m
  kept : ∃ memory, (d.outcome m).machine = { m with memory }

theorem allOrNothing (m : Machine) (d : Deposit) : AllOrNothing m d := by
  by_cases hfits : d.Fits
  · obtain ⟨hgranted, hmachine⟩ := Deposit.outcome_of_fits hfits m
    exact ⟨iff_of_true hgranted hfits, fun h => absurd hgranted h, _, hmachine⟩
  · obtain ⟨hfault, hmachine⟩ := Deposit.outcome_of_not_fits hfits m
    have hne : (d.outcome m).fault? ≠ none := by simp [hfault]
    exact ⟨iff_of_false hne hfits, fun _ => hmachine, m.memory, hmachine⟩

/-- Loading bytes and storing them are granted alike and leave the same memory, but differ in the
fault with which they are refused. -/
structure PathsAgree (m : Machine) (start : UInt16) (bytes : List UInt8) : Prop where
  granted_iff : (m.load bytes start).fault? = none ↔ (m.writeMemory start bytes).fault? = none
  memory : (m.load bytes start).machine.memory = (m.writeMemory start bytes).machine.memory
  load_fault : 4096 < start.toNat + bytes.length →
    (m.load bytes start).fault? = some (.programTooLarge bytes.length start 4096)
  write_fault : 4096 < start.toNat + bytes.length →
    (m.writeMemory start bytes).fault? = some (.outOfBounds (max start.toNat 4096))

theorem pathsAgree (m : Machine) (start : UInt16) (bytes : List UInt8) :
    PathsAgree m start bytes where
  granted_iff :=
    (allOrNothing m (.load bytes start)).granted_iff.trans
      (allOrNothing m (.write start bytes)).granted_iff.symm
  memory := by
    by_cases hfits : start.toNat + bytes.length ≤ Memory.size
    · have hloaded := (Deposit.outcome_of_fits (d := .load bytes start) hfits m).2
      have hstored := (Deposit.outcome_of_fits (d := .write start bytes) hfits m).2
      exact congrArg Machine.memory (hloaded.trans hstored.symm)
    · have hloaded := (Deposit.outcome_of_not_fits (d := .load bytes start) hfits m).2
      have hstored := (Deposit.outcome_of_not_fits (d := .write start bytes) hfits m).2
      exact congrArg Machine.memory (hloaded.trans hstored.symm)
  load_fault h :=
    (Deposit.outcome_of_not_fits (d := .load bytes start) (Nat.not_le_of_lt h) m).1
  write_fault h :=
    (Deposit.outcome_of_not_fits (d := .write start bytes) (Nat.not_le_of_lt h) m).1

theorem getElem?_loadProgram_of_reserved (m : Machine) (bytes : List UInt8) {a : Nat}
    (h : a < 0x200) : (m.loadProgram bytes).machine.memory[a]? = m.memory[a]? := by
  have hbefore : ¬ programStart.toNat ≤ a := Nat.not_le_of_lt h
  have hbyte : (Deposit.loadProgram bytes).byteAt? a = none :=
    if_neg fun hcovers => hbefore hcovers.2
  have houtcome := (Deposit.loadProgram bytes).getElem?_outcome m a
  rw [hbyte, Option.none_or] at houtcome
  exact houtcome

end Machine

theorem Memory.read_isOk_iff {mem : Memory} {start : UInt16} {length : Nat} :
    (∃ bytes, mem.read start length = .ok bytes) ↔ start.toNat + length ≤ 4096 := by
  unfold read
  split
  · next h => exact ⟨fun _ => h, fun _ => ⟨_, rfl⟩⟩
  · next h => exact ⟨nofun, fun hle => absurd hle h⟩

namespace Machine

/-- **Memory keeps what was last put into it.** After any requests each byte is the one of the last
granted request that covers its address, or the byte that was there at first. A request is granted
exactly if it fits, and else changes nothing; loads and stores differ only in the fault. -/
theorem memory_keeps_last_deposits (m : Machine) (ds : List Deposit) :
    let s := m.afterDeposits ds
    let kept := fun a : Nat => (lastByte? ds a).or m.memory[a]?
    (∀ d, AllOrNothing s d) ∧ (∀ a, s.memory[a]? = kept a) ∧
      (∀ start length,
        ((∃ bytes, s.memory.read start length = .ok bytes) ↔ start.toNat + length ≤ 4096) ∧
        ∀ bytes, s.memory.read start length = .ok bytes →
          ∀ k < length, bytes[k]? = kept (start.toNat + k)) ∧
      (∀ start bytes, PathsAgree s start bytes) ∧
      ∀ bytes a, a < 0x200 → (s.loadProgram bytes).machine.memory[a]? = s.memory[a]? := by
  intro s kept
  have hkept : ∀ a, s.memory[a]? = kept a := m.getElem?_afterDeposits ds
  refine ⟨s.allOrNothing, hkept, fun start length => ⟨Memory.read_isOk_iff, ?_⟩, s.pathsAgree, ?_⟩
  · intro bytes hread k hk
    rw [Memory.getElem?_read hread hk, hkept]
  · intro bytes a ha
    exact s.getElem?_loadProgram_of_reserved bytes ha

theorem memory_keeps_last_deposits_at_end :
    let ds : List Deposit :=
      [.write 0xFFE [1, 2], .load [9, 9, 9] 0xFFE, .loadProgram [7, 8], .load [3] 0x201]
    let s := (ofSeed 0).afterDeposits ds
    s.memory[0x201]? = some 3 ∧
      (∃ bytes, s.memory.read 0xFFE 2 = .ok bytes ∧ bytes[1]? = some 2) ∧
      (s.load [9, 9, 9] 0xFFE).fault? = some (.programTooLarge 3 0xFFE 4096) ∧
      (s.loadProgram [7]).machine.memory[0x1FF]? = s.memory[0x1FF]? := by
  intro ds s
  obtain ⟨-, hkept, hread, hpaths, hreserved⟩ := memory_keeps_last_deposits (ofSeed 0) ds
  obtain ⟨hreads, hbytes⟩ := hread 0xFFE 2
  obtain ⟨bytes, hok⟩ := hreads.mpr (by decide)
  refine ⟨?_, ⟨bytes, hok, ?_⟩, (hpaths 0xFFE [9, 9, 9]).load_fault (by decide), ?_⟩
  · exact hkept 0x201
  · exact hbytes bytes hok 1 (by decide)
  · exact hreserved [7] 0x1FF (by decide)

end Machine

/-! ## Programs read from a source -/

namespace Source

theorem exists_ofChunks (source : Source) :
    ∃ chunks, source = ofChunks chunks done ∨ ∃ cause, source = ofChunks chunks (failed cause) := by
  induction source with
  | done => exact ⟨[], Or.inl rfl⟩
  | failed cause => exact ⟨[], Or.inr ⟨cause, rfl⟩⟩
  | chunk bytes rest ih =>
    obtain ⟨chunks, rfl | ⟨cause, rfl⟩⟩ := ih
    · exact ⟨bytes :: chunks, Or.inl rfl⟩
    · exact ⟨bytes :: chunks, Or.inr ⟨cause, rfl⟩⟩

end Source

namespace Machine

variable (m : Machine)

theorem loadRom_of_failed (chunks : List (List UInt8)) (cause : String) :
    m.loadRom (.ofChunks chunks (.failed cause)) = ⟨m, [], some (.unreadable cause)⟩ := by
  rw [loadRom, Source.readToEnd_ofChunks]
  rfl

theorem loadRom_of_done (chunks : List (List UInt8)) :
    m.loadRom (.ofChunks chunks .done) =
      (m.loadProgram chunks.flatten).mapFault LoadFault.rejected := by
  rw [loadRom, Source.readToEnd_ofChunks, Source.readToEnd]
  simp only [Except.map, List.append_nil]

variable {bytes : List UInt8}

theorem fits_loadProgram_iff : (Deposit.loadProgram bytes).Fits ↔ bytes.length ≤ 3584 := by
  show 0x200 + bytes.length ≤ 4096 ↔ bytes.length ≤ 3584
  omega

theorem getElem?_loadProgram (h : bytes.length ≤ 3584) (a : Nat) :
    (m.loadProgram bytes).machine.memory[a]? =
      if 0x200 ≤ a ∧ a < 0x200 + bytes.length then bytes[a - 0x200]? else m.memory[a]? := by
  by_cases hstart : 0x200 ≤ a
  · have hbyte : (Deposit.loadProgram bytes).byteAt? a = bytes[a - 0x200]? :=
      if_pos ⟨fits_loadProgram_iff.mpr h, hstart⟩
    have hcell : (m.loadProgram bytes).machine.memory[a]? = _ :=
      (Deposit.loadProgram bytes).getElem?_outcome m a
    rw [hcell, hbyte]
    by_cases hend : a < 0x200 + bytes.length
    · have hlt : a - 0x200 < bytes.length := by omega
      rw [if_pos ⟨hstart, hend⟩, List.getElem?_eq_getElem hlt, Option.some_or]
    · have hge : bytes.length ≤ a - 0x200 := by omega
      rw [if_neg fun h => hend h.2, List.getElem?_eq_none hge, Option.none_or]
  · rw [if_neg fun h => hstart h.1]
    exact m.getElem?_loadProgram_of_reserved bytes (Nat.lt_of_not_le hstart)

theorem loadProgram_of_too_large (h : 3584 < bytes.length) :
    m.loadProgram bytes = ⟨m, [], some (.programTooLarge bytes.length 0x200 4096)⟩ := by
  have hout : ¬ programStart.toNat + bytes.length ≤ Memory.size :=
    fun hfits => Nat.not_le.mpr h (fits_loadProgram_iff.mp hfits)
  rw [loadProgram, load, if_neg hout]

/-- **A program from a source is loaded whole or not at all.** A source that fails leaves the
machine as it was; one that ends is loaded as its bytes are, in whatever chunks they came. -/
theorem rom_loaded_whole_or_not (m : Machine) :
    (∀ source : Source, ∃ chunks, source = .ofChunks chunks .done ∨
        ∃ cause, source = .ofChunks chunks (.failed cause)) ∧
      (∀ chunks cause,
        m.loadRom (.ofChunks chunks (.failed cause)) = ⟨m, [], some (.unreadable cause)⟩) ∧
      ∀ chunks : List (List UInt8),
        let bytes := chunks.flatten
        let o := m.loadRom (.ofChunks chunks .done)
        o = (m.loadProgram bytes).mapFault LoadFault.rejected ∧
          (bytes.length ≤ 3584 → o.fault? = none ∧ ∃ memory, o.machine = { m with memory } ∧
            ∀ a, memory[a]? =
              if 0x200 ≤ a ∧ a < 0x200 + bytes.length then bytes[a - 0x200]? else m.memory[a]?) ∧
          (3584 < bytes.length →
            o = ⟨m, [], some (.rejected (.programTooLarge bytes.length 0x200 4096))⟩) := by
  refine ⟨Source.exists_ofChunks, m.loadRom_of_failed, fun chunks => ?_⟩
  intro bytes o
  have ho : o = (m.loadProgram bytes).mapFault LoadFault.rejected := m.loadRom_of_done chunks
  refine ⟨ho, fun hfew => ?_, fun hmany => ?_⟩
  · obtain ⟨hfault, hmachine⟩ := Deposit.outcome_of_fits (fits_loadProgram_iff.mpr hfew) m
    rw [ho]
    refine ⟨congrArg (Option.map _) hfault, _, hmachine, fun a => ?_⟩
    rw [← m.getElem?_loadProgram hfew]
    exact congrArg (·.memory[a]?) hmachine.symm
  · rw [ho, m.loadProgram_of_too_large hmany]
    rfl

theorem rom_loaded_whole_or_not_to_end :
    let m := ofSeed 0
    let chunks := [List.replicate 3000 0xFF, [0x12], List.replicate 583 0x34]
    let full := m.loadRom (.ofChunks chunks .done)
    chunks.flatten.length = 3584 ∧ full.fault? = none ∧
      (∀ a, full.machine.memory[a]? =
        if 0x200 ≤ a ∧ a < 0x200 + 3584 then chunks.flatten[a - 0x200]? else m.memory[a]?) ∧
      (m.loadRom (.ofChunks (chunks ++ [[7]]) .done)).fault? =
        some (.rejected (.programTooLarge 3585 0x200 4096)) ∧
      (m.loadRom (.ofChunks chunks (.failed "gone"))).machine = m := by
  intro m chunks full
  have hlength : chunks.flatten.length = 3584 := by
    simp only [chunks, List.flatten_cons, List.length_append, List.length_replicate]
    rfl
  have hmore : (chunks ++ [[7]]).flatten.length = 3585 := by
    rw [List.flatten_append, List.length_append, hlength]
    rfl
  obtain ⟨-, hfailed, hdone⟩ := rom_loaded_whole_or_not m
  obtain ⟨-, hfits, -⟩ := hdone chunks
  obtain ⟨-, -, htoo⟩ := hdone (chunks ++ [[7]])
  obtain ⟨hfault, memory, hmachine, hmemory⟩ := hfits (Nat.le_of_eq hlength)
  refine ⟨hlength, hfault, fun a => ?_, ?_, ?_⟩
  · rw [show full.machine = _ from hmachine, ← hlength]
    exact hmemory a
  · rw [htoo (by omega), hmore]
  · rw [hfailed]

end Machine

end Chip8
