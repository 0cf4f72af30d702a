import Chip8.Proofs.Footprint

/-!
# Frames that are handed out

A host learns of changes to the frame by asking for it, and shows it as RGB24. The flag behind these
requests is set exactly if something was drawn or cleared since the last of them; and no two frames
have the same bytes.
-/

namespace Chip8

namespace Event

/-- Whether a word was executed that clears the frame or draws on it. -/
def touchesFrame (e : Event) : Bool :=
  e.executed?.any fun w => w = 0x00E0 ∨ w.family = 0xD

variable {e : Event}

theorem touchesFrame_iff :
    e.touchesFrame ↔ ∃ w, e.executed? = some w ∧ (w = 0x00E0 ∨ w.family = 0xD) := by
  unfold touchesFrame
  cases e.executed? <;> simp

/-! ## The display after an event -/

theorem taken?_of_executed {w : Word} (h : e.executed? = some w) : e.taken? = none := by
  obtain ⟨m, op⟩ := e
  cases op with
  | takeFrame => cases h
  | _ => rfl

theorem redraw_of_touchesFrame (h : e.touchesFrame) : e.after.redraw = true := by
  obtain ⟨w, hw, htouches⟩ := touchesFrame_iff.mp h
  obtain ⟨-, keypad, flow, done, hrun, hafter⟩ := step_of_executed hw
  rw [hafter]
  show done.redraw = true
  rcases htouches with rfl | hfam
  · rw [Word.perform_eq (i := .clearScreen) rfl] at hrun
    cases hrun
    rfl
  · rw [Word.perform_eq (Instruction.ofWord?_draw hfam)] at hrun
    obtain ⟨_, _, _, rfl⟩ := Instruction.perform_draw hrun
    rfl

theorem display_of_not_touchesFrame (h : e.touchesFrame = false) :
    e.after.frame = e.before.frame ∧
      e.after.redraw = e.taken?.elim e.before.redraw fun _ => false := by
  cases hw : e.executed? with
  | none => obtain ⟨_, _, _, _, h⟩ := after_of_not_executed hw; rw [h]; exact ⟨rfl, rfl⟩
  | some w =>
    rw [taken?_of_executed hw]
    refine (footprint_of_executed hw).display fun hwrites => ?_
    rw [Bool.eq_false_iff, ne_eq, touchesFrame_iff] at h
    cases hwrites with
    | clearScreen => exact h ⟨_, hw, Or.inl rfl⟩
    | draw x y n => exact h ⟨_, hw, Or.inr (Word.family_ofNibbles _ _ _ _)⟩

theorem taken?_cases (e : Event) :
    e.taken? = none ∨ e.after = { e.before with redraw := false } ∧
      e.taken? = some (if e.before.redraw then some e.before.frame else none) := by
  obtain ⟨m, op⟩ := e
  cases op with
  | takeFrame => exact Or.inr ⟨rfl, rfl⟩
  | _ => exact Or.inl rfl

end Event

/-! ## What was handed out -/

def lastShown (past : List Event) : Frame :=
  (last? (fun e => e.taken?.join) past).getD .dark

theorem lastShown_concat {past : List Event} {e : Event} :
    lastShown (past ++ [e]) = e.taken?.join.getD (lastShown past) := by
  unfold lastShown
  rw [last?_concat]
  cases e.taken?.join <;> rfl

/-! ## Runs -/

structure Shown (past : List Event) (m : Machine) : Prop where
  redraw_iff : m.redraw = true ↔ ∃ e ∈ sinceLast Event.taken? past, e.touchesFrame
  frame_eq : m.redraw = false → m.frame = lastShown past

theorem shown_concat {past : List Event} {e : Event} (h : Shown past e.before) :
    Shown (past ++ [e]) e.after := by
  rcases e.taken?_cases with hnone | ⟨hafter, htaken⟩
  · have hshown : lastShown (past ++ [e]) = lastShown past := by
      rw [lastShown_concat, hnone]
      rfl
    cases hd : e.touchesFrame with
    | true =>
      have hset : e.after.redraw = true := Event.redraw_of_touchesFrame hd
      constructor
      · rw [sinceLast_concat_of_none hnone]
        exact ⟨fun _ => ⟨e, List.mem_concat_self, hd⟩, fun _ => hset⟩
      · intro hclear
        rw [hset] at hclear
        cases hclear
    | false =>
      obtain ⟨hframe, hflag⟩ := Event.display_of_not_touchesFrame hd
      rw [hnone] at hflag
      constructor
      · rw [hflag, sinceLast_concat_of_none hnone]
        simp only [List.mem_append, List.mem_singleton, or_and_right, exists_or, exists_eq_left, hd]
        simpa using h.redraw_iff
      · rw [hflag, hframe, hshown]
        exact h.frame_eq
  · rw [hafter]
    constructor
    · rw [sinceLast_concat_of_some htaken]
      simp
    · intro _
      rw [lastShown_concat, htaken]
      cases hflag : e.before.redraw with
      | true => rfl
      | false => exact h.frame_eq hflag

namespace Machine

/-- **No update of the display is lost.** The flag is set exactly if something was drawn or cleared
since the frame was last asked for. While it is not set, the frame is the one handed out last. -/
theorem display_update_kept (seed : UInt64) (ops : List Operation) :
    let m := (ofSeed seed).after ops
    let past := (ofSeed seed).history ops
    (m.redraw = true ↔ ∃ e ∈ sinceLast Event.taken? past, e.touchesFrame) ∧
      (m.redraw = false → m.frame = lastShown past) ∧
      (m.takeFrame.1 = none → m.frame = lastShown past) ∧
      ∀ frame, m.takeFrame.1 = some frame → frame = m.frame := by
  intro m past
  have hstart : Shown [] (ofSeed seed) := by
    constructor
    · simp [sinceLast, ofSeed]
    · intro _
      rfl
  have hshown : Shown past m :=
    (ofSeed seed).after_induction (P := Shown) ops hstart fun _ _ _ _ h => shown_concat h
  refine ⟨hshown.redraw_iff, hshown.frame_eq, fun hnone => ?_, fun frame hsome => ?_⟩
  · refine hshown.frame_eq (Bool.eq_false_iff.mpr fun hset => ?_)
    rw [takeFrame, if_pos hset] at hnone
    cases hnone
  · rw [takeFrame] at hsome
    split at hsome
    · exact (Option.some_inj.mp hsome).symm
    · cases hsome

theorem display_update_kept_once_shown :
    let keypad : Keypad := fun _ => false
    let ops : List Operation := [.loadProgram [0xD0, 0x05], .step keypad, .takeFrame, .step keypad]
    let m := (ofSeed 0).after ops
    m.redraw = false ∧ m.takeFrame.1 = none ∧ m.frame = lastShown ((ofSeed 0).history ops) ∧
      m.frame.lit ⟨0, 0⟩ := by
  intro keypad ops m
  have hclear : m.redraw = false := by decide +kernel
  exact ⟨hclear, if_neg (Bool.eq_false_iff.mp hclear), (display_update_kept 0 ops).2.1 hclear,
    by decide +kernel⟩

end Machine

/-! ## RGB24 -/

namespace Frame

def ofRgb24 (bytes : List UInt8) : Frame :=
  Vector.ofFn fun y => Vector.ofFn fun x => bytes[3 * (64 * y.val + x.val)]? = some 0xFF

theorem ofRgb24_toRgb24 (frame : Frame) : ofRgb24 frame.toRgb24 = frame := by
  refine ext_lit fun p => ?_
  have hbyte : frame.toRgb24[3 * (64 * p.y.val + p.x.val)]? = some (intensity (frame.lit p)) :=
    frame.getElem?_toRgb24 p.y p.x 0
  have hlit : (ofRgb24 frame.toRgb24).lit p =
      decide (frame.toRgb24[3 * (64 * p.y.val + p.x.val)]? = some 0xFF) := by
    simp [lit, ofRgb24]
  rw [hlit, hbyte]
  cases frame.lit p <;> rfl

/-- **RGB24 is exact and loses nothing.** Every pixel has three bytes of full intensity if it is
lit and of none if not, so every third byte gives the frame back. -/
theorem rgb24_gives_frame_back (frame : Frame) :
    frame.toRgb24.length = 6144 ∧
      (∀ (y : Fin 32) (x : Fin 64) (c : Fin 3),
        frame.toRgb24[3 * (64 * y.val + x.val) + c.val]? =
          some (if frame[y][x] then 0xFF else 0x00)) ∧
      ofRgb24 frame.toRgb24 = frame ∧
      ∀ other : Frame, other.toRgb24 = frame.toRgb24 ↔ other = frame := by
  refine ⟨frame.length_toRgb24, frame.getElem?_toRgb24, frame.ofRgb24_toRgb24, fun other => ?_⟩
  constructor
  · intro hbytes
    rw [← ofRgb24_toRgb24 other, hbytes, ofRgb24_toRgb24]
  · exact congrArg toRgb24

end Frame

end Chip8
