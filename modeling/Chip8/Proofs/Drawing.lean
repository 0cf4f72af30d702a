import Chip8.Proofs.Footprint
import Mathlib.Data.List.Enum
import Mathlib.Data.List.Sigma

/-!
# Drawing

Pixels are struck one after the other, each on the frame that the ones before it left. The flag
tells of the frame before the sprite all the same, because a sprite hits no pixel twice
(`nodup_pixels`). Sprites only ever light pixels, so the order of drawing does not show.
-/

namespace Chip8

namespace Sprite

variable {left top : UInt8} {rows : List UInt8}

/-! ## The pixels of a sprite -/

theorem mem_columns {byte : UInt8} {column : Nat} :
    column ∈ columns byte ↔ column < 8 ∧ byte.toNat.testBit (7 - column) := by
  rw [columns, List.mem_filter, List.mem_range]
  rfl

theorem mem_pixels {p : Pixel} :
    p ∈ pixels left top rows ↔ ∃ row column byte, rows[row]? = some byte ∧ column < 8 ∧
      byte.toNat.testBit (7 - column) ∧ p = place left top column row := by
  simp only [pixels, List.mem_flatMap, List.mem_map, mem_columns]
  constructor
  · intro h
    obtain ⟨⟨byte, row⟩, hrow, column, ⟨hc, hbit⟩, rfl⟩ := h
    exact ⟨row, column, byte, List.mk_mem_zipIdx_iff_getElem?.mp hrow, hc, hbit, rfl⟩
  · intro h
    obtain ⟨row, column, byte, hrow, hc, hbit, rfl⟩ := h
    exact ⟨(byte, row), List.mk_mem_zipIdx_iff_getElem?.mpr hrow, column, ⟨hc, hbit⟩, rfl⟩

theorem place_inj {column column' row row' : Nat} (hc : column < 8) (hc' : column' < 8)
    (hr : row < 32) (hr' : row' < 32)
    (h : place left top column row = place left top column' row') :
    column = column' ∧ row = row' := by
  simp only [place, Pixel.mk.injEq, Fin.mk.injEq, Frame.width, Frame.height] at h
  omega

theorem nodup_pixels (left top : UInt8) (h : rows.length ≤ 32) : (pixels left top rows).Nodup := by
  rw [pixels, List.nodup_flatMap]
  refine ⟨?_, ?_⟩
  · intro ⟨byte, row⟩ hrow
    have hr : row < 32 := Nat.lt_of_lt_of_le (List.snd_lt_of_mem_zipIdx hrow) h
    refine List.Nodup.map_on ?_ (List.nodup_range.filter _)
    intro column hc column' hc' heq
    exact (place_inj (mem_columns.mp hc).1 (mem_columns.mp hc').1 hr hr heq).1
  · -- the rows of a sprite have different numbers, also where their bytes are equal
    have hrows : rows.zipIdx.Pairwise fun a b => a.2 ≠ b.2 :=
      List.pairwise_map.mp (List.nodup_zipIdx_map_snd rows)
    refine hrows.imp_of_mem ?_
    intro ⟨byte, row⟩ ⟨byte', row'⟩ hrow hrow' hne p hp hp'
    have hr : row < 32 := Nat.lt_of_lt_of_le (List.snd_lt_of_mem_zipIdx hrow) h
    have hr' : row' < 32 := Nat.lt_of_lt_of_le (List.snd_lt_of_mem_zipIdx hrow') h
    obtain ⟨column, hc, rfl⟩ := List.mem_map.mp hp
    obtain ⟨column', hc', heq⟩ := List.mem_map.mp hp'
    exact hne (place_inj (mem_columns.mp hc).1 (mem_columns.mp hc').1 hr hr' heq.symm).2

/-! ## Striking them -/

theorem lit_foldl_strike (ps : List Pixel) (drawn : Bool × Frame) (q : Pixel) :
    (ps.foldl strike drawn).2.lit q = (decide (q ∈ ps) || drawn.2.lit q) := by
  induction ps generalizing drawn with
  | nil => simp
  | cons p ps ih =>
    rw [List.foldl_cons, ih, strike, Frame.lit_light]
    by_cases hq : q = p
    · simp [hq]
    · simp [hq, Ne.symm hq]

theorem flag_foldl_strike {ps : List Pixel} (hps : ps.Nodup) (drawn : Bool × Frame) :
    (ps.foldl strike drawn).1 = (drawn.1 || ps.any drawn.2.lit) := by
  induction ps generalizing drawn with
  | nil => simp
  | cons p ps ih =>
    obtain ⟨hp, hps⟩ := List.nodup_cons.mp hps
    -- `p` does not come again, so what follows sees the pixels as they were before it
    have hsame : ps.any (drawn.2.light p).lit = ps.any drawn.2.lit := by
      rw [Bool.eq_iff_iff, List.any_eq_true, List.any_eq_true]
      refine exists_congr fun q => and_congr_right fun hq => ?_
      have hne : p ≠ q := fun heq => hp (heq ▸ hq)
      rw [Frame.lit_light, decide_eq_false hne, Bool.false_or]
    rw [List.foldl_cons, ih hps, List.any_cons]
    simp only [strike, hsame, Bool.or_assoc]

theorem lit_draw (frame : Frame) (left top : UInt8) (rows : List UInt8) (p : Pixel) :
    (draw frame left top rows).2.lit p ↔ frame.lit p ∨ p ∈ pixels left top rows := by
  rw [draw, lit_foldl_strike, Bool.or_eq_true, decide_eq_true_iff, or_comm]

theorem collides_draw (frame : Frame) (left top : UInt8) (h : rows.length ≤ 32) :
    (draw frame left top rows).1 ↔ ∃ p, p ∈ pixels left top rows ∧ frame.lit p := by
  rw [draw, flag_foldl_strike (nodup_pixels left top h), Bool.false_or, List.any_eq_true]

end Sprite

namespace Machine

/-- Whether the sprite of `rows` rows at the index has a set bit for this pixel when its corner is
at VX and VY. -/
def Targets (m : Machine) (x y rows : Nibble) (p : Pixel) : Prop :=
  ∃ row bit byte, row < rows.val ∧ bit < 8 ∧ m.memory[m.i.toNat + row]? = some byte ∧
    byte.toNat.testBit (7 - bit) ∧
    p.x.val = ((m.v.get x).toNat + bit) % 64 ∧ p.y.val = ((m.v.get y).toNat + row) % 32

theorem targets_iff {m : Machine} {x y rows : Nibble} {bytes : Vector UInt8 rows}
    (hread : m.memory.read m.i rows = .ok bytes) (p : Pixel) :
    m.Targets x y rows p ↔ p ∈ Sprite.pixels (m.v.get x) (m.v.get y) bytes.toList := by
  rw [Sprite.mem_pixels]
  constructor
  · intro h
    obtain ⟨row, bit, byte, hrow, hb, hbyte, hbit, hx, hy⟩ := h
    refine ⟨row, bit, byte, ?_, hb, hbit, ?_⟩
    · rw [Vector.getElem?_toList, Memory.getElem?_read hread hrow, hbyte]
    · obtain ⟨px, py⟩ := p
      exact congrArg₂ Pixel.mk (Fin.ext hx) (Fin.ext hy)
  · intro h
    obtain ⟨row, bit, byte, hbyte, hb, hbit, rfl⟩ := h
    rw [Vector.getElem?_toList] at hbyte
    have hrow : row < rows.val := by
      obtain ⟨hrow, -⟩ := Vector.getElem?_eq_some_iff.mp hbyte
      exact hrow
    exact ⟨row, bit, byte, hrow, hb, Memory.getElem?_read hread hrow ▸ hbyte, hbit, rfl, rfl⟩

theorem lit_drawSprite {m : Machine} {x y rows : Nibble} {bytes : Vector UInt8 rows}
    (hread : m.memory.read m.i rows = .ok bytes) (p : Pixel) :
    (m.drawSprite x y bytes.toList).frame.lit p ↔ m.frame.lit p ∨ m.Targets x y rows p := by
  rw [targets_iff hread]
  exact Sprite.lit_draw _ _ _ _ p

theorem perform_draw {m : Machine} {x y rows : Nibble} {bytes : Vector UInt8 rows}
    (hread : m.memory.read m.i rows = .ok bytes) (keypad : Keypad) :
    ((Word.ofNibbles 0xD x y rows).perform keypad).run m =
      .ok .next (m.drawSprite x y bytes.toList) := by
  refine (Word.run_toWord (.draw x y rows)).trans ?_
  simp only [Instruction.perform, EStateM.run_bind, Action.run_readMemory, hread]
  rfl

/-- **What a draw instruction does.** It lights the pixels that its sprite targets and no others; VF
tells whether one of them was lit before the instruction began. -/
theorem draw_lights_targets (keypad : Keypad) (m : Machine) (x y n : Nibble)
    (hfits : m.i.toNat + n.val ≤ 4096) :
    ∃ (frame : Frame) (collides : Bool),
      ((Word.ofNibbles 0xD x y n).perform keypad).run m = .ok .next
        { m with v := m.v.set 0xF (if collides then 1 else 0), frame, redraw := true } ∧
      (∀ p, frame.lit p ↔ m.frame.lit p ∨ m.Targets x y n p) ∧
      (collides ↔ ∃ p, m.Targets x y n p ∧ m.frame.lit p) := by
  obtain ⟨bytes, hread⟩ : ∃ bytes, m.memory.read m.i n = .ok bytes := ⟨_, dif_pos hfits⟩
  have hlen : bytes.toList.length ≤ 32 := by
    rw [Vector.length_toList]
    omega
  refine ⟨_, _, perform_draw hread keypad, lit_drawSprite hread, ?_⟩
  simp only [targets_iff hread]
  exact Sprite.collides_draw m.frame (m.v.get x) (m.v.get y) hlen

theorem draw_lights_targets_around_edges :
    let m : Machine :=
      { ofSeed 0 with v := Vector.replicate 16 62, frame := Frame.dark.light ⟨1, 0⟩ }
    m.i.toNat + 5 ≤ 4096 ∧ m.Targets 0 0 5 ⟨1, 0⟩ ∧
      ∃ frame, ((Word.ofNibbles 0xD 0 0 5).perform fun _ => false).run m =
        .ok .next { m with v := m.v.set 0xF 1, frame, redraw := true } := by
  intro m
  have hfits : m.i.toNat + (5 : Nibble).val ≤ 4096 := by decide
  have htarget : m.Targets 0 0 5 ⟨1, 0⟩ :=
    ⟨2, 3, 0x90, by decide, by decide, by decide +kernel, by decide, by decide, by decide⟩
  refine ⟨hfits, htarget, ?_⟩
  obtain ⟨frame, collides, hrun, -, hcollides⟩ :=
    draw_lights_targets (fun _ => false) m 0 0 5 hfits
  have hlit : m.frame.lit ⟨1, 0⟩ := Frame.dark.lit_light_self ⟨1, 0⟩
  rw [hcollides.mpr ⟨_, htarget, hlit⟩] at hrun
  exact ⟨frame, hrun⟩

end Machine

/-! ## Until the screen is cleared -/

theorem Event.frame_of_clearScreen {e : Event} (h : e.executed? = some 0x00E0) :
    e.after.frame = .dark := by
  obtain ⟨-, keypad, flow, done, hrun, hafter⟩ := Event.step_of_executed h
  rw [Word.perform_eq (i := .clearScreen) rfl] at hrun
  cases hrun
  rw [hafter]

theorem Event.lit_of_not_clearScreen {e : Event} (h : e.executed? ≠ some 0x00E0) {p : Pixel}
    (hp : e.before.frame.lit p) : e.after.frame.lit p := by
  cases hw : e.executed? with
  | none => obtain ⟨_, _, _, _, hafter⟩ := Event.after_of_not_executed hw; rwa [hafter]
  | some w =>
    by_cases hdraws : Writes e.before.i w .display
    · cases hdraws with
      | clearScreen => exact absurd hw h
      | draw x y n =>
        obtain ⟨-, keypad, flow, done, hrun, hafter⟩ := Event.step_of_executed hw
        have hdraw := (Word.run_toWord (.draw x y n)).symm.trans hrun
        obtain ⟨bytes, -, -, rfl⟩ := Instruction.perform_draw hdraw
        rw [hafter]
        exact (Sprite.lit_draw _ _ _ _ p).mpr (Or.inl hp)
    · rwa [((Event.footprint_of_executed hw).display hdraws).1]

namespace Machine

/-- **Pixels go dark only where the screen is cleared,** and then all of them do. -/
theorem lit_until_cleared (m : Machine) (ops : List Operation) :
    ((∀ e ∈ m.history ops, e.executed? ≠ some 0x00E0) → ∀ p, m.frame.lit p →
        (∀ e ∈ m.history ops, e.after.frame.lit p) ∧ (m.after ops).frame.lit p) ∧
      ∀ e ∈ m.history ops, e.executed? = some 0x00E0 → ∀ p, e.after.frame.lit p = false := by
  constructor
  · intro hnever p hp
    let P : List Event → Machine → Prop := fun past s =>
      (∀ e ∈ past, e.executed? ≠ some 0x00E0) →
        (∀ e ∈ past, e.after.frame.lit p) ∧ s.frame.lit p
    refine m.after_induction (P := P) ops ?_ ?_ hnever
    · exact fun _ => ⟨fun e he => absurd he List.not_mem_nil, hp⟩
    · intro past s op _ ih hnever
      rw [List.forall_mem_append, List.forall_mem_singleton] at hnever
      obtain ⟨hpast, hs⟩ := ih hnever.1
      have hlit := Event.lit_of_not_clearScreen hnever.2 hs
      rw [List.forall_mem_append, List.forall_mem_singleton]
      exact ⟨⟨hpast, hlit⟩, hlit⟩
  · intro e _ hclear p
    rw [Event.frame_of_clearScreen hclear, Frame.lit_dark]

theorem lit_until_cleared_by_loaded_word :
    let keypad : Keypad := fun _ => false
    let m : Machine := { ofSeed 0 with frame := Frame.dark.light ⟨1, 0⟩ }
    let ops := [.loadProgram [0xD0, 0x05, 0x00, 0xEE], .step keypad, .takeFrame, .step keypad,
      .load [0x00, 0xE0] 0x202]
    let e : Event := ⟨m.after ops, .step keypad⟩
    (∀ e ∈ m.history ops, e.executed? ≠ some 0x00E0) ∧ (m.after ops).frame.lit ⟨1, 0⟩ ∧
      e.executed? = some 0x00E0 ∧ e.after.frame.lit ⟨1, 0⟩ = false := by
  intro keypad m ops e
  obtain ⟨hwords, hlast⟩ :
      (m.history ops).all (fun e => e.executed? ≠ some 0x00E0) = true ∧
        e.executed? = some 0x00E0 := by
    decide +kernel
  have hnever : ∀ e ∈ m.history ops, e.executed? ≠ some 0x00E0 := by
    intro e he
    exact of_decide_eq_true (List.all_eq_true.mp hwords e he)
  have hstart : m.frame.lit ⟨1, 0⟩ := Frame.dark.lit_light_self ⟨1, 0⟩
  have hmem : e ∈ m.history (ops ++ [.step keypad]) := by
    rw [history_append]
    exact List.mem_append_right _ List.mem_cons_self
  exact ⟨hnever, ((lit_until_cleared m ops).1 hnever ⟨1, 0⟩ hstart).2, hlast,
    (lit_until_cleared m (ops ++ [.step keypad])).2 e hmem hlast ⟨1, 0⟩⟩

end Machine

/-! ## Several sprites -/

/-- A sprite of some rows, the place of its bytes, and the place where it is drawn, with the
registers that hold the latter. -/
structure Drawing where
  x : Nibble
  y : Nibble
  left : UInt8
  top : UInt8
  start : UInt16
  rows : Nibble
  fits : start.toNat + rows.val ≤ Memory.size
  left_eq_top : x = y → left = top

namespace Drawing

def word (d : Drawing) : Word := .ofNibbles 0xD d.x d.y d.rows

def prepare (d : Drawing) (m : Machine) : Machine :=
  { m with v := (m.v.set d.x d.left).set d.y d.top, i := d.start }

def bytes (d : Drawing) (mem : Memory) : Vector UInt8 d.rows :=
  Vector.ofFn fun row =>
    have := d.fits
    mem[d.start.toNat + row.val]

def pixels (d : Drawing) (mem : Memory) : List Pixel :=
  Sprite.pixels d.left d.top (d.bytes mem).toList

def Blank (d : Drawing) (mem : Memory) : Prop :=
  ∀ row < d.rows.val, mem[d.start.toNat + row]? = some 0

structure Same (d d' : Drawing) : Prop where
  left : d.left = d'.left
  top : d.top = d'.top
  start : d.start = d'.start
  rows : d.rows = d'.rows

def drawOn (m : Machine) (d : Drawing) : Machine :=
  (d.prepare m).drawSprite d.x d.y (d.bytes m.memory).toList

variable (d : Drawing) (m : Machine)

theorem get_prepare :
    (d.prepare m).v.get d.x = d.left ∧ (d.prepare m).v.get d.y = d.top := by
  unfold prepare
  refine ⟨?_, Registers.get_set_self _ d.y d.top⟩
  by_cases hxy : d.x = d.y
  · rw [d.left_eq_top hxy, hxy]
    exact Registers.get_set_self _ d.y d.top
  · rw [Registers.get_set_of_ne _ _ hxy]
    exact Registers.get_set_self _ d.x d.left

theorem run_word (keypad : Keypad) :
    EStateM.run (d.word.perform keypad) (d.prepare m) = .ok .next (drawOn m d) := by
  have hread : (d.prepare m).memory.read (d.prepare m).i d.rows = .ok (d.bytes m.memory) :=
    dif_pos d.fits
  exact Machine.perform_draw hread keypad

theorem drawOn_eq :
    (drawOn m d).frame = (Sprite.draw m.frame d.left d.top (d.bytes m.memory).toList).2 ∧
      (drawOn m d).v.get 0xF =
        (Sprite.draw m.frame d.left d.top (d.bytes m.memory).toList).1.toUInt8 := by
  obtain ⟨hx, hy⟩ := d.get_prepare m
  unfold drawOn Machine.drawSprite
  rw [hx, hy]
  exact ⟨rfl, Registers.get_set_self _ 0xF _⟩

theorem memory_drawOn : (drawOn m d).memory = m.memory := rfl

theorem lit_drawOn (p : Pixel) :
    (drawOn m d).frame.lit p ↔ m.frame.lit p ∨ p ∈ d.pixels m.memory := by
  rw [(d.drawOn_eq m).1]
  exact Sprite.lit_draw _ _ _ _ p

variable {d} in
theorem pixels_of_same {d' : Drawing} (h : d.Same d') (mem : Memory) :
    d.pixels mem = d'.pixels mem := by
  obtain ⟨hleft, htop, hstart, hrows⟩ := h
  cases d
  cases d'
  subst hleft htop hstart hrows
  rfl

end Drawing

theorem Sprite.columns_eq_nil_iff {byte : UInt8} : columns byte = [] ↔ byte = 0 := by
  constructor
  · intro h
    rw [← UInt8.toNat_inj]
    refine Nat.eq_of_testBit_eq fun bit => ?_
    rw [UInt8.toNat_zero, Nat.zero_testBit]
    by_cases hbit : bit < 8
    · have hnot : 7 - bit ∉ columns byte := by simp [h]
      have hback : 7 - (7 - bit) = bit := by omega
      simpa [mem_columns, hback] using fun hlit => hnot (mem_columns.mpr ⟨by omega, hlit⟩)
    · refine Nat.testBit_lt_two_pow (Nat.lt_of_lt_of_le byte.toNat_lt ?_)
      exact Nat.pow_le_pow_right (Nat.succ_pos 1) (Nat.le_of_not_lt hbit)
  · rintro rfl
    rfl

namespace Drawing

variable (d : Drawing) (mem : Memory)

theorem pixels_eq_nil_iff : d.pixels mem = [] ↔ d.Blank mem := by
  simp only [pixels, Sprite.pixels, List.flatMap_eq_nil_iff, List.map_eq_nil_iff,
    Sprite.columns_eq_nil_iff, List.forall_mem_zipIdx', Vector.length_toList,
    Vector.getElem_toList, bytes, Vector.getElem_ofFn]
  refine forall_congr' fun row => forall_congr' fun hrow => ?_
  have hin : d.start.toNat + row < Memory.size := by have := d.fits; omega
  rw [Vector.getElem?_eq_getElem hin, Option.some.injEq]

def makeAll (keypad : Keypad) : List Drawing → Action Unit
  | [] => pure ()
  | d :: ds => do
    modify d.prepare
    let _ ← d.word.perform keypad
    makeAll keypad ds

theorem run_makeAll (keypad : Keypad) (ds : List Drawing) (m : Machine) :
    EStateM.run (makeAll keypad ds) m = .ok () (ds.foldl drawOn m) := by
  induction ds generalizing m with
  | nil => rfl
  | cons d ds ih =>
    rw [List.foldl_cons, ← ih, makeAll]
    simp only [EStateM.run_bind, EStateM.run_modify, run_word]

theorem memory_foldl_drawOn (ds : List Drawing) (m : Machine) :
    (ds.foldl drawOn m).memory = m.memory := by
  induction ds generalizing m with
  | nil => rfl
  | cons d ds ih => rw [List.foldl_cons, ih, memory_drawOn]

theorem lit_foldl_drawOn (ds : List Drawing) (m : Machine) (p : Pixel) :
    (ds.foldl drawOn m).frame.lit p ↔ m.frame.lit p ∨ ∃ d ∈ ds, p ∈ d.pixels m.memory := by
  induction ds generalizing m with
  | nil => simp
  | cons d ds ih =>
    rw [List.foldl_cons, ih, lit_drawOn, memory_drawOn]
    simp only [List.mem_cons, exists_eq_or_imp, or_assoc]

/-! ## Other orders, and drawing again -/

/-- The second list comes from the first by changing the order, by drawing some again, each at any
place after it was drawn, and by holding the places in other registers. -/
inductive Redrawn : List Drawing → List Drawing → Prop
  | reorder {ds ds' : List Drawing} : ds.Perm ds' → Redrawn ds ds'
  | again (before between later : List Drawing) (d : Drawing) :
      Redrawn (before ++ d :: (between ++ later)) (before ++ d :: (between ++ d :: later))
  | reassign {ds ds' : List Drawing} : List.Forall₂ Same ds ds' → Redrawn ds ds'
  | trans {ds ds' ds'' : List Drawing} : Redrawn ds ds' → Redrawn ds' ds'' → Redrawn ds ds''

theorem mem_pixels_of_redrawn {ds ds' : List Drawing} (h : Redrawn ds ds') (mem : Memory)
    (p : Pixel) : (∃ d ∈ ds, p ∈ d.pixels mem) ↔ ∃ d ∈ ds', p ∈ d.pixels mem := by
  induction h with
  | reorder hperm => simp only [hperm.mem_iff]
  | again before between later d =>
    refine exists_congr fun x => and_congr_left fun _ => ?_
    simp only [List.mem_append, List.mem_cons]
    tauto
  | reassign hsame =>
    induction hsame with
    | nil => rfl
    | cons hd _ ih => simp only [List.mem_cons, exists_eq_or_imp, pixels_of_same hd, ih]
  | trans _ _ ih ih' => exact ih.trans ih'

theorem frame_of_redrawn {ds ds' : List Drawing} (h : Redrawn ds ds') {m m' : Machine}
    (hmem : m'.memory = m.memory) (hframe : m'.frame = m.frame) :
    (ds'.foldl drawOn m').frame = (ds.foldl drawOn m).frame := by
  refine Frame.ext_lit fun p => ?_
  rw [Bool.eq_iff_iff, lit_foldl_drawOn, lit_foldl_drawOn, hmem, hframe, mem_pixels_of_redrawn h]

theorem drawOn_of_drawn {ds : List Drawing} {m : Machine} {d d' : Drawing} (hd : d ∈ ds)
    (hsame : d.Same d') :
    let again := drawOn (ds.foldl drawOn m) d'
    again.frame = (ds.foldl drawOn m).frame ∧ (d'.Blank m.memory → again.v.get 0xF = 0) ∧
      (¬ d'.Blank m.memory → again.v.get 0xF = 1) := by
  intro again
  have hmem := memory_foldl_drawOn ds m
  have hlit : ∀ p ∈ d'.pixels m.memory, (ds.foldl drawOn m).frame.lit p := by
    intro p hp
    rw [lit_foldl_drawOn]
    exact Or.inr ⟨d, hd, pixels_of_same hsame m.memory ▸ hp⟩
  let drawn := Sprite.draw (ds.foldl drawOn m).frame d'.left d'.top (d'.bytes m.memory).toList
  have hcollides : drawn.1 = true ↔ ¬ d'.Blank m.memory := by
    have hlen : (d'.bytes m.memory).toList.length ≤ 32 := by
      rw [Vector.length_toList]
      omega
    rw [Sprite.collides_draw _ _ _ hlen, ← pixels_eq_nil_iff]
    constructor
    · rintro ⟨p, hp, -⟩ hnil
      exact absurd hp (show p ∉ d'.pixels m.memory from hnil ▸ List.not_mem_nil)
    · intro hne
      obtain ⟨p, hp⟩ := List.exists_mem_of_ne_nil _ hne
      exact ⟨p, hp, hlit p hp⟩
  have hflag : again.v.get 0xF = drawn.1.toUInt8 :=
    (d'.drawOn_eq (ds.foldl drawOn m)).2.trans (by rw [hmem])
  refine ⟨Frame.ext_lit fun p => ?_, fun hblank => ?_, fun hset => ?_⟩
  · rw [Bool.eq_iff_iff, lit_drawOn, hmem, or_iff_left_of_imp (hlit p)]
  · rw [hflag, Bool.eq_false_iff.mpr (mt hcollides.mp (not_not_intro hblank))]
    rfl
  · rw [hflag, hcollides.mpr hset]
    rfl

end Drawing

namespace Machine

open Drawing in
/-- **Drawing sprites does not depend on their order, and drawing one again changes nothing.** The
frame is the same for every list of drawings that comes from the first by reordering and repeating;
a drawing that was made before only sets VF, to 1 unless its sprite is blank. -/
theorem drawings_superpose (keypad : Keypad) (ds : List Drawing) (m : Machine) :
    ∃ done, EStateM.run (makeAll keypad ds) m = .ok () done ∧
      (∀ ds' keypad' m', Redrawn ds ds' → m'.memory = m.memory → m'.frame = m.frame →
        ∃ done', EStateM.run (makeAll keypad' ds') m' = .ok () done' ∧ done'.frame = done.frame) ∧
      ∀ d ∈ ds, ∀ d', d.Same d' →
        ∃ again, EStateM.run (makeAll keypad (ds ++ [d'])) m = .ok () again ∧
          again.frame = done.frame ∧ (d'.Blank m.memory → again.v.get 0xF = 0) ∧
          (¬ d'.Blank m.memory → again.v.get 0xF = 1) := by
  refine ⟨_, run_makeAll keypad ds m, ?_, ?_⟩
  · intro ds' keypad' m' hredrawn hmem hframe
    refine ⟨_, run_makeAll keypad' ds' m', ?_⟩
    exact frame_of_redrawn hredrawn hmem hframe
  · intro d hd d' hsame
    refine ⟨_, run_makeAll keypad (ds ++ [d']) m, ?_⟩
    rw [List.foldl_append]
    exact drawOn_of_drawn hd hsame

theorem drawings_superpose_around_edges :
    let keypad : Keypad := fun _ => false
    let m := ofSeed 0
    let corner : Drawing := ⟨0, 1, 62, 30, 0, 5, by decide, by decide⟩
    let blank : Drawing := ⟨2, 2, 7, 7, 0x200, 3, by decide, by decide⟩
    let again : Drawing := ⟨0xF, 1, 62, 30, 0, 5, by decide, by decide⟩
    ∃ done, EStateM.run (Drawing.makeAll keypad [corner, blank]) m = .ok () done ∧
      (∃ done', EStateM.run (Drawing.makeAll keypad [blank, corner, blank]) m = .ok () done' ∧
        done'.frame = done.frame) ∧
      ∃ done', EStateM.run (Drawing.makeAll keypad [corner, blank, again]) m = .ok () done' ∧
        done'.frame = done.frame ∧ done'.v.get 0xF = 1 := by
  intro keypad m corner blank again
  obtain ⟨done, hdone, hredrawn, hagain⟩ := drawings_superpose keypad [corner, blank] m
  have horder : Drawing.Redrawn [corner, blank] [blank, corner, blank] :=
    .trans (.reorder (.swap ..)) (.again [] [corner] [] blank)
  have hset : ¬ again.Blank m.memory := by
    intro hblank
    exact absurd (hblank 0 (by decide)) (by decide +kernel)
  obtain ⟨done', hdone', hframe, -, hflag⟩ :=
    hagain corner List.mem_cons_self again ⟨rfl, rfl, rfl, rfl⟩
  exact ⟨done, hdone, hredrawn _ keypad m horder rfl rfl, done', hdone', hframe, hflag hset⟩

end Machine

end Chip8
