/-!
# The frame

The display is 64 pixels wide and 32 high. A sprite has a row of eight pixels for each of its bytes;
drawing it wraps around both edges and only ever lights pixels. As RGB24 a pixel takes three bytes.
-/

namespace Chip8

abbrev Frame.width : Nat := 64

abbrev Frame.height : Nat := 32

/-- A place on the display: `x` counts columns from the left and `y` rows from the top. -/
structure Pixel where
  x : Fin Frame.width
  y : Fin Frame.height
deriving DecidableEq, Repr

abbrev Frame := Vector (Vector Bool Frame.width) Frame.height

namespace Frame

def dark : Frame := Vector.replicate height (Vector.replicate width false)

def lit (frame : Frame) (p : Pixel) : Bool :=
  frame[p.y][p.x]

def light (frame : Frame) (p : Pixel) : Frame :=
  frame.set p.y (frame[p.y].set p.x true)

theorem lit_dark (p : Pixel) : dark.lit p = false := by
  simp [lit, dark]

theorem lit_light (frame : Frame) (p q : Pixel) :
    (frame.light p).lit q = (decide (p = q) || frame.lit q) := by
  obtain ⟨px, py⟩ := p
  obtain ⟨qx, qy⟩ := q
  simp only [lit, light, Fin.getElem_fin, Vector.getElem_set, Pixel.mk.injEq]
  by_cases hy : py = qy
  · subst hy
    by_cases hx : px = qx
    · simp [hx]
    · simp [hx, Fin.val_ne_of_ne hx]
  · simp [hy, Fin.val_ne_of_ne hy]

theorem lit_light_self (frame : Frame) (p : Pixel) : (frame.light p).lit p = true := by
  rw [lit_light, decide_eq_true rfl, Bool.true_or]

theorem ext_lit {f g : Frame} (h : ∀ p, f.lit p = g.lit p) : f = g := by
  ext y hy x hx
  exact h ⟨⟨x, hx⟩, ⟨y, hy⟩⟩

end Frame

/-! ## Sprites -/

namespace Sprite

abbrev width : Nat := 8

def columns (byte : UInt8) : List Nat :=
  (List.range width).filter fun column => byte.toNat.testBit (width - 1 - column)

def place (left top : UInt8) (column row : Nat) : Pixel :=
  ⟨⟨(left.toNat + column) % Frame.width, Nat.mod_lt _ (by decide)⟩,
    ⟨(top.toNat + row) % Frame.height, Nat.mod_lt _ (by decide)⟩⟩

def pixels (left top : UInt8) (rows : List UInt8) : List Pixel :=
  rows.zipIdx.flatMap fun (byte, row) => (columns byte).map fun column => place left top column row

/-- Lights one pixel and remembers in the flag whether it, or one before it, was lit. -/
def strike (drawn : Bool × Frame) (p : Pixel) : Bool × Frame :=
  (drawn.1 || drawn.2.lit p, drawn.2.light p)

def draw (frame : Frame) (left top : UInt8) (rows : List UInt8) : Bool × Frame :=
  (pixels left top rows).foldl strike (false, frame)

end Sprite

/-! ## RGB24

Pixels in an image and words in memory lie one after the other in blocks of one length, so the
place of a byte tells which block it is in and which byte of it. -/

section
variable {α β : Type} {f : α → List β} {n : Nat}

theorem length_flatMap_of_length (hf : ∀ a, (f a).length = n) (xs : List α) :
    (xs.flatMap f).length = n * xs.length := by
  induction xs with
  | nil => rfl
  | cons a xs ih =>
    rw [List.flatMap_cons, List.length_append, hf, ih, List.length_cons]
    rw [Nat.mul_succ, Nat.add_comm]

theorem getElem?_flatMap_of_length (hf : ∀ a, (f a).length = n) (xs : List α) (i : Nat) {j : Nat}
    (hj : j < n) : (xs.flatMap f)[n * i + j]? = xs[i]?.bind fun a => (f a)[j]? := by
  induction xs generalizing i with
  | nil => rfl
  | cons a xs ih =>
    rw [List.flatMap_cons]
    cases i with
    | zero =>
      rw [List.getElem?_append_left (by rw [hf]; omega), Nat.mul_zero, Nat.zero_add]
      rfl
    | succ i =>
      have hplace : n * (i + 1) + j = (f a).length + (n * i + j) := by
        rw [hf, Nat.mul_succ]
        omega
      rw [hplace, List.getElem?_append_right (Nat.le_add_right ..), Nat.add_sub_cancel_left]
      exact ih i

end

namespace Frame

abbrev channels : Nat := 3

def intensity (lit : Bool) : UInt8 :=
  if lit then 0xFF else 0x00

def rowBytes (row : Vector Bool width) : List UInt8 :=
  row.toList.flatMap fun lit => List.replicate channels (intensity lit)

/-- Red, green and blue of each pixel, row by row: white if it is lit, black if not. -/
def toRgb24 (frame : Frame) : List UInt8 :=
  frame.toList.flatMap rowBytes

theorem length_pixelBytes (lit : Bool) : (List.replicate channels (intensity lit)).length = 3 :=
  List.length_replicate

theorem length_rowBytes (row : Vector Bool width) : (rowBytes row).length = 192 := by
  rw [rowBytes, length_flatMap_of_length length_pixelBytes, Vector.length_toList, width]

theorem getElem?_rowBytes (row : Vector Bool width) (x : Fin 64) (c : Fin 3) :
    (rowBytes row)[3 * x.val + c.val]? = some (intensity row[x]) := by
  rw [rowBytes, getElem?_flatMap_of_length length_pixelBytes row.toList x c.isLt]
  simp

theorem length_toRgb24 (frame : Frame) : frame.toRgb24.length = 6144 := by
  rw [toRgb24, length_flatMap_of_length length_rowBytes, Vector.length_toList, height]

theorem getElem?_toRgb24 (frame : Frame) (y : Fin 32) (x : Fin 64) (c : Fin 3) :
    frame.toRgb24[3 * (64 * y.val + x.val) + c.val]? = some (intensity frame[y][x]) := by
  have hplace : 3 * (64 * y.val + x.val) + c.val = 192 * y.val + (3 * x.val + c.val) := by omega
  rw [hplace, toRgb24, getElem?_flatMap_of_length length_rowBytes frame.toList y (by omega)]
  simp [getElem?_rowBytes]

end Frame

end Chip8
