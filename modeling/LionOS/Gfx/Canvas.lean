import LionOS.Gfx.Font
import LionOS.Lib.Effects
import LionOS.Lib.Memory

/-!
# The drawing surface

A `Canvas` is a plane of pixels in a byte buffer: rows of `pitch` bytes with `width` cells
of `bpp` bytes at their front. Every drawing function takes the buffer and returns it, or
stops the kernel where `usize` arithmetic overflows or a slice index is out of range.
-/

namespace LionOS.Gfx

open Lib

/-- Why a drawing function stops the kernel. -/
inductive Panic where
  | overflow
  | index
  deriving DecidableEq, Repr

/-- The result of `usize` arithmetic. -/
def usize (n : Nat) : Except Panic Nat := if n < 2 ^ 64 then .ok n else .error .overflow

/-- The result of `u32` arithmetic. -/
def u32 (n : Nat) : Except Panic Nat := if n < 2 ^ 32 then .ok n else .error .overflow

/-- A sum that saturates. -/
def saturate (n : Nat) : Nat := min n (2 ^ 64 - 1)

/-- `usize::checked_mul`. -/
def checkedMul (a b : Nat) : Option Nat := if a * b < 2 ^ 64 then some (a * b) else none

theorem usize_of_lt {n : Nat} (h : n < 2 ^ 64) : usize n = .ok n := if_pos h

theorem u32_of_lt {n : Nat} (h : n < 2 ^ 32) : u32 n = .ok n := if_pos h

theorem usize_error {n : Nat} {e : Panic} (h : usize n = .error e) : e = .overflow := by
  unfold usize at h
  split at h
  · cases h
  · exact (Except.error.inj h).symm

theorem u32_error {n : Nat} {e : Panic} (h : u32 n = .error e) : e = .overflow := by
  unfold u32 at h
  split at h
  · cases h
  · exact (Except.error.inj h).symm

/-- A computation that goes on after `usize` arithmetic had room for its result. -/
theorem lt_of_usize_bind {n : Nat} {α : Type} {f : Nat → Except Panic α} {r : α}
    (h : (usize n >>= f) = .ok r) : n < 2 ^ 64 ∧ f n = .ok r := by
  by_cases hn : n < 2 ^ 64
  · rw [usize_of_lt hn] at h
    exact ⟨hn, h⟩
  · rw [usize, if_neg hn] at h
    cases h

theorem lt_of_u32_bind {n : Nat} {α : Type} {f : Nat → Except Panic α} {r : α}
    (h : (u32 n >>= f) = .ok r) : n < 2 ^ 32 ∧ f n = .ok r := by
  by_cases hn : n < 2 ^ 32
  · rw [u32_of_lt hn] at h
    exact ⟨hn, h⟩
  · rw [u32, if_neg hn] at h
    cases h

/-- The geometry of a pixel plane in a buffer of `len` bytes. -/
structure Canvas where
  len : Nat
  width : Nat
  height : Nat
  pitch : Nat
  bpp : Nat
  bpp_pos : 0 < bpp
  width_pos : 0 < width
  height_pos : 0 < height
  row_le : width * bpp ≤ pitch
  plane_le : height * pitch ≤ len
  /-- No slice is longer than half the address space. -/
  len_lt : len < 2 ^ 63

private theorem le_of_checkedMul {a b n : Nat}
    (h : ¬ ((checkedMul a b).elim true fun need => decide (n < need)) = true) : a * b ≤ n := by
  unfold checkedMul at h
  split at h
  · simpa using h
  · simp at h

namespace Canvas

/-- Wrap a pixel plane; `none` if the geometry is inconsistent. -/
def new (len : Nat) (hlen : len < 2 ^ 63) (width height pitch bpp : Nat) : Option Canvas :=
  if hzero : bpp = 0 ∨ width = 0 ∨ height = 0 then none
  else if hrow : (checkedMul width bpp).elim true fun need => decide (pitch < need) then none
  else if hplane : (checkedMul height pitch).elim true fun need => decide (len < need) then none
  else
    some
      { len, width, height, pitch, bpp
        bpp_pos := by omega
        width_pos := by omega
        height_pos := by omega
        row_le := le_of_checkedMul hrow
        plane_le := le_of_checkedMul hplane
        len_lt := hlen }

/-- An accepted canvas has the geometry it was asked for. -/
theorem new_eq_some {len width height pitch bpp : Nat} {hlen : len < 2 ^ 63} {c : Canvas}
    (h : new len hlen width height pitch bpp = some c) :
    c.len = len ∧ c.width = width ∧ c.height = height ∧ c.pitch = pitch ∧ c.bpp = bpp := by
  unfold new at h
  split at h
  · cases h
  split at h
  · cases h
  split at h
  · cases h
  · obtain rfl := Option.some.inj h
    exact ⟨rfl, rfl, rfl, rfl, rfl⟩

variable (c : Canvas)

/-- Offset of pixel `(x, y)`, or `none` if out of bounds. -/
def pixelOffset (x y : Nat) : Except Panic (Option Nat) :=
  if x < c.width ∧ y < c.height then do
    let row ← usize (y * c.pitch)
    let col ← usize (x * c.bpp)
    let off ← usize (row + col)
    .ok (some off)
  else .ok none

/-- Set one pixel; `false` if it is outside the canvas. -/
def setPixel (x y rgb : Nat) (b : Mem) : Except Panic (Bool × Mem) := do
  match ← c.pixelOffset x y with
  | some off =>
    let stop ← usize (off + c.bpp)
    if stop ≤ c.len ∧ c.bpp ≤ 4 then .ok (true, writeLE b off c.bpp rgb) else .error .index
  | none => .ok (false, b)

/-- Read the packed colour of a pixel, or `none` if out of bounds. -/
def readPixel (x y : Nat) (b : Mem) : Except Panic (Option Nat) := do
  match ← c.pixelOffset x y with
  | some off =>
    let stop ← usize (off + c.bpp)
    if c.bpp ≤ 4 ∧ stop ≤ c.len then .ok (some (readLE b off c.bpp)) else .error .index
  | none => .ok none

/-- Set a pixel and ignore whether it was inside. -/
def put (rgb : Nat) (b : Mem) (p : Nat × Nat) : Except Panic Mem := do
  let (_, b) ← c.setPixel p.1 p.2 rgb b
  .ok b

/-- Fill `[x, x + w) × [y, y + h)`, clipped to the canvas. -/
def fillRect (x y w h rgb : Nat) (b : Mem) : Except Panic Mem :=
  let x0 := min x c.width
  let y0 := min y c.height
  let x1 := min (saturate (x + w)) c.width
  let y1 := min (saturate (y + h)) c.height
  (List.range' y0 (y1 - y0)).foldlM
    (fun b yy => (List.range' x0 (x1 - x0)).foldlM (fun b xx => c.put rgb b (xx, yy)) b) b

/-- Clear the whole canvas. -/
def clear (rgb : Nat) (b : Mem) : Except Panic Mem := c.fillRect 0 0 c.width c.height rgb b

/-- Paint the marked columns of a glyph's rows. -/
def drawGlyph (x y fg : Nat) (g : List UInt8) (b : Mem) : Except Panic Mem :=
  g.zipIdx.foldlM
    (fun b (mask, row) =>
      (List.range glyphW).foldlM
        (fun b col =>
          if mask &&& (1 <<< UInt8.ofNat col) ≠ 0 then do
            let px ← usize (x + col)
            c.put fg b (px, saturate (y + row))
          else .ok b) b) b

/-- The loop of `draw_text` from column `x` on. -/
def drawChars (y fg : Nat) : (s : List Char) → (x : Nat) → Mem → Except Panic Mem
  | [], _, b => .ok b
  | ch :: s, x, b =>
    if c.width < saturate (x + glyphW) then .ok b
    else do
      let b ← c.drawGlyph x y fg (glyph ch) b
      let x ← usize (x + (glyphW + 1))
      drawChars y fg s x b

/-- Draw a string; a character that would pass the right edge ends the line. -/
def drawText (x y : Nat) (s : String) (fg : Nat) (b : Mem) : Except Panic Mem :=
  c.drawChars y fg s.toList x b

/-- One channel of a blend. Both factors are at most 255. -/
def blendChannel (fg bg shift alpha inv : Nat) : Nat :=
  (((fg >>> shift) &&& 0xff) * alpha + ((bg >>> shift) &&& 0xff) * inv) / 255

/-- Blend `fg` over a pixel; `false` if it is out of bounds. -/
def blendPixel (x y fg alpha : Nat) (b : Mem) : Except Panic (Bool × Mem) :=
  if alpha = 0 then .ok (true, b)
  else do
    match ← c.readPixel x y b with
    | none => .ok (false, b)
    | some bg =>
      if 255 ≤ alpha then
        let (_, b) ← c.setPixel x y fg b
        .ok (true, b)
      else
        let inv := 255 - alpha
        let red := blendChannel fg bg 16 alpha inv
        let green := blendChannel fg bg 8 alpha inv
        let blue := blendChannel fg bg 0 alpha inv
        let (_, b) ← c.setPixel x y ((red <<< 16) ||| (green <<< 8) ||| blue) b
        .ok (true, b)

end Canvas

/-- Supersamples in each direction. -/
def ss : Nat := 3

/-- The marked supersamples of an output pixel. -/
def coverage (g : List UInt8) (fine ox oy : Nat) : Except Panic Nat :=
  (List.range ss).foldlM
    (fun on sy => do
      let rows ← usize (oy * ss)
      let fy ← usize (rows + sy)
      let grow := fy / fine
      if glyphH ≤ grow then .ok on
      else
        match g[grow]? with
        | none => .error .index
        | some rowMask =>
          (List.range ss).foldlM
            (fun on sx => do
              let cols ← usize (ox * ss)
              let fx ← usize (cols + sx)
              let gcol := fx / fine
              if gcol < glyphW ∧ rowMask &&& (1 <<< UInt8.ofNat gcol) ≠ 0 then .ok (on + 1)
              else .ok on) on) 0

namespace Canvas

variable (c : Canvas)

/-- One scaled glyph. -/
def drawGlyphAa (x y fg fine ow oh : Nat) (g : List UInt8) (b : Mem) : Except Panic Mem :=
  (List.range oh).foldlM
    (fun b oy =>
      (List.range ow).foldlM
        (fun b ox => do
          let on ← coverage g fine ox oy
          let alpha := on * 255 / (ss * ss)
          let px ← usize (x + ox)
          let py ← usize (y + oy)
          let (_, b) ← c.blendPixel px py fg alpha b
          .ok b) b) b

/-- The loop of `draw_text_aa` from column `x` on. -/
def drawCharsAa (y fg scale fine : Nat) : (s : List Char) → (x : Nat) → Mem → Except Panic Mem
  | [], _, b => .ok b
  | ch :: s, x, b => do
    let ow ← usize (scale * glyphW)
    if c.width < saturate (x + ow) then .ok b
    else
      let oh ← usize (scale * glyphH)
      let b ← c.drawGlyphAa x y fg fine ow oh (glyph ch) b
      let advance ← usize (scale * (glyphW + 1))
      let x ← usize (x + advance)
      drawCharsAa y fg scale fine s x b

/-- Draw a string with scaled, supersampled glyphs. -/
def drawTextAa (x y : Nat) (s : String) (fg scale : Nat) (b : Mem) : Except Panic Mem :=
  if scale = 0 then .ok b
  else do
    let fine ← usize (ss * scale)
    c.drawCharsAa y fg scale fine s.toList x b

end Canvas

end LionOS.Gfx
