import LionOS.Gfx.Visible

/-!
# Canvases that can be drawn on

`set_pixel` cuts the bytes of a pixel from the four of a colour, and `read_pixel` puts them
back into four. The constructor checks the plane against the buffer, so that every cell is
inside it, but not the size of a pixel against the size of a colour.
-/

namespace LionOS.Gfx.Canvas

open Lib

variable {c : Canvas} {x y rgb : Nat} {b : Mem}

/-- What the primitives promise of a canvas that `Canvas::new` has accepted: they return, and
a pixel that is set is the only one to change. -/
structure Drawable (c : Canvas) : Prop where
  setPixel : ∀ x y rgb b, ∃ r, c.setPixel x y rgb b = .ok r
  readPixel : ∀ x y b, ∃ r, c.readPixel x y b = .ok r
  fillRect : ∀ x y w h rgb b, ∃ r, c.fillRect x y w h rgb b = .ok r
  blendPixel : ∀ x y fg alpha b, ∃ r, c.blendPixel x y fg alpha b = .ok r
  readBack : ∀ x y rgb b, c.Shows x y → ∃ b', c.setPixel x y rgb b = .ok (true, b') ∧
    c.readPixel x y b' = .ok (some (rgb % 256 ^ c.bpp)) ∧
    ∀ x' y', (x', y') ≠ (x, y) → c.readPixel x' y' b' = c.readPixel x' y' b

/-- A pixel that is set reads as its low bytes, and every other pixel as before. -/
private theorem setPixel_readPixel (hbpp : c.bpp ≤ 4) (h : c.Shows x y) (rgb : Nat) (b : Mem) :
    ∃ b', c.setPixel x y rgb b = .ok (true, b') ∧
      c.readPixel x y b' = .ok (some (rgb % 256 ^ c.bpp)) ∧
      ∀ x' y', (x', y') ≠ (x, y) → c.readPixel x' y' b' = c.readPixel x' y' b := by
  refine ⟨c.plot rgb b (x, y), ?_, ?_, fun x' y' hne => ?_⟩
  · rw [setPixel_eq hbpp, decide_eq_true h]
  · rw [readPixel_eq hbpp h, readLE_plot h, if_pos rfl]
  · by_cases h' : c.Shows x' y'
    · rw [readPixel_eq hbpp h', readPixel_eq hbpp h', readLE_plot h', if_neg hne]
    · rw [readPixel_of_not_shows h', readPixel_of_not_shows h']

theorem drawable_of_bpp_le (hbpp : c.bpp ≤ 4) : c.Drawable where
  setPixel x y rgb b := ⟨_, setPixel_eq hbpp⟩
  readPixel x y b := by
    by_cases h : c.Shows x y
    · exact ⟨_, readPixel_eq hbpp h⟩
    · exact ⟨_, readPixel_of_not_shows h⟩
  fillRect x y w h rgb b := ⟨_, fillRect_eq hbpp w h⟩
  blendPixel x y fg alpha b := by
    obtain ⟨done, b', hblend, -⟩ := blendPixel_frame hbpp x y fg alpha b
    exact ⟨_, hblend⟩
  readBack x y rgb b h := setPixel_readPixel hbpp h rgb b

/-- With more than four bytes per pixel no pixel can be set. -/
theorem setPixel_error (hbpp : ¬ c.bpp ≤ 4) (h : c.Shows x y) (rgb : Nat) (b : Mem) :
    c.setPixel x y rgb b = .error .index := by
  have hplane := cell_le_plane h
  have hlen := c.len_lt
  have hfits := c.plane_le
  rw [setPixel, pixelOffset_of_shows h]
  change (usize (c.offset x y + c.bpp) >>= _) = _
  rw [usize_of_lt (by omega)]
  exact if_neg fun h => hbpp h.2

/-- Nor can one be read. -/
theorem readPixel_error (hbpp : ¬ c.bpp ≤ 4) (h : c.Shows x y) (b : Mem) :
    c.readPixel x y b = .error .index := by
  have hplane := cell_le_plane h
  have hlen := c.len_lt
  have hfits := c.plane_le
  rw [readPixel, pixelOffset_of_shows h]
  change (usize (c.offset x y + c.bpp) >>= _) = _
  rw [usize_of_lt (by omega)]
  exact if_neg fun h => hbpp h.1

theorem Drawable.bpp_le (h : c.Drawable) : c.bpp ≤ 4 := by
  by_contra hbpp
  obtain ⟨r, hset⟩ := h.setPixel 0 0 0 (fun _ => 0)
  rw [setPixel_error hbpp ⟨c.width_pos, c.height_pos⟩] at hset
  cases hset

/-- A canvas that was accepted can be drawn on exactly if a pixel is not longer than a
colour. -/
theorem drawable_iff {len width height pitch bpp : Nat} {hlen : len < 2 ^ 63}
    (hnew : Canvas.new len hlen width height pitch bpp = some c) : c.Drawable ↔ bpp ≤ 4 := by
  obtain ⟨-, -, -, -, rfl⟩ := new_eq_some hnew
  exact ⟨Drawable.bpp_le, drawable_of_bpp_le⟩

/-- A canvas of one row of pixels. -/
def pixelRow (n bpp : Nat) (hn : 0 < n) (hpos : 0 < bpp) (hlen : n * bpp < 2 ^ 63) : Canvas where
  len := n * bpp
  width := n
  height := 1
  pitch := n * bpp
  bpp := bpp
  bpp_pos := hpos
  width_pos := hn
  height_pos := Nat.one_pos
  row_le := le_rfl
  plane_le := (Nat.one_mul _).le
  len_lt := hlen

/-- One pixel of five bytes. -/
def fiveBytes : Canvas := pixelRow 1 5 Nat.one_pos (Nat.succ_pos 4) (by decide)

theorem drawable_iff_fiveBytes : fiveBytes.Drawable ↔ 5 ≤ 4 := by
  have hnew : Canvas.new 5 (by decide) 1 1 5 5 = some fiveBytes := rfl
  exact drawable_iff hnew

theorem exists_not_drawable :
    ¬ ∀ (len : Nat) (hlen : len < 2 ^ 63) (width height pitch bpp : Nat) (c : Canvas),
      Canvas.new len hlen width height pitch bpp = some c → c.Drawable := by
  intro h
  have hdrawable := h 5 (by decide) 1 1 5 5 fiveBytes rfl
  exact absurd hdrawable.bpp_le (by decide)

end LionOS.Gfx.Canvas
