import LionOS.Gfx.Canvas
import LionOS.Lib.Blocks

/-!
# Cells

The cell of a visible pixel lies inside its row, so the cells of two pixels do not meet and
none reaches past the plane. With at most four bytes per pixel the primitives never stop
the kernel: they write the cell of a visible pixel and nothing for any other.
-/

namespace LionOS.Gfx.Canvas

open Lib

variable {c : Canvas} {x y x' y' rgb : Nat} {b : Mem}

/-- Where the cell of a pixel starts. -/
def offset (c : Canvas) (x y : Nat) : Nat := y * c.pitch + x * c.bpp

/-- The pixel is on the canvas. -/
def Shows (c : Canvas) (x y : Nat) : Prop := x < c.width ∧ y < c.height

instance (c : Canvas) (x y : Nat) : Decidable (c.Shows x y) :=
  inferInstanceAs (Decidable (x < c.width ∧ y < c.height))

theorem pitch_pos (c : Canvas) : 0 < c.pitch :=
  Nat.lt_of_lt_of_le (Nat.mul_pos c.width_pos c.bpp_pos) c.row_le

theorem width_lt (c : Canvas) : c.width < 2 ^ 63 := by
  have hwidth : c.width ≤ c.width * c.bpp := Nat.le_mul_of_pos_right _ c.bpp_pos
  have hrow := c.row_le
  have hpitch : c.pitch ≤ c.height * c.pitch := Nat.le_mul_of_pos_left _ c.height_pos
  have hfits := c.plane_le
  have hlen := c.len_lt
  omega

theorem height_lt (c : Canvas) : c.height < 2 ^ 63 := by
  have hheight : c.height ≤ c.height * c.pitch := Nat.le_mul_of_pos_right _ c.pitch_pos
  have hfits := c.plane_le
  have hlen := c.len_lt
  omega

/-- A cell ends inside its row. -/
theorem cell_le_pitch (hx : x < c.width) : x * c.bpp + c.bpp ≤ c.pitch :=
  calc
    x * c.bpp + c.bpp = (x + 1) * c.bpp := (Nat.succ_mul _ _).symm
    _ ≤ c.width * c.bpp := Nat.mul_le_mul_right _ hx
    _ ≤ c.pitch := c.row_le

/-- A row ends where a later one begins at the latest. -/
theorem row_le_of_lt (hy : y < y') : y * c.pitch + c.pitch ≤ y' * c.pitch := by
  rw [← Nat.succ_mul]
  exact Nat.mul_le_mul_right _ hy

/-- A cell ends inside the plane. -/
theorem cell_le_plane (h : c.Shows x y) : c.offset x y + c.bpp ≤ c.height * c.pitch := by
  have hcell := cell_le_pitch h.1
  have hrow := c.row_le_of_lt h.2
  rw [offset]
  omega

/-- The cells of two pixels do not meet. -/
theorem cells_apart (hx : x < c.width) (hx' : x' < c.width) (hne : (x, y) ≠ (x', y')) :
    c.offset x y + c.bpp ≤ c.offset x' y' ∨ c.offset x' y' + c.bpp ≤ c.offset x y :=
  grid_cells_apart c.row_le hx hx' hne

theorem pixelOffset_of_shows (h : c.Shows x y) :
    c.pixelOffset x y = .ok (some (c.offset x y)) := by
  have hplane := cell_le_plane h
  have hlen := c.len_lt
  have hfits := c.plane_le
  rw [offset] at hplane ⊢
  have hrow := usize_of_lt (n := y * c.pitch) (by omega)
  have hcol := usize_of_lt (n := x * c.bpp) (by omega)
  have hoff := usize_of_lt (n := y * c.pitch + x * c.bpp) (by omega)
  rw [pixelOffset, if_pos (show x < c.width ∧ y < c.height from h)]
  simp only [hrow, hcol, hoff, bind, Except.bind]

theorem pixelOffset_of_not_shows (h : ¬ c.Shows x y) : c.pixelOffset x y = .ok none := if_neg h

/-- The buffer after a pixel has been set. -/
def plot (c : Canvas) (rgb : Nat) (b : Mem) (p : Nat × Nat) : Mem :=
  if c.Shows p.1 p.2 then writeLE b (c.offset p.1 p.2) c.bpp rgb else b

/-- What `set_pixel` returns. -/
theorem setPixel_eq (hbpp : c.bpp ≤ 4) :
    c.setPixel x y rgb b = .ok (decide (c.Shows x y), c.plot rgb b (x, y)) := by
  rw [setPixel, plot]
  by_cases h : c.Shows x y
  · have hplane := cell_le_plane h
    have hlen := c.len_lt
    have hfits := c.plane_le
    rw [pixelOffset_of_shows h, if_pos h, decide_eq_true h]
    change (usize (c.offset x y + c.bpp) >>= _) = _
    rw [usize_of_lt (by omega)]
    exact if_pos ⟨by omega, hbpp⟩
  · rw [pixelOffset_of_not_shows h, if_neg h, decide_eq_false h]
    rfl

theorem put_eq (hbpp : c.bpp ≤ 4) (p : Nat × Nat) : c.put rgb b p = .ok (c.plot rgb b p) := by
  rw [put, setPixel_eq hbpp]
  rfl

/-- What `read_pixel` returns on the canvas. -/
theorem readPixel_eq (hbpp : c.bpp ≤ 4) (h : c.Shows x y) :
    c.readPixel x y b = .ok (some (readLE b (c.offset x y) c.bpp)) := by
  have hplane := cell_le_plane h
  have hlen := c.len_lt
  have hfits := c.plane_le
  rw [readPixel, pixelOffset_of_shows h]
  change (usize (c.offset x y + c.bpp) >>= _) = _
  rw [usize_of_lt (by omega)]
  exact if_pos ⟨hbpp, by omega⟩

theorem readPixel_of_not_shows (h : ¬ c.Shows x y) : c.readPixel x y b = .ok none := by
  rw [readPixel, pixelOffset_of_not_shows h]
  rfl

/-- A pixel can only be read on canvases whose pixels are not longer than a colour. -/
theorem bpp_le_of_readPixel {color : Option Nat} (h : c.Shows x y)
    (hread : c.readPixel x y b = .ok color) : c.bpp ≤ 4 := by
  rw [readPixel, pixelOffset_of_shows h] at hread
  obtain ⟨-, hread⟩ := lt_of_usize_bind hread
  by_contra hbpp
  rw [if_neg fun h => hbpp h.1] at hread
  cases hread

/-- The cell of a pixel after another, or the same, has been set. -/
theorem readLE_plot (h : c.Shows x y) (p : Nat × Nat) :
    readLE (c.plot rgb b p) (c.offset x y) c.bpp =
      if (x, y) = p then rgb % 256 ^ c.bpp else readLE b (c.offset x y) c.bpp := by
  obtain ⟨x', y'⟩ := p
  rw [plot]
  by_cases hne : (x, y) = (x', y')
  · obtain ⟨rfl, rfl⟩ := Prod.mk.inj hne
    rw [if_pos h, if_pos rfl, readLE_writeLE]
  · rw [if_neg hne]
    split
    next h' => exact readLE_writeLE_of_apart _ _ (cells_apart h.1 h'.1 hne)
    · rfl

/-- The cell of a pixel after a list of pixels has been set. -/
theorem readLE_foldl_plot (h : c.Shows x y) (ps : List (Nat × Nat)) :
    readLE (ps.foldl (c.plot rgb) b) (c.offset x y) c.bpp =
      if (x, y) ∈ ps then rgb % 256 ^ c.bpp else readLE b (c.offset x y) c.bpp := by
  induction ps generalizing b with
  | nil => simp
  | cons p ps ih =>
    rw [List.foldl_cons, ih, readLE_plot h]
    by_cases hps : (x, y) ∈ ps
    · rw [if_pos hps, if_pos (List.mem_cons_of_mem _ hps)]
    · rw [if_neg hps]
      by_cases hp : (x, y) = p
      · rw [if_pos hp, if_pos (hp ▸ List.mem_cons_self)]
      · rw [if_neg hp, if_neg (by simp [hp, hps])]

/-- The pixels of the rectangle `fill_rect` sets, row by row. -/
def rectPixels (c : Canvas) (x y w h : Nat) : List (Nat × Nat) :=
  (List.range' (min y c.height) (min (saturate (y + h)) c.height - min y c.height)).flatMap
    fun yy =>
      (List.range' (min x c.width) (min (saturate (x + w)) c.width - min x c.width)).map (·, yy)

theorem mem_rectPixels {w h px py : Nat} (hp : c.Shows px py) :
    (px, py) ∈ c.rectPixels x y w h ↔
      x ≤ px ∧ px < saturate (x + w) ∧ y ≤ py ∧ py < saturate (y + h) := by
  obtain ⟨hx, hy⟩ := hp
  simp only [rectPixels, List.mem_flatMap, List.mem_map, List.mem_range'_1, Prod.mk.injEq]
  constructor
  · rintro ⟨yy, hyy, xx, hxx, rfl, rfl⟩
    omega
  · intro h
    exact ⟨py, by omega, px, by omega, rfl, rfl⟩

/-- On the canvas the saturated rectangle is the rectangle. -/
theorem mem_rectPixels_iff {w h px py : Nat} (hp : c.Shows px py) :
    (px, py) ∈ c.rectPixels x y w h ↔ x ≤ px ∧ px < x + w ∧ y ≤ py ∧ py < y + h := by
  have hx := hp.1.trans c.width_lt
  have hy := hp.2.trans c.height_lt
  rw [mem_rectPixels hp, saturate, saturate]
  omega

/-- `fill_rect` sets the pixels of its rectangle. -/
theorem fillRect_eq (hbpp : c.bpp ≤ 4) (w h : Nat) :
    c.fillRect x y w h rgb b = .ok ((c.rectPixels x y w h).foldl (c.plot rgb) b) := by
  rw [rectPixels, List.foldl_flatMap]
  simp only [List.foldl_map]
  exact foldlM_eq_ok _ _ fun b yy _ => foldlM_eq_ok _ _ fun b xx _ => put_eq hbpp (xx, yy)

end LionOS.Gfx.Canvas
