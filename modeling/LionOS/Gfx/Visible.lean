import LionOS.Gfx.Scene

/-!
# Drawing touches only visible pixels

Every drawing function comes down to `set_pixel`, which checks its coordinates. So whatever
arithmetic led to the coordinates, only bytes of visible cells change, and the only way to
stop the kernel is an overflow in that arithmetic.
-/

namespace LionOS.Gfx

open Lib

variable {c : Canvas} {b : Mem}

/-- The byte belongs to the cell of a pixel of the canvas. -/
def Canvas.Visible (c : Canvas) (i : Nat) : Prop :=
  ∃ x y, c.Shows x y ∧ c.offset x y ≤ i ∧ i < c.offset x y + c.bpp

/-- Only bytes of visible cells have changed. -/
def Canvas.Frame (c : Canvas) (b b' : Mem) : Prop := ∀ i, ¬ c.Visible i → b' i = b i

instance (c : Canvas) : IsPreorder Mem c.Frame where
  refl _ _ _ := rfl
  trans _ _ _ h h' i hi := (h' i hi).trans (h i hi)

/-- A drawing function changes only visible cells and stops the kernel, if at all, with an
overflow. -/
def Draws (c : Canvas) (b : Mem) (m : Except Panic Mem) : Prop :=
  Within c.Frame (· = Panic.overflow) b m

theorem Canvas.frame_plot (rgb : Nat) (b : Mem) (p : Nat × Nat) : c.Frame b (c.plot rgb b p) := by
  intro i hi
  rw [plot]
  split
  next h =>
    refine writeLE_of_outside _ _ ?_
    by_contra hin
    exact hi ⟨p.1, p.2, h, by omega, by omega⟩
  · rfl

theorem draws_usize {n : Nat} {f : Nat → Except Panic Mem} (h : ∀ k, Draws c b (f k)) :
    Draws c b (usize n >>= f) :=
  Within.value (fun _ => usize_error) fun k _ => h k

theorem draws_u32 {n : Nat} {f : Nat → Except Panic Mem} (h : ∀ k, Draws c b (f k)) :
    Draws c b (u32 n >>= f) :=
  Within.value (fun _ => u32_error) fun k _ => h k

section

variable (hbpp : c.bpp ≤ 4)
include hbpp

theorem draws_put (rgb : Nat) (b : Mem) (p : Nat × Nat) : Draws c b (c.put rgb b p) := by
  rw [Canvas.put_eq hbpp]
  exact Canvas.frame_plot rgb b p

theorem draws_fillRect (x y w h rgb : Nat) (b : Mem) : Draws c b (c.fillRect x y w h rgb b) :=
  Within.foldlM _ fun _ yy _ => Within.foldlM _ fun b xx _ => draws_put hbpp rgb b (xx, yy)

private theorem draws_drawGlyph (x y fg : Nat) (g : List UInt8) (b : Mem) :
    Draws c b (c.drawGlyph x y fg g b) := by
  refine Within.foldlM _ fun b row _ => Within.foldlM _ fun b col _ => ?_
  split
  · exact draws_usize fun px => draws_put hbpp fg b _
  · exact Within.pure

theorem draws_drawChars (y fg : Nat) (s : List Char) (x : Nat) (b : Mem) :
    Draws c b (c.drawChars y fg s x b) := by
  induction s generalizing x b with
  | nil => exact Within.pure
  | cons ch s ih =>
    rw [Canvas.drawChars]
    split
    · exact Within.pure
    · refine Within.bind (draws_drawGlyph hbpp x y fg (glyph ch) b) fun b => ?_
      exact draws_usize fun x => ih x b

/-- A blend returns and leaves everything but its cell. -/
theorem blendPixel_frame (x y fg alpha : Nat) (b : Mem) :
    ∃ done b', c.blendPixel x y fg alpha b = .ok (done, b') ∧ c.Frame b b' := by
  rw [Canvas.blendPixel]
  split
  · exact ⟨true, b, rfl, refl_of c.Frame b⟩
  by_cases h : c.Shows x y
  · rw [Canvas.readPixel_eq hbpp h]
    simp only [Canvas.setPixel_eq hbpp, bind, Except.bind]
    split
    · exact ⟨true, _, rfl, Canvas.frame_plot _ b _⟩
    · exact ⟨true, _, rfl, Canvas.frame_plot _ b _⟩
  · rw [Canvas.readPixel_of_not_shows h]
    exact ⟨false, b, rfl, refl_of c.Frame b⟩

end

/-- Counting supersamples can only overflow: a glyph has all its rows. -/
theorem coverage_error {g : List UInt8} (hg : g.length = glyphH) {fine ox oy : Nat} {e : Panic}
    (h : coverage g fine ox oy = .error e) : e = .overflow := by
  have hwithin : Within (· ≤ ·) (· = Panic.overflow) 0 (coverage g fine ox oy) := by
    refine Within.foldlM _ fun on sy _ => ?_
    refine Within.value (fun _ => usize_error) fun rows _ => ?_
    refine Within.value (fun _ => usize_error) fun fy _ => ?_
    dsimp only
    split
    · exact Within.pure
    next hrow =>
    rw [List.getElem?_eq_getElem (by omega)]
    refine Within.foldlM _ fun on sx _ => ?_
    refine Within.value (fun _ => usize_error) fun cols _ => ?_
    refine Within.value (fun _ => usize_error) fun fx _ => ?_
    split
    · exact Nat.le_succ on
    · exact Within.pure
  rw [h] at hwithin
  exact hwithin

section

variable (hbpp : c.bpp ≤ 4)
include hbpp

theorem draws_drawGlyphAa (x y fg fine ow oh : Nat) {g : List UInt8} (hg : g.length = glyphH)
    (b : Mem) : Draws c b (c.drawGlyphAa x y fg fine ow oh g b) := by
  refine Within.foldlM _ fun b oy _ => Within.foldlM _ fun b ox _ => ?_
  refine Within.value (fun _ => coverage_error hg) fun on _ => ?_
  refine draws_usize fun px => draws_usize fun py => ?_
  obtain ⟨done, b', heq, hframe⟩ := blendPixel_frame hbpp px py fg (on * 255 / (ss * ss)) b
  rw [heq]
  exact hframe

private theorem draws_drawCharsAa (y fg scale fine : Nat) (s : List Char) (x : Nat) (b : Mem) :
    Draws c b (c.drawCharsAa y fg scale fine s x b) := by
  induction s generalizing x b with
  | nil => exact Within.pure
  | cons ch s ih =>
    rw [Canvas.drawCharsAa]
    refine draws_usize fun ow => ?_
    split
    · exact Within.pure
    · refine draws_usize fun oh => ?_
      refine Within.bind (draws_drawGlyphAa hbpp x y fg fine ow oh (glyph_length ch) b) fun b => ?_
      exact draws_usize fun advance => draws_usize fun x => ih x b

theorem draws_drawTextAa (x y : Nat) (s : String) (fg scale : Nat) (b : Mem) :
    Draws c b (c.drawTextAa x y s fg scale b) := by
  rw [Canvas.drawTextAa]
  split
  · exact Within.pure
  · exact draws_usize fun fine => draws_drawCharsAa hbpp y fg scale fine s.toList x b

theorem draws_decorateWindow (w : Window) (title : String) (titleFg titleBg : Nat) (b : Mem) :
    Draws c b (decorateWindow c w title titleFg titleBg b) := by
  refine Within.bind (draws_fillRect hbpp ..) fun b => ?_
  refine draws_usize fun ty => draws_usize fun tx => ?_
  refine Within.bind (draws_drawTextAa hbpp ..) fun b => ?_
  refine Within.bind (draws_fillRect hbpp ..) fun b => ?_
  refine Within.bind (draws_fillRect hbpp ..) fun b => ?_
  refine Within.bind (draws_fillRect hbpp ..) fun b => ?_
  exact draws_fillRect hbpp ..

theorem draws_gradientFill (tick : Nat) (b : Mem) : Draws c b (gradientFill c tick b) :=
  Within.foldlM _ fun _ _ _ => draws_u32 fun _ => Within.foldlM _ fun b _ _ =>
    draws_put hbpp _ b _

theorem draws_wallpaperDrift (tick : Nat) (b : Mem) : Draws c b (wallpaperDrift c tick b) :=
  Within.foldlM _ fun _ _ _ => Within.foldlM _ fun b _ _ =>
    draws_u32 fun _ => draws_u32 fun _ => draws_put hbpp _ b _

theorem draws_drawDock (height bg accent : Nat) (b : Mem) :
    Draws c b (drawDock c height bg accent b) := by
  refine Within.bind (draws_fillRect hbpp ..) fun b => ?_
  refine Within.foldlM _ fun b i _ => ?_
  exact draws_usize fun x => draws_usize fun y => draws_fillRect hbpp ..

end

/-- A call of a drawing function with its arguments. -/
inductive Call where
  | setPixel (x y rgb : Nat)
  | fillRect (x y w h rgb : Nat)
  | clear (rgb : Nat)
  | blendPixel (x y fg alpha : Nat)
  | drawText (x y : Nat) (s : String) (fg : Nat)
  | drawTextAa (x y : Nat) (s : String) (fg scale : Nat)
  | paintScene (windows : List Window)
  | decorateWindow (w : Window) (title : String) (titleFg titleBg : Nat)
  | gradientFill (tick : Nat)
  | wallpaperDrift (tick : Nat)
  | drawDock (height bg accent : Nat)

/-- The buffer after a call. -/
def Call.draw (c : Canvas) (b : Mem) : Call → Except Panic Mem
  | .setPixel x y rgb => (·.2) <$> c.setPixel x y rgb b
  | .fillRect x y w h rgb => c.fillRect x y w h rgb b
  | .clear rgb => c.clear rgb b
  | .blendPixel x y fg alpha => (·.2) <$> c.blendPixel x y fg alpha b
  | .drawText x y s fg => c.drawText x y s fg b
  | .drawTextAa x y s fg scale => c.drawTextAa x y s fg scale b
  | .paintScene windows => Gfx.paintScene c windows b
  | .decorateWindow w title titleFg titleBg => Gfx.decorateWindow c w title titleFg titleBg b
  | .gradientFill tick => Gfx.gradientFill c tick b
  | .wallpaperDrift tick => Gfx.wallpaperDrift c tick b
  | .drawDock height bg accent => Gfx.drawDock c height bg accent b

theorem draws_call (hbpp : c.bpp ≤ 4) (b : Mem) (call : Call) : Draws c b (call.draw c b) := by
  cases call with
  | setPixel x y rgb =>
    rw [Call.draw, Canvas.setPixel_eq hbpp]
    exact Canvas.frame_plot rgb b (x, y)
  | fillRect x y w h rgb => exact draws_fillRect hbpp x y w h rgb b
  | clear rgb => exact draws_fillRect hbpp 0 0 c.width c.height rgb b
  | blendPixel x y fg alpha =>
    obtain ⟨done, b', heq, hframe⟩ := blendPixel_frame hbpp x y fg alpha b
    rw [Call.draw, heq]
    exact hframe
  | drawText x y s fg => exact draws_drawChars hbpp y fg s.toList x b
  | drawTextAa x y s fg scale => exact draws_drawTextAa hbpp x y s fg scale b
  | paintScene windows =>
    exact Within.foldlM _ fun b w _ => draws_fillRect hbpp w.x w.y w.w w.h w.color b
  | decorateWindow w title titleFg titleBg =>
    exact draws_decorateWindow hbpp w title titleFg titleBg b
  | gradientFill tick => exact draws_gradientFill hbpp tick b
  | wallpaperDrift tick => exact draws_wallpaperDrift hbpp tick b
  | drawDock height bg accent => exact draws_drawDock hbpp height bg accent b

/-- A visible byte lies in the plane and in front of its row's padding. -/
theorem Canvas.Visible.bounds {i : Nat} (h : c.Visible i) :
    i < c.height * c.pitch ∧ i % c.pitch < c.width * c.bpp := by
  obtain ⟨x, y, hshows, hlo, hhi⟩ := h
  have hplane := cell_le_plane hshows
  have hcell : x * c.bpp + c.bpp ≤ c.width * c.bpp := by
    rw [← Nat.succ_mul]
    exact Nat.mul_le_mul_right _ hshows.1
  have hrow := c.row_le
  refine ⟨by omega, ?_⟩
  rw [offset] at hlo hhi
  obtain ⟨k, rfl⟩ := Nat.exists_eq_add_of_le hlo
  have hi : y * c.pitch + x * c.bpp + k = x * c.bpp + k + c.pitch * y := by ring
  rw [hi, Nat.add_mul_mod_self_left, Nat.mod_eq_of_lt (by omega)]
  omega

/-- **Drawing touches only visible pixels.** For every geometry `Canvas::new` accepts with at
most four bytes per pixel and every sequence of calls with any arguments: if the calls
return, a byte that has changed belongs to the cell of a visible pixel, and row padding and
bytes past the plane are as they were; if they do not, it was for an overflow in their
arithmetic and not for a slice index out of range. -/
theorem calls_touch_visible {len width height pitch bpp : Nat} {hlen : len < 2 ^ 63}
    (hnew : Canvas.new len hlen width height pitch bpp = some c) (hbpp : bpp ≤ 4)
    (calls : List Call) (b : Mem) :
    match calls.foldlM (Call.draw c) b with
    | .ok b' =>
      (∀ i, b' i ≠ b i → ∃ x y, x < width ∧ y < height ∧ y * pitch + x * bpp ≤ i ∧
        i < y * pitch + x * bpp + bpp) ∧
      ∀ i, width * bpp ≤ i % pitch ∨ height * pitch ≤ i → b' i = b i
    | .error e => e = .overflow := by
  obtain ⟨-, rfl, rfl, rfl, rfl⟩ := Canvas.new_eq_some hnew
  have hdraws : Draws c b (calls.foldlM (Call.draw c) b) :=
    Within.foldlM _ fun b call _ => draws_call hbpp b call
  cases hrun : calls.foldlM (Call.draw c) b with
  | error e =>
    rw [hrun] at hdraws
    exact hdraws
  | ok b' =>
    rw [hrun] at hdraws
    refine ⟨fun i hi => ?_, fun i hi => hdraws i fun hvis => ?_⟩
    · obtain ⟨x, y, hshows, hlo, hhi⟩ := not_not.mp fun hvis => hi (hdraws i hvis)
      exact ⟨x, y, hshows.1, hshows.2, hlo, hhi⟩
    · have hbounds := hvis.bounds
      omega

/-- A title that runs off the canvas. -/
def titleCalls : List Call :=
  [.clear 0x101010, .decorateWindow ⟨1, 1, 9, 9, 0x112233⟩ "lion" 0xFFFFFF 0x303030]

theorem calls_touch_visible_title :
    match titleCalls.foldlM (Call.draw paddedCanvas) (fun _ => 0) with
    | .ok b' =>
      (∀ i, b' i ≠ 0 → ∃ x y, x < 4 ∧ y < 4 ∧ y * 16 + x * 3 ≤ i ∧ i < y * 16 + x * 3 + 3) ∧
      ∀ i, 4 * 3 ≤ i % 16 ∨ 4 * 16 ≤ i → b' i = 0
    | .error e => e = .overflow := by
  have hnew : Canvas.new 64 (by decide) 4 4 16 3 = some paddedCanvas := rfl
  exact calls_touch_visible hnew (by decide) titleCalls fun _ => 0

end LionOS.Gfx
