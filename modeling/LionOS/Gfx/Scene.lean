import LionOS.Gfx.Pixels

/-!
# Windows, wallpapers and the dock

`paint_scene` fills the rectangles of a list of windows, the last one on top; `focus`
searches the list from its end for the window under the pointer. The two agree.
-/

namespace LionOS.Gfx

open Lib

/-- A rectangle to be composited. -/
structure Window where
  x : Nat
  y : Nat
  w : Nat
  h : Nat
  color : Nat
  deriving DecidableEq, Repr

/-- Is the pixel inside the window? The sums are formed only once the tests before them
have passed. -/
def Window.covers (w : Window) (px py : Nat) : Except Panic Bool :=
  if px < w.x then .ok false
  else do
    let right ← usize (w.x + w.w)
    if right ≤ px then .ok false
    else if py < w.y then .ok false
    else
      let bottom ← usize (w.y + w.h)
      .ok (decide (py < bottom))

/-- Composite the windows in list order. -/
def paintScene (c : Canvas) (windows : List Window) (b : Mem) : Except Panic Mem :=
  windows.foldlM (fun b w => c.fillRect w.x w.y w.w w.h w.color b) b

/-- The search of `focus` among the first `n` windows, from the top one down. -/
def focusFrom (windows : List Window) (mx my : Nat) : (n : Nat) → Except Panic (Option Nat)
  | 0 => .ok none
  | i + 1 =>
    match windows[i]? with
    | none => .error .index
    | some w => do
      if ← w.covers mx my then .ok (some i) else focusFrom windows mx my i

/-- The index of the topmost window under the pointer. -/
def focus (windows : List Window) (mx my : Nat) : Except Panic (Option Nat) :=
  focusFrom windows mx my windows.length

def titleBarH : Nat := 18

/-- Paint a window's title strip, title and border. -/
def decorateWindow (c : Canvas) (w : Window) (title : String) (titleFg titleBg : Nat) (b : Mem) :
    Except Panic Mem := do
  let stripH := min titleBarH w.h
  let b ← c.fillRect w.x w.y w.w stripH titleBg b
  let ty ← usize (w.y + (stripH - 2 * glyphH) / 2)
  let tx ← usize (w.x + 4)
  let b ← c.drawTextAa tx ty title titleFg 2 b
  let b ← c.fillRect w.x w.y w.w 1 w.color b
  let b ← c.fillRect w.x (saturate (w.y + w.h) - 1) w.w 1 w.color b
  let b ← c.fillRect w.x w.y 1 w.h w.color b
  c.fillRect (saturate (w.x + w.w) - 1) w.y 1 w.h w.color b

/-- The colour of a phase of the wallpapers. -/
def bandColor (phase : Nat) : Nat :=
  let red := 0x10 + (phase &&& 0x3F)
  let green := 0x20 + ((phase >>> 1) &&& 0x3F)
  let blue := 0x30 + ((phase >>> 2) &&& 0x3F)
  (red <<< 16) ||| (green <<< 8) ||| blue

/-- A vertical gradient; the row's number is cut to 32 bits. -/
def gradientFill (c : Canvas) (tick : Nat) (b : Mem) : Except Panic Mem :=
  (List.range c.height).foldlM
    (fun b y => do
      let sum ← u32 (y % 2 ^ 32 + tick)
      (List.range c.width).foldlM (fun b x => c.put (bandColor (sum &&& 0xFF)) b (x, y)) b) b

/-- A diagonal drifting wallpaper. -/
def wallpaperDrift (c : Canvas) (tick : Nat) (b : Mem) : Except Panic Mem :=
  (List.range c.height).foldlM
    (fun b y =>
      (List.range c.width).foldlM
        (fun b x => do
          let place ← u32 (y % 2 ^ 32 + x % 2 ^ 32)
          let sum ← u32 (place + tick)
          c.put (bandColor (sum &&& 0xFF)) b (x, y)) b) b

/-- The docked applications. -/
def apps : List String := ["explorer", "editor", "themex", "ai"]

def appCount : Nat := apps.length

/-- Paint the dock at the bottom of the canvas, with a block for each application. -/
def drawDock (c : Canvas) (height bg accent : Nat) (b : Mem) : Except Panic Mem := do
  let y0 := c.height - height
  let b ← c.fillRect 0 y0 c.width height bg b
  let step := c.width / max appCount 1
  (List.range appCount).foldlM
    (fun b i => do
      let x ← usize (i * step)
      let y ← usize (y0 + 2)
      c.fillRect x y (step - 2) (height - 4) accent b) b

variable {c : Canvas} {px py : Nat} {b : Mem}

/-- The right and bottom edge of the window fit a machine word. -/
def Window.Fits (w : Window) : Prop := w.x + w.w < 2 ^ 64 ∧ w.y + w.h < 2 ^ 64

/-- A pixel of the canvas is covered if and only if filling the window sets it. -/
theorem Window.covers_eq {w : Window} (hw : w.Fits) (hp : c.Shows px py) :
    w.covers px py = .ok (decide ((px, py) ∈ c.rectPixels w.x w.y w.w w.h)) := by
  have hmem := Canvas.mem_rectPixels (x := w.x) (y := w.y) (w := w.w) (h := w.h) hp
  have hx : saturate (w.x + w.w) = w.x + w.w := Nat.min_eq_left (Nat.le_sub_one_of_lt hw.1)
  have hy : saturate (w.y + w.h) = w.y + w.h := Nat.min_eq_left (Nat.le_sub_one_of_lt hw.2)
  rw [hx, hy] at hmem
  simp only [covers, usize_of_lt hw.1, usize_of_lt hw.2, bind, Except.bind, hmem]
  split
  · simp only [Except.ok.injEq, Bool.false_eq, decide_eq_false_iff_not]
    omega
  split
  · simp only [Except.ok.injEq, Bool.false_eq, decide_eq_false_iff_not]
    omega
  split
  · simp only [Except.ok.injEq, Bool.false_eq, decide_eq_false_iff_not]
    omega
  · simp only [Except.ok.injEq, decide_eq_decide]
    omega

/-- The buffer after the windows have been painted. -/
def painted (c : Canvas) (windows : List Window) (b : Mem) : Mem :=
  windows.foldl (fun b w => (c.rectPixels w.x w.y w.w w.h).foldl (c.plot w.color) b) b

theorem paintScene_eq (hbpp : c.bpp ≤ 4) (windows : List Window) :
    paintScene c windows b = .ok (painted c windows b) :=
  foldlM_eq_ok _ _ fun _ w _ => Canvas.fillRect_eq hbpp w.w w.h

/-- The cell of a pixel after the first `n` windows, by what the search among them finds. -/
private theorem focusFrom_painted {windows : List Window} (hws : ∀ w ∈ windows, w.Fits)
    (hp : c.Shows px py) {n : Nat} (hn : n ≤ windows.length) :
    ∃ r, focusFrom windows px py n = .ok r ∧
      match r with
      | some i => ∃ w, windows[i]? = some w ∧
          readLE (painted c (windows.take n) b) (c.offset px py) c.bpp = w.color % 256 ^ c.bpp
      | none => readLE (painted c (windows.take n) b) (c.offset px py) c.bpp =
          readLE b (c.offset px py) c.bpp := by
  induction n with
  | zero => exact ⟨none, rfl, rfl⟩
  | succ n ih =>
    have hget : windows[n]? = some windows[n] := List.getElem?_eq_getElem hn
    have hlast : painted c (windows.take (n + 1)) b =
        (c.rectPixels windows[n].x windows[n].y windows[n].w windows[n].h).foldl
          (c.plot windows[n].color) (painted c (windows.take n) b) := by
      rw [List.take_add_one, hget, painted, List.foldl_append]
      rfl
    rw [hlast, Canvas.readLE_foldl_plot hp, focusFrom, hget]
    simp only [Window.covers_eq (hws _ (List.getElem_mem hn)) hp, bind, Except.bind,
      decide_eq_true_eq]
    split
    next hmem => exact ⟨some n, rfl, windows[n], hget, rfl⟩
    next hmem => exact ih (Nat.le_of_succ_le hn)

/-- **What is painted on top is what gets focus.** On every canvas with at most four bytes
per pixel, for windows whose edges fit a machine word and every pixel of the canvas: the
scene is painted, the search returns, and the pixel has the colour of the window it found,
or its old one if it found none. -/
theorem readPixel_paintScene {len width height pitch bpp : Nat} {hlen : len < 2 ^ 63}
    (hnew : Canvas.new len hlen width height pitch bpp = some c) (hbpp : bpp ≤ 4)
    {windows : List Window}
    (hws : ∀ w ∈ windows, w.x + w.w < 2 ^ 64 ∧ w.y + w.h < 2 ^ 64)
    (b : Mem) (hx : px < width) (hy : py < height) :
    ∃ b' r, paintScene c windows b = .ok b' ∧ focus windows px py = .ok r ∧
      match r with
      | some i => ∃ w, windows[i]? = some w ∧
          c.readPixel px py b' = .ok (some (w.color % 256 ^ bpp))
      | none => c.readPixel px py b' = c.readPixel px py b := by
  obtain ⟨-, rfl, rfl, -, rfl⟩ := Canvas.new_eq_some hnew
  have hp : c.Shows px py := ⟨hx, hy⟩
  obtain ⟨r, hfocus, hcell⟩ := focusFrom_painted (b := b) hws hp le_rfl
  rw [List.take_length] at hcell
  refine ⟨_, r, paintScene_eq hbpp windows, hfocus, ?_⟩
  cases r with
  | none => simp only [Canvas.readPixel_eq hbpp hp, hcell]
  | some i =>
    obtain ⟨w, hget, hcolor⟩ := hcell
    exact ⟨w, hget, by rw [Canvas.readPixel_eq hbpp hp, hcolor]⟩

/-- A canvas of four by four pixels with padded rows. -/
def paddedCanvas : Canvas where
  len := 64
  width := 4
  height := 4
  pitch := 16
  bpp := 3
  bpp_pos := by decide
  width_pos := by decide
  height_pos := by decide
  row_le := by decide
  plane_le := by decide
  len_lt := by decide

/-- Two windows that overlap. -/
def overlapping : List Window := [⟨0, 0, 2, 2, 0x112233⟩, ⟨1, 1, 9, 9, 0xFF445566⟩]

theorem readPixel_paintScene_overlapping :
    ∃ b' r, paintScene paddedCanvas overlapping (fun _ => 0) = .ok b' ∧
      focus overlapping 1 1 = .ok r ∧
      match r with
      | some i => ∃ w, overlapping[i]? = some w ∧
          paddedCanvas.readPixel 1 1 b' = .ok (some (w.color % 256 ^ 3))
      | none => paddedCanvas.readPixel 1 1 b' = paddedCanvas.readPixel 1 1 (fun _ => 0) := by
  have hnew : Canvas.new 64 (by decide) 4 4 16 3 = some paddedCanvas := rfl
  exact readPixel_paintScene hnew (by decide) (by decide) _ (by decide) (by decide)

/-! ## Windows that reach past the last address

`fill_rect` saturates the sums that `covers` forms plainly.
-/

/-- Filling the window sets the pixel. -/
def Fills (c : Canvas) (w : Window) (px py : Nat) : Prop :=
  ∀ color b, ∃ b', c.fillRect w.x w.y w.w w.h color b = .ok b' ∧
    c.readPixel px py b' = .ok (some (color % 256 ^ c.bpp))

/-- Hit-testing returns and finds what filling sets. -/
def HitTestAgrees (c : Canvas) (w : Window) (px py : Nat) : Prop :=
  ∃ hit, w.covers px py = .ok hit ∧ (hit = true ↔ Fills c w px py)

/-- The pixel is in the window. -/
def Window.Contains (w : Window) (px py : Nat) : Prop :=
  w.x ≤ px ∧ px < w.x + w.w ∧ w.y ≤ py ∧ py < w.y + w.h

/-- The sums that `covers` comes to form for the pixel fit a machine word. -/
def Window.SumsFit (w : Window) (px py : Nat) : Prop :=
  px < w.x ∨ w.x + w.w < 2 ^ 64 ∧ (w.x + w.w ≤ px ∨ py < w.y ∨ w.y + w.h < 2 ^ 64)

theorem Window.covers_ok {w : Window} {hit : Bool} (h : w.covers px py = .ok hit) :
    w.SumsFit px py ∧ (hit = true ↔ w.Contains px py) := by
  unfold covers at h
  unfold SumsFit Contains
  by_cases hleft : px < w.x
  · rw [if_pos hleft] at h
    obtain rfl := Except.ok.inj h
    exact ⟨.inl hleft, Bool.noConfusion, fun hin => by omega⟩
  rw [if_neg hleft] at h
  obtain ⟨hright, h⟩ := lt_of_usize_bind h
  by_cases hout : w.x + w.w ≤ px
  · rw [if_pos hout] at h
    obtain rfl := Except.ok.inj h
    exact ⟨.inr ⟨hright, .inl hout⟩, Bool.noConfusion, fun hin => by omega⟩
  rw [if_neg hout] at h
  by_cases habove : py < w.y
  · rw [if_pos habove] at h
    obtain rfl := Except.ok.inj h
    exact ⟨.inr ⟨hright, .inr (.inl habove)⟩, Bool.noConfusion, fun hin => by omega⟩
  rw [if_neg habove] at h
  obtain ⟨hbottom, h⟩ := lt_of_usize_bind h
  obtain rfl := Except.ok.inj h
  rw [decide_eq_true_iff]
  exact ⟨.inr ⟨hright, .inr (.inr hbottom)⟩, by omega, by omega⟩

theorem Window.covers_of_sumsFit {w : Window} (h : w.SumsFit px py) :
    ∃ hit, w.covers px py = .ok hit := by
  unfold covers
  by_cases hleft : px < w.x
  · exact ⟨_, if_pos hleft⟩
  obtain ⟨hright, hrest⟩ := h.resolve_left hleft
  rw [if_neg hleft, usize_of_lt hright]
  simp only [bind, Except.bind]
  by_cases hout : w.x + w.w ≤ px
  · exact ⟨_, if_pos hout⟩
  rw [if_neg hout]
  by_cases habove : py < w.y
  · exact ⟨_, if_pos habove⟩
  rw [if_neg habove, usize_of_lt ((hrest.resolve_left hout).resolve_left habove)]
  exact ⟨_, rfl⟩

theorem fills_iff (hp : c.Shows px py) (w : Window) :
    Fills c w px py ↔ c.bpp ≤ 4 ∧ w.Contains px py := by
  constructor
  · intro h
    obtain ⟨b', hfill, hread⟩ := h 1 (fun _ => 0)
    have hbpp : c.bpp ≤ 4 := Canvas.bpp_le_of_readPixel hp hread
    refine ⟨hbpp, ?_⟩
    rw [Canvas.fillRect_eq hbpp] at hfill
    obtain rfl := Except.ok.inj hfill
    rw [Canvas.readPixel_eq hbpp hp, Canvas.readLE_foldl_plot hp, readLE_zero] at hread
    rw [Window.Contains, ← Canvas.mem_rectPixels_iff hp]
    by_contra hout
    rw [if_neg hout] at hread
    have hone : 1 < 256 ^ c.bpp := Nat.one_lt_pow c.bpp_pos.ne' (by decide)
    have hzero := Option.some.inj (Except.ok.inj hread)
    rw [Nat.mod_eq_of_lt hone] at hzero
    exact Nat.zero_ne_one hzero
  · rintro ⟨hbpp, hin⟩ color b
    refine ⟨_, Canvas.fillRect_eq hbpp _ _, ?_⟩
    rw [Canvas.readPixel_eq hbpp hp, Canvas.readLE_foldl_plot hp,
      if_pos ((Canvas.mem_rectPixels_iff hp).mpr hin)]

theorem HitTestAgrees.sumsFit {w : Window} (h : HitTestAgrees c w px py) : w.SumsFit px py := by
  obtain ⟨hit, hcovers, -⟩ := h
  exact (Window.covers_ok hcovers).1

/-- Hit-testing and filling agree on a pixel exactly if the sums that the test comes to form
fit a machine word, and the canvas can be drawn on where the window is. -/
theorem hitTestAgrees_iff (hp : c.Shows px py) (w : Window) :
    HitTestAgrees c w px py ↔
      (px < w.x ∨ w.x + w.w < 2 ^ 64 ∧ (w.x + w.w ≤ px ∨ py < w.y ∨ w.y + w.h < 2 ^ 64)) ∧
        (c.bpp ≤ 4 ∨ ¬ w.Contains px py) := by
  constructor
  · intro h
    refine ⟨h.sumsFit, ?_⟩
    obtain ⟨hit, hcovers, hiff⟩ := h
    rw [(Window.covers_ok hcovers).2, fills_iff hp] at hiff
    tauto
  · rintro ⟨hfit, hbpp⟩
    obtain ⟨hit, hcovers⟩ := Window.covers_of_sumsFit hfit
    refine ⟨hit, hcovers, ?_⟩
    rw [(Window.covers_ok hcovers).2, fills_iff hp]
    tauto

theorem hitTestAgrees_iff_overlapping :
    HitTestAgrees paddedCanvas ⟨1, 1, 9, 9, 0⟩ 2 3 ↔
      (2 < 1 ∨ 1 + 9 < 2 ^ 64 ∧ (1 + 9 ≤ 2 ∨ 3 < 1 ∨ 1 + 9 < 2 ^ 64)) ∧
        (paddedCanvas.bpp ≤ 4 ∨ ¬ Window.Contains ⟨1, 1, 9, 9, 0⟩ 2 3) :=
  hitTestAgrees_iff (by decide) ⟨1, 1, 9, 9, 0⟩

/-- A window from the second column to the end of the address space. -/
theorem exists_hitTest_disagrees :
    ¬ ∀ (c : Canvas) (w : Window) (px py : Nat), c.Shows px py → HitTestAgrees c w px py := by
  intro h
  have hfit := (h paddedCanvas ⟨1, 0, 2 ^ 64 - 1, 1, 0⟩ 1 0 (by decide)).sumsFit
  rcases hfit with hleft | ⟨hright, -⟩
  · exact absurd hleft (by decide)
  · exact absurd hright (by decide)

end LionOS.Gfx
