import LionOS.Gfx.ScaledText

/-!
# Window chrome

`decorate_window` paints a title strip, the title and four borders. The strip is as high as the
window at most, but a border is one pixel thick even where the window has none, and the title is
cut at the edge of the canvas only.
-/

namespace LionOS.Gfx

open Lib Canvas

variable {c : Canvas} {w : Window} {title : String} {b : Mem} {px py : Nat}

/-- The row of the title. -/
def Window.titleRow (w : Window) : Nat := w.y + (min titleBarH w.h - 2 * glyphH) / 2

/-- No sum of coordinates overflows while the window is decorated. -/
structure ChromeFits (c : Canvas) (w : Window) (title : String) : Prop where
  right_lt : w.x + w.w < 2 ^ 64
  bottom_lt : w.y + w.h < 2 ^ 64
  title_lt : w.x + 4 < 2 ^ 64
  text : c.TextFits (w.x + 4) w.titleRow 2 title.toList

/-- The dots of the title. -/
def titleDots (c : Canvas) (w : Window) (title : String) : List (Nat × Nat) :=
  textDots c.width 2 w.titleRow title.toList (w.x + 4)

/-- The pixels of the four borders, in the order they are painted. -/
def borderPixels (c : Canvas) (w : Window) : List (Nat × Nat) :=
  c.rectPixels w.x w.y w.w 1 ++ c.rectPixels w.x (saturate (w.y + w.h) - 1) w.w 1 ++
    c.rectPixels w.x w.y 1 w.h ++ c.rectPixels (saturate (w.x + w.w) - 1) w.y 1 w.h

/-- `decorate_window` sets the pixels of the strip, the dots of the title and the borders. -/
theorem decorateWindow_eq (hbpp : c.bpp ≤ 4) (hfits : ChromeFits c w title)
    (titleFg titleBg : Nat) (b : Mem) :
    decorateWindow c w title titleFg titleBg b =
      .ok ((borderPixels c w).foldl (c.plot w.color)
        ((titleDots c w title).foldl (c.plot titleFg)
          ((c.rectPixels w.x w.y w.w (min titleBarH w.h)).foldl (c.plot titleBg) b))) := by
  have hrow : usize (w.y + (min titleBarH w.h - 2 * glyphH) / 2) = .ok w.titleRow := by
    have hbottom := hfits.bottom_lt
    exact usize_of_lt (by omega)
  have htext := drawTextAa_eq (c := c) (b := (c.rectPixels w.x w.y w.w (min titleBarH w.h)).foldl
    (c.plot titleBg) b) Nat.two_pos hfits.text titleFg
  rw [foldlM_put_eq hbpp] at htext
  simp only [decorateWindow, fillRect_eq hbpp, bind, Except.bind, hrow,
    usize_of_lt hfits.title_lt, htext, titleDots, borderPixels, List.foldl_append]

/-- The first and last rows and columns, or the one before the first where there is none. -/
theorem mem_borderPixels (hp : c.Shows px py) (hfits : ChromeFits c w title) :
    (px, py) ∈ borderPixels c w ↔
      (w.x ≤ px ∧ px < w.x + w.w ∧ (py = w.y ∨ py = w.y + w.h - 1)) ∨
      (w.y ≤ py ∧ py < w.y + w.h ∧ (px = w.x ∨ px = w.x + w.w - 1)) := by
  have hright : saturate (w.x + w.w) = w.x + w.w :=
    Nat.min_eq_left (Nat.le_sub_one_of_lt hfits.right_lt)
  have hbottom : saturate (w.y + w.h) = w.y + w.h :=
    Nat.min_eq_left (Nat.le_sub_one_of_lt hfits.bottom_lt)
  simp only [borderPixels, List.mem_append, mem_rectPixels_iff hp, hright, hbottom]
  constructor
  · rintro (((hedge | hedge) | hedge) | hedge)
    all_goals omega
  · rintro (⟨hlo, hhi, rfl | rfl⟩ | ⟨hlo, hhi, rfl | rfl⟩)
    all_goals omega

theorem mem_strip (hp : c.Shows px py)
    (h : (px, py) ∈ c.rectPixels w.x w.y w.w (min titleBarH w.h)) : w.Contains px py := by
  rw [mem_rectPixels_iff hp] at h
  unfold Window.Contains
  omega

/-- The title begins in the window. -/
theorem le_of_mem_titleDots (h : (px, py) ∈ titleDots c w title) : w.x ≤ px ∧ w.y ≤ py := by
  obtain ⟨k, ch, ox, oy, -, -, -, -, -, rfl, rfl⟩ := mem_textDots.mp h
  unfold Window.titleRow
  omega

/-- What the chrome promises: in whatever colours it is painted, no pixel outside the window
changes. -/
def StaysInBox (c : Canvas) (w : Window) (title : String) : Prop :=
  ∀ color titleFg titleBg b, ∃ b',
    decorateWindow c { w with color := color } title titleFg titleBg b = .ok b' ∧
    ∀ px py, ¬ w.Contains px py → c.readPixel px py b' = c.readPixel px py b

/-- The borders and the title stay in the window. -/
def ChromeInBox (c : Canvas) (w : Window) (title : String) : Prop :=
  ∀ px py, c.Shows px py → (px, py) ∈ titleDots c w title ++ borderPixels c w → w.Contains px py

theorem stays_of_chromeInBox (hbpp : c.bpp ≤ 4) (hfits : ChromeFits c w title)
    (h : ChromeInBox c w title) : StaysInBox c w title := by
  intro color titleFg titleBg b
  have hfits' : ChromeFits c { w with color := color } title :=
    ⟨hfits.right_lt, hfits.bottom_lt, hfits.title_lt, hfits.text⟩
  refine ⟨_, decorateWindow_eq hbpp hfits' titleFg titleBg b, fun px py hout => ?_⟩
  by_cases hp : c.Shows px py
  · have hnot : (px, py) ∉ titleDots c w title ++ borderPixels c w := fun hmem =>
      hout (h px py hp hmem)
    rw [List.mem_append, not_or] at hnot
    have hstrip : (px, py) ∉ c.rectPixels w.x w.y w.w (min titleBarH w.h) := fun hmem =>
      hout (mem_strip hp hmem)
    rw [readPixel_eq hbpp hp, readPixel_eq hbpp hp, readLE_foldl_plot hp, if_neg (by exact hnot.2),
      readLE_foldl_plot hp, if_neg (by exact hnot.1), readLE_foldl_plot hp, if_neg hstrip]
  · rw [readPixel_of_not_shows hp, readPixel_of_not_shows hp]

/-- Black chrome on a white canvas shows wherever it is painted. -/
theorem StaysInBox.chromeInBox (hbpp : c.bpp ≤ 4) (hfits : ChromeFits c w title)
    (h : StaysInBox c w title) : ChromeInBox c w title := by
  intro px py hp hmem
  by_contra hout
  have hfits' : ChromeFits c { w with color := 0 } title :=
    ⟨hfits.right_lt, hfits.bottom_lt, hfits.title_lt, hfits.text⟩
  obtain ⟨b', hdraw, hsame⟩ := h 0 0 0 (fun _ => 255)
  rw [decorateWindow_eq hbpp hfits'] at hdraw
  obtain rfl := Except.ok.inj hdraw
  have hpixel := hsame px py hout
  rw [readPixel_eq hbpp hp, readPixel_eq hbpp hp, ← List.foldl_append, readLE_foldl_plot hp,
    if_pos (by exact hmem), Nat.zero_mod] at hpixel
  have hwhite : 0 < readLE (fun _ => 255) (c.offset px py) c.bpp := by
    obtain ⟨n, hn⟩ := Nat.exists_eq_succ_of_ne_zero c.bpp_pos.ne'
    rw [hn, readLE]
    exact Nat.add_pos_left (by decide) _
  have hzero := Option.some.inj (Except.ok.inj hpixel)
  omega

/-- The borders stay in the window if it is empty in both directions or in none, or they are off
the canvas, and the title does where its dots on the canvas do. -/
theorem chromeInBox_iff (hfits : ChromeFits c w title) :
    ChromeInBox c w title ↔
      (0 < w.h ∨ w.w = 0 ∨ c.width ≤ w.x ∨ c.height < w.y) ∧
      (0 < w.w ∨ w.h = 0 ∨ c.height ≤ w.y ∨ c.width < w.x) ∧
      ∀ px py, c.Shows px py → Inked c.width (w.x + 4) w.titleRow 2 title.toList px py →
        px < w.x + w.w ∧ py < w.y + w.h := by
  have hwidth := c.width_pos
  have hheight := c.height_pos
  constructor
  · intro h
    refine ⟨?_, ?_, fun px py hp hin => ?_⟩
    · by_contra hno
      have hp : c.Shows w.x (w.y - 1) := ⟨by omega, by omega⟩
      have hin := h _ _ hp (List.mem_append_right _ ((mem_borderPixels hp hfits).mpr (by omega)))
      unfold Window.Contains at hin
      omega
    · by_contra hno
      have hp : c.Shows (w.x - 1) w.y := ⟨by omega, by omega⟩
      have hin := h _ _ hp (List.mem_append_right _ ((mem_borderPixels hp hfits).mpr (by omega)))
      unfold Window.Contains at hin
      omega
    · obtain ⟨-, hx, -, hy⟩ := h px py hp (List.mem_append_left _ (mem_textDots.mpr hin))
      exact ⟨hx, hy⟩
  · rintro ⟨hrows, hcols, htext⟩ px py hp hmem
    rcases List.mem_append.mp hmem with htitle | hborder
    · have hlow := le_of_mem_titleDots htitle
      have hhigh := htext px py hp (mem_textDots.mp htitle)
      exact ⟨hlow.1, hhigh.1, hlow.2, hhigh.2⟩
    · have hx := hp.1
      have hy := hp.2
      rw [mem_borderPixels hp hfits] at hborder
      unfold Window.Contains
      omega

/-- Every marked cell of a character of the title that is drawn, two pixels wide and high, ends
in the window, except for what is below the canvas. -/
def TitleInBox (c : Canvas) (w : Window) (title : String) : Prop :=
  ∀ k ch row col, title.toList[k]? = some ch → (∀ j ≤ k, w.x + 4 + 12 * j + 10 ≤ c.width) →
    row < glyphH → col < glyphW → glyphBit (glyph ch) row col = true →
    w.titleRow + 2 * row < c.height →
    4 + 12 * k + 2 * col + 2 ≤ w.w ∧ min (w.titleRow + 2 * row + 2) c.height ≤ w.y + w.h

private theorem titleInBox_iff :
    TitleInBox c w title ↔ ∀ px py, c.Shows px py →
      Inked c.width (w.x + 4) w.titleRow 2 title.toList px py →
      px < w.x + w.w ∧ py < w.y + w.h := by
  constructor
  · rintro h px py hp ⟨k, ch, ox, oy, hget, hroom, hox, hoy, hbit, rfl, rfl⟩
    have hy := hp.2
    simp only [glyphW, glyphH] at hox hoy hroom ⊢
    have hcell := h k ch (oy / 2) (ox / 2) hget (fun j hj => hroom j hj)
      (by simp only [glyphH]; omega) (by simp only [glyphW]; omega) hbit (by omega)
    omega
  · intro h k ch row col hget hroom hrow hcol hbit hshown
    have hwidth := hroom k le_rfl
    simp only [glyphW, glyphH] at hrow hcol
    -- The last column of the cell, in its first row and in its second.
    have hdot : ∀ i < 2, w.titleRow + (2 * row + i) < c.height →
        w.x + 4 + 12 * k + (2 * col + 1) < w.x + w.w ∧
          w.titleRow + (2 * row + i) < w.y + w.h := by
      intro i hi hheight
      refine h _ _ ⟨by omega, hheight⟩ ⟨k, ch, 2 * col + 1, 2 * row + i, hget, fun j hj => ?_,
        ?_, ?_, ?_, ?_, rfl⟩
      · exact hroom j hj
      · simp only [glyphW]
        omega
      · simp only [glyphH]
        omega
      · have hrowDiv : (2 * row + i) / 2 = row := by omega
        have hcolDiv : (2 * col + 1) / 2 = col := by omega
        rwa [hrowDiv, hcolDiv]
      · simp only [glyphW]
    have hfirst := hdot 0 (by decide) (by omega)
    by_cases hrows : w.titleRow + (2 * row + 1) < c.height
    · have hsecond := hdot 1 (by decide) hrows
      omega
    · omega

/-- Window chrome stays in its box exactly if the window is empty in both directions or in
none, or the border that sticks out is off the canvas, and the cells of the title that are on the
canvas are in the box. -/
theorem staysInBox_iff (hbpp : c.bpp ≤ 4) (hfits : ChromeFits c w title) :
    StaysInBox c w title ↔
      (0 < w.h ∨ w.w = 0 ∨ c.width ≤ w.x ∨ c.height < w.y) ∧
      (0 < w.w ∨ w.h = 0 ∨ c.height ≤ w.y ∨ c.width < w.x) ∧ TitleInBox c w title := by
  rw [titleInBox_iff, ← chromeInBox_iff hfits]
  exact ⟨StaysInBox.chromeInBox hbpp hfits, stays_of_chromeInBox hbpp hfits⟩

/-- A canvas of one row with room for a letter of the title. -/
def titleCanvas : Canvas := pixelRow 20 1 (Nat.succ_pos 19) Nat.one_pos (by decide)

theorem staysInBox_iff_letter :
    StaysInBox titleCanvas ⟨0, 0, 16, 1, 0⟩ "A" ↔
      (0 < 1 ∨ 16 = 0 ∨ titleCanvas.width ≤ 0 ∨ titleCanvas.height < 0) ∧
      (0 < 16 ∨ 1 = 0 ∨ titleCanvas.height ≤ 0 ∨ titleCanvas.width < 0) ∧
      TitleInBox titleCanvas ⟨0, 0, 16, 1, 0⟩ "A" := by
  refine staysInBox_iff (w := ⟨0, 0, 16, 1, 0⟩) (by decide) ⟨by decide, by decide, by decide, ?_⟩
  exact ⟨by decide, fun _ => ⟨by decide, fun _ => by decide⟩⟩

/-- A window without rows: its horizontal borders are painted all the same. -/
theorem exists_not_staysInBox :
    ¬ ∀ (c : Canvas) (w : Window) (title : String), c.bpp ≤ 4 → ChromeFits c w title →
      StaysInBox c w title := by
  intro h
  have hfits : ChromeFits titleCanvas ⟨0, 0, 4, 0, 0⟩ "" :=
    ⟨by decide, by decide, by decide, by decide, fun hne => absurd rfl hne⟩
  have hstays := h titleCanvas ⟨0, 0, 4, 0, 0⟩ "" (by decide) hfits
  have hrows := ((chromeInBox_iff hfits).mp (hstays.chromeInBox (by decide) hfits)).1
  exact absurd hrows (by decide)

end LionOS.Gfx
