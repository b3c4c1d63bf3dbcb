import LionOS.Gfx.Drawable

/-!
# Scaled text

`draw_text_aa` counts marked points of a grid three times as fine as the output, and blends
by the count. A cell of the glyph is a whole number of output pixels wide, so the nine points
of a pixel lie in one cell: the count is nine or nothing, and the text is the text of
`draw_text` with every dot a square.
-/

namespace LionOS.Gfx

open Lib

/-- The glyph is marked there. -/
def glyphBit (g : List UInt8) (row col : Nat) : Bool :=
  decide (g.getD row 0 &&& (1 <<< UInt8.ofNat col) ≠ 0)

variable {c : Canvas} {b : Mem} {g : List UInt8} {x y fg scale : Nat} {s : List Char}

/-- The points of a pixel lie in the cell of the pixel's corner. -/
theorem supersample_cell {o i : Nat} (hi : i < ss) : (o * ss + i) / (ss * scale) = o / scale := by
  rw [← Nat.div_div_eq_div_mul, Nat.mul_comm o ss, Nat.mul_add_div (by decide),
    Nat.div_eq_of_lt hi, Nat.add_zero]

/-- All nine points of a pixel are marked, or none is. -/
theorem coverage_eq (hg : g.length = glyphH) (hscale : 21 * scale ≤ 2 ^ 64) {ox oy : Nat}
    (hox : ox < scale * glyphW) (hoy : oy < scale * glyphH) :
    coverage g (ss * scale) ox oy =
      .ok (if glyphBit g (oy / scale) (ox / scale) then ss * ss else 0) := by
  have hpos : 0 < scale := Nat.pos_of_ne_zero fun hzero => by
    rw [hzero, Nat.zero_mul] at hox
    exact Nat.not_lt_zero _ hox
  have hrow : oy / scale < glyphH := by
    rw [Nat.div_lt_iff_lt_mul hpos, Nat.mul_comm]
    exact hoy
  have hcol : ox / scale < glyphW := by
    rw [Nat.div_lt_iff_lt_mul hpos, Nat.mul_comm]
    exact hox
  have hmask : g[oy / scale]? = some (g.getD (oy / scale) 0) := by
    rw [List.getD_eq_getElem _ _ (by omega), List.getElem?_eq_getElem]
  simp only [glyphW, glyphH] at hox hoy
  have hcells : ∀ i ∈ List.range ss, (oy * ss + i) / (ss * scale) = oy / scale ∧
      (ox * ss + i) / (ss * scale) = ox / scale := fun i hi =>
    ⟨supersample_cell (List.mem_range.mp hi), supersample_cell (List.mem_range.mp hi)⟩
  have hfits : ∀ i ∈ List.range ss, oy * ss + i < 2 ^ 64 ∧ ox * ss + i < 2 ^ 64 := by
    intro i hi
    have hi := List.mem_range.mp hi
    simp only [ss] at hi ⊢
    omega
  refine (foldlM_eq_ok
    (g := fun on _ => if glyphBit g (oy / scale) (ox / scale) then on + ss else on)
    _ _ fun on sy hsy => ?_).trans ?_
  · obtain ⟨hfy, -⟩ := hfits sy hsy
    rw [usize_of_lt (by omega)]
    simp only [bind, Except.bind]
    rw [usize_of_lt hfy]
    simp only [(hcells sy hsy).1, if_neg (Nat.not_le.mpr hrow), hmask]
    refine (foldlM_eq_ok
      (g := fun on _ => if glyphBit g (oy / scale) (ox / scale) then on + 1 else on)
      _ _ fun on sx hsx => ?_).trans ?_
    · obtain ⟨-, hfx⟩ := hfits sx hsx
      rw [usize_of_lt (by omega)]
      dsimp only
      rw [usize_of_lt hfx]
      simp only [(hcells sx hsx).2, hcol, true_and, glyphBit, decide_eq_true_eq]
      split <;> rfl
    · cases glyphBit g (oy / scale) (ox / scale) <;> rfl
  · cases glyphBit g (oy / scale) (ox / scale) <;> rfl

/-- The dots of a glyph whose cells are `scale` pixels wide and high, row by row. -/
def glyphDots (g : List UInt8) (scale : Nat) : List (Nat × Nat) :=
  (List.range (scale * glyphH)).flatMap fun oy =>
    ((List.range (scale * glyphW)).filter fun ox => glyphBit g (oy / scale) (ox / scale)).map
      (·, oy)

/-- The dots of a text from column `x` on, up to the first character that would pass the right
edge of a surface of that width. -/
def textDots (width scale y : Nat) : (s : List Char) → (x : Nat) → List (Nat × Nat)
  | [], _ => []
  | ch :: s, x =>
    if width < x + scale * glyphW then []
    else (glyphDots (glyph ch) scale).map (fun p => (x + p.1, y + p.2)) ++
      textDots width scale y s (x + scale * (glyphW + 1))

theorem mem_glyphDots {p : Nat × Nat} :
    p ∈ glyphDots g scale ↔ p.1 < scale * glyphW ∧ p.2 < scale * glyphH ∧
      glyphBit g (p.2 / scale) (p.1 / scale) = true := by
  simp only [glyphDots, List.mem_flatMap, List.mem_map, List.mem_filter, List.mem_range]
  constructor
  · rintro ⟨oy, hoy, ox, ⟨hox, hbit⟩, rfl⟩
    exact ⟨hox, hoy, hbit⟩
  · rintro ⟨hox, hoy, hbit⟩
    exact ⟨p.2, hoy, p.1, ⟨hox, hbit⟩, rfl⟩

/-- The pixel belongs to a marked cell of one of the characters, none of which up to it passes
the right edge. -/
def Inked (width x y scale : Nat) (s : List Char) (px py : Nat) : Prop :=
  ∃ k ch ox oy, s[k]? = some ch ∧
    (∀ j ≤ k, x + scale * (glyphW + 1) * j + scale * glyphW ≤ width) ∧
    ox < scale * glyphW ∧ oy < scale * glyphH ∧
    glyphBit (glyph ch) (oy / scale) (ox / scale) = true ∧
    px = x + scale * (glyphW + 1) * k + ox ∧ py = y + oy

theorem mem_textDots {width px py : Nat} :
    (px, py) ∈ textDots width scale y s x ↔ Inked width x y scale s px py := by
  unfold Inked
  induction s generalizing x with
  | nil => simp [textDots]
  | cons ch s ih =>
    rw [textDots]
    split
    next hpast =>
      simp only [List.not_mem_nil, false_iff]
      rintro ⟨k, ch', ox, oy, -, hstop, -⟩
      have hfirst := hstop 0 (Nat.zero_le k)
      omega
    next hroom =>
      rw [List.mem_append, ih]
      constructor
      · rintro (hfirst | ⟨k, ch', ox, oy, hget, hstop, hox, hoy, hbit, rfl, rfl⟩)
        · obtain ⟨p, hp, heq⟩ := List.mem_map.mp hfirst
          obtain ⟨hox, hoy, hbit⟩ := mem_glyphDots.mp hp
          obtain ⟨rfl, rfl⟩ := Prod.mk.inj heq
          refine ⟨0, ch, p.1, p.2, rfl, fun j hj => ?_, hox, hoy, hbit, by omega, rfl⟩
          obtain rfl : j = 0 := by omega
          omega
        · refine ⟨k + 1, ch', ox, oy, hget, fun j hj => ?_, hox, hoy, hbit, ?_, rfl⟩
          · cases j with
            | zero => omega
            | succ j =>
              have hnext := hstop j (by omega)
              rw [Nat.mul_succ (scale * (glyphW + 1))]
              omega
          · rw [Nat.mul_succ (scale * (glyphW + 1))]
            omega
      · rintro ⟨k, ch', ox, oy, hget, hstop, hox, hoy, hbit, rfl, rfl⟩
        cases k with
        | zero =>
          obtain rfl := Option.some.inj hget
          exact .inl (List.mem_map.mpr
            ⟨(ox, oy), mem_glyphDots.mpr ⟨hox, hoy, hbit⟩, by rw [Nat.mul_zero, Nat.add_zero]⟩)
        | succ k =>
          refine .inr ⟨k, ch', ox, oy, hget, fun j hj => ?_, hox, hoy, hbit, ?_, rfl⟩
          · have hnext := hstop (j + 1) (by omega)
            rw [Nat.mul_succ (scale * (glyphW + 1))] at hnext
            omega
          · rw [Nat.mul_succ (scale * (glyphW + 1))]
            omega

/-- The rows of a glyph by their numbers. -/
theorem zipIdx_eq_map_range (g : List UInt8) :
    g.zipIdx = (List.range g.length).map fun i => (g.getD i 0, i) := by
  refine List.ext_getElem (by simp) fun i hi hi' => ?_
  have hlt : i < g.length := by simpa using hi
  simp [hlt]

namespace Canvas

/-- A dot below the last address that a saturated sum stands for is on no canvas. -/
theorem put_saturate (c : Canvas) (fg : Nat) (b : Mem) (px py : Nat) :
    c.put fg b (px, saturate py) = c.put fg b (px, py) := by
  by_cases hpy : py < 2 ^ 64
  · rw [saturate, Nat.min_eq_left (by omega)]
  · have hheight := c.height_lt
    have hbelow : ¬ c.Shows px py := fun h => by
      have hy := h.2
      omega
    have hbelow' : ¬ c.Shows px (saturate py) := fun h => by
      have hy := h.2
      rw [saturate] at hy
      omega
    rw [put, put, setPixel, setPixel, pixelOffset_of_not_shows hbelow,
      pixelOffset_of_not_shows hbelow']

/-- Blending with everything is setting. -/
private theorem blendPixel_opaque (c : Canvas) (x y fg : Nat) (b : Mem) :
    (do
      let (_, b) ← c.blendPixel x y fg 255 b
      .ok b) = c.put fg b (x, y) := by
  rw [blendPixel, if_neg (by decide), put]
  by_cases h : c.Shows x y
  · by_cases hbpp : c.bpp ≤ 4
    · rw [readPixel_eq hbpp h, setPixel_eq hbpp]
      simp only [bind, Except.bind, if_pos (le_refl 255), setPixel_eq hbpp]
    · rw [readPixel_error hbpp h, setPixel_error hbpp h]
      rfl
  · rw [readPixel_of_not_shows h, setPixel, pixelOffset_of_not_shows h]
    rfl

/-- A scaled glyph sets its dots. -/
theorem drawGlyphAa_eq (c : Canvas) (hg : g.length = glyphH) (hscale : 21 * scale ≤ 2 ^ 64)
    (hx : x + scale * glyphW ≤ 2 ^ 64) (hy : y + scale * glyphH ≤ 2 ^ 64) (fg : Nat) (b : Mem) :
    c.drawGlyphAa x y fg (ss * scale) (scale * glyphW) (scale * glyphH) g b =
      ((glyphDots g scale).map fun p => (x + p.1, y + p.2)).foldlM (c.put fg) b := by
  rw [glyphDots, List.map_flatMap, foldlM_flatMap]
  simp only [List.map_map, List.foldlM_map, List.foldlM_filter]
  refine foldlM_congr_mem _ _ fun b oy hoy => foldlM_congr_mem _ _ fun b ox hox => ?_
  have hoy := List.mem_range.mp hoy
  have hox := List.mem_range.mp hox
  rw [coverage_eq hg hscale hox hoy]
  have hpx : usize (x + ox) = .ok (x + ox) := usize_of_lt (by omega)
  have hpy : usize (y + oy) = .ok (y + oy) := usize_of_lt (by omega)
  cases glyphBit g (oy / scale) (ox / scale)
  · simp only [bind, Except.bind, hpx, hpy]
    rfl
  · have hopaque := blendPixel_opaque c (x + ox) (y + oy) fg b
    have halpha : ss * ss * 255 / (ss * ss) = 255 := rfl
    simp only [bind, Except.bind, hpx, hpy, if_true, halpha] at hopaque ⊢
    exact hopaque

/-- No coordinate of the text overflows: the cells of a glyph and their supersamples fit a
machine word, and so does the bottom of the first character, if there is room for one. -/
def TextFits (c : Canvas) (x y scale : Nat) (s : List Char) : Prop :=
  ss * scale < 2 ^ 64 ∧ (s ≠ [] → scale * glyphW < 2 ^ 64 ∧
    (x + scale * glyphW ≤ c.width → 21 * scale ≤ 2 ^ 64 ∧ y + scale * glyphH ≤ 2 ^ 64))

/-- The saturated sum passes the right edge exactly if the sum does. -/
theorem width_lt_saturate (c : Canvas) (n : Nat) : c.width < saturate n ↔ c.width < n := by
  have hwidth := c.width_lt
  rw [saturate]
  omega

private theorem drawCharsAa_eq (hfits : c.TextFits x y scale s) (fg : Nat) (b : Mem) :
    c.drawCharsAa y fg scale (ss * scale) s x b =
      (textDots c.width scale y s x).foldlM (c.put fg) b := by
  induction s generalizing x b with
  | nil => rfl
  | cons ch s ih =>
    obtain ⟨hfine, hfits⟩ := hfits
    obtain ⟨how, hroom⟩ := hfits (List.cons_ne_nil ch s)
    rw [drawCharsAa, textDots, usize_of_lt how]
    simp only [bind, Except.bind, width_lt_saturate]
    split
    · rfl
    next hstop =>
      obtain ⟨hscale, hy⟩ := hroom (Nat.le_of_not_lt hstop)
      have hwidth := c.width_lt
      have hoh : scale * glyphH < 2 ^ 64 := by
        simp only [glyphH]
        omega
      have hadvance : scale * (glyphW + 1) < 2 ^ 64 := by
        simp only [glyphW]
        omega
      have hx : x + scale * (glyphW + 1) < 2 ^ 64 := by
        simp only [glyphW] at hstop ⊢
        omega
      have hrest : c.TextFits (x + scale * (glyphW + 1)) y scale s :=
        ⟨hfine, fun _ => ⟨how, fun _ => ⟨hscale, hy⟩⟩⟩
      simp only [usize_of_lt hoh, usize_of_lt hadvance, usize_of_lt hx, List.foldlM_append,
        drawGlyphAa_eq c (glyph_length ch) hscale (x := x) (by omega) hy, ih hrest]
      rfl

/-- `draw_text_aa` sets the dots of the text. -/
theorem drawTextAa_eq (hscale : 0 < scale) {t : String} (hfits : c.TextFits x y scale t.toList)
    (fg : Nat) (b : Mem) :
    c.drawTextAa x y t fg scale b =
      (textDots c.width scale y t.toList x).foldlM (c.put fg) b := by
  rw [drawTextAa, if_neg hscale.ne', usize_of_lt hfits.1]
  exact drawCharsAa_eq hfits fg b

/-- A glyph sets its dots. -/
private theorem drawGlyph_eq (c : Canvas) (hg : g.length = glyphH) (hx : x + glyphW ≤ 2 ^ 64)
    (fg : Nat) (b : Mem) :
    c.drawGlyph x y fg g b =
      ((glyphDots g 1).map fun p => (x + p.1, y + p.2)).foldlM (c.put fg) b := by
  rw [drawGlyph, zipIdx_eq_map_range, hg, glyphDots, List.map_flatMap, foldlM_flatMap,
    List.foldlM_map]
  simp only [List.map_map, List.foldlM_map, List.foldlM_filter, Nat.one_mul, Nat.div_one]
  refine foldlM_congr_mem _ _ fun b oy hoy => foldlM_congr_mem _ _ fun b ox hox => ?_
  have hox := List.mem_range.mp hox
  simp only [glyphBit, decide_eq_true_eq]
  split
  · rw [usize_of_lt (n := x + ox) (by omega)]
    exact put_saturate c fg b (x + ox) (y + oy)
  · rfl

private theorem drawChars_eq (c : Canvas) (s : List Char) (x y fg : Nat) (b : Mem) :
    c.drawChars y fg s x b = (textDots c.width 1 y s x).foldlM (c.put fg) b := by
  induction s generalizing x b with
  | nil => rfl
  | cons ch s ih =>
    rw [drawChars, textDots]
    simp only [width_lt_saturate, Nat.one_mul]
    split
    · rfl
    next hstop =>
      have hwidth := c.width_lt
      have hx : x + (glyphW + 1) < 2 ^ 64 := by
        simp only [glyphW] at hstop ⊢
        omega
      rw [drawGlyph_eq c (glyph_length ch) (by omega), List.foldlM_append]
      simp only [bind, Except.bind, usize_of_lt hx, ih]

/-- `draw_text` sets the dots of the text, wherever it is placed. -/
theorem drawText_eq (c : Canvas) (t : String) (x y fg : Nat) (b : Mem) :
    c.drawText x y t fg b = (textDots c.width 1 y t.toList x).foldlM (c.put fg) b :=
  drawChars_eq c t.toList x y fg b

/-- Setting dots never fails with at most four bytes per pixel. -/
theorem foldlM_put_eq (hbpp : c.bpp ≤ 4) (ps : List (Nat × Nat)) (fg : Nat) (b : Mem) :
    ps.foldlM (c.put fg) b = .ok (ps.foldl (c.plot fg) b) :=
  foldlM_eq_ok ps b fun _ p _ => put_eq hbpp p

private theorem le_of_coverage {fine ox oy on : Nat} (h : coverage g fine ox oy = .ok on) :
    oy * ss + 2 < 2 ^ 64 := by
  obtain ⟨s', s'', hturn⟩ := foldlM_turn_ok (a := 2) h (by decide)
  obtain ⟨-, hturn⟩ := lt_of_usize_bind hturn
  exact (lt_of_usize_bind hturn).1

/-- Text is drawn only if no coordinate overflows. -/
theorem TextFits.of_drawTextAa {t : String} {b' : Mem} (hscale : 0 < scale)
    (h : c.drawTextAa x y t fg scale b = .ok b') : c.TextFits x y scale t.toList := by
  rw [drawTextAa, if_neg hscale.ne'] at h
  obtain ⟨hfine, h⟩ := lt_of_usize_bind h
  refine ⟨hfine, fun hne => ?_⟩
  obtain ⟨ch, s, hs⟩ := List.exists_cons_of_ne_nil hne
  rw [hs, drawCharsAa] at h
  obtain ⟨how, h⟩ := lt_of_usize_bind h
  refine ⟨how, fun hroom => ?_⟩
  rw [if_neg (by rw [width_lt_saturate]; omega)] at h
  obtain ⟨-, h⟩ := lt_of_usize_bind h
  cases hglyph : c.drawGlyphAa x y fg (ss * scale) (scale * glyphW) (scale * glyphH) (glyph ch) b
  all_goals rw [hglyph] at h
  · cases h
  · -- The last row of the first character has the greatest coordinates.
    have hlast : scale * glyphH - 1 ∈ List.range (scale * glyphH) := by
      rw [List.mem_range, glyphH]
      omega
    have hfirst : 0 ∈ List.range (scale * glyphW) := by
      rw [List.mem_range, glyphW]
      omega
    obtain ⟨s', s'', hrow⟩ := foldlM_turn_ok hglyph hlast
    obtain ⟨s', s'', hdot⟩ := foldlM_turn_ok hrow hfirst
    cases hcoverage : coverage (glyph ch) (ss * scale) 0 (scale * glyphH - 1)
    all_goals rw [hcoverage] at hdot
    · cases hdot
    · have hss := le_of_coverage hcoverage
      obtain ⟨-, hdot⟩ := lt_of_usize_bind hdot
      obtain ⟨hy, -⟩ := lt_of_usize_bind hdot
      simp only [ss, glyphH] at hss hy ⊢
      omega

/-- Only the cells of the pixels that are set change. -/
private theorem foldl_plot_of_outside (ps : List (Nat × Nat)) {i : Nat}
    (h : ∀ p ∈ ps, c.Shows p.1 p.2 → i < c.offset p.1 p.2 ∨ c.offset p.1 p.2 + c.bpp ≤ i) :
    ps.foldl (c.plot fg) b i = b i := by
  induction ps generalizing b with
  | nil => rfl
  | cons p ps ih =>
    rw [List.foldl_cons, ih fun q hq => h q (List.mem_cons_of_mem _ hq), plot]
    split
    next hp => exact writeLE_of_outside b fg (h p List.mem_cons_self hp)
    · rfl

/-- The anti-aliased text is the scaled text: as long as no coordinate overflows, exactly the
pixels of marked cells are set, to the colour of the text, and nothing else changes. At scale
one it is the text of `draw_text`. -/
theorem drawTextAa_sets_inked (hbpp : c.bpp ≤ 4) (hscale : 0 < scale) (t : String)
    (hfits : c.TextFits x y scale t.toList) (fg : Nat) (b : Mem) :
    ∃ b', c.drawTextAa x y t fg scale b = .ok b' ∧
      (∀ px py, c.Shows px py → Inked c.width x y scale t.toList px py →
        c.readPixel px py b' = .ok (some (fg % 256 ^ c.bpp))) ∧
      (∀ px py, ¬ Inked c.width x y scale t.toList px py →
        c.readPixel px py b' = c.readPixel px py b) ∧
      (∀ i, (∀ px py, c.Shows px py → Inked c.width x y scale t.toList px py →
        i < c.offset px py ∨ c.offset px py + c.bpp ≤ i) → b' i = b i) ∧
      (scale = 1 → c.drawText x y t fg b = .ok b') := by
  refine ⟨_, (drawTextAa_eq hscale hfits fg b).trans (foldlM_put_eq hbpp _ fg b),
    fun px py hp hin => ?_, fun px py hout => ?_, fun i hi => ?_, fun hone => ?_⟩
  · rw [readPixel_eq hbpp hp, readLE_foldl_plot hp, if_pos (mem_textDots.mpr hin)]
  · by_cases hp : c.Shows px py
    · rw [readPixel_eq hbpp hp, readPixel_eq hbpp hp, readLE_foldl_plot hp,
        if_neg fun hmem => hout (mem_textDots.mp hmem)]
    · rw [readPixel_of_not_shows hp, readPixel_of_not_shows hp]
  · exact foldl_plot_of_outside _ fun p hp hshows => hi p.1 p.2 hshows (mem_textDots.mp hp)
  · rw [hone, drawText_eq, foldlM_put_eq hbpp]

/-- A letter on a canvas of six pixels. -/
theorem drawTextAa_sets_inked_letter :
    ∃ b', (pixelRow 6 3 (by decide) (by decide) (by decide)).drawTextAa 0 0 "A" 0x123456 1
        (fun _ => 0) = .ok b' ∧
      (pixelRow 6 3 (by decide) (by decide) (by decide)).drawText 0 0 "A" 0x123456
        (fun _ => 0) = .ok b' := by
  obtain ⟨b', haa, -, -, -, htext⟩ := drawTextAa_sets_inked (x := 0) (y := 0)
    (c := pixelRow 6 3 (by decide) (by decide) (by decide)) (by decide) Nat.one_pos "A"
    ⟨by decide, fun _ => ⟨by decide, fun _ => by decide⟩⟩ 0x123456 (fun _ => 0)
  exact ⟨b', haa, htext rfl⟩

end Canvas

end LionOS.Gfx
