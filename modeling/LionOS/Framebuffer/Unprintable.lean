import LionOS.Framebuffer.Text
import LionOS.Gfx.ScaledText
import LionOS.Lib.Painting

/-!
# Characters without a glyph

A character outside the printable ASCII range is to be drawn as a question mark. The table
lookup cuts the character to its low byte first, so one whose low byte is printable is drawn
as that. What a text looks like is decided by the dots of its characters that are on the
surface: two glyphs that differ only below the last row leave the same bytes.
-/

namespace LionOS.Gfx

open Lib

/-- The character has a glyph. -/
def Printable (ch : Char) : Prop := 0x20 ≤ ch.toNat ∧ ch.toNat ≤ 0x7E

instance (ch : Char) : Decidable (Printable ch) :=
  inferInstanceAs (Decidable (0x20 ≤ ch.toNat ∧ ch.toNat ≤ 0x7E))

/-- The character, or a question mark if it has no glyph. -/
def questionMark (ch : Char) : Char := if Printable ch then ch else '?'

/-- The row of the glyph that the table has for a byte. -/
def tableBit (byte row col : Nat) : Bool := glyphBit (font5x7.getD (byte - first) []) row col

/-- The low byte of the character is not printable, or its glyph has the dots of a question mark
in the rows that satisfy `p`. -/
def LooksUnknown (p : Nat → Prop) (ch : Char) : Prop :=
  0x20 ≤ ch.toNat % 256 → ch.toNat % 256 ≤ 0x7E → ∀ row < glyphH, p row → ∀ col < glyphW,
    tableBit (ch.toNat % 256) row col = tableBit 0x3F row col

/-- Every character that is drawn and has no glyph looks like a question mark in the rows that
are above `height`. -/
def LooksReplaced (width height x y scale : Nat) (s : List Char) : Prop :=
  ∀ k ch, s[k]? = some ch →
    (∀ j ≤ k, x + scale * (glyphW + 1) * j + scale * glyphW ≤ width) →
    ¬ Printable ch → LooksUnknown (fun row => y + row * scale < height) ch

variable {width height x y scale px py : Nat} {s : List Char} {ch : Char}

/-- The lookup as it is made: by the low byte. -/
theorem looksUnknown_iff {p : Nat → Prop} :
    LooksUnknown p ch ↔ ∀ row < glyphH, p row → ∀ col < glyphW,
      glyphBit (glyph ch) row col = glyphBit (glyph '?') row col := by
  have hrange : ch.toNat % 256 < first ∨ first + glyphCount ≤ ch.toNat % 256 ↔
      ¬ (0x20 ≤ ch.toNat % 256 ∧ ch.toNat % 256 ≤ 0x7E) := by
    simp only [first, glyphCount]
    omega
  by_cases hlow : 0x20 ≤ ch.toNat % 256 ∧ ch.toNat % 256 ≤ 0x7E
  · have hglyph : glyph ch = font5x7.getD (ch.toNat % 256 - first) [] := by
      unfold glyph
      exact if_neg fun h => hrange.mp h hlow
    rw [hglyph]
    exact ⟨fun h => h hlow.1 hlow.2, fun h _ _ => h⟩
  · have hglyph : glyph ch = glyph '?' := by
      unfold glyph
      exact if_pos (hrange.mpr hlow)
    rw [hglyph]
    exact ⟨fun _ _ _ _ _ _ => rfl, fun _ hlo hhi => absurd ⟨hlo, hhi⟩ hlow⟩

theorem mul_scale_lt (hscale : 0 < scale) {k n : Nat} (h : k < n) : k * scale < scale * n := by
  rw [Nat.mul_comm]
  exact Nat.mul_lt_mul_of_pos_left h hscale

/-- The first pixel of a cell of the `k`th character is inked exactly if the cell is marked. -/
private theorem inked_iff_glyphBit (hscale : 0 < scale) {k row col : Nat} (hget : s[k]? = some ch)
    (hroom : ∀ j ≤ k, x + scale * (glyphW + 1) * j + scale * glyphW ≤ width)
    (hrow : row < glyphH) (hcol : col < glyphW) :
    Inked width x y scale s (x + scale * (glyphW + 1) * k + col * scale) (y + row * scale) ↔
      glyphBit (glyph ch) row col = true := by
  constructor
  · rintro ⟨k', ch', ox, oy, hget', -, hox, hoy, hbit, hpx, hpy⟩
    have hcell := mul_scale_lt hscale hcol
    have hpitch : scale * glyphW ≤ scale * (glyphW + 1) := Nat.mul_le_mul_left _ (Nat.le_succ _)
    have hpos : 0 < scale * (glyphW + 1) := Nat.mul_pos hscale (Nat.succ_pos _)
    have hk : k = k' := by
      have hleft := Nat.mul_add_div hpos k (col * scale)
      have hright := Nat.mul_add_div hpos k' ox
      rw [Nat.div_eq_of_lt (Nat.lt_of_lt_of_le hcell hpitch)] at hleft
      rw [Nat.div_eq_of_lt (Nat.lt_of_lt_of_le hox hpitch)] at hright
      have hsum : scale * (glyphW + 1) * k + col * scale = scale * (glyphW + 1) * k' + ox := by
        omega
      rw [hsum] at hleft
      omega
    subst hk
    obtain rfl := Option.some.inj (hget.symm.trans hget')
    obtain rfl : ox = col * scale := by omega
    obtain rfl : oy = row * scale := by omega
    rwa [Nat.mul_div_cancel _ hscale, Nat.mul_div_cancel _ hscale] at hbit
  · intro hbit
    refine ⟨k, ch, col * scale, row * scale, hget, hroom, mul_scale_lt hscale hcol,
      mul_scale_lt hscale hrow, ?_, rfl, rfl⟩
    rwa [Nat.mul_div_cancel _ hscale, Nat.mul_div_cancel _ hscale]

/-- The two texts have the same dots on a surface exactly if what is replaced looks as its
replacement there. -/
theorem looksReplaced_iff (hscale : 0 < scale) :
    LooksReplaced width height x y scale s ↔ ∀ px py, px < width → py < height →
      (Inked width x y scale s px py ↔ Inked width x y scale (s.map questionMark) px py) := by
  constructor
  · intro h px py hpx hpy
    have hcells : ∀ ch k ox oy, s[k]? = some ch →
        (∀ j ≤ k, x + scale * (glyphW + 1) * j + scale * glyphW ≤ width) →
        ox < scale * glyphW → oy < scale * glyphH → y + oy < height →
        glyphBit (glyph ch) (oy / scale) (ox / scale) =
          glyphBit (glyph (questionMark ch)) (oy / scale) (ox / scale) := by
      intro ch k ox oy hget hroom hox hoy hpy
      unfold questionMark
      split
      · rfl
      next hunprintable =>
        have hdiv := Nat.div_mul_le_self oy scale
        refine looksUnknown_iff.mp (h k ch hget hroom hunprintable) _ ?_ (by omega) _ ?_
        · rwa [Nat.div_lt_iff_lt_mul hscale, Nat.mul_comm]
        · rwa [Nat.div_lt_iff_lt_mul hscale, Nat.mul_comm]
    constructor
    · rintro ⟨k, ch, ox, oy, hget, hroom, hox, hoy, hbit, rfl, rfl⟩
      refine ⟨k, questionMark ch, ox, oy, ?_, hroom, hox, hoy, ?_, rfl, rfl⟩
      · rw [List.getElem?_map, hget, Option.map_some]
      · rwa [← hcells ch k ox oy hget hroom hox hoy hpy]
    · rintro ⟨k, ch', ox, oy, hget', hroom, hox, hoy, hbit, rfl, rfl⟩
      rw [List.getElem?_map, Option.map_eq_some_iff] at hget'
      obtain ⟨ch, hget, rfl⟩ := hget'
      refine ⟨k, ch, ox, oy, hget, hroom, hox, hoy, ?_, rfl, rfl⟩
      rwa [hcells ch k ox oy hget hroom hox hoy hpy]
  · intro h k ch hget hroom hunprintable
    rw [looksUnknown_iff]
    intro row hrow hheight col hcol
    have hget' : (s.map questionMark)[k]? = some '?' := by
      rw [List.getElem?_map, hget, Option.map_some, questionMark, if_neg hunprintable]
    have hwidth := hroom k le_rfl
    have hcell := mul_scale_lt hscale hcol
    have hsame := h (x + scale * (glyphW + 1) * k + col * scale) (y + row * scale) (by omega)
      hheight
    rw [inked_iff_glyphBit hscale hget hroom hrow hcol,
      inked_iff_glyphBit hscale hget' hroom hrow hcol] at hsame
    exact Bool.eq_iff_iff.mpr hsame

namespace Canvas

variable {c : Canvas}

/-- The pixels of a canvas and their cells. -/
def surface (c : Canvas) : Surface (Nat × Nat) Nat where
  visible p := c.Shows p.1 p.2
  cell p i := c.offset p.1 p.2 ≤ i ∧ i < c.offset p.1 p.2 + c.bpp
  value fg p i := UInt8.ofNat (fg / 256 ^ (i - c.offset p.1 p.2))
  apart p q i hp hq hpi hqi := by
    by_contra hne
    have hcells := cells_apart hp.1 hq.1 hne
    omega
  nonempty p _ := ⟨c.offset p.1 p.2, le_rfl, Nat.lt_add_of_pos_right c.bpp_pos⟩

/-- The primitives paint on it; a visible pixel longer than a colour cannot be painted. -/
private theorem paints_put (c : Canvas) :
    c.surface.Paints (fun p => ¬ c.bpp ≤ 4 ∧ c.Shows p.1 p.2) c.put c.plot where
  inside fg m p i hp hcell := by
    rw [plot, if_pos (show c.Shows p.1 p.2 from hp)]
    exact if_pos hcell
  outside fg m p i hout := by
    rw [plot]
    split
    next hp => exact if_neg fun hcell => hout ⟨hp, hcell⟩
    · rfl
  bad_error fg m p hbad := by
    rw [put, setPixel_error hbad.1 hbad.2]
    exact ⟨_, rfl⟩
  ok_of_not_bad fg m p hok := by
    by_cases hp : c.Shows p.1 p.2
    · have hbpp : c.bpp ≤ 4 := by
        by_contra hbpp
        exact hok ⟨hbpp, hp⟩
      exact put_eq hbpp p
    · rw [put, setPixel, pixelOffset_of_not_shows hp, plot, if_neg hp]
      rfl

/-- The dots of two texts are painted alike exactly if the texts have the same dots on the
canvas, or, where no pixel can be painted, both have a dot there or none has one. -/
theorem sameResult_textDots_iff (hscale : 0 < scale) :
    (∀ fg b, Surface.SameResult ((textDots c.width scale y s x).foldlM (c.put fg) b)
        ((textDots c.width scale y (s.map questionMark) x).foldlM (c.put fg) b)) ↔
      (c.bpp ≤ 4 ∧ LooksReplaced c.width c.height x y scale s) ∨
      (4 < c.bpp ∧ ((∃ px py, c.Shows px py ∧ Inked c.width x y scale s px py) ↔
        ∃ px py, c.Shows px py ∧ Inked c.width x y scale (s.map questionMark) px py)) := by
  rw [c.paints_put.sameResult_iff, looksReplaced_iff hscale]
  have hexists : ∀ t, (∃ p ∈ textDots c.width scale y t x, c.Shows p.1 p.2) ↔
      ∃ px py, c.Shows px py ∧ Inked c.width x y scale t px py := fun t =>
    ⟨fun ⟨p, hp, hshows⟩ => ⟨p.1, p.2, hshows, mem_textDots.mp hp⟩,
      fun ⟨px, py, hshows, hin⟩ => ⟨(px, py), mem_textDots.mpr hin, hshows⟩⟩
  have hvisible : (∀ p, c.surface.visible p → (p ∈ textDots c.width scale y s x ↔
        p ∈ textDots c.width scale y (s.map questionMark) x)) ↔
      ∀ px py, px < c.width → py < c.height → (Inked c.width x y scale s px py ↔
        Inked c.width x y scale (s.map questionMark) px py) := by
    constructor
    · intro h px py hpx hpy
      rw [← mem_textDots, ← mem_textDots]
      exact h (px, py) ⟨hpx, hpy⟩
    · rintro h ⟨px, py⟩ ⟨hpx, hpy⟩
      rw [mem_textDots, mem_textDots]
      exact h px py hpx hpy
  rw [hvisible]
  by_cases hbpp : c.bpp ≤ 4
  · simp [hbpp, Nat.not_lt.mpr hbpp]
  · simp only [hbpp, not_false_eq_true, true_and, false_and, false_or, Nat.lt_of_not_le hbpp,
      hexists]
    constructor
    · rintro (⟨hs, hs'⟩ | ⟨hs, hs', -⟩)
      · exact ⟨fun _ => hs', fun _ => hs⟩
      · exact ⟨fun h => absurd ((hexists _).mpr h) fun ⟨p, hp, hshows⟩ => hs p hp hshows,
          fun h => absurd ((hexists _).mpr h) fun ⟨p, hp, hshows⟩ => hs' p hp hshows⟩
    · intro hboth
      by_cases hs : ∃ px py, c.Shows px py ∧ Inked c.width x y scale s px py
      · exact .inl ⟨hs, hboth.mp hs⟩
      · have hs' := fun h => hs (hboth.mpr h)
        refine .inr ⟨fun p hp hshows => hs ((hexists _).mp ⟨p, hp, hshows⟩),
          fun p hp hshows => hs' ((hexists _).mp ⟨p, hp, hshows⟩), fun px py hpx hpy => ?_⟩
        exact ⟨fun h => absurd ⟨px, py, ⟨hpx, hpy⟩, h⟩ hs,
          fun h => absurd ⟨px, py, ⟨hpx, hpy⟩, h⟩ hs'⟩

end Canvas

end LionOS.Gfx

namespace LionOS.Framebuffer

open Lib Gfx

variable {fb : FramebufferInfo} {x y fg : Nat} {s : List Char} {m : Mem}

/-- Where the bytes of a pixel start. -/
def Target.start (t : Target) (x y : Nat) : Nat := t.base + y * t.pitch + x * t.bppBytes

theorem FramebufferInfo.Valid.target_row_le (hfb : fb.Valid) :
    fb.target.width * fb.target.bppBytes ≤ fb.target.pitch :=
  calc fb.target.width * fb.target.bppBytes
      ≤ fb.width.toNat * ((fb.bpp.toNat + 7) / 8) :=
        Nat.mul_le_mul_left _ (Nat.div_le_div_right (Nat.le_add_right ..))
    _ ≤ fb.pitch.toNat := hfb.row_le

/-- The pixels of a framebuffer and their cells. The fourth byte of a pixel is no colour. -/
def surface (fb : FramebufferInfo) (hfb : fb.Valid) : Surface (Nat × Nat) Nat where
  visible p := fb.target.drawable = true ∧ p.1 < fb.target.width ∧ p.2 < fb.target.height
  cell p i := fb.target.start p.1 p.2 ≤ i ∧ i < fb.target.start p.1 p.2 + fb.target.bppBytes
  value fg p i :=
    if i = fb.target.start p.1 p.2 + 3 then 0xff
    else UInt8.ofNat ((fg >>> (8 * (i - fb.target.start p.1 p.2))) &&& 0xff)
  apart p q i hp hq hpi hqi := by
    by_contra hne
    have hcells := grid_cells_apart hfb.target_row_le hp.2.1 hq.2.1 hne
    simp only [Target.start] at hpi hqi
    omega
  nonempty p hp := by
    refine ⟨fb.target.start p.1 p.2, le_rfl, Nat.lt_add_of_pos_right (Nat.pos_of_ne_zero ?_)⟩
    intro hzero
    have hdraw := hp.1
    simp [Target.drawable, hzero] at hdraw

/-- One dot of `put_char`. -/
def putDot (fb : FramebufferInfo) (fg : Nat) (m : Mem) (p : Nat × Nat) : Except Panic Mem := do
  let py ← u32 p.2
  .ok (applyStores m (fb.target.lionFbPixel p.1 py fg))

private theorem lionFbPixel_of_visible {t : Target} (hdraw : t.drawable = true) (hx : x < t.width)
    (hy : y < t.height) (rgb : Nat) :
    t.lionFbPixel x y rgb =
      if t.bppBytes = 4 then
        [(t.start x y, UInt8.ofNat (rgb &&& 0xff)),
          (t.start x y + 1, UInt8.ofNat ((rgb >>> 8) &&& 0xff)),
          (t.start x y + 2, UInt8.ofNat ((rgb >>> 16) &&& 0xff)), (t.start x y + 3, 0xff)]
      else if t.bppBytes = 3 then
        [(t.start x y, UInt8.ofNat (rgb &&& 0xff)),
          (t.start x y + 1, UInt8.ofNat ((rgb >>> 8) &&& 0xff)),
          (t.start x y + 2, UInt8.ofNat ((rgb >>> 16) &&& 0xff))]
      else [(t.start x y, UInt8.ofNat (rgb &&& 0xff))] := by
  rw [Target.lionFbPixel_of_drawn hdraw hx hy]
  rfl

theorem paints_putDot (hfb : fb.Valid) :
    (surface fb hfb).Paints (fun p => 2 ^ 32 ≤ p.2) (putDot fb)
      (fun fg m p => applyStores m (fb.target.lionFbPixel p.1 p.2 fg)) where
  inside fg m p i hp hcell := by
    obtain ⟨hdraw, hx, hy⟩ := hp
    obtain ⟨hlo, hhi⟩ := hcell
    obtain ⟨k, rfl⟩ := Nat.exists_eq_add_of_le hlo
    rw [lionFbPixel_of_visible hdraw hx hy]
    simp only [surface, Nat.add_sub_cancel_left]
    rcases Target.bppBytes_of_drawable hdraw with hbytes | hbytes | hbytes
    · obtain rfl : k = 0 := by omega
      simp [hbytes, applyStores]
    · have hk : k = 0 ∨ k = 1 ∨ k = 2 := by omega
      rcases hk with rfl | rfl | rfl <;> simp [hbytes, applyStores]
    · have hk : k = 0 ∨ k = 1 ∨ k = 2 ∨ k = 3 := by omega
      rcases hk with rfl | rfl | rfl | rfl <;> simp [hbytes, applyStores]
  outside fg m p i hout := by
    refine applyStores_of_forall_ne fun s hs hi => hout ?_
    obtain ⟨hdraw, hx, hy, hs⟩ := Target.mem_lionFbPixel hs
    have hrange := Target.mem_putPixel hdraw hs
    rw [hi] at hrange
    exact ⟨⟨hdraw, hx, hy⟩, hrange⟩
  bad_error fg m p hbad := by
    rw [putDot, u32, if_neg (Nat.not_lt.mpr hbad)]
    exact ⟨_, rfl⟩
  ok_of_not_bad fg m p hok := by
    rw [putDot, u32_of_lt (Nat.lt_of_not_le hok)]
    rfl

/-! ## The dots of a string -/

/-- A sum of columns that `draw_str` forms leaves the 32 bits. -/
def ColumnsOverflow (width x : Nat) (s : List Char) : Prop :=
  ∃ k < s.length, (∀ j < k, x + glyphAdvance * j + glyphW ≤ width) ∧
    (2 ^ 32 ≤ x + glyphAdvance * k + glyphW ∨
      x + glyphAdvance * k + glyphW ≤ width ∧ 2 ^ 32 ≤ x + glyphAdvance * (k + 1))

theorem columnsOverflow_cons {width : Nat} {ch : Char} :
    ColumnsOverflow width x (ch :: s) ↔ 2 ^ 32 ≤ x + glyphW ∨ x + glyphW ≤ width ∧
      (2 ^ 32 ≤ x + glyphAdvance ∨ ColumnsOverflow width (x + glyphAdvance) s) := by
  constructor
  · rintro ⟨k, hk, hroom, hsum⟩
    cases k with
    | zero =>
      rw [Nat.mul_zero, Nat.add_zero, Nat.zero_add, Nat.mul_one] at hsum
      exact hsum.imp_right fun h => ⟨h.1, .inl h.2⟩
    | succ k =>
      have hfirst := hroom 0 (Nat.succ_pos k)
      rw [Nat.mul_zero, Nat.add_zero] at hfirst
      refine .inr ⟨hfirst, .inr ⟨k, Nat.lt_of_succ_lt_succ hk, fun j hj => ?_, ?_⟩⟩
      · have hnext := hroom (j + 1) (Nat.succ_lt_succ hj)
        rw [Nat.mul_succ] at hnext
        omega
      · simp only [Nat.mul_succ] at hsum ⊢
        omega
  · rintro (hfirst | ⟨hroom, hsum | ⟨k, hk, hstop, hsum⟩⟩)
    · exact ⟨0, Nat.succ_pos _, fun j hj => absurd hj (Nat.not_lt_zero j), .inl hfirst⟩
    · refine ⟨0, Nat.succ_pos _, fun j hj => absurd hj (Nat.not_lt_zero j), .inr ⟨hroom, ?_⟩⟩
      rwa [Nat.zero_add, Nat.mul_one]
    · refine ⟨k + 1, Nat.succ_lt_succ hk, fun j hj => ?_, ?_⟩
      · cases j with
        | zero => exact hroom
        | succ j =>
          have hnext := hstop j (Nat.lt_of_succ_lt_succ hj)
          rw [Nat.mul_succ]
          omega
      · simp only [Nat.mul_succ] at hsum ⊢
        omega

/-- A glyph paints its dots. -/
private theorem putChar_eq (hx : x + glyphW ≤ 2 ^ 32) (y : Nat) (ch : Char) (fg : Nat) (m : Mem) :
    putChar fb x y ch fg m =
      ((glyphDots (glyph ch) 1).map fun p => (x + p.1, y + p.2)).foldlM (putDot fb fg) m := by
  rw [putChar, zipIdx_eq_map_range, glyph_length, glyphDots, List.map_flatMap, foldlM_flatMap,
    List.foldlM_map]
  simp only [List.map_map, List.foldlM_map, List.foldlM_filter, Nat.one_mul, Nat.div_one]
  refine foldlM_congr_mem _ _ fun m oy hoy => foldlM_congr_mem _ _ fun m ox hox => ?_
  have hox := List.mem_range.mp hox
  simp only [glyphBit, decide_eq_true_eq]
  split
  · rw [u32_of_lt (n := x + ox) (by omega)]
    rfl
  · rfl

/-- `draw_str` paints the dots of the string, unless it stops the kernel on the way. -/
theorem drawStrFrom_eq (h : ¬ ColumnsOverflow fb.width.toNat x s) (y fg : Nat) (m : Mem) :
    drawStrFrom fb y fg s x m =
      (textDots fb.width.toNat 1 y s x).foldlM (putDot fb fg) m := by
  induction s generalizing x m with
  | nil => rfl
  | cons ch s ih =>
    rw [columnsOverflow_cons, not_or, not_and_or, not_or, Nat.not_le] at h
    obtain ⟨hedge, hrest⟩ := h
    rw [drawStrFrom, textDots, u32_of_lt hedge]
    simp only [bind, Except.bind, Nat.one_mul]
    split
    · rfl
    next hroom =>
      obtain ⟨hnext, hrest⟩ := hrest.resolve_left (not_not.mpr (Nat.le_of_not_lt hroom))
      have hadvance : u32 (x + glyphAdvance) = .ok (x + glyphAdvance) :=
        u32_of_lt (Nat.lt_of_not_le hnext)
      simp only [putChar_eq hedge.le, hadvance, List.foldlM_append]
      exact bind_congr fun m => ih hrest m

theorem drawStrFrom_ne_ok (h : ColumnsOverflow fb.width.toNat x s) (y fg : Nat) (m m' : Mem) :
    drawStrFrom fb y fg s x m ≠ .ok m' := by
  induction s generalizing x m with
  | nil =>
    obtain ⟨k, hk, -⟩ := h
    exact absurd hk (Nat.not_lt_zero k)
  | cons ch s ih =>
    intro hok
    rw [columnsOverflow_cons] at h
    rw [drawStrFrom] at hok
    obtain ⟨hedge, hok⟩ := lt_of_u32_bind hok
    obtain ⟨hroom, hrest⟩ := h.resolve_left (Nat.not_le.mpr hedge)
    rw [if_neg (Nat.not_lt.mpr hroom)] at hok
    cases hput : putChar fb x y ch fg m with
    | error e =>
      rw [hput] at hok
      cases hok
    | ok m₁ =>
      rw [hput] at hok
      obtain ⟨hnext, hok⟩ := lt_of_u32_bind hok
      exact ih (hrest.resolve_left (Nat.not_le.mpr hnext)) m₁ hok

theorem columnsOverflow_congr {width : Nat} {s' : List Char} (h : s.length = s'.length) :
    ColumnsOverflow width x s ↔ ColumnsOverflow width x s' := by
  rw [ColumnsOverflow, ColumnsOverflow, h]

/-- A row of a marked cell of the string leaves the 32 bits. -/
def RowsOverflow (width x y : Nat) (s : List Char) : Prop :=
  ∃ px py, Inked width x y 1 s px py ∧ 2 ^ 32 ≤ py

private theorem rowsOverflow_iff {width : Nat} :
    (∃ p ∈ textDots width 1 y s x, 2 ^ 32 ≤ p.2) ↔ RowsOverflow width x y s :=
  ⟨fun ⟨p, hp, hrow⟩ => ⟨p.1, p.2, mem_textDots.mp hp, hrow⟩,
    fun ⟨px, py, hin, hrow⟩ => ⟨(px, py), mem_textDots.mpr hin, hrow⟩⟩

/-- `draw_str` leaves the same memory for two strings of one length exactly if it stops the
kernel for both, or for none of them and they have the same dots on the framebuffer. -/
theorem sameResult_drawStr_iff (hfb : fb.Valid) (t : String) (x y : Nat) :
    (∀ fg m, Surface.SameResult (drawStr fb x y t fg m)
        (drawStr fb x y (t.map questionMark) fg m)) ↔
      ColumnsOverflow fb.width.toNat x t.toList ∨
      (RowsOverflow fb.width.toNat x y t.toList ∧
        RowsOverflow fb.width.toNat x y (t.toList.map questionMark)) ∨
      (¬ RowsOverflow fb.width.toNat x y t.toList ∧
        ¬ RowsOverflow fb.width.toNat x y (t.toList.map questionMark) ∧
        (fb.target.drawable = true →
          LooksReplaced fb.width.toNat fb.height.toNat x y 1 t.toList)) := by
  unfold drawStr
  rw [String.toList_map]
  by_cases hcolumns : ColumnsOverflow fb.width.toNat x t.toList
  · have hcolumns' : ColumnsOverflow fb.width.toNat x (t.toList.map questionMark) :=
      (columnsOverflow_congr (List.length_map _).symm).mp hcolumns
    refine ⟨fun _ => .inl hcolumns, fun _ fg m m' => ?_⟩
    exact ⟨fun hok => absurd hok (drawStrFrom_ne_ok hcolumns y fg m m'),
      fun hok => absurd hok (drawStrFrom_ne_ok hcolumns' y fg m m')⟩
  · have hcolumns' : ¬ ColumnsOverflow fb.width.toNat x (t.toList.map questionMark) :=
      fun h => hcolumns ((columnsOverflow_congr (List.length_map _).symm).mpr h)
    simp only [drawStrFrom_eq hcolumns, drawStrFrom_eq hcolumns', hcolumns, false_or]
    rw [(paints_putDot hfb).sameResult_iff, rowsOverflow_iff, rowsOverflow_iff]
    have hnot : ∀ s, (∀ p ∈ textDots fb.width.toNat 1 y s x, ¬ 2 ^ 32 ≤ p.2) ↔
        ¬ RowsOverflow fb.width.toNat x y s := fun s => by
      rw [← rowsOverflow_iff, not_exists]
      exact forall_congr' fun p => not_and.symm
    have hvisible : (∀ p, (surface fb hfb).visible p →
          (p ∈ textDots fb.width.toNat 1 y t.toList x ↔
            p ∈ textDots fb.width.toNat 1 y (t.toList.map questionMark) x)) ↔
        (fb.target.drawable = true →
          LooksReplaced fb.width.toNat fb.height.toNat x y 1 t.toList) := by
      rw [looksReplaced_iff Nat.one_pos]
      constructor
      · intro h hdraw px py hpx hpy
        rw [← mem_textDots, ← mem_textDots]
        exact h (px, py) ⟨hdraw, hpx, hpy⟩
      · rintro h ⟨px, py⟩ ⟨hdraw, hpx, hpy⟩
        rw [mem_textDots, mem_textDots]
        exact h hdraw px py hpx hpy
    rw [hnot, hnot, hvisible]

end LionOS.Framebuffer

namespace LionOS.Gfx

open Lib

variable {c : Canvas} {x y scale : Nat}

theorem sameResult_drawText_iff (c : Canvas) (t : String) (x y : Nat) :
    (∀ fg b, Surface.SameResult (c.drawText x y t fg b)
        (c.drawText x y (t.map questionMark) fg b)) ↔
      (c.bpp ≤ 4 ∧ LooksReplaced c.width c.height x y 1 t.toList) ∨
      (4 < c.bpp ∧ ((∃ px py, c.Shows px py ∧ Inked c.width x y 1 t.toList px py) ↔
        ∃ px py, c.Shows px py ∧ Inked c.width x y 1 (t.toList.map questionMark) px py)) := by
  simp only [Canvas.drawText_eq, String.toList_map]
  exact Canvas.sameResult_textDots_iff Nat.one_pos

private theorem textFits_map (c : Canvas) (s : List Char) :
    c.TextFits x y scale (s.map questionMark) ↔ c.TextFits x y scale s := by
  simp only [Canvas.TextFits, ne_eq, List.map_eq_nil_iff]

private theorem sameResult_drawTextAa_iff (c : Canvas) (t : String) (x y scale : Nat) :
    (∀ fg b, Surface.SameResult (c.drawTextAa x y t fg scale b)
        (c.drawTextAa x y (t.map questionMark) fg scale b)) ↔
      scale = 0 ∨ ¬ c.TextFits x y scale t.toList ∨
      (c.bpp ≤ 4 ∧ LooksReplaced c.width c.height x y scale t.toList) ∨
      (4 < c.bpp ∧ ((∃ px py, c.Shows px py ∧ Inked c.width x y scale t.toList px py) ↔
        ∃ px py, c.Shows px py ∧
          Inked c.width x y scale (t.toList.map questionMark) px py)) := by
  by_cases hzero : scale = 0
  · simp [hzero, Canvas.drawTextAa, Surface.SameResult]
  have hscale := Nat.pos_of_ne_zero hzero
  by_cases hfits : c.TextFits x y scale t.toList
  · have hfits' : c.TextFits x y scale (t.map questionMark).toList := by
      rw [String.toList_map, textFits_map]
      exact hfits
    simp only [Canvas.drawTextAa_eq hscale hfits, Canvas.drawTextAa_eq hscale hfits',
      String.toList_map, hzero, hfits, not_true_eq_false, false_or]
    exact Canvas.sameResult_textDots_iff hscale
  · refine ⟨fun _ => .inr (.inl hfits), fun _ fg b b' => ?_⟩
    refine ⟨fun hok => absurd (Canvas.TextFits.of_drawTextAa hscale hok) hfits, fun hok => ?_⟩
    have hfits' := Canvas.TextFits.of_drawTextAa hscale hok
    rw [String.toList_map, textFits_map] at hfits'
    exact absurd hfits' hfits

/-- When a text is drawn as with question marks for the characters that have no glyph: exactly
if each of them that is drawn looks like one in the rows on the surface. Where a coordinate
overflows or pixels are longer than a colour, the kernel has to stop for both texts or for
neither. -/
theorem draws_questionMarks_iff (t : String) (x y : Nat) :
    (∀ c : Canvas,
      (∀ fg b, Surface.SameResult (c.drawText x y t fg b)
          (c.drawText x y (t.map questionMark) fg b)) ↔
        (c.bpp ≤ 4 ∧ LooksReplaced c.width c.height x y 1 t.toList) ∨
        (4 < c.bpp ∧ ((∃ px py, c.Shows px py ∧ Inked c.width x y 1 t.toList px py) ↔
          ∃ px py, c.Shows px py ∧
            Inked c.width x y 1 (t.toList.map questionMark) px py))) ∧
    (∀ (c : Canvas) (scale : Nat),
      (∀ fg b, Surface.SameResult (c.drawTextAa x y t fg scale b)
          (c.drawTextAa x y (t.map questionMark) fg scale b)) ↔
        scale = 0 ∨ ¬ c.TextFits x y scale t.toList ∨
        (c.bpp ≤ 4 ∧ LooksReplaced c.width c.height x y scale t.toList) ∨
        (4 < c.bpp ∧ ((∃ px py, c.Shows px py ∧ Inked c.width x y scale t.toList px py) ↔
          ∃ px py, c.Shows px py ∧
            Inked c.width x y scale (t.toList.map questionMark) px py))) ∧
    ∀ (fb fb' : Framebuffer.FramebufferInfo), fb.validate = .ok fb' →
      ((∀ fg m, Surface.SameResult (Framebuffer.drawStr fb x y t fg m)
          (Framebuffer.drawStr fb x y (t.map questionMark) fg m)) ↔
        Framebuffer.ColumnsOverflow fb.width.toNat x t.toList ∨
        (Framebuffer.RowsOverflow fb.width.toNat x y t.toList ∧
          Framebuffer.RowsOverflow fb.width.toNat x y (t.toList.map questionMark)) ∨
        (¬ Framebuffer.RowsOverflow fb.width.toNat x y t.toList ∧
          ¬ Framebuffer.RowsOverflow fb.width.toNat x y (t.toList.map questionMark) ∧
          (fb.target.drawable = true →
            LooksReplaced fb.width.toNat fb.height.toNat x y 1 t.toList))) :=
  ⟨fun c => sameResult_drawText_iff c t x y, fun c => sameResult_drawTextAa_iff c t x y,
    fun _ _ hfb => Framebuffer.sameResult_drawStr_iff
      (Framebuffer.FramebufferInfo.valid_of_validate hfb) t x y⟩

/-- A letter whose low byte is that of an `A`, on a framebuffer of 24 bits per pixel. -/
theorem draws_questionMarks_iff_small :
    (∀ fg m, Surface.SameResult (Framebuffer.drawStr Framebuffer.smallFramebuffer 1 2 "Ł" fg m)
        (Framebuffer.drawStr Framebuffer.smallFramebuffer 1 2 ("Ł".map questionMark) fg m)) ↔
      Framebuffer.ColumnsOverflow 16 1 ['Ł'] ∨
      (Framebuffer.RowsOverflow 16 1 2 ['Ł'] ∧ Framebuffer.RowsOverflow 16 1 2 ['?']) ∨
      (¬ Framebuffer.RowsOverflow 16 1 2 ['Ł'] ∧ ¬ Framebuffer.RowsOverflow 16 1 2 ['?'] ∧
        (Framebuffer.smallFramebuffer.target.drawable = true →
          LooksReplaced 16 4 1 2 1 ['Ł'])) := by
  have hvalid : Framebuffer.smallFramebuffer.validate = .ok Framebuffer.smallFramebuffer := by
    decide
  exact (draws_questionMarks_iff "Ł" 1 2).2.2 _ _ hvalid

/-- The same letter on a canvas of one row. -/
theorem exists_not_questionMark :
    ¬ ∀ (c : Canvas) (t : String) (x y fg : Nat) (b : Mem),
      Surface.SameResult (c.drawText x y t fg b) (c.drawText x y (t.map questionMark) fg b) := by
  intro h
  have hsame := (sameResult_drawText_iff (Canvas.pixelRow 6 3 (by decide) (by decide) (by decide))
    "Ł" 0 0).mp fun fg b => h _ _ _ _ fg b
  rcases hsame with ⟨-, hlooks⟩ | ⟨hbpp, -⟩
  · have hunknown := hlooks 0 'Ł' rfl (by decide) (by decide)
    exact absurd (hunknown (by decide) (by decide) 0 (by decide) (by decide) 0 (by decide))
      (by decide)
  · exact absurd hbpp (by decide)

end LionOS.Gfx
