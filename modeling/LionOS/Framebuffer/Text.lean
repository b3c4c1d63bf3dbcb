import LionOS.Framebuffer.Draw
import LionOS.Gfx.Pixels
import Mathlib.Data.UInt

/-!
# Text in the framebuffer

`fbtext` draws glyphs through the C layer, pixel by pixel, with 32-bit coordinates;
`Canvas::draw_text` draws them on a slice. On one framebuffer with whole bytes of colour
the two leave the same bytes.
-/

namespace LionOS.Framebuffer

open Lib Gfx

/-- The memory after a list of stores. -/
def applyStores (m : Mem) (out : List Store) : Mem :=
  out.foldl (fun m s => Function.update m s.1 s.2) m

theorem applyStores_of_forall_ne {m : Mem} {out : List Store} {i : Nat}
    (h : ∀ s ∈ out, s.1 ≠ i) : applyStores m out i = m i := by
  induction out generalizing m with
  | nil => rfl
  | cons s out ih =>
    obtain ⟨hs, hout⟩ := List.forall_mem_cons.mp h
    rw [applyStores, List.foldl_cons, ← applyStores, ih hout, Function.update_of_ne hs.symm]

/-- Horizontal distance of two glyphs. -/
def glyphAdvance : Nat := glyphW + 1

/-- Draw one glyph with its top left corner at `(x, y)`. -/
def putChar (fb : FramebufferInfo) (x y : Nat) (ch : Char) (fg : Nat) (m : Mem) :
    Except Panic Mem :=
  (glyph ch).zipIdx.foldlM
    (fun m (mask, row) =>
      (List.range glyphW).foldlM
        (fun m col =>
          if mask &&& (1 <<< UInt8.ofNat col) ≠ 0 then do
            let px ← u32 (x + col)
            let py ← u32 (y + row)
            .ok (applyStores m (fb.target.lionFbPixel px py fg))
          else .ok m) m) m

/-- The loop of `draw_str` from column `cx` on. -/
def drawStrFrom (fb : FramebufferInfo) (y fg : Nat) :
    (s : List Char) → (cx : Nat) → Mem → Except Panic Mem
  | [], _, m => .ok m
  | ch :: s, cx, m => do
    let edge ← u32 (cx + glyphW)
    if fb.width.toNat < edge then .ok m
    else
      let m ← putChar fb cx y ch fg m
      let cx ← u32 (cx + glyphAdvance)
      drawStrFrom fb y fg s cx m

/-- Draw a string; it is cut at the right edge. -/
def drawStr (fb : FramebufferInfo) (x y : Nat) (s : String) (fg : Nat) (m : Mem) :
    Except Panic Mem :=
  drawStrFrom fb y fg s.toList x m

/-- A canvas on the framebuffer, with its geometry. -/
structure OnFramebuffer (fb : FramebufferInfo) (c : Canvas) : Prop where
  width : c.width = fb.width.toNat
  height : c.height = fb.height.toNat
  pitch : c.pitch = fb.pitch.toNat
  bytes : c.bpp = fb.target.bppBytes
  format : fb.target.bppBytes = 1 ∨ fb.target.bppBytes = 3

/-- The framebuffer holds the bytes of the canvas. -/
def Agree (fb : FramebufferInfo) (m b : Mem) : Prop :=
  ∀ i < fb.size, m (fb.address.toNat + i) = b i

variable {fb : FramebufferInfo} {c : Canvas} {m b : Mem}

/-- A byte of a colour, shifted and masked, is its digit in base 256. -/
private theorem colorByte_eq (rgb k : Nat) :
    UInt8.ofNat ((rgb >>> (8 * k)) &&& 0xff) = UInt8.ofNat (rgb / 256 ^ k) := by
  have hmask : (rgb >>> (8 * k)) &&& 0xff = rgb / 256 ^ k % 256 := by
    rw [Nat.and_two_pow_sub_one_eq_mod (rgb >>> (8 * k)) 8, Nat.shiftRight_eq_div_pow, Nat.pow_mul]
  rw [hmask]
  exact UInt8.ofNat_mod_size

/-- The C layer stores the bytes of a cell as `set_pixel` does. -/
private theorem agree_putPixel (hc : OnFramebuffer fb c) (h : Agree fb m b) {x y : Nat}
    (hshows : c.Shows x y) (rgb : Nat) :
    Agree fb (applyStores m (fb.target.putPixel x y rgb)) (c.plot rgb b (x, y)) := by
  have hoff : fb.target.base + y * fb.target.pitch + x * fb.target.bppBytes =
      fb.address.toNat + c.offset x y := by
    rw [Canvas.offset, hc.pitch, hc.bytes, ← Nat.add_assoc]
    rfl
  have hbyte0 : UInt8.ofNat (rgb &&& 0xff) = UInt8.ofNat (rgb / 256 ^ 0) := colorByte_eq rgb 0
  have hbyte1 := colorByte_eq rgb 1
  have hbyte2 := colorByte_eq rgb 2
  intro i hi
  rw [Canvas.plot, if_pos hshows]
  simp only [writeLE, hc.bytes, Target.putPixel, hoff]
  rcases hc.format with hone | hthree
  · simp only [hone, applyStores, hbyte0]
    by_cases h0 : i = c.offset x y
    · simp [h0]
    · have hout : ¬ (c.offset x y ≤ i ∧ i < c.offset x y + 1) := by omega
      rw [if_neg hout]
      simp [h0, h i hi]
  · simp only [hthree, applyStores, Nat.add_assoc, hbyte0, hbyte1, hbyte2]
    by_cases hin : c.offset x y ≤ i ∧ i < c.offset x y + 3
    · obtain ⟨k, rfl⟩ := Nat.exists_eq_add_of_le hin.1
      have hk : k = 0 ∨ k = 1 ∨ k = 2 := by omega
      rcases hk with rfl | rfl | rfl <;> simp
    · have h0 : i ≠ c.offset x y := by omega
      have h1 : i ≠ c.offset x y + 1 := by omega
      have h2 : i ≠ c.offset x y + 2 := by omega
      rw [if_neg hin]
      simp [h0, h1, h2, h i hi]

/-- `lion_fb_pixel` does to the framebuffer what `set_pixel` does to the canvas. -/
theorem agree_lionFbPixel (hc : OnFramebuffer fb c) (h : Agree fb m b) (x y rgb : Nat) :
    Agree fb (applyStores m (fb.target.lionFbPixel x y rgb)) (c.plot rgb b (x, y)) := by
  have hdraw : fb.target.drawable = true := by
    rcases hc.format with hone | hthree
    · simp [Target.drawable, hone]
    · simp [Target.drawable, hthree]
  by_cases hshows : c.Shows x y
  · obtain ⟨hx, hy⟩ := hshows
    have hx' : x < fb.width.toNat := hc.width ▸ hx
    have hy' : y < fb.height.toNat := hc.height ▸ hy
    rw [Target.lionFbPixel_of_drawn hdraw hx' hy']
    exact agree_putPixel hc h ⟨hx, hy⟩ rgb
  · intro i hi
    rw [Canvas.plot, if_neg hshows, applyStores_of_forall_ne, h i hi]
    intro s hs
    obtain ⟨-, hx, hy, -⟩ := Target.mem_lionFbPixel hs
    exact absurd ⟨hc.width ▸ hx, hc.height ▸ hy⟩ hshows

theorem OnFramebuffer.bpp_le (hc : OnFramebuffer fb c) : c.bpp ≤ 4 := by
  have hbytes := hc.bytes
  have hformat := hc.format
  omega

/-- One glyph, where no coordinate leaves the 32 bits. -/
private theorem agree_putChar (hc : OnFramebuffer fb c) (h : Agree fb m b) {x y : Nat}
    (hx : x + glyphW < 2 ^ 32) (hy : y + glyphH < 2 ^ 32) (ch : Char) (fg : Nat) :
    ∃ m' b', putChar fb x y ch fg m = .ok m' ∧ c.drawGlyph x y fg (glyph ch) b = .ok b' ∧
      Agree fb m' b' := by
  refine foldlM_related _ (fun m b p hp h => ?_) h
  obtain ⟨mask, row⟩ := p
  have hrow : row < glyphH := by
    have hlt := (List.mem_zipIdx hp).2.1
    rw [glyph_length] at hlt
    omega
  refine foldlM_related _ (fun m b col hcol h => ?_) h
  rw [List.mem_range] at hcol
  split
  · have hpx : u32 (x + col) = .ok (x + col) := u32_of_lt (by omega)
    have hpy : u32 (y + row) = .ok (y + row) := u32_of_lt (by omega)
    have hpx' : usize (x + col) = .ok (x + col) := usize_of_lt (by omega)
    have hpy' : saturate (y + row) = y + row := Nat.min_eq_left (by omega)
    simp only [hpx, hpy, hpx', hpy', bind, Except.bind, Canvas.put_eq hc.bpp_le]
    exact ⟨_, _, rfl, rfl, agree_lionFbPixel hc h _ _ fg⟩
  · exact ⟨m, b, rfl, rfl, h⟩

private theorem agree_drawStrFrom (hc : OnFramebuffer fb c) (hw : fb.width.toNat < 2 ^ 31) {y : Nat}
    (hy : y < 2 ^ 31) (fg : Nat) (s : List Char) {x : Nat} (hx : x ≤ 2 ^ 31)
    (h : Agree fb m b) :
    ∃ m' b', drawStrFrom fb y fg s x m = .ok m' ∧ c.drawChars y fg s x b = .ok b' ∧
      Agree fb m' b' := by
  induction s generalizing x m b with
  | nil => exact ⟨m, b, rfl, rfl, h⟩
  | cons ch s ih =>
    have hwidth : glyphW = 5 := rfl
    have hheight : glyphH = 7 := rfl
    have hedge : u32 (x + glyphW) = .ok (x + glyphW) := u32_of_lt (by omega)
    have hedge' : saturate (x + glyphW) = x + glyphW := Nat.min_eq_left (by omega)
    simp only [drawStrFrom, Canvas.drawChars, hedge, hedge', hc.width, bind, Except.bind]
    split
    · exact ⟨m, b, rfl, rfl, h⟩
    next hfits =>
    -- The glyph fits the row, so the next column is at most one past the right edge.
    obtain ⟨m', b', hput, hdraw, h'⟩ :=
      agree_putChar hc h (x := x) (y := y) (by omega) (by omega) ch fg
    have hadvance : glyphAdvance = glyphW + 1 := rfl
    have hnext : u32 (x + glyphAdvance) = .ok (x + glyphAdvance) := u32_of_lt (by omega)
    have hnext' : usize (x + (glyphW + 1)) = .ok (x + (glyphW + 1)) := usize_of_lt (by omega)
    rw [hput, hdraw]
    simp only [hnext, hnext']
    exact ih (by omega) h'

/-- **The two text renderers agree.** On every accepted framebuffer of 8 or 24 bits per pixel
and less than `2^31` columns, at every position below `2^31`, for every string and colour:
if the framebuffer holds the bytes of a canvas of the same geometry, then after `draw_str`
on the one and `draw_text` on the other it holds them again. -/
theorem drawStr_agrees {fb' : FramebufferInfo} (hfb : fb.validate = .ok fb')
    (hbpp : fb.bpp = 8 ∨ fb.bpp = 24) (hw : fb.width.toNat < 2 ^ 31) {len : Nat}
    {hlen : len < 2 ^ 63}
    (hnew : Canvas.new len hlen fb.width.toNat fb.height.toNat fb.pitch.toNat
      (fb.bpp.toNat / 8) = some c)
    {x y : Nat} (hx : x < 2 ^ 31) (hy : y < 2 ^ 31) (s : String) (fg : Nat)
    (h : ∀ i < fb.pitch.toNat * fb.height.toNat, m (fb.address.toNat + i) = b i) :
    ∃ m' b', drawStr fb x y s fg m = .ok m' ∧ c.drawText x y s fg b = .ok b' ∧
      ∀ i < fb.pitch.toNat * fb.height.toNat,
        fb.address.toNat + i < 2 ^ 64 ∧ m' (fb.address.toNat + i) = b' i := by
  obtain ⟨-, hwidth, hheight, hpitch, hbytes⟩ := Canvas.new_eq_some hnew
  have hc : OnFramebuffer fb c := by
    refine ⟨hwidth, hheight, hpitch, hbytes, ?_⟩
    change fb.bpp.toNat / 8 = 1 ∨ fb.bpp.toNat / 8 = 3
    rcases hbpp with hbpp | hbpp
    · exact .inl (by rw [hbpp]; decide)
    · exact .inr (by rw [hbpp]; decide)
  obtain ⟨m', b', hstr, htext, hagree⟩ :=
    agree_drawStrFrom hc hw hy fg s.toList (Nat.le_of_lt hx) h
  have hend := (FramebufferInfo.valid_of_validate hfb).end_lt
  rw [FramebufferInfo.size] at hend
  exact ⟨m', b', hstr, htext, fun i hi => ⟨by omega, hagree i hi⟩⟩

/-- A framebuffer of 24 bits per pixel with padded rows. -/
def smallFramebuffer : FramebufferInfo := ⟨0xFD000000, 16, 4, 24, 64⟩

/-- A text that is cut at the bottom and at the right edge. -/
theorem drawStr_agrees_small :
    ∃ c, Canvas.new 256 (by decide) 16 4 64 3 = some c ∧
      ∃ m' b', drawStr smallFramebuffer 1 2 "lion" 0x112233 (fun _ => 0) = .ok m' ∧
        c.drawText 1 2 "lion" 0x112233 (fun _ => 0) = .ok b' ∧
        ∀ i < 64 * 4, 0xFD000000 + i < 2 ^ 64 ∧ m' (0xFD000000 + i) = b' i := by
  obtain ⟨c, hnew⟩ : ∃ c, Canvas.new 256 (by decide) 16 4 64 3 = some c := ⟨_, rfl⟩
  have hvalid : smallFramebuffer.validate = .ok smallFramebuffer := by decide
  exact ⟨c, hnew, drawStr_agrees hvalid (.inr rfl) (by decide) hnew (by decide) (by decide)
    "lion" 0x112233 fun _ _ => rfl⟩

end LionOS.Framebuffer
