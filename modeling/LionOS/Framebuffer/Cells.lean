import LionOS.Framebuffer.Draw
import LionOS.Lib.Blocks

/-!
# The cell of a pixel

The validator rounds the bytes of a pixel up, the C layer rounds them down. A depth of less than
eight bits, or of sixteen, is none the C layer draws in; with fifteen bits it draws in one byte,
and takes every pixel but the first of a row for one that lies further left.
-/

namespace LionOS.Framebuffer

open Lib

variable {fb : FramebufferInfo} {x y x' y' a : Nat}

/-- The bytes of a pixel as the validator counts them. -/
def FramebufferInfo.cellBytes (fb : FramebufferInfo) : Nat := (fb.bpp.toNat + 7) / 8

/-- The address belongs to the pixel. -/
def FramebufferInfo.InCell (fb : FramebufferInfo) (x y a : Nat) : Prop :=
  fb.address.toNat + (y * fb.pitch.toNat + x * fb.cellBytes) ≤ a ∧
    a < fb.address.toNat + (y * fb.pitch.toNat + x * fb.cellBytes + fb.cellBytes)

/-- The cells of two pixels of an accepted framebuffer do not meet. -/
theorem FramebufferInfo.Valid.not_inCell (hfb : fb.Valid) (hx : x < fb.width.toNat)
    (hx' : x' < fb.width.toNat) (hne : (x', y') ≠ (x, y)) (ha : fb.InCell x y a) :
    ¬ fb.InCell x' y' a := by
  have hapart := grid_cells_apart hfb.row_le hx hx' hne.symm
  unfold InCell cellBytes at *
  omega

/-- Drawing the pixel writes to its own cell only, and so to no other pixel. -/
def DrawsOwnCell (fb : FramebufferInfo) (x y : Nat) : Prop :=
  ∀ rgb, ∀ s ∈ fb.target.lionFbPixel x y rgb, fb.InCell x y s.1 ∧
    ∀ x' y', x' < fb.width.toNat → y' < fb.height.toNat → (x', y') ≠ (x, y) →
      ¬ fb.InCell x' y' s.1

/-- Of the depths the C layer draws in, the two counts differ for fifteen bits only. -/
private theorem bppBytes_of_supported (hsup : isSupportedBpp fb.bpp = true)
    (hdraw : fb.target.drawable = true) :
    fb.target.bppBytes = fb.cellBytes ∨
      fb.bpp = 15 ∧ fb.target.bppBytes = 1 ∧ fb.cellBytes = 2 := by
  have hdepth : fb.bpp = 1 ∨ fb.bpp = 4 ∨ fb.bpp = 8 ∨ fb.bpp = 15 ∨ fb.bpp = 16 ∨ fb.bpp = 24 ∨
      fb.bpp = 32 := by
    simpa [isSupportedBpp] using hsup
  simp only [Target.drawable, Target.bppBytes, FramebufferInfo.target] at hdraw ⊢
  unfold FramebufferInfo.cellBytes
  rcases hdepth with h | h | h | h | h | h | h <;> rw [h] at hdraw ⊢ <;> revert hdraw <;> decide

/-- A pixel that is drawn where its cell begins stays in it. -/
theorem drawsOwnCell_of_supported (hfb : fb.Valid) (hx : x < fb.width.toNat)
    (h : fb.bpp ≠ 15 ∨ x = 0) : DrawsOwnCell fb x y := by
  intro rgb s hs
  have hcell : fb.InCell x y s.1 := by
    obtain ⟨hdraw, -, -, hs⟩ := Target.mem_lionFbPixel hs
    obtain ⟨hlo, hhi⟩ := Target.mem_putPixel hdraw hs
    change fb.address.toNat + y * fb.pitch.toNat + x * fb.target.bppBytes ≤ s.1 at hlo
    change s.1 < fb.address.toNat + y * fb.pitch.toNat + x * fb.target.bppBytes +
      fb.target.bppBytes at hhi
    unfold FramebufferInfo.InCell
    rcases bppBytes_of_supported hfb.supported hdraw with hbytes | ⟨hfifteen, hone, htwo⟩
    · rw [hbytes] at hlo hhi
      omega
    · obtain rfl := h.resolve_left (not_not.mpr hfifteen)
      rw [hone] at hlo hhi
      rw [htwo]
      omega
  exact ⟨hcell, fun x' y' hx' _ hne => hfb.not_inCell hx hx' hne hcell⟩

/-- With fifteen bits a pixel is drawn in the byte of its number. -/
theorem DrawsOwnCell.eq_zero (hx : x < fb.width.toNat) (hy : y < fb.height.toNat)
    (h : DrawsOwnCell fb x y) (hfifteen : fb.bpp = 15) : x = 0 := by
  have hone : fb.target.bppBytes = 1 := by
    change fb.bpp.toNat / 8 = 1
    rw [hfifteen]
    rfl
  have hdraw : fb.target.drawable = true := by simp [Target.drawable, hone]
  have hstores : fb.target.lionFbPixel x y 0 =
      [(fb.address.toNat + y * fb.pitch.toNat + x * 1, 0)] := by
    rw [Target.lionFbPixel_of_drawn hdraw hx hy, Target.putPixel, hone]
    rfl
  obtain ⟨⟨hlo, -⟩, -⟩ := h 0 _ (by rw [hstores]; exact List.mem_singleton_self _)
  have htwo : fb.cellBytes = 2 := by
    unfold FramebufferInfo.cellBytes
    rw [hfifteen]
    rfl
  rw [htwo] at hlo
  dsimp only at hlo
  omega

/-- Both sides mean the same cell exactly if the depth is not fifteen bits or the pixel is the
first of its row. -/
theorem drawsOwnCell_iff {fb' : FramebufferInfo} (h : fb.validate = .ok fb')
    (hx : x < fb.width.toNat) (hy : y < fb.height.toNat) :
    DrawsOwnCell fb x y ↔ fb.bpp ≠ 15 ∨ x = 0 := by
  have hfb := FramebufferInfo.valid_of_validate h
  refine ⟨fun hown => ?_, drawsOwnCell_of_supported hfb hx⟩
  by_cases hfifteen : fb.bpp = 15
  · exact .inr (hown.eq_zero hx hy hfifteen)
  · exact .inl hfifteen

/-- A framebuffer of fifteen bits per pixel. -/
def fifteenBits : FramebufferInfo := ⟨0xFD000000, 16, 4, 15, 32⟩

theorem drawsOwnCell_iff_fifteenBits :
    DrawsOwnCell fifteenBits 1 2 ↔ fifteenBits.bpp ≠ 15 ∨ 1 = 0 := by
  have hvalid : fifteenBits.validate = .ok fifteenBits := by decide
  exact drawsOwnCell_iff hvalid (by decide) (by decide)

/-- The second pixel of a row is drawn in the first. -/
theorem exists_not_drawsOwnCell :
    ¬ ∀ (fb : FramebufferInfo) (x y : Nat), fb.validate = .ok fb → x < fb.width.toNat →
      y < fb.height.toNat → DrawsOwnCell fb x y := by
  intro h
  have hvalid : fifteenBits.validate = .ok fifteenBits := by decide
  have hown := h fifteenBits 1 2 hvalid (by decide) (by decide)
  exact absurd (hown.eq_zero (by decide) (by decide) rfl) (by decide)

end LionOS.Framebuffer
