import Mathlib.Data.List.GetD

/-!
# The 5x7 font

A glyph is seven bytes, one per row from the top; bit `col` of a row marks that column.
-/

namespace LionOS.Gfx

def glyphW : Nat := 5

def glyphH : Nat := 7

/-- The first character of the table. -/
def first : Nat := 0x20

/-- The number of glyphs: `0x20` to `0x7E`. -/
def glyphCount : Nat := 0x7F - 0x20

/-- The glyphs from the space on. -/
def font5x7 : List (List UInt8) :=
  [[0x00, 0x00, 0x00, 0x00, 0x00, 0x00, 0x00],
   [0x02, 0x02, 0x02, 0x00, 0x02, 0x00, 0x00],
   [0x05, 0x05, 0x00, 0x00, 0x00, 0x00, 0x00],
   [0x05, 0x15, 0x0E, 0x15, 0x0E, 0x15, 0x05],
   [0x02, 0x07, 0x04, 0x06, 0x01, 0x0E, 0x02],
   [0x04, 0x05, 0x04, 0x02, 0x05, 0x05, 0x04],
   [0x04, 0x0A, 0x04, 0x0A, 0x09, 0x06, 0x02],
   [0x02, 0x02, 0x00, 0x00, 0x00, 0x00, 0x00],
   [0x04, 0x02, 0x02, 0x02, 0x02, 0x02, 0x04],
   [0x01, 0x02, 0x02, 0x02, 0x02, 0x02, 0x01],
   [0x00, 0x02, 0x05, 0x02, 0x05, 0x00, 0x00],
   [0x00, 0x02, 0x02, 0x0E, 0x02, 0x02, 0x00],
   [0x00, 0x00, 0x00, 0x00, 0x00, 0x02, 0x01],
   [0x00, 0x00, 0x00, 0x0E, 0x00, 0x00, 0x00],
   [0x00, 0x00, 0x00, 0x00, 0x00, 0x02, 0x00],
   [0x04, 0x04, 0x02, 0x02, 0x01, 0x01, 0x00],
   [0x06, 0x09, 0x09, 0x09, 0x09, 0x09, 0x06],
   [0x02, 0x06, 0x02, 0x02, 0x02, 0x02, 0x07],
   [0x06, 0x09, 0x08, 0x04, 0x02, 0x01, 0x1F],
   [0x07, 0x08, 0x04, 0x06, 0x01, 0x09, 0x06],
   [0x04, 0x06, 0x05, 0x05, 0x1F, 0x04, 0x04],
   [0x1F, 0x01, 0x07, 0x08, 0x08, 0x09, 0x06],
   [0x04, 0x02, 0x01, 0x07, 0x09, 0x09, 0x06],
   [0x1F, 0x08, 0x04, 0x02, 0x02, 0x02, 0x02],
   [0x06, 0x09, 0x09, 0x06, 0x09, 0x09, 0x06],
   [0x06, 0x09, 0x09, 0x0E, 0x08, 0x04, 0x02],
   [0x00, 0x02, 0x00, 0x00, 0x00, 0x02, 0x00],
   [0x00, 0x02, 0x00, 0x00, 0x00, 0x02, 0x01],
   [0x08, 0x04, 0x02, 0x01, 0x02, 0x04, 0x08],
   [0x00, 0x00, 0x1F, 0x00, 0x1F, 0x00, 0x00],
   [0x01, 0x02, 0x04, 0x08, 0x04, 0x02, 0x01],
   [0x03, 0x04, 0x04, 0x02, 0x02, 0x00, 0x02],
   [0x06, 0x09, 0x1F, 0x0B, 0x0B, 0x01, 0x06],
   [0x06, 0x09, 0x09, 0x1F, 0x09, 0x09, 0x09],
   [0x07, 0x09, 0x09, 0x07, 0x09, 0x09, 0x07],
   [0x06, 0x09, 0x01, 0x01, 0x01, 0x09, 0x06],
   [0x03, 0x05, 0x09, 0x09, 0x09, 0x05, 0x03],
   [0x1F, 0x01, 0x01, 0x07, 0x01, 0x01, 0x1F],
   [0x1F, 0x01, 0x01, 0x07, 0x01, 0x01, 0x01],
   [0x06, 0x09, 0x01, 0x0D, 0x09, 0x09, 0x06],
   [0x09, 0x09, 0x09, 0x1F, 0x09, 0x09, 0x09],
   [0x07, 0x02, 0x02, 0x02, 0x02, 0x02, 0x07],
   [0x0C, 0x04, 0x04, 0x04, 0x05, 0x05, 0x02],
   [0x09, 0x05, 0x03, 0x07, 0x05, 0x05, 0x09],
   [0x01, 0x01, 0x01, 0x01, 0x01, 0x01, 0x1F],
   [0x11, 0x1B, 0x15, 0x11, 0x11, 0x11, 0x11],
   [0x11, 0x13, 0x15, 0x19, 0x11, 0x11, 0x11],
   [0x06, 0x09, 0x09, 0x09, 0x09, 0x09, 0x06],
   [0x07, 0x09, 0x09, 0x07, 0x01, 0x01, 0x01],
   [0x06, 0x09, 0x09, 0x09, 0x09, 0x06, 0x0A],
   [0x07, 0x09, 0x09, 0x07, 0x05, 0x09, 0x09],
   [0x06, 0x09, 0x01, 0x06, 0x08, 0x09, 0x06],
   [0x1F, 0x02, 0x02, 0x02, 0x02, 0x02, 0x02],
   [0x09, 0x09, 0x09, 0x09, 0x09, 0x09, 0x06],
   [0x09, 0x09, 0x09, 0x09, 0x09, 0x05, 0x02],
   [0x11, 0x11, 0x11, 0x11, 0x15, 0x1B, 0x0A],
   [0x09, 0x09, 0x05, 0x02, 0x05, 0x09, 0x09],
   [0x09, 0x09, 0x05, 0x02, 0x02, 0x02, 0x02],
   [0x1F, 0x08, 0x04, 0x02, 0x01, 0x01, 0x1F],
   [0x07, 0x01, 0x01, 0x01, 0x01, 0x01, 0x07],
   [0x01, 0x01, 0x02, 0x02, 0x04, 0x04, 0x00],
   [0x07, 0x04, 0x04, 0x04, 0x04, 0x04, 0x07],
   [0x02, 0x05, 0x00, 0x00, 0x00, 0x00, 0x00],
   [0x00, 0x00, 0x00, 0x00, 0x00, 0x00, 0x1F],
   [0x01, 0x02, 0x00, 0x00, 0x00, 0x00, 0x00],
   [0x00, 0x00, 0x06, 0x08, 0x0E, 0x09, 0x06],
   [0x01, 0x01, 0x07, 0x09, 0x09, 0x09, 0x07],
   [0x00, 0x00, 0x06, 0x01, 0x01, 0x01, 0x06],
   [0x08, 0x08, 0x0E, 0x09, 0x09, 0x09, 0x0E],
   [0x00, 0x00, 0x06, 0x1F, 0x01, 0x01, 0x06],
   [0x04, 0x02, 0x07, 0x02, 0x02, 0x02, 0x02],
   [0x00, 0x0E, 0x09, 0x09, 0x0E, 0x08, 0x06],
   [0x01, 0x01, 0x07, 0x09, 0x09, 0x09, 0x09],
   [0x02, 0x00, 0x02, 0x02, 0x02, 0x02, 0x02],
   [0x04, 0x00, 0x04, 0x04, 0x04, 0x05, 0x02],
   [0x01, 0x05, 0x03, 0x07, 0x05, 0x05, 0x09],
   [0x02, 0x02, 0x02, 0x02, 0x02, 0x02, 0x07],
   [0x00, 0x00, 0x1B, 0x15, 0x15, 0x11, 0x11],
   [0x00, 0x00, 0x07, 0x09, 0x09, 0x09, 0x09],
   [0x00, 0x00, 0x06, 0x09, 0x09, 0x09, 0x06],
   [0x00, 0x07, 0x09, 0x09, 0x07, 0x01, 0x01],
   [0x00, 0x0E, 0x09, 0x09, 0x0E, 0x08, 0x08],
   [0x00, 0x05, 0x03, 0x01, 0x01, 0x01, 0x01],
   [0x00, 0x06, 0x01, 0x06, 0x08, 0x09, 0x06],
   [0x02, 0x02, 0x07, 0x02, 0x02, 0x02, 0x04],
   [0x00, 0x00, 0x09, 0x09, 0x09, 0x09, 0x06],
   [0x00, 0x00, 0x09, 0x09, 0x09, 0x05, 0x02],
   [0x00, 0x00, 0x11, 0x11, 0x15, 0x15, 0x0A],
   [0x00, 0x00, 0x09, 0x05, 0x02, 0x05, 0x09],
   [0x00, 0x09, 0x09, 0x0E, 0x08, 0x08, 0x06],
   [0x00, 0x00, 0x1F, 0x04, 0x02, 0x01, 0x1F],
   [0x06, 0x01, 0x01, 0x02, 0x01, 0x01, 0x06],
   [0x02, 0x02, 0x02, 0x02, 0x02, 0x02, 0x02],
   [0x03, 0x04, 0x04, 0x02, 0x04, 0x04, 0x03],
   [0x00, 0x00, 0x04, 0x0E, 0x04, 0x00, 0x00]]

/-- The glyph of a character, by the low byte of its code; the question mark where the
table has none. -/
def glyph (c : Char) : List UInt8 :=
  let code := c.toNat % 256
  if code < first ∨ first + glyphCount ≤ code then font5x7.getD (0x3F - first) []
  else font5x7.getD (code - first) []

private theorem font5x7_length : font5x7.length = glyphCount := by decide

/-- Every glyph has seven rows. -/
theorem glyph_length (c : Char) : (glyph c).length = glyphH := by
  have htable : ∀ g ∈ font5x7, g.length = glyphH := by decide
  have hget : ∀ i, i < glyphCount → (font5x7.getD i []).length = glyphH := by
    intro i hi
    rw [List.getD_eq_getElem _ _ (font5x7_length ▸ hi)]
    exact htable _ (List.getElem_mem _)
  unfold glyph
  dsimp only
  split
  · exact hget _ (by decide)
  next h =>
    refine hget _ ?_
    simp only [first, glyphCount] at h ⊢
    omega

end LionOS.Gfx
