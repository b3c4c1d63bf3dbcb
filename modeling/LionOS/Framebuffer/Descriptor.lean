import Mathlib.Data.Nat.Basic
import Mathlib.Tactic.Ring

/-!
# The framebuffer descriptor

`validate` accepts a linear framebuffer whose rows hold their pixels and whose bytes lie
below the end of the address space.
-/

namespace LionOS.Framebuffer

/-- A linear-framebuffer descriptor. -/
structure FramebufferInfo where
  address : UInt64
  width : UInt32
  height : UInt32
  bpp : UInt8
  pitch : UInt32
  deriving DecidableEq, Repr

/-- Why a descriptor was rejected. -/
inductive FbError where
  | unalignedAddress
  | zeroDimension
  | unsupportedBpp
  | pitchTooSmall
  | sizeOverflow
  deriving DecidableEq, Repr

/-- The depths accepted for a linear framebuffer. -/
def isSupportedBpp (bpp : UInt8) : Bool := [1, 4, 8, 15, 16, 24, 32].contains bpp

namespace FramebufferInfo

/-- The size of the framebuffer in bytes. -/
def size (fb : FramebufferInfo) : Nat := fb.pitch.toNat * fb.height.toNat

/-- Validate a descriptor: the descriptor itself, or the first error. -/
def validate (fb : FramebufferInfo) : Except FbError FramebufferInfo :=
  if fb.address.toNat % 4096 ≠ 0 then .error .unalignedAddress
  else if fb.width = 0 ∨ fb.height = 0 then .error .zeroDimension
  else if !isSupportedBpp fb.bpp then .error .unsupportedBpp
  else
    let bytesPerPixel := (fb.bpp.toNat + 7) / 8
    let minPitch := fb.width.toNat * bytesPerPixel
    if 2 ^ 32 ≤ minPitch then .error .sizeOverflow
    else if fb.pitch.toNat < minPitch then .error .pitchTooSmall
    else if 2 ^ 64 ≤ fb.size then .error .sizeOverflow
    else if 2 ^ 64 ≤ fb.address.toNat + fb.size then .error .sizeOverflow
    else .ok fb

/-- What an accepted descriptor promises. -/
structure Valid (fb : FramebufferInfo) : Prop where
  supported : isSupportedBpp fb.bpp = true
  row_le : fb.width.toNat * ((fb.bpp.toNat + 7) / 8) ≤ fb.pitch.toNat
  end_lt : fb.address.toNat + fb.size < 2 ^ 64

theorem valid_of_validate {fb fb' : FramebufferInfo} (h : fb.validate = .ok fb') : fb.Valid := by
  unfold validate at h
  split at h
  · cases h
  split at h
  · cases h
  split at h
  · cases h
  next hbpp =>
  dsimp only at h
  split at h
  · cases h
  split at h
  · cases h
  next hpitch =>
  split at h
  · cases h
  split at h
  · cases h
  next hend =>
  exact ⟨by simpa using hbpp, by omega, by omega⟩

end FramebufferInfo

end LionOS.Framebuffer
