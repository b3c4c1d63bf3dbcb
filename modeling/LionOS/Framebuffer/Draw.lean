import LionOS.Framebuffer.Descriptor
import LionOS.Lib.CLoop

/-!
# The C drawing layer

The routines of `fb.c` are run for their stores, in order. Coordinates and loop counters
are 32 bits wide and wrap; addresses are the sums the source forms in 64 bits, kept
unreduced, so that a bound below `2^64` says that they do not wrap.
-/

namespace LionOS.Framebuffer

open Lib

/-- A byte store: the address and the byte. -/
abbrev Store := Nat × UInt8

/-- The mapped framebuffer, as every routine gets it. -/
structure Target where
  base : Nat
  width : Nat
  height : Nat
  pitch : Nat
  bpp : Nat

/-- The arguments the callers pass for a descriptor. -/
def FramebufferInfo.target (fb : FramebufferInfo) : Target where
  base := fb.address.toNat
  width := fb.width.toNat
  height := fb.height.toNat
  pitch := fb.pitch.toNat
  bpp := fb.bpp.toNat

namespace Target

variable (t : Target)

/-- Whole bytes of a pixel. -/
def bppBytes : Nat := t.bpp / 8

/-- The pixel formats the routines draw in. -/
def drawable : Bool := t.bppBytes == 1 || t.bppBytes == 3 || t.bppBytes == 4

/-- Draw one pixel; the caller has checked the coordinates. -/
def putPixel (x y rgb : Nat) : List Store :=
  let p := t.base + y * t.pitch + x * t.bppBytes
  if t.bppBytes = 4 then
    [(p, UInt8.ofNat (rgb &&& 0xff)), (p + 1, UInt8.ofNat ((rgb >>> 8) &&& 0xff)),
      (p + 2, UInt8.ofNat ((rgb >>> 16) &&& 0xff)), (p + 3, 0xff)]
  else if t.bppBytes = 3 then
    [(p, UInt8.ofNat (rgb &&& 0xff)), (p + 1, UInt8.ofNat ((rgb >>> 8) &&& 0xff)),
      (p + 2, UInt8.ofNat ((rgb >>> 16) &&& 0xff))]
  else [(p, UInt8.ofNat (rgb &&& 0xff))]

/-- Fill the rectangle `[x, x + rw) × [y, y + rh)`, clipped. -/
def lionFbFillRect (x y rw rh rgb : Nat) (fuel : Nat) : Option (List Store) :=
  if !t.drawable then some []
  else
    cFor (fun cy => decide (cy < rh))
      (fun cy =>
        let yy := (y + cy) % 2 ^ 32
        if t.height ≤ yy then some .leave
        else
          (cFor (fun cx => decide (cx < rw))
            (fun cx =>
              let xx := (x + cx) % 2 ^ 32
              if t.width ≤ xx then some .leave else some (.emit (t.putPixel xx yy rgb)))
            fuel 0).map .emit)
      fuel 0

/-- Clear the whole framebuffer. -/
def lionFbClear (rgb : Nat) (fuel : Nat) : Option (List Store) :=
  t.lionFbFillRect 0 0 t.width t.height rgb fuel

/-- The loop of `lion_fb_hline` once the ends are in order. -/
def hlineLoop (y x0 x1 rgb : Nat) (fuel : Nat) : Option (List Store) :=
  cFor (fun x => decide (x ≤ x1))
    (fun x => if t.width ≤ x then some .leave else some (.emit (t.putPixel x y rgb)))
    fuel x0

/-- Draw a horizontal line from `x0` to `x1`, both included, clipped. -/
def lionFbHline (y x0 x1 rgb : Nat) (fuel : Nat) : Option (List Store) :=
  if !t.drawable then some []
  else if t.height ≤ y then some []
  else if x1 < x0 then t.hlineLoop y x1 x0 rgb fuel
  else t.hlineLoop y x0 x1 rgb fuel

/-- Draw a single pixel, clipped. -/
def lionFbPixel (x y rgb : Nat) : List Store :=
  if !t.drawable then []
  else if t.width ≤ x ∨ t.height ≤ y then []
  else t.putPixel x y rgb

end Target

variable {fb : FramebufferInfo}

theorem Target.bppBytes_of_drawable {t : Target} (h : t.drawable = true) :
    t.bppBytes = 1 ∨ t.bppBytes = 3 ∨ t.bppBytes = 4 := by
  simpa [drawable, or_assoc] using h

/-- A pixel is drawn in the whole bytes it has. -/
theorem Target.mem_putPixel {t : Target} (hdraw : t.drawable = true) {x y rgb : Nat} {s : Store}
    (hs : s ∈ t.putPixel x y rgb) :
    t.base + y * t.pitch + x * t.bppBytes ≤ s.1 ∧
      s.1 < t.base + y * t.pitch + x * t.bppBytes + t.bppBytes := by
  have hpos := bppBytes_of_drawable hdraw
  unfold putPixel at hs
  dsimp only at hs
  split at hs
  next h4 =>
    simp only [List.mem_cons, List.not_mem_nil, or_false] at hs
    rcases hs with rfl | rfl | rfl | rfl <;> dsimp only <;> omega
  split at hs
  next h3 =>
    simp only [List.mem_cons, List.not_mem_nil, or_false] at hs
    rcases hs with rfl | rfl | rfl <;> dsimp only <;> omega
  · obtain rfl := List.mem_singleton.mp hs
    dsimp only
    omega

theorem Target.lionFbPixel_of_drawn {t : Target} (hdraw : t.drawable = true) {x y : Nat}
    (hx : x < t.width) (hy : y < t.height) (rgb : Nat) :
    t.lionFbPixel x y rgb = t.putPixel x y rgb := by
  have hin : ¬ (t.width ≤ x ∨ t.height ≤ y) := by omega
  rw [lionFbPixel, hdraw, if_neg hin]
  rfl

/-- Only a pixel of the picture is drawn, in a format that the routines draw in. -/
theorem Target.mem_lionFbPixel {t : Target} {x y rgb : Nat} {s : Store}
    (hs : s ∈ t.lionFbPixel x y rgb) :
    t.drawable = true ∧ x < t.width ∧ y < t.height ∧ s ∈ t.putPixel x y rgb := by
  rw [lionFbPixel] at hs
  split at hs
  · cases hs
  next hdraw =>
  split at hs
  · cases hs
  next hin =>
  rw [not_or, Nat.not_le, Nat.not_le] at hin
  exact ⟨by simpa using hdraw, hin.1, hin.2, hs⟩

/-- The address of a store is one of the framebuffer's. -/
def FramebufferInfo.Holds (fb : FramebufferInfo) (s : Store) : Prop :=
  fb.address.toNat ≤ s.1 ∧ s.1 < fb.address.toNat + fb.size

/-- The bytes of a pixel of the framebuffer lie in it: a whole number of bytes is at most
the number the validator counts. -/
theorem holds_putPixel (hfb : fb.Valid) (hdraw : fb.target.drawable = true) {x y : Nat}
    (hx : x < fb.width.toNat) (hy : y < fb.height.toNat) (rgb : Nat) :
    ∀ s ∈ fb.target.putPixel x y rgb, fb.Holds s := by
  have hbytes : fb.target.bppBytes ≤ (fb.bpp.toNat + 7) / 8 := by
    change fb.bpp.toNat / 8 ≤ _
    omega
  have hrow : x * fb.target.bppBytes + fb.target.bppBytes ≤ fb.pitch.toNat :=
    calc
      x * fb.target.bppBytes + fb.target.bppBytes = (x + 1) * fb.target.bppBytes :=
        (Nat.succ_mul _ _).symm
      _ ≤ fb.width.toNat * ((fb.bpp.toNat + 7) / 8) := Nat.mul_le_mul hx hbytes
      _ ≤ fb.pitch.toNat := hfb.row_le
  have hplane : y * fb.pitch.toNat + fb.pitch.toNat ≤ fb.size := by
    rw [← Nat.succ_mul, FramebufferInfo.size, Nat.mul_comm]
    exact Nat.mul_le_mul_left _ hy
  intro s hs
  have hrange : fb.address.toNat + y * fb.pitch.toNat + x * fb.target.bppBytes ≤ s.1 ∧
      s.1 < fb.address.toNat + y * fb.pitch.toNat + x * fb.target.bppBytes +
        fb.target.bppBytes := Target.mem_putPixel hdraw hs
  exact ⟨by omega, by omega⟩

theorem lionFbFillRect_isSome (x y : Nat) {rw rh fuel : Nat} (hrw : rw < 2 ^ 32)
    (hrh : rh < 2 ^ 32) (rgb : Nat) (hfuel : 2 ^ 32 ≤ fuel) (t : Target) :
    (t.lionFbFillRect x y rw rh rgb fuel).isSome := by
  rw [Target.lionFbFillRect]
  split
  · rfl
  -- Both counters stop at the size of the rectangle, if the clipping does not stop them.
  refine cFor_isSome (Nat.zero_le _) hrh (fun cy _ => ?_) (.inl (by simp)) (by omega)
  dsimp only
  split
  · rfl
  · rw [Option.isSome_map]
    refine cFor_isSome (Nat.zero_le _) hrw (fun cx _ => ?_) (.inl (by simp)) (by omega)
    split <;> rfl

theorem hlineLoop_isSome (t : Target) (ht : t.width < 2 ^ 32) (y x0 x1 rgb : Nat)
    (hx0 : x0 < 2 ^ 32) {fuel : Nat} (hfuel : 2 ^ 32 ≤ fuel) :
    (t.hlineLoop y x0 x1 rgb fuel).isSome := by
  -- The counter may never pass `x1`, but it meets the right edge.
  refine cFor_isSome (Nat.le_max_left x0 t.width) (by omega) (fun x _ => ?_) ?_ (by omega)
  · split <;> rfl
  · right
    rw [if_pos (Nat.le_max_right x0 t.width)]

theorem holds_lionFbFillRect (hfb : fb.Valid) {x y rw rh rgb fuel : Nat} {out : List Store}
    (h : fb.target.lionFbFillRect x y rw rh rgb fuel = some out) : ∀ s ∈ out, fb.Holds s := by
  intro s hs
  rw [Target.lionFbFillRect] at h
  split at h
  · obtain rfl := Option.some.inj h
    cases hs
  next hdraw =>
  obtain ⟨cy, row, hrow, hs⟩ := mem_cFor h hs
  dsimp only at hrow
  split at hrow
  · cases hrow
  next hy =>
  obtain ⟨row', hrow', heq⟩ := Option.map_eq_some_iff.mp hrow
  cases heq
  obtain ⟨cx, cell, hcell, hs⟩ := mem_cFor hrow' hs
  split at hcell
  · cases hcell
  next hx =>
  cases hcell
  exact holds_putPixel hfb (by simpa using hdraw) (Nat.lt_of_not_le hx) (Nat.lt_of_not_le hy)
    rgb s hs

theorem holds_hlineLoop (hfb : fb.Valid) (hdraw : fb.target.drawable = true)
    {y x0 x1 rgb fuel : Nat} (hy : y < fb.height.toNat) {out : List Store}
    (h : fb.target.hlineLoop y x0 x1 rgb fuel = some out) : ∀ s ∈ out, fb.Holds s := by
  intro s hs
  obtain ⟨x, cell, hcell, hs⟩ := mem_cFor h hs
  split at hcell
  · cases hcell
  next hx =>
  cases hcell
  exact holds_putPixel hfb hdraw (Nat.lt_of_not_le hx) hy rgb s hs

/-- A call of a routine with its arguments. -/
inductive DrawCall where
  | clear (rgb : UInt32)
  | fillRect (x y rw rh rgb : UInt32)
  | hline (y x0 x1 rgb : UInt32)
  | pixel (x y rgb : UInt32)
  deriving DecidableEq, Repr

/-- The stores of a call; `none` if its loops need more than `fuel` tests. -/
def DrawCall.stores (t : Target) (fuel : Nat) : DrawCall → Option (List Store)
  | .clear rgb => t.lionFbClear rgb.toNat fuel
  | .fillRect x y rw rh rgb =>
    t.lionFbFillRect x.toNat y.toNat rw.toNat rh.toNat rgb.toNat fuel
  | .hline y x0 x1 rgb => t.lionFbHline y.toNat x0.toNat x1.toNat rgb.toNat fuel
  | .pixel x y rgb => some (t.lionFbPixel x.toNat y.toNat rgb.toNat)

theorem DrawCall.stores_isSome (fb : FramebufferInfo) (call : DrawCall) {fuel : Nat}
    (hfuel : 2 ^ 32 ≤ fuel) : (call.stores fb.target fuel).isSome := by
  cases call with
  | clear rgb =>
    exact lionFbFillRect_isSome 0 0 fb.width.toNat_lt fb.height.toNat_lt rgb.toNat hfuel fb.target
  | fillRect x y rw rh rgb =>
    exact lionFbFillRect_isSome x.toNat y.toNat rw.toNat_lt rh.toNat_lt rgb.toNat hfuel fb.target
  | hline y x0 x1 rgb =>
    rw [stores, Target.lionFbHline]
    split
    · rfl
    split
    · rfl
    split
    · exact hlineLoop_isSome _ fb.width.toNat_lt _ _ _ _ x1.toNat_lt hfuel
    · exact hlineLoop_isSome _ fb.width.toNat_lt _ _ _ _ x0.toNat_lt hfuel
  | pixel x y rgb => rfl

theorem DrawCall.holds_stores (hfb : fb.Valid) {call : DrawCall} {fuel : Nat} {out : List Store}
    (h : call.stores fb.target fuel = some out) : ∀ s ∈ out, fb.Holds s := by
  cases call with
  | clear rgb => exact holds_lionFbFillRect hfb h
  | fillRect x y rw rh rgb => exact holds_lionFbFillRect hfb h
  | hline y x0 x1 rgb =>
    rw [stores, Target.lionFbHline] at h
    split at h
    · obtain rfl := Option.some.inj h
      simp
    next hdraw =>
    split at h
    · obtain rfl := Option.some.inj h
      simp
    next hy =>
    have hdraw' : fb.target.drawable = true := by simpa using hdraw
    split at h
    · exact holds_hlineLoop hfb hdraw' (Nat.lt_of_not_le hy) h
    · exact holds_hlineLoop hfb hdraw' (Nat.lt_of_not_le hy) h
  | pixel x y rgb =>
    obtain rfl := Option.some.inj h
    intro s hs
    obtain ⟨hdraw, hx, hy, hs⟩ := Target.mem_lionFbPixel hs
    exact holds_putPixel hfb hdraw hx hy _ s hs

/-- **A validated framebuffer is never overrun by the C layer.** For every accepted
descriptor and every call with any 32-bit arguments: the call ends within `2^32` tests of
each of its loops, and every store it makes lies in the framebuffer, which ends below
`2^64`. -/
theorem stores_in_framebuffer {fb' : FramebufferInfo} (h : fb.validate = .ok fb')
    (call : DrawCall) :
    (∀ fuel, 2 ^ 32 ≤ fuel → (call.stores fb.target fuel).isSome) ∧
      ∀ fuel out, call.stores fb.target fuel = some out → ∀ s ∈ out,
        fb.address.toNat ≤ s.1 ∧ s.1 < fb.address.toNat + fb.pitch.toNat * fb.height.toNat ∧
          fb.address.toNat + fb.pitch.toNat * fb.height.toNat < 2 ^ 64 := by
  have hfb := FramebufferInfo.valid_of_validate h
  refine ⟨fun fuel hfuel => call.stores_isSome fb hfuel, fun fuel out hout s hs => ?_⟩
  obtain ⟨hlo, hhi⟩ := DrawCall.holds_stores hfb hout s hs
  exact ⟨hlo, hhi, hfb.end_lt⟩

/-- A framebuffer of 1024 by 768 pixels. -/
def bootFramebuffer : FramebufferInfo := ⟨0xFD000000, 1024, 768, 32, 4096⟩

/-- A line to the last coordinate there is. -/
theorem stores_in_framebuffer_hline :
    (∀ fuel, 2 ^ 32 ≤ fuel →
      ((DrawCall.hline 5 1000 0xFFFFFFFF 0x112233).stores bootFramebuffer.target fuel).isSome) ∧
      ∀ fuel out,
        (DrawCall.hline 5 1000 0xFFFFFFFF 0x112233).stores bootFramebuffer.target fuel = some out →
        ∀ s ∈ out, 0xFD000000 ≤ s.1 ∧ s.1 < 0xFD000000 + 4096 * 768 ∧
          0xFD000000 + 4096 * 768 < 2 ^ 64 := by
  have hvalid : bootFramebuffer.validate = .ok bootFramebuffer := by decide
  exact stores_in_framebuffer hvalid (.hline 5 1000 0xFFFFFFFF 0x112233)

end LionOS.Framebuffer
